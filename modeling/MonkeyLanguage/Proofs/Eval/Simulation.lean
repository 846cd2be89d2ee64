import MonkeyLanguage.Proofs.Eval.Signal
import MonkeyLanguage.Proofs.Eval.Operators

/-!
# Simulations

Two evaluations of one tree, in two stores, go side by side when they start from corresponding
scopes: whatever the stores have to do with each other, evaluation only looks names up, binds them
and makes functions, and opens scopes for calls. A `Simulation` says what corresponds and shows it
for these four. Then both evaluations come to corresponding ends, or to none.

An invariant of one evaluation is the case of a store that corresponds to itself.
-/

namespace MonkeyLanguage

/-! ### What a tree does in its scope -/

inductive Access where
  | lookup (name : String)
  | bind (name : String)
  /-- A function literal takes the scope along. -/
  | capture (params : List String) (body : Block)

mutual

/-- What the tree does in its own scope, the bodies of its functions left out. -/
def Expr.accesses : Expr → List Access
  | .identifier name => [.lookup name]
  | .integer _ | .string _ | .boolean _ => []
  | .function params body => [.capture params body]
  | .array elements => Expr.accessesIn elements
  | .hash pairs => Expr.accessesPairs pairs
  | .unary _ operand => operand.accesses
  | .binary _ left right => left.accesses ++ right.accesses
  | .index left position => left.accesses ++ position.accesses
  | .conditional condition consequence alternative =>
    condition.accesses ++ Stmt.accessesIn consequence ++ Stmt.accessesElse alternative
  | .call callee args => callee.accesses ++ Expr.accessesIn args

def Expr.accessesIn : List Expr → List Access
  | [] => []
  | e :: es => e.accesses ++ Expr.accessesIn es

def Expr.accessesPairs : List (Expr × Expr) → List Access
  | [] => []
  | (key, value) :: pairs => key.accesses ++ value.accesses ++ Expr.accessesPairs pairs

def Stmt.accesses : Stmt → List Access
  | .bind name value => .bind name :: value.accesses
  | .ret value | .expression value => value.accesses
  | .block body => Stmt.accessesIn body

def Stmt.accessesIn : List Stmt → List Access
  | [] => []
  | s :: rest => s.accesses ++ Stmt.accessesIn rest

def Stmt.accessesElse : Option (List Stmt) → List Access
  | none => []
  | some body => Stmt.accessesIn body

end

/-! ### Simulations -/

/-- What corresponds in two evaluations, and why the steps of both keep it. It may depend on how far
they have come, which a world records: what corresponds in one world does so in every later one. -/
structure Simulation (World : Type) where
  Grows : World → World → Prop
  Functions : World → Closure → Closure → Prop
  Scopes : World → Scope → Scope → Prop
  Stores : World → Store → Store → Prop
  /-- What may be done in a scope for the stores to correspond afterwards. -/
  Permits : Scope → Access → Prop
  refl : ∀ w, Grows w w
  trans : ∀ {w₁ w₂ w₃}, Grows w₁ w₂ → Grows w₂ w₃ → Grows w₁ w₃
  functions_mono : ∀ {w w' f g}, Grows w w' → Functions w f g → Functions w' f g
  scopes_mono : ∀ {w w' c d}, Grows w w' → Scopes w c d → Scopes w' c d
  separates : ∀ w, Closure.Separates (Functions w)
  params : ∀ {w f g}, Functions w f g → g.params = f.params
  body : ∀ {w f g}, Functions w f g → g.body = f.body
  lookup : ∀ {w store image c d name}, Stores w store image → Scopes w c d →
    Permits c (.lookup name) →
    Option.Rel (Value.Related (Functions w)) (store.lookup name c) (image.lookup name d)
  bind : ∀ {w store image c d name v v'}, Stores w store image → Scopes w c d →
    Permits c (.bind name) → v.Related (Functions w) v' →
    Stores w (store.bind c name v) (image.bind d name v')
  capture : ∀ {w store image c d params body}, Stores w store image → Scopes w c d →
    Permits c (.capture params body) →
    ∃ w', Grows w w' ∧
      Functions w' (store.newClosure params body c).1 (image.newClosure params body d).1 ∧
      Stores w' (store.newClosure params body c).2 (image.newClosure params body d).2
  /-- Of a call only the empty frame is shown, since parameters are bound like any other name. -/
  enter : ∀ {w store image f g}, Stores w store image → Functions w f g →
    (∃ w', Grows w w' ∧ Scopes w' (f.entered store) (g.entered image) ∧
      Stores w' (store.enclose f.scope).2 (image.enclose g.scope).2) ∧
    (∀ name ∈ f.params, Permits (f.entered store) (.bind name)) ∧
    ∀ access ∈ Stmt.accessesIn f.body, Permits (f.entered store) access

namespace Simulation

variable {World : Type} (S : Simulation World) {α β γ δ : Type} {w w' : World}

/-- Corresponding values. -/
def Values (w : World) : Value → Value → Prop := Value.Related (S.Functions w)

/-- Corresponding values of a list of expressions, or the signals that stopped them. -/
inductive Results (w : World) : Except Value (List Value) → Except Value (List Value) → Prop where
  | ok {vs ws : List Value} : List.Forall₂ (S.Values w) vs ws → Results w (.ok vs) (.ok ws)
  | error {v v' : Value} : S.Values w v v' → Results w (.error v) (.error v')

/-- Ends in corresponding stores, in a later world where `post` is true of what was computed. -/
def Ends (w : World) (post : World → α → β → Prop) (r : α × Store) (r' : β × Store) : Prop :=
  ∃ w', S.Grows w w' ∧ S.Stores w' r.2 r'.2 ∧ post w' r.1 r'.1

/-- From corresponding stores the computations come to corresponding ends, or to none. -/
def Holds (w : World) (post : World → α → β → Prop) (m : Eval α) (m' : Eval β) : Prop :=
  ∀ store image, S.Stores w store image → Option.Rel (S.Ends w post) (m store) (m' image)

variable {S}

theorem Values.mono (grows : S.Grows w w') {v v' : Value} (h : S.Values w v v') :
    S.Values w' v v' :=
  Value.Related.mono (fun _ _ => S.functions_mono grows) h

theorem values_mono (grows : S.Grows w w') {vs ws : List Value}
    (h : List.Forall₂ (S.Values w) vs ws) : List.Forall₂ (S.Values w') vs ws :=
  h.imp fun _ _ => Values.mono grows

theorem Ends.of_grows (grows : S.Grows w w') {post : World → α → β → Prop}
    {r : Option (α × Store)} {r' : Option (β × Store)} (ends : Option.Rel (S.Ends w' post) r r') :
    Option.Rel (S.Ends w post) r r' := by
  cases ends with
  | none => exact .none
  | some h =>
    obtain ⟨later, grows', h⟩ := h
    exact .some ⟨later, S.trans grows grows', h⟩

namespace Holds

theorem pure {post : World → α → β → Prop} {a : α} {b : β} (h : post w a b) :
    S.Holds w post (Pure.pure a) (Pure.pure b) :=
  fun _ _ stores => .some ⟨w, S.refl w, stores, h⟩

theorem bind {post : World → α → β → Prop} {post' : World → γ → δ → Prop} {m : Eval α}
    {m' : Eval β} {f : α → Eval γ} {f' : β → Eval δ} (first : S.Holds w post m m')
    (next : ∀ w' a b, S.Grows w w' → post w' a b → S.Holds w' post' (f a) (f' b)) :
    S.Holds w post' (m >>= f) (m' >>= f') := by
  intro store image stores
  have ends := first store image stores
  change Option.Rel _ ((m store).bind fun p => f p.1 p.2) ((m' image).bind fun p => f' p.1 p.2)
  generalize m store = r, m' image = r' at ends
  cases ends with
  | none => exact .none
  | @some p p' h =>
    obtain ⟨later, grows, stores', met⟩ := h
    exact Ends.of_grows grows (next later p.1 p'.1 grows met p.2 p'.2 stores')

theorem onValue {first first' : Eval Value} {next next' : Value → Eval Value}
    (h : S.Holds w S.Values first first')
    (rest : ∀ w' v v', S.Grows w w' → S.Values w' v v' →
      S.Holds w' S.Values (next v) (next' v')) :
    S.Holds w S.Values (onValue first next) (onValue first' next') := by
  refine h.bind fun w' v v' grows values => ?_
  rw [Value.Related.isSignal_eq values]
  split
  · exact .pure values
  · exact rest w' v v' grows values

section

variable {post : World → α → β → Prop} {m : Eval α} {m' : Eval β} {store image : Store}

theorem ended (h : S.Holds w post m m') (stores : S.Stores w store image) {a : α} {store' : Store}
    (ended : m store = some (a, store')) :
    ∃ b image', m' image = some (b, image') ∧ S.Ends w post (a, store') (b, image') := by
  have ends := h store image stores
  rw [ended] at ends
  generalize m' image = r' at ends
  cases ends with
  | some h => exact ⟨_, _, rfl, h⟩

theorem endless (h : S.Holds w post m m') (stores : S.Stores w store image)
    (endless : m store = none) : m' image = none := by
  have ends := h store image stores
  rw [endless] at ends
  generalize m' image = r' at ends
  cases ends with
  | none => rfl

end

end Holds

/-! ### Steps -/

section

variable {c d : Scope}

theorem lookupName_holds (scopes : S.Scopes w c d) {name : String}
    (permitted : S.Permits c (.lookup name)) :
    S.Holds w S.Values (lookupName c name) (lookupName d name) := by
  intro store image stores
  have found := S.lookup stores scopes permitted
  unfold lookupName
  generalize store.lookup name c = r, image.lookup name d = r' at found ⊢
  cases found with
  | some values => exact .some ⟨w, S.refl w, stores, values⟩
  | none =>
    cases Builtin.named? name with
    | some b => exact .some ⟨w, S.refl w, stores, .builtin b⟩
    | none => exact .some ⟨w, S.refl w, stores, .error _⟩

theorem newFunction_holds (scopes : S.Scopes w c d) {params : List String} {body : Block}
    (permitted : S.Permits c (.capture params body)) :
    S.Holds w S.Values (newFunction c params body) (newFunction d params body) := by
  intro store image stores
  obtain ⟨w', grows, functions, stores'⟩ := S.capture stores scopes permitted
  exact .some ⟨w', grows, stores', .function functions⟩

theorem bindName_holds (scopes : S.Scopes w c d) {name : String}
    (permitted : S.Permits c (.bind name)) {v v' : Value} (values : S.Values w v v') :
    S.Holds w S.Values (bindName c name v) (bindName d name v') :=
  fun _ _ stores => .some ⟨w, S.refl w, S.bind stores scopes permitted values, values⟩

theorem bindAll_stores {store image : Store} (stores : S.Stores w store image)
    (scopes : S.Scopes w c d) {params : List String}
    (permitted : ∀ name ∈ params, S.Permits c (.bind name)) {args args' : List Value}
    (values : List.Forall₂ (S.Values w) args args') :
    S.Stores w (store.bindAll c params args) (image.bindAll d params args') := by
  induction params generalizing store image args args' with
  | nil => exact stores
  | cons name params ih =>
    cases values with
    | nil => exact stores
    | cons first rest =>
      have bound := S.bind stores scopes (permitted name (by simp)) first
      exact ih bound (fun other member => permitted other (by simp [member])) rest

/-- Calls of corresponding functions come to corresponding ends. -/
def Calls (S : Simulation World) (call : Call) : Prop :=
  ∀ w f g args args', S.Functions w f g → List.Forall₂ (S.Values w) args args' →
    S.Holds w S.Values (call f args) (call g args')

theorem applyValue_holds {call : Call} (h : S.Calls call) {callee callee' : Value}
    {args args' : List Value} (callees : S.Values w callee callee')
    (values : List.Forall₂ (S.Values w) args args') :
    S.Holds w S.Values (applyValue call callee args) (applyValue call callee' args') := by
  cases callees with
  | function functions =>
    simp only [applyValue, S.params functions, values.length_eq]
    split
    · exact h _ _ _ _ _ functions values
    · exact .pure (.error _)
  | builtin b => exact .pure (b.apply_related values)
  | _ => exact .pure (.error _)

end

/-! ### Evaluation -/

section

set_option linter.unusedSectionVars false

variable {call : Call} (h : S.Calls call) {c d : Scope}
include h

-- The induction is on the tree. Each part is evaluated in a later world than the one before it, so
-- the scopes and the values at hand are taken along by `scopes_mono` and `Values.mono`.
mutual

theorem eval_holds (e : Expr) {w : World} (scopes : S.Scopes w c d)
    (permitted : ∀ access ∈ e.accesses, S.Permits c access) :
    S.Holds w S.Values (e.eval call c) (e.eval call d) := by
  match e with
  | .identifier name => exact lookupName_holds scopes (permitted _ (by simp [Expr.accesses]))
  | .integer n => exact .pure (.integer n)
  | .string s => exact .pure (.string s)
  | .boolean b => exact .pure (.boolean b)
  | .function params body => exact newFunction_holds scopes (permitted _ (by simp [Expr.accesses]))
  | .array elements =>
    simp only [Expr.eval]
    refine (evalAll_holds elements scopes permitted).bind fun _ _ _ _ results => ?_
    cases results with
    | ok values => exact .pure (.array values)
    | error signal => exact .pure signal
  | .hash pairs =>
    simp only [Expr.eval]
    exact evalPairs_holds pairs scopes permitted .nil
  | .unary op operand =>
    simp only [Expr.eval]
    exact (eval_holds operand scopes permitted).onValue fun _ _ _ _ values =>
      .pure (op.apply_related values)
  | .binary op left right =>
    simp only [Expr.accesses, List.forall_mem_append] at permitted
    simp only [Expr.eval]
    refine (eval_holds left scopes permitted.1).onValue fun _ _ _ grows values => ?_
    refine (eval_holds right (S.scopes_mono grows scopes) permitted.2).onValue
      fun w' _ _ grows' values' => ?_
    exact .pure (op.apply_related (S.separates w') (values.mono grows') values')
  | .index left position =>
    simp only [Expr.accesses, List.forall_mem_append] at permitted
    simp only [Expr.eval]
    refine (eval_holds left scopes permitted.1).onValue fun _ _ _ grows values => ?_
    refine (eval_holds position (S.scopes_mono grows scopes) permitted.2).onValue
      fun _ _ _ grows' values' => ?_
    exact .pure (Value.at_related (values.mono grows') values')
  | .conditional condition consequence alternative =>
    simp only [Expr.accesses, List.forall_mem_append] at permitted
    simp only [Expr.eval_conditional]
    refine (eval_holds condition scopes permitted.1.1).onValue fun _ _ _ grows values => ?_
    have further := S.scopes_mono grows scopes
    rw [Value.Related.isTruthy_eq values]
    split
    · exact evalBody_holds consequence further permitted.1.2 .null
    · exact evalElse_holds alternative further permitted.2
  | .call callee args =>
    simp only [Expr.accesses, List.forall_mem_append] at permitted
    simp only [Expr.eval]
    refine (eval_holds callee scopes permitted.1).onValue fun _ _ _ grows callees => ?_
    refine (evalAll_holds args (S.scopes_mono grows scopes) permitted.2).bind
      fun _ _ _ grows' results => ?_
    cases results with
    | ok values => exact applyValue_holds h (callees.mono grows') values
    | error signal => exact .pure signal

theorem evalAll_holds (es : List Expr) {w : World} (scopes : S.Scopes w c d)
    (permitted : ∀ access ∈ Expr.accessesIn es, S.Permits c access) :
    S.Holds w S.Results (Expr.evalAll call c es) (Expr.evalAll call d es) := by
  match es with
  | [] => exact .pure (.ok .nil)
  | e :: es =>
    simp only [Expr.accessesIn, List.forall_mem_append] at permitted
    simp only [Expr.evalAll]
    refine (eval_holds e scopes permitted.1).bind fun _ _ _ grows values => ?_
    rw [Value.Related.isSignal_eq values]
    split
    · exact .pure (.error values)
    · refine (evalAll_holds es (S.scopes_mono grows scopes) permitted.2).bind
        fun _ _ _ grows' results => ?_
      cases results with
      | ok rest => exact .pure (.ok (.cons (values.mono grows') rest))
      | error signal => exact .pure (.error signal)

theorem evalPairs_holds {entries entries' : List (HashKey × Value)} (pairs : List (Expr × Expr))
    {w : World} (scopes : S.Scopes w c d)
    (permitted : ∀ access ∈ Expr.accessesPairs pairs, S.Permits c access)
    (tables : Table.Related (S.Values w) entries entries') :
    S.Holds w S.Values (Expr.evalPairs call c entries pairs)
      (Expr.evalPairs call d entries' pairs) := by
  match pairs with
  | [] => exact .pure (.hash tables)
  | (k, e) :: pairs =>
    simp only [Expr.accessesPairs, List.forall_mem_append] at permitted
    simp only [Expr.evalPairs]
    refine (eval_holds k scopes permitted.1.1).onValue fun _ _ _ grows keys => ?_
    rw [Value.Related.hashKey?_eq keys, Value.Related.type_eq keys]
    split
    · exact .pure (.error _)
    · refine (eval_holds e (S.scopes_mono grows scopes) permitted.1.2).onValue
        fun _ _ _ grows' values => ?_
      have further := S.trans grows grows'
      exact evalPairs_holds pairs (S.scopes_mono further scopes) permitted.2
        ((tables.mono fun _ _ => Values.mono further).set _ values)

theorem evalStmt_holds (s : Stmt) {w : World} (scopes : S.Scopes w c d)
    (permitted : ∀ access ∈ s.accesses, S.Permits c access) :
    S.Holds w S.Values (s.eval call c) (s.eval call d) := by
  match s with
  | .bind name value =>
    simp only [Stmt.accesses, List.forall_mem_cons] at permitted
    simp only [Stmt.eval]
    exact (eval_holds value scopes permitted.2).onValue fun _ _ _ grows values =>
      bindName_holds (S.scopes_mono grows scopes) permitted.1 values
  | .ret value =>
    simp only [Stmt.eval]
    exact (eval_holds value scopes permitted).onValue fun _ _ _ _ values =>
      .pure (.returning values)
  | .expression value =>
    simp only [Stmt.eval]
    exact eval_holds value scopes permitted
  | .block body =>
    simp only [Stmt.eval]
    exact evalBody_holds body scopes permitted .null

theorem evalBody_holds {last last' : Value} (body : List Stmt) {w : World}
    (scopes : S.Scopes w c d) (permitted : ∀ access ∈ Stmt.accessesIn body, S.Permits c access)
    (values : S.Values w last last') :
    S.Holds w S.Values (Stmt.evalAll call c last body) (Stmt.evalAll call d last' body) := by
  match body with
  | [] => exact .pure values
  | s :: rest =>
    simp only [Stmt.accessesIn, List.forall_mem_append] at permitted
    simp only [Stmt.evalAll]
    exact (evalStmt_holds s scopes permitted.1).onValue fun _ _ _ grows values' =>
      evalBody_holds rest (S.scopes_mono grows scopes) permitted.2 values'

theorem evalElse_holds (alternative : Option (List Stmt)) {w : World} (scopes : S.Scopes w c d)
    (permitted : ∀ access ∈ Stmt.accessesElse alternative, S.Permits c access) :
    S.Holds w S.Values (Stmt.evalElse call c alternative) (Stmt.evalElse call d alternative) := by
  match alternative with
  | none => exact .pure .null
  | some body => exact evalBody_holds body scopes permitted .null

end

end

theorem program_holds_of_calls {depth : Nat} (h : S.Calls (callWithin depth)) {c d : Scope}
    (program : Program) {w : World} (scopes : S.Scopes w c d)
    (permitted : ∀ access ∈ Stmt.accessesIn program, S.Permits c access) :
    S.Holds w S.Values (program.eval depth c) (program.eval depth d) :=
  (evalBody_holds h program scopes permitted .null).bind fun _ _ _ _ values =>
    .pure (Value.Related.arrived values)

/-- By induction on the depth: the calls in a body are nested less deep. -/
theorem callWithin_holds (depth : Nat) : S.Calls (callWithin depth) := by
  induction depth with
  | zero => exact fun _ _ _ _ _ _ _ _ _ _ => .none
  | succ depth ih =>
    intro w f g args args' functions values store image stores
    obtain ⟨⟨w', grows, scopes, enclosed⟩, params, body⟩ := S.enter stores functions
    have opened : S.Stores w' (f.opened args store) (g.opened args' image) := by
      rw [Closure.opened, Closure.opened, S.params functions]
      exact bindAll_stores enclosed scopes params (values_mono grows values)
    rw [callWithin_succ, callWithin_succ, S.body functions]
    exact Ends.of_grows grows (program_holds_of_calls ih f.body scopes body _ _ opened)

theorem program_holds (depth : Nat) {c d : Scope} (program : Program) {w : World}
    (scopes : S.Scopes w c d) (permitted : ∀ access ∈ Stmt.accessesIn program, S.Permits c access) :
    S.Holds w S.Values (program.eval depth c) (program.eval depth d) :=
  program_holds_of_calls (callWithin_holds depth) program scopes permitted

end Simulation

def Kind.accesses : {kind : Kind} → kind.Tree → List Access
  | .expr, e => e.accesses
  | .stmt, s => s.accesses
  | .block, body => Stmt.accessesIn body

theorem Simulation.evalTree_holds {World : Type} {S : Simulation World} (depth : Nat) {c d : Scope}
    {kind : Kind} (tree : kind.Tree) {w : World} (scopes : S.Scopes w c d)
    (permitted : ∀ access ∈ Kind.accesses tree, S.Permits c access) :
    S.Holds w S.Values (evalTree (callWithin depth) c tree)
      (evalTree (callWithin depth) d tree) := by
  have calls := S.callWithin_holds depth
  cases kind with
  | expr => exact eval_holds calls tree scopes permitted
  | stmt => exact evalStmt_holds calls tree scopes permitted
  | block => exact evalBody_holds calls tree scopes permitted .null

end MonkeyLanguage
