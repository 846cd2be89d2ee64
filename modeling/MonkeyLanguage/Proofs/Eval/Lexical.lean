import MonkeyLanguage.Proofs.Eval.Chain

/-!
# Scoping is lexical

The scope of a function depends on where its literal stands, not on where the function is called:
outside of it are the scopes of calls of the literals around, innermost first, and the global one.

`Evaluation.Stands` is what holds when evaluation comes to a tree. `Evaluation.Stands.lands` shows
that evaluation of such a tree ends well, by induction on trees and on the depth of calls, and with
it `Evaluation.Moment.stands` that evaluation comes to no other.
-/

namespace MonkeyLanguage

namespace Evaluation

variable {E : Evaluation} {store middle store' : Store} {scope : Scope} {path : List Literal}
  {v : Value}

/-! ### What holds of a tree -/

variable (E) in
/-- Evaluation comes to the tree in good order: its literals stand inside those that the scope
belongs to. -/
structure Stands (kind : Kind) (tree : kind.Tree) (scope : Scope) (store : Store) : Prop where
  moment : E.Moment kind tree scope store
  sound : E.Sound store
  home : ∃ path, E.Chain path scope ∧
    ∀ l : Literal, .capture l.params l.body ∈ Kind.accesses tree → l.Nested E.program path
  inside : scope.frame < store.frames.size

theorem stands_start : E.Stands .block E.program E.globalScope E.start where
  moment := .start
  sound := sound_start
  home := ⟨[], .global, fun _ => .outermost⟩
  inside := sound_start.newer

/-- The body of a function that is called is one level further inside than its literal. -/
theorem Called.stands {f : Closure} {values : List Value} (called : E.Called f values store)
    (sound : E.Sound store) (function : E.AtHome store (.function f))
    (home : ∀ v ∈ values, E.AtHome store v) :
    E.Stands .block f.body (f.entered store) (f.opened values store) := by
  obtain ⟨⟨path, nested, chain⟩, inside⟩ := Value.all_function.1 function
  have opened := sound.opening f f.params home
  have new : store.frames.size < (store.enclose f.scope).2.frames.size := by
    simp
  exact ⟨called.moment, opened.sound,
    ⟨f.literal :: path, .call chain nested called inside, fun _ => .inside nested⟩,
    Nat.lt_of_lt_of_le new opened.grows⟩

variable {depth : Nat}

theorem Stands.part {hole whole : Kind} (frame : Frame hole whole) {tree : hole.Tree}
    (stands : E.Stands whole (frame.fill tree) scope store)
    (passed : Passes (callWithin depth) scope frame.prior store middle)
    (continues : E.Continues store middle) : E.Stands hole tree scope middle := by
  obtain ⟨path, chain, nested⟩ := stands.home
  exact ⟨stands.moment.part frame passed, continues.sound,
    ⟨path, chain, fun l member => nested l (frame.mem_accesses member)⟩,
    Nat.lt_of_lt_of_le stands.inside continues.grows⟩

/-- The part that is evaluated first. -/
theorem Stands.first {hole whole : Kind} (frame : Frame hole whole) {tree : hole.Tree}
    (stands : E.Stands whole (frame.fill tree) scope store) (none : frame.prior = []) :
    E.Stands hole tree scope store :=
  stands.part frame (show Passes (callWithin 0) _ _ _ _ from none ▸ .nil) (.refl stands.sound)

variable (E) in
/-- Whichever of the trees evaluation comes to, one after another, it does in good order. -/
def Lined (depth : Nat) (priors : List Prior) (scope : Scope) (store : Store) : Prop :=
  ∀ before p after middle, priors = before ++ p :: after →
    Passes (callWithin depth) scope before store middle → E.Continues store middle →
    E.Stands p.kind p.tree scope middle

namespace Lined

variable {p q : Prior} {priors : List Prior}

theorem nil : E.Lined depth [] scope store := by
  intro before p after middle split
  simp at split

theorem head (lined : E.Lined depth (p :: priors) scope store) (sound : E.Sound store) :
    E.Stands p.kind p.tree scope store :=
  lined [] p priors store rfl .nil (.refl sound)

theorem tail (lined : E.Lined depth (p :: priors) scope store)
    (step : ∀ {rest : List Prior} {last : Store}, Passes (callWithin depth) scope rest middle last →
      Passes (callWithin depth) scope (p :: rest) store last)
    (continues : E.Continues store middle) : E.Lined depth priors scope middle :=
  fun before q after last split passed further =>
    lined (p :: before) q after last (congrArg _ split) (step passed) (continues.trans further)

theorem left (more : List Prior) (lined : E.Lined depth (priors ++ more) scope store) :
    E.Lined depth priors scope store :=
  fun before q after last split =>
    lined before q (after ++ more) last (by rw [split, List.append_assoc, List.cons_append])

theorem cons (first : E.Stands p.kind p.tree scope store)
    (rest : ∀ before q after middle, priors = before ++ q :: after →
      Passes (callWithin depth) scope (p :: before) store middle → E.Continues store middle →
      E.Stands q.kind q.tree scope middle) : E.Lined depth (p :: priors) scope store := by
  intro before q after middle split passed continues
  obtain ⟨rfl, same⟩ | ⟨before, rfl, later⟩ := List.cons_eq_append_iff.1 split
  · obtain ⟨rfl, -⟩ := List.cons.inj same
    cases passed
    exact first
  · exact rest before q after middle later passed continues

theorem single (first : E.Stands p.kind p.tree scope store) : E.Lined depth [p] scope store :=
  .cons first fun before q after middle split => by simp at split

theorem pair (first : E.Stands p.kind p.tree scope store)
    (second : ∀ middle, Passes (callWithin depth) scope [p] store middle →
      E.Continues store middle → E.Stands q.kind q.tree scope middle) :
    E.Lined depth [p, q] scope store := by
  refine .cons first fun before r after middle split passed continues => ?_
  obtain ⟨rfl, same⟩ | ⟨_, -, none⟩ := List.cons_eq_append_iff.1 split
  · obtain ⟨rfl, -⟩ := List.cons.inj same
    exact second middle passed continues
  · simp at none

end Lined

namespace Stands

theorem elements {es : List Expr} (stands : E.Stands .expr (.array es) scope store) (depth : Nat) :
    E.Lined depth (es.map .expr) scope store := by
  intro before p after middle split passed continues
  obtain ⟨earlier, e, later, rfl, rfl, rfl⟩ := map_eq_append_cons split
  exact stands.part (.element earlier later) passed continues

theorem pairs {table : List (Expr × Expr)} (stands : E.Stands .expr (.hash table) scope store)
    (depth : Nat) : E.Lined depth (Prior.pairs table) scope store := by
  intro before p after middle split passed continues
  obtain ⟨earlier, k, e, later, rfl, ⟨rfl, rfl⟩ | ⟨rfl, rfl⟩⟩ := Prior.pairs_split split
  · exact stands.part (.key earlier e later) passed continues
  · exact stands.part (.value earlier k later) passed continues

theorem operands {op : BinaryOp} {left right : Expr}
    (stands : E.Stands .expr (.binary op left right) scope store) (depth : Nat) :
    E.Lined depth [.expr left, .expr right] scope store :=
  .pair (stands.first (.left op right) rfl) fun _ => stands.part (.right op left)

theorem indexed {left position : Expr}
    (stands : E.Stands .expr (.index left position) scope store) (depth : Nat) :
    E.Lined depth [.expr left, .expr position] scope store :=
  .pair (stands.first (.indexed position) rfl) fun _ => stands.part (.position left)

theorem arguments {callee : Expr} {args : List Expr}
    (stands : E.Stands .expr (.call callee args) scope store) (depth : Nat) :
    E.Lined depth (.expr callee :: args.map .expr) scope store := by
  refine .cons (stands.first (.callee args) rfl) fun before p after middle split passed => ?_
  obtain ⟨earlier, e, later, rfl, rfl, rfl⟩ := map_eq_append_cons split
  exact stands.part (.argument callee earlier later) passed

theorem statements {body : List Stmt} (stands : E.Stands .block body scope store) (depth : Nat) :
    E.Lined depth (body.map .stmt) scope store := by
  intro before p after middle split passed continues
  obtain ⟨earlier, s, later, rfl, rfl, rfl⟩ := map_eq_append_cons split
  exact stands.part (.statement earlier later) passed continues

/-- What a node evaluates before a hole. -/
theorem prior {hole whole : Kind} {frame : Frame hole whole} {tree : hole.Tree}
    (stands : E.Stands whole (frame.fill tree) scope store) (depth : Nat) :
    E.Lined depth frame.prior scope store := by
  cases frame with
  | right op a => exact Lined.left [.expr tree] (stands.operands depth)
  | position a => exact Lined.left [.expr tree] (stands.indexed depth)
  | consequence test no => exact .single (stands.first (.condition tree no) rfl)
  | alternative test yes => exact .single (stands.first (.condition yes (some tree)) rfl)
  | argument f before after =>
    have all := stands.arguments depth
    rw [List.map_append, ← List.cons_append] at all
    exact all.left _
  | element before after =>
    have all := stands.elements depth
    rw [List.map_append] at all
    exact all.left _
  | key before v after =>
    have all := stands.pairs depth
    rw [Prior.pairs_append] at all
    exact all.left _
  | value before k after =>
    have all := stands.pairs depth
    rw [Prior.pairs_append, Prior.pairs, List.append_cons] at all
    exact all.left _
  | statement before after =>
    have all : E.Lined depth ((before ++ tree :: after).map .stmt) scope store :=
      stands.statements depth
    rw [List.map_append] at all
    exact all.left _
  | _ => exact .nil

end Stands

/-! ### Evaluation -/

section

set_option linter.unusedSectionVars false

variable (calls : ∀ f values store, E.Called f values store → E.Sound store →
  E.AtHome store (.function f) → (∀ v ∈ values, E.AtHome store v) →
  E.Lands store E.AtHome (callWithin depth f values))
include calls

-- The induction is on the tree. Of a list of trees only what is still to be evaluated stays lined
-- up, since the trees before it are part of the node as well.
mutual

theorem eval_lands (e : Expr) {store : Store} (stands : E.Stands .expr e scope store) :
    E.Lands store E.AtHome (e.eval (callWithin depth) scope) := by
  obtain ⟨path, chain, nested⟩ := stands.home
  match e with
  | .identifier name => exact lookupName_lands stands.sound chain name
  | .integer _ | .string _ | .boolean _ => exact .pure stands.sound (Value.all_of_closures rfl)
  | .function params body =>
    exact newFunction_lands stands.sound chain stands.inside ⟨params, body⟩
      (nested _ (by simp [Kind.accesses, Expr.accesses]))
  | .array elements =>
    simp only [Expr.eval]
    refine (evalAll_lands elements stands.sound (stands.elements depth)).bind
      fun result middle _ continues home => ?_
    cases result with
    | ok values => exact .pure continues.sound (Value.all_array.2 home)
    | error signal => exact .pure continues.sound home
  | .hash pairs =>
    simp only [Expr.eval]
    exact evalPairs_lands pairs stands.sound (Value.all_of_closures rfl) (stands.pairs depth)
  | .unary op operand =>
    simp only [Expr.eval]
    exact (eval_lands operand (stands.first (.operand op) rfl)).onValue
      fun v _ _ _ continues home => .pure continues.sound (op.apply_all home)
  | .binary op left right =>
    simp only [Expr.eval]
    have lined := stands.operands depth
    refine (eval_lands left (lined.head stands.sound)).onValue
      fun a _ ended value continues home => ?_
    have lined := lined.tail (.expr ended value) continues
    refine (eval_lands right (lined.head continues.sound)).onValue
      fun b _ _ _ continues' home' => ?_
    exact .pure continues'.sound (op.apply_all (home.mono continues'.grows) home')
  | .index left position =>
    simp only [Expr.eval]
    have lined := stands.indexed depth
    refine (eval_lands left (lined.head stands.sound)).onValue
      fun v _ ended value continues home => ?_
    have lined := lined.tail (.expr ended value) continues
    refine (eval_lands position (lined.head continues.sound)).onValue
      fun p _ _ _ continues' home' => ?_
    exact .pure continues'.sound ((home.mono continues'.grows).at home')
  | .conditional condition consequence alternative =>
    simp only [Expr.eval_conditional]
    refine (eval_lands condition (stands.first (.condition consequence alternative) rfl)).onValue
      fun v _ ended value continues _ => ?_
    split
    · rename_i truthy
      have branch := stands.part (.consequence condition alternative)
        (.condition ended value truthy .nil) continues
      exact evalBody_lands consequence branch.sound (Value.all_of_closures rfl)
        (branch.statements depth)
    · rename_i falsy
      refine evalElse_lands alternative continues.sound ?_
      rintro body rfl
      exact stands.part (.alternative condition consequence)
        (.condition ended value (by simpa using falsy) .nil) continues
  | .call callee args =>
    simp only [Expr.eval]
    have lined := stands.arguments depth
    refine (eval_lands callee (lined.head stands.sound)).onValue
      fun function called ended value continues home => ?_
    have lined := lined.tail (.expr ended value) continues
    refine (evalAll_lands args continues.sound lined).bind
      fun result start ended' continues' homes => ?_
    cases result with
    | ok values =>
      refine applyValue_lands continues'.sound homes ?_
      rintro f rfl arity
      refine calls f values start ?_ continues'.sound (home.mono continues'.grows) homes
      exact ⟨callee, args, scope, store, stands.moment, ⟨called, ⟨depth, ended⟩, depth, ended'⟩,
        arity⟩
    | error signal => exact .pure continues'.sound homes

theorem evalAll_lands (es : List Expr) {store : Store} (sound : E.Sound store)
    (lined : E.Lined depth (es.map .expr) scope store) :
    E.Lands store E.AllAtHome (Expr.evalAll (callWithin depth) scope es) := by
  match es with
  | [] => exact .pure sound (by simp [AllAtHome])
  | e :: es =>
    simp only [Expr.evalAll]
    refine (eval_lands e (lined.head sound)).bind fun v middle ended continues home => ?_
    split
    · exact .pure continues.sound home
    · rename_i value
      have lined := lined.tail (.expr ended (by simpa using value)) continues
      refine (evalAll_lands es continues.sound lined).bind
        fun result last _ continues' homes => ?_
      cases result with
      | ok values =>
        exact .pure continues'.sound
          (List.forall_mem_cons.2 ⟨home.mono continues'.grows, homes⟩)
      | error signal => exact .pure continues'.sound homes

theorem evalPairs_lands {entries : List (HashKey × Value)} (pairs : List (Expr × Expr))
    {store : Store} (sound : E.Sound store) (home : E.AtHome store (.hash entries))
    (lined : E.Lined depth (Prior.pairs pairs) scope store) :
    E.Lands store E.AtHome (Expr.evalPairs (callWithin depth) scope entries pairs) := by
  match pairs with
  | [] => exact .pure sound home
  | (k, e) :: pairs =>
    simp only [Expr.evalPairs]
    refine (eval_lands k (lined.head sound)).onValue fun keyValue _ ended value continues _ => ?_
    split
    · exact .pure continues.sound (Value.all_fault _)
    · rename_i key hashable
      have lined := lined.tail (.key ended value hashable) continues
      refine (eval_lands e (lined.head continues.sound)).onValue
        fun v _ ended' value' continues' home' => ?_
      have lined := lined.tail (.expr ended' value') continues'
      have further := continues.trans continues'
      exact evalPairs_lands pairs continues'.sound
        ((home.mono further.grows).hash_set key home') lined

theorem evalStmt_lands (s : Stmt) {store : Store} (stands : E.Stands .stmt s scope store) :
    E.Lands store E.AtHome (s.eval (callWithin depth) scope) := by
  match s with
  | .bind name value =>
    simp only [Stmt.eval]
    exact (eval_lands value (stands.first (.bind name) rfl)).onValue
      fun v _ _ _ continues home => bindName_lands continues.sound scope name home
  | .ret value =>
    simp only [Stmt.eval]
    exact (eval_lands value (stands.first .ret rfl)).onValue
      fun v _ _ _ continues home => .pure continues.sound (Value.all_returning.2 home)
  | .expression value =>
    simp only [Stmt.eval]
    exact eval_lands value (stands.first .expression rfl)
  | .block body =>
    simp only [Stmt.eval]
    exact evalBody_lands body stands.sound (Value.all_of_closures rfl)
      ((stands.first .body rfl).statements depth)

theorem evalBody_lands {last : Value} (body : List Stmt) {store : Store} (sound : E.Sound store)
    (home : E.AtHome store last) (lined : E.Lined depth (body.map .stmt) scope store) :
    E.Lands store E.AtHome (Stmt.evalAll (callWithin depth) scope last body) := by
  match body with
  | [] => exact .pure sound home
  | s :: rest =>
    simp only [Stmt.evalAll]
    refine (evalStmt_lands s (lined.head sound)).onValue fun v _ ended value continues home => ?_
    exact evalBody_lands rest continues.sound home (lined.tail (.stmt ended value) continues)

theorem evalElse_lands (alternative : Option (List Stmt)) {store : Store} (sound : E.Sound store)
    (stands : ∀ body, alternative = some body → E.Stands .block body scope store) :
    E.Lands store E.AtHome (Stmt.evalElse (callWithin depth) scope alternative) := by
  match alternative with
  | none => exact .pure sound (Value.all_of_closures rfl)
  | some body =>
    exact evalBody_lands body sound (Value.all_of_closures rfl)
      ((stands body rfl).statements depth)

end

end

/-- By induction on the depth: the calls in a body are nested less deep. -/
theorem callWithin_lands (depth : Nat) (f : Closure) (values : List Value) (store : Store)
    (called : E.Called f values store) (sound : E.Sound store)
    (function : E.AtHome store (.function f)) (home : ∀ v ∈ values, E.AtHome store v) :
    E.Lands store E.AtHome (callWithin depth f values) := by
  induction depth generalizing f values store with
  | zero => exact fun _ _ ended => nomatch ended
  | succ depth ih =>
    intro v last ended
    obtain ⟨u, inside, rfl⟩ := callWithin_succ_eq_some.1 ended
    have stands := called.stands sound function home
    have opened := (sound.enclose f.scope).trans (sound.opening f f.params home)
    obtain ⟨continues, result⟩ := evalBody_lands ih f.body stands.sound
      (Value.all_of_closures rfl) (stands.statements depth) u last inside
    exact ⟨opened.trans continues, result.arrived⟩

/-- Evaluation of any tree lands. -/
theorem Stands.lands {kind : Kind} {tree : kind.Tree} (stands : E.Stands kind tree scope store) :
    E.Lands store E.AtHome (evalTree (callWithin depth) scope tree) := by
  have calls := callWithin_lands (E := E) depth
  cases kind with
  | expr => exact eval_lands calls tree stands
  | stmt => exact evalStmt_lands calls tree stands
  | block =>
    exact evalBody_lands calls tree stands.sound (Value.all_of_closures rfl)
      (stands.statements depth)

/-- The first tree in a row leaves a store to go on with. -/
theorem Lined.step {p : Prior} {priors : List Prior}
    (lined : E.Lined depth (p :: priors) scope store) (sound : E.Sound store)
    (ended : evalTree (callWithin depth) scope p.tree store = some (v, middle)) :
    E.Continues store middle :=
  ((lined.head sound).lands _ _ ended).1

/-- So do all of them. -/
theorem Lined.continues {priors : List Prior} (lined : E.Lined depth priors scope store)
    (sound : E.Sound store) (passed : Passes (callWithin depth) scope priors store middle) :
    E.Continues store middle := by
  induction passed with
  | nil => exact .refl sound
  | expr ended value _ ih =>
    have first := lined.step sound ended
    exact first.trans (ih (lined.tail (.expr ended value) first) first.sound)
  | key ended value hashable _ ih =>
    have first := lined.step sound ended
    exact first.trans (ih (lined.tail (.key ended value hashable) first) first.sound)
  | condition ended value decided _ ih =>
    have first := lined.step sound ended
    exact first.trans (ih (lined.tail (.condition ended value decided) first) first.sound)
  | stmt ended value _ ih =>
    have first := lined.step sound ended
    exact first.trans (ih (lined.tail (.stmt ended value) first) first.sound)

/-! ### Every moment -/

/-- A call in good order is one of a function at home, with arguments at home. -/
theorem Stands.invokes {callee : Expr} {args : List Expr} {f : Closure} {values : List Value}
    {before start : Store} (stands : E.Stands .expr (.call callee args) scope before)
    (invokes : Invokes callee args scope before f values start) :
    E.Sound start ∧ E.AtHome start (.function f) ∧ ∀ v ∈ values, E.AtHome start v := by
  obtain ⟨⟨called, ⟨depth₁, function⟩, depth₂, arguments⟩, -⟩ := invokes
  -- The callee and the arguments end within different depths, and both within the larger one.
  obtain ⟨depth, le₁, le₂⟩ : ∃ depth, depth₁ ≤ depth ∧ depth₂ ≤ depth :=
    ⟨max depth₁ depth₂, by omega, by omega⟩
  have function := callee.eval_extends (callWithin_extends le₁) scope _ _ function
  have arguments := Expr.evalAll_extends (callWithin_extends le₂) scope args _ _ arguments
  have lined := stands.arguments depth
  obtain ⟨continues, home⟩ := (lined.head stands.sound).lands _ _ function
  have lined := lined.tail (.expr function rfl) continues
  obtain ⟨continues', homes⟩ :=
    evalAll_lands (callWithin_lands depth) args continues.sound lined _ _ arguments
  exact ⟨continues'.sound, home.mono continues'.grows, homes⟩

theorem Moment.stands {kind : Kind} {tree : kind.Tree} (moment : E.Moment kind tree scope store) :
    E.Stands kind tree scope store := by
  induction moment with
  | start => exact stands_start
  | part frame _ passed ih => exact ih.part frame passed ((ih.prior _).continues ih.sound passed)
  | body moment invokes ih =>
    obtain ⟨sound, function, home⟩ := ih.invokes invokes
    exact Called.stands ⟨_, _, _, _, moment, invokes⟩ sound function home

theorem Called.at_home {f : Closure} {values : List Value} (called : E.Called f values store) :
    E.Sound store ∧ E.AtHome store (.function f) ∧ ∀ v ∈ values, E.AtHome store v := by
  obtain ⟨_, _, _, _, moment, invokes⟩ := called
  exact moment.stands.invokes invokes

theorem Visits.sound (visits : E.Visits store) : E.Sound store := by
  cases visits with
  | before moment => exact moment.stands.sound
  | after moment finishes =>
    obtain ⟨depth, ended⟩ := finishes
    exact (moment.stands.lands _ _ ended).1.sound
  | opening bound called =>
    obtain ⟨sound, -, home⟩ := called.at_home
    exact (sound.opening _ _ home).sound

/-! ### What can be reached -/

variable (E) in
/-- A place from which all functions and scopes that can be come to are lexical. -/
def Proper : Place → Prop
  | .scope scope => ∃ path, E.Chain path scope
  | .value v => v.All E.Lexical

theorem AtHome.proper (home : E.AtHome store v) : E.Proper (.value v) :=
  Value.All.mono (fun _ => And.left) home

theorem Holds.proper {place : Place} (holds : E.Holds place) : E.Proper place := by
  cases holds with
  | scope moment =>
    obtain ⟨path, chain, -⟩ := moment.stands.home
    exact ⟨path, chain⟩
  | value moment finishes =>
    obtain ⟨depth, ended⟩ := finishes
    exact (moment.stands.lands _ _ ended).2.proper

theorem Sound.step (sound : E.Sound store) {p q : Place} (proper : E.Proper p)
    (leads : store.Leads p q) : E.Proper q := by
  cases leads with
  | binding found =>
    obtain ⟨path, chain⟩ := proper
    exact (sound.bindings _ _ _ chain.origin_le found).proper
  | outer found =>
    obtain ⟨path, chain⟩ := proper
    exact chain.outer found
  | element member => exact Value.all_array.1 proper _ member
  | key _ => exact Value.all_key _
  | entry member => exact Value.all_hash.1 proper _ member
  | captured =>
    obtain ⟨path, -, chain⟩ := Value.all_function.1 proper
    exact ⟨path, chain⟩
  | payload => exact Value.all_returning.1 proper

theorem Sound.proper_of_reaches (sound : E.Sound store) {p q : Place} (proper : E.Proper p)
    (reached : store.Reaches p q) : E.Proper q := by
  induction reached with
  | refl => exact proper
  | tail _ leads ih => exact sound.step ih leads

end Evaluation

/-- Scoping is lexical. Every function that can be reached comes from a literal of the program, and
outside of it are scopes of calls of the literals around, as many as there are, and the global one.
A body runs one level further inside than its function was made, wherever the call is. So chains of
scopes are no longer than literals are nested, and no frame comes twice. -/
theorem scoping_is_lexical (E : Evaluation) :
    (∀ store place f, E.Visits store → E.Holds place →
      store.Reaches place (.value (.function f)) →
        ∃ path, f.literal.Nested E.program path ∧ E.Chain path f.scope ∧
          f.scope.chain.length = path.length + 1) ∧
    (∀ (kind : Kind) (tree : kind.Tree) (scope : Scope) (store : Store),
      E.Moment kind tree scope store → ∃ context : Context kind .block,
        context.fill tree = E.program ∧ scope = E.globalScope ∨
        ∃ f values start, E.Called f values start ∧ E.Lexical f ∧ context.fill tree = f.body ∧
          scope = f.entered start ∧ scope.chain.length = f.scope.chain.length + 1) ∧
    ∀ store place scope, E.Visits store → E.Holds place → store.Reaches place (.scope scope) →
      scope.chain.length ≤ 1 + Stmt.nestingIn E.program ∧ scope.chain.Nodup := by
  refine ⟨fun store place f visits holds reached => ?_, fun kind tree scope store moment => ?_,
    fun store place scope visits holds reached => ?_⟩
  · have proper := visits.sound.proper_of_reaches holds.proper reached
    obtain ⟨path, nested, chain⟩ := Value.all_function.1 proper
    exact ⟨path, nested, chain, chain.length_chain⟩
  · obtain ⟨context, runs⟩ := moment.runs
    generalize same : context.fill tree = block at runs
    cases runs with
    | program => exact ⟨context, .inl ⟨same, rfl⟩⟩
    | @body f values start called =>
      obtain ⟨-, function, -⟩ := called.at_home
      obtain ⟨lexical, -⟩ := Value.all_function.1 function
      exact ⟨context, .inr ⟨f, values, start, called, lexical, same, rfl, rfl⟩⟩
  · obtain ⟨path, chain⟩ := visits.sound.proper_of_reaches holds.proper reached
    have bound := chain.length_le
    exact ⟨by rw [chain.length_chain]; omega, chain.nodup⟩

/-- `fn(y) { x + y }` -/
def adding : Literal :=
  ⟨["y"], [.expression (.binary .plus (.identifier "x") (.identifier "y"))]⟩

/-- `fn(x) { fn(y) { x + y } }` -/
def makingAdder : Literal := ⟨["x"], [.expression (.function adding.params adding.body)]⟩

/-- `let newAdder = fn(x) { fn(y) { x + y } }; let addTwo = newAdder(2); addTwo(3);` -/
def adders : Evaluation where
  program := [
    .bind "newAdder" (.function makingAdder.params makingAdder.body),
    .bind "addTwo" (.call (.identifier "newAdder") [.integer 2]),
    .expression (.call (.identifier "addTwo") [.integer 3])]
  origin := .empty

/-- The function `addTwo`, made in the scope of the call of `newAdder`. -/
def addTwo : Closure := ⟨1, adding.params, adding.body, .enclosed 1 (.root 0)⟩

def addersStore : Store where
  frames := #[
    [("newAdder", .function ⟨0, makingAdder.params, makingAdder.body, .root 0⟩),
      ("addTwo", .function addTwo)],
    [("x", .integer 2)], [("y", .integer 3)]]
  nextIdentity := 2

theorem scoping_is_lexical_adders :
    Finishes (Stmt.evalAll · adders.globalScope .null adders.program) adders.start (.integer 5)
        addersStore ∧
      addersStore.Reaches (.scope adders.globalScope) (.value (.function addTwo)) ∧
      (∃ path, adding.Nested adders.program path ∧ adders.Chain path addTwo.scope ∧
        path.length = 1) ∧
      addTwo.scope.chain.length ≤ 1 + Stmt.nestingIn adders.program ∧ addTwo.scope.chain.Nodup := by
  have ended : Finishes (Stmt.evalAll · adders.globalScope .null adders.program) adders.start
      (.integer 5) addersStore := ⟨1, rfl⟩
  have visits : adders.Visits addersStore := .after .start ended
  have holds : adders.Holds (.scope adders.globalScope) := .scope .start
  have reached : addersStore.Reaches (.scope adders.globalScope) (.value (.function addTwo)) :=
    .single (.binding (show Table.get? "addTwo" _ = _ from rfl))
  obtain ⟨functions, -, scopes⟩ := scoping_is_lexical adders
  obtain ⟨path, nested, chain, length⟩ := functions _ _ _ visits holds reached
  exact ⟨ended, reached, ⟨path, nested, chain, (Nat.succ.inj length).symm⟩,
    scopes _ _ _ visits holds (reached.tail .captured)⟩

end MonkeyLanguage
