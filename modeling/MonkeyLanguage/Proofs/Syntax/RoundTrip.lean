import MonkeyLanguage.Proofs.Syntax.Completeness
import MonkeyLanguage.Proofs.Syntax.Every
import MonkeyLanguage.Proofs.Text.Decimal
import MonkeyLanguage.Proofs.Token.Munch
import MonkeyLanguage.Syntax.Printer

/-!
# Reading what was written

The written form of a tree is read as that tree again, when its names can be read as names, its
numbers as numbers and its strings as strings. Every written expression is a primary one with
suffixes, since only calls are written without parentheses around their parts.
-/

namespace MonkeyLanguage

attribute [simp] Expr.render Stmt.render Expr.renderAll Stmt.renderAll

/-! ### Printable trees -/

def IsName (name : String) : Prop :=
  isWord name.toList = true ∧ name.toList ∉ keywords.map Prod.fst

instance (name : String) : Decidable (IsName name) := inferInstanceAs (Decidable (_ ∧ _))

def Expr.IsPrintable : Expr → Prop
  | .identifier name => IsName name
  | .integer value => 0 ≤ value.toInt
  | .string value => '"' ∉ value.toList
  | .function params _ => ∀ name ∈ params, IsName name
  | _ => True

def Stmt.IsPrintable : Stmt → Prop
  | .bind name _ => IsName name
  | .ret _ | .expression _ => True
  | .block _ => False

/-- No block stands as a statement, names are names, numbers are not negative and no string holds a
quote. -/
def Program.Printable (program : Program) : Prop :=
  Stmt.EveryIn Expr.IsPrintable Stmt.IsPrintable program

/-! ### Suffixes -/

theorem suffixes_append {ts more : List Token} {e e' e'' : Expr}
    (first : Derives ts (.suffixes e e')) (second : Derives more (.suffixes e' e'')) :
    Derives (ts ++ more) (.suffixes e e'') := by
  generalize phrase : Phrase.suffixes e e' = p at first
  induction first generalizing e with
  | noSuffix =>
    cases phrase
    exact second
  | call opened inside shut _ _ ih =>
    cases phrase
    have rest := ih rfl
    simpa using Derives.call opened inside shut rest
  | index opened inside shut _ _ ih =>
    cases phrase
    have rest := ih rfl
    simpa using Derives.index opened inside shut rest
  | _ => cases phrase

/-- A primary expression with suffixes, which may be called as it stands. -/
def Postfix (ts : List Token) (e : Expr) : Prop :=
  ∃ a b first, ts = a ++ b ∧ Derives a (.primary first) ∧ Derives b (.suffixes first e)

namespace Postfix

variable {ts : List Token} {e : Expr}

theorem of_primary (primary : Derives ts (.primary e)) : Postfix ts e :=
  ⟨ts, [], e, by simp, primary, .noSuffix⟩

theorem unary (read : Postfix ts e) : Derives ts (.unary e) := by
  obtain ⟨a, b, first, rfl, primary, suffixes⟩ := read
  exact .suffixed primary suffixes

theorem expression (read : Postfix ts e) : Derives ts (.expression e) := read.unary.alone

theorem suffix {more : List Token} {e' : Expr} (read : Postfix ts e)
    (suffixes : Derives more (.suffixes e e')) : Postfix (ts ++ more) e' := by
  obtain ⟨a, b, first, rfl, primary, before⟩ := read
  exact ⟨a, b ++ more, first, by simp, primary, suffixes_append before suffixes⟩

theorem called {us : List Token} {l r : Token} {args : List Expr} (read : Postfix ts e)
    (opened : l.kind = .leftParen) (inside : Derives us (.items args))
    (shut : r.kind = .rightParen) : Postfix (ts ++ l :: (us ++ [r])) (.call e args) :=
  read.suffix (.call opened inside shut .noSuffix)

theorem indexed {us : List Token} {l r : Token} {position : Expr} (read : Postfix ts e)
    (opened : l.kind = .leftBracket) (inside : Derives us (.expression position))
    (shut : r.kind = .rightBracket) : Postfix (ts ++ l :: (us ++ [r])) (.index e position) :=
  read.suffix (.index opened inside shut .noSuffix)

theorem signed {t : Token} {op : UnaryOp} (operator : t.kind = op.tokenKind)
    (read : Postfix ts e) : Derives (t :: ts) (.expression (.unary op e)) :=
  (Derives.unary operator read.unary).alone

theorem combined {us : List Token} {t : Token} {op : BinaryOp} {right : Expr}
    (read : Postfix ts e) (operator : t.kind = op.tokenKind) (read' : Postfix us right) :
    Derives (ts ++ t :: us) (.expression (.binary op e right)) := by
  have whole := Derives.expression read.unary (.operation operator read'.unary .noOperation)
  rwa [List.append_nil, chain_single] at whole

theorem conditional {us : List Token} {t l r : Token} {consequence : List Stmt}
    (word : t.kind = .ifWord) (opened : l.kind = .leftParen) (read : Postfix ts e)
    (shut : r.kind = .rightParen) (taken : Derives us (.block consequence)) :
    Postfix (t :: (l :: (ts ++ [r]) ++ us)) (.conditional e consequence none) := by
  have primary := Derives.conditional word opened read.expression shut taken
  exact of_primary (by simpa using primary)

theorem alternative {us vs : List Token} {t l r orElse : Token} {consequence other : List Stmt}
    (word : t.kind = .ifWord) (opened : l.kind = .leftParen) (read : Postfix ts e)
    (shut : r.kind = .rightParen) (taken : Derives us (.block consequence))
    (word' : orElse.kind = .elseWord) (otherwise : Derives vs (.block other)) :
    Postfix (t :: (l :: (ts ++ [r]) ++ (us ++ orElse :: vs)))
      (.conditional e consequence (some other)) := by
  have primary := Derives.alternative word opened read.expression shut taken word' otherwise
  exact of_primary (by simpa using primary)

end Postfix

/-! ### Joined parts -/

/-- The text is read as tokens that satisfy `p`. -/
def Writes (text : List Char) (p : List Token → Prop) : Prop := ∃ ts, Scans text ts ∧ p ts

theorem expression_writes {text : List Char} {e : Expr} (read : Writes text (Postfix · e)) :
    Writes text (Derives · (.expression e)) := by
  obtain ⟨ts, scans, read⟩ := read
  exact ⟨ts, scans, read.expression⟩

/-- All but the first of several parts, with a mark and a blank before each. -/
def trailing (c : Char) (parts : List String) : List Char :=
  parts.flatMap fun part => c :: ' ' :: part.toList

theorem toList_intercalate_cons {c : Char} {separator : String}
    (spelled : separator.toList = [c, ' ']) (first : String) (parts : List String) :
    (separator.intercalate (first :: parts)).toList = first.toList ++ trailing c parts := by
  induction parts generalizing first with
  | nil => simp [trailing]
  | cons part parts ih =>
    rw [String.intercalate_cons_cons, String.toList_append, String.toList_append, ih, spelled]
    simp [trailing]

section
variable {c : Char} {kind : TokenKind} {part : String} {parts : List String} {ts us : List Token}

theorem trailing_breaks (mark : Punctuation c kind) : Breaks (trailing c parts) := by
  cases parts with
  | nil => exact breaks_nil
  | cons part parts => exact breaks_cons mark.2.1 mark.2.2

theorem Scans.trailing_cons (mark : Punctuation c kind) (first : Scans part.toList ts)
    (rest : Scans (trailing c parts) us) :
    Scans (trailing c (part :: parts)) (⟨kind, String.ofList [c]⟩ :: (ts ++ us)) := by
  have after := first.append (trailing_breaks mark) rest
  exact after.blank.mark mark

theorem Scans.joined {separator : String} (spelled : separator.toList = [c, ' '])
    (mark : Punctuation c kind) (first : Scans part.toList ts)
    (rest : Scans (trailing c parts) us) :
    Scans (separator.intercalate (part :: parts)).toList (ts ++ us) := by
  rw [toList_intercalate_cons spelled]
  exact first.append (trailing_breaks mark) rest

end

/-! ### Names and parameters -/

theorem IsName.scans {name : String} (named : IsName name) :
    Scans name.toList [⟨.identifier, name⟩] := by
  obtain ⟨word, ordinary⟩ := named
  have scans := Scans.word word
  rwa [wordKind_of_not_keyword ordinary, String.ofList_toList] at scans

theorem moreParams_writes {names : List String} (named : ∀ name ∈ names, IsName name) :
    Writes (trailing ',' names) (Derives · (.moreParams names)) := by
  induction names with
  | nil => exact ⟨[], .nil, .lastParam⟩
  | cons name names ih =>
    obtain ⟨ts, scans, derives⟩ := ih fun other member => named other (by simp [member])
    have first := (named name (by simp)).scans
    exact ⟨_, first.trailing_cons .comma scans, .moreParams rfl rfl derives⟩

theorem params_writes {names : List String} (named : ∀ name ∈ names, IsName name) :
    Writes (", ".intercalate names).toList (Derives · (.params names)) := by
  cases names with
  | nil => exact ⟨[], .nil, .noParam⟩
  | cons name names =>
    have others : ∀ other ∈ names, IsName other := fun other member =>
      named other (by simp [member])
    obtain ⟨ts, scans, derives⟩ := moreParams_writes others
    have first := (named name (by simp)).scans
    exact ⟨_, first.joined rfl .comma scans, .params rfl derives⟩

/-! ### Statements -/

theorem breaks_blank {text : List Char} : Breaks (' ' :: text) :=
  breaks_cons (by decide) (by decide)

section
variable {e : Expr} {name : String} {body : List Stmt}

theorem bind_writes (named : IsName name) (value : Writes e.render.toList (Postfix · e)) :
    Writes (Stmt.bind name e).render.toList (Derives · (.statement (.bind name e))) := by
  obtain ⟨ts, scans, read⟩ := value
  have assigned := scans.spaced ['='] .assign (by decide)
  have bound := (named.scans.append breaks_blank assigned).blank
  have whole := (Scans.keyword ['l', 'e', 't'] .letWord (by decide)).append breaks_blank bound
  exact ⟨_, whole.of_eq (by simp), .bind rfl rfl rfl read.expression⟩

theorem ret_writes (value : Writes e.render.toList (Postfix · e)) :
    Writes (Stmt.ret e).render.toList (Derives · (.statement (.ret e))) := by
  obtain ⟨ts, scans, read⟩ := value
  have whole := (Scans.keyword ['r', 'e', 't', 'u', 'r', 'n'] .returnWord (by decide)).append
    breaks_blank scans.blank
  exact ⟨_, whole.of_eq (by simp), .ret rfl read.expression⟩

theorem bare_writes (value : Writes e.render.toList (Postfix · e)) :
    Writes (Stmt.expression e).render.toList (Derives · (.statement (.expression e))) := by
  obtain ⟨ts, scans, read⟩ := value
  exact ⟨ts, scans.of_eq (by simp), .bare read.expression⟩

theorem block_writes (inside : Writes ("; ".intercalate (Stmt.renderAll body)).toList
    (Derives · (.statements body))) :
    Writes (braced (Stmt.renderAll body)).toList (Derives · (.block body)) := by
  obtain ⟨ts, scans, derives⟩ := inside
  cases body with
  | nil =>
    have whole := Scans.nil.blank.enclosed .leftBrace .rightBrace
    exact ⟨_, whole, .block rfl .noStatement rfl⟩
  | cons s body =>
    have whole := scans.padded.enclosed .leftBrace .rightBrace
    exact ⟨_, whole.of_eq (by simp [braced]), .block rfl derives rfl⟩

end

/-! ### Literals -/

theorem ofInt64_writes {value : Int64} (positive : 0 ≤ value.toInt) :
    Writes (Decimal.ofInt64 value).toList (Postfix · (.integer value)) := by
  obtain ⟨n, same⟩ := Int.eq_ofNat_of_zero_le positive
  have text : (Decimal.ofInt64 value).toList = Nat.toDigits 10 n := by
    rw [Decimal.ofInt64, same]
    exact Nat.toList_repr
  have bound : n ≤ Decimal.int64Max := by
    have below := value.toInt_lt
    rw [Decimal.int64Max]
    omega
  have back : Int64.ofNat n = value := by
    rw [← Int64.ofInt_eq_ofNat, ← same, Int64.ofInt_toInt]
  have digits : ∀ d ∈ Nat.toDigits 10 n, d.isDigit = true := fun _ =>
    Decimal.isDigit_of_mem_toDigits
  have nonempty : Nat.toDigits 10 n ≠ [] := Nat.toDigits_ne_nil
  obtain ⟨c, rest, spelled⟩ := List.exists_cons_of_ne_nil nonempty
  rw [spelled] at digits
  have scans := (Scans.digits digits).of_eq (text.trans spelled)
  have number : Decimal.value (String.ofList (c :: rest)).toList = n := by
    rw [String.toList_ofList, ← spelled, Decimal.value_toDigits]
  have read := Derives.integer (t := ⟨.integer, String.ofList (c :: rest)⟩) rfl (number ▸ bound)
  rw [number, back] at read
  exact ⟨_, scans, .of_primary read⟩

theorem string_writes {value : String} (inside : '"' ∉ value.toList) :
    Writes (Expr.string value).render.toList (Postfix · (.string value)) := by
  have scans := Scans.quoted inside
  rw [String.ofList_toList] at scans
  exact ⟨_, scans.of_eq (by simp), .of_primary (.string rfl)⟩

theorem boolean_writes (value : Bool) :
    Writes (Expr.boolean value).render.toList (Postfix · (.boolean value)) := by
  cases value with
  | true =>
    have scans := Scans.keyword ['t', 'r', 'u', 'e'] .trueWord (by decide)
    exact ⟨_, scans.of_eq (by simp), .of_primary (.trueWord rfl)⟩
  | false =>
    have scans := Scans.keyword ['f', 'a', 'l', 's', 'e'] .falseWord (by decide)
    exact ⟨_, scans.of_eq (by simp), .of_primary (.falseWord rfl)⟩

/-! ### Lists in brackets -/

section
variable {es : List Expr} {ps : List (Expr × Expr)} {params : List String} {body : List Stmt}

theorem array_writes {text : String} (inside : Writes text.toList (Derives · (.items es))) :
    Writes ("[" ++ text ++ "]").toList (Postfix · (.array es)) := by
  obtain ⟨ts, scans, derives⟩ := inside
  have whole := scans.enclosed .leftBracket .rightBracket
  exact ⟨_, whole.of_eq (by simp), .of_primary (.array rfl derives rfl)⟩

theorem hash_writes {text : String} (inside : Writes text.toList (Derives · (.pairs ps))) :
    Writes ("\x7b" ++ text ++ "\x7d").toList (Postfix · (.hash ps)) := by
  obtain ⟨ts, scans, derives⟩ := inside
  have whole := scans.enclosed .leftBrace .rightBrace
  exact ⟨_, whole.of_eq (by simp), .of_primary (.hash rfl derives rfl)⟩

theorem function_writes (named : ∀ name ∈ params, IsName name)
    (inside : Writes (braced (Stmt.renderAll body)).toList (Derives · (.block body))) :
    Writes (Expr.function params body).render.toList (Postfix · (.function params body)) := by
  obtain ⟨ts, scans, derives⟩ := params_writes named
  obtain ⟨us, scans', derives'⟩ := inside
  have declared := (scans.enclosed .leftParen .rightParen).append breaks_blank scans'.blank
  have whole := (Scans.keyword ['f', 'n'] .functionWord (by decide)).append
    (breaks_cons (by decide) (by decide)) declared
  exact ⟨_, whole.of_eq (by simp), .of_primary (by
    simpa using Derives.function rfl rfl derives rfl derives')⟩

end

/-! ### Compound expressions -/

section
variable {e condition left right position callee : Expr} {args : List Expr}
  {consequence alternative : List Stmt}

theorem grouped_writes {text : List Char}
    (inside : Writes text (Derives · (.expression e))) :
    Writes ('(' :: (text ++ [')'])) (Postfix · e) := by
  obtain ⟨ts, scans, derives⟩ := inside
  exact ⟨_, scans.enclosed .leftParen .rightParen, .of_primary (.grouped rfl derives rfl)⟩

theorem unary_writes (op : UnaryOp) (operand : Writes e.render.toList (Postfix · e)) :
    Writes (Expr.unary op e).render.toList (Postfix · (.unary op e)) := by
  obtain ⟨ts, scans, read⟩ := operand
  have inside : Writes (op.spelling.toList ++ e.render.toList)
      (Derives · (.expression (.unary op e))) := by
    cases op with
    | not => exact ⟨_, scans.mark .bang, read.signed rfl⟩
    | negate => exact ⟨_, scans.mark .minus, read.signed rfl⟩
  obtain ⟨us, whole, read'⟩ := grouped_writes inside
  exact ⟨us, whole.of_eq (by simp), read'⟩

theorem BinaryOp.listed (op : BinaryOp) : (op.spelling.toList, op.tokenKind) ∈ symbols := by
  cases op <;> decide

theorem binary_writes (op : BinaryOp) (first : Writes left.render.toList (Postfix · left))
    (second : Writes right.render.toList (Postfix · right)) :
    Writes (Expr.binary op left right).render.toList (Postfix · (.binary op left right)) := by
  obtain ⟨ts, scans, read⟩ := first
  obtain ⟨us, scans', read'⟩ := second
  have operation := scans'.spaced op.spelling.toList op.tokenKind op.listed
  have inside : Writes _ (Derives · (.expression (.binary op left right))) :=
    ⟨_, scans.append breaks_blank operation, read.combined rfl read'⟩
  obtain ⟨vs, whole, read''⟩ := grouped_writes inside
  exact ⟨vs, whole.of_eq (by simp), read''⟩

theorem index_writes (first : Writes left.render.toList (Postfix · left))
    (second : Writes position.render.toList (Postfix · position)) :
    Writes (Expr.index left position).render.toList (Postfix · (.index left position)) := by
  obtain ⟨ts, scans, read⟩ := first
  obtain ⟨us, scans', read'⟩ := second
  have place := scans'.enclosed .leftBracket .rightBracket
  have inside : Writes _ (Derives · (.expression (.index left position))) :=
    ⟨_, scans.append (breaks_cons (by decide) (by decide)) place,
      (read.indexed rfl read'.expression rfl).expression⟩
  obtain ⟨vs, whole, read''⟩ := grouped_writes inside
  exact ⟨vs, whole.of_eq (by simp), read''⟩

theorem call_writes (first : Writes callee.render.toList (Postfix · callee))
    (second : Writes (", ".intercalate (Expr.renderAll args)).toList (Derives · (.items args))) :
    Writes (Expr.call callee args).render.toList (Postfix · (.call callee args)) := by
  obtain ⟨ts, scans, read⟩ := first
  obtain ⟨us, scans', derives⟩ := second
  have whole := scans.append (breaks_cons (by decide) (by decide))
    (scans'.enclosed .leftParen .rightParen)
  exact ⟨_, whole.of_eq (by simp), read.called rfl derives rfl⟩

theorem conditional_writes (asked : Writes condition.render.toList (Postfix · condition))
    (taken : Writes (braced (Stmt.renderAll consequence)).toList
      (Derives · (.block consequence))) :
    Writes (Expr.conditional condition consequence none).render.toList
      (Postfix · (.conditional condition consequence none)) := by
  obtain ⟨ts, scans, read⟩ := asked
  obtain ⟨us, scans', derives⟩ := taken
  have rest := (scans.enclosed .leftParen .rightParen).append breaks_blank scans'.blank
  have whole := (Scans.keyword ['i', 'f'] .ifWord (by decide)).append breaks_blank rest.blank
  exact ⟨_, whole.of_eq (by simp), .conditional rfl rfl read rfl derives⟩

theorem alternative_writes (asked : Writes condition.render.toList (Postfix · condition))
    (taken : Writes (braced (Stmt.renderAll consequence)).toList
      (Derives · (.block consequence)))
    (otherwise : Writes (braced (Stmt.renderAll alternative)).toList
      (Derives · (.block alternative))) :
    Writes (Expr.conditional condition consequence (some alternative)).render.toList
      (Postfix · (.conditional condition consequence (some alternative))) := by
  obtain ⟨ts, scans, read⟩ := asked
  obtain ⟨us, scans', derives⟩ := taken
  obtain ⟨vs, scans'', derives'⟩ := otherwise
  have orElse := (Scans.keyword ['e', 'l', 's', 'e'] .elseWord (by decide)).append breaks_blank
    scans''.blank
  have branches := scans'.append breaks_blank orElse.blank
  have rest := (scans.enclosed .leftParen .rightParen).append breaks_blank branches.blank
  have whole := (Scans.keyword ['i', 'f'] .ifWord (by decide)).append breaks_blank rest.blank
  exact ⟨_, whole.of_eq (by simp),
    .alternative rfl rfl read rfl derives rfl derives'⟩

end

/-! ### Sequences -/

section
variable {text keyText valueText : String} {texts : List String} {e key value : Expr}
  {es : List Expr} {ps : List (Expr × Expr)} {s : Stmt} {body : List Stmt}

theorem moreItems_writes (first : Writes text.toList (Derives · (.expression e)))
    (rest : Writes (trailing ',' texts) (Derives · (.moreItems es))) :
    Writes (trailing ',' (text :: texts)) (Derives · (.moreItems (e :: es))) := by
  obtain ⟨ts, scans, read⟩ := first
  obtain ⟨us, scans', derives⟩ := rest
  exact ⟨_, scans.trailing_cons .comma scans', .moreItems rfl read derives⟩

theorem items_writes (first : Writes text.toList (Derives · (.expression e)))
    (rest : Writes (trailing ',' texts) (Derives · (.moreItems es))) :
    Writes (", ".intercalate (text :: texts)).toList (Derives · (.items (e :: es))) := by
  obtain ⟨ts, scans, read⟩ := first
  obtain ⟨us, scans', derives⟩ := rest
  exact ⟨_, scans.joined rfl .comma scans', .items read derives⟩

theorem pair_scans {ts us : List Token} (first : Scans keyText.toList ts)
    (second : Scans valueText.toList us) :
    Scans (keyText ++ ": " ++ valueText).toList (ts ++ ⟨.colon, String.ofList [':']⟩ :: us) := by
  have whole := first.append (breaks_cons (by decide) (by decide)) (second.blank.mark .colon)
  exact whole.of_eq (by simp)

theorem morePairs_writes (first : Writes keyText.toList (Derives · (.expression key)))
    (second : Writes valueText.toList (Derives · (.expression value)))
    (rest : Writes (trailing ',' texts) (Derives · (.morePairs ps))) :
    Writes (trailing ',' ((keyText ++ ": " ++ valueText) :: texts))
      (Derives · (.morePairs ((key, value) :: ps))) := by
  obtain ⟨ts, scans, read⟩ := first
  obtain ⟨us, scans', read'⟩ := second
  obtain ⟨vs, scans'', derives⟩ := rest
  exact ⟨_, (pair_scans scans scans').trailing_cons .comma scans'',
    .morePairs rfl read rfl read' derives⟩

theorem pairs_writes (first : Writes keyText.toList (Derives · (.expression key)))
    (second : Writes valueText.toList (Derives · (.expression value)))
    (rest : Writes (trailing ',' texts) (Derives · (.morePairs ps))) :
    Writes (", ".intercalate ((keyText ++ ": " ++ valueText) :: texts)).toList
      (Derives · (.pairs ((key, value) :: ps))) := by
  obtain ⟨ts, scans, read⟩ := first
  obtain ⟨us, scans', read'⟩ := second
  obtain ⟨vs, scans'', derives⟩ := rest
  exact ⟨_, (pair_scans scans scans').joined rfl .comma scans'',
    .pairs read rfl read' derives⟩

/-- Put behind one statement, these tokens are read as that statement and the others. -/
def Completes (ts : List Token) (body : List Stmt) : Prop :=
  ∀ us s, Derives us (.statement s) → Derives (us ++ ts) (.statements (s :: body))

theorem completes_nil : Completes [] [] := fun _ _ first =>
  .unclosed first (by simp [Ends]) .noStatement

theorem moreStatements_writes (first : Writes s.render.toList (Derives · (.statement s)))
    (rest : Writes (trailing ';' (Stmt.renderAll body)) (Completes · body)) :
    Writes (trailing ';' (Stmt.renderAll (s :: body))) (Completes · (s :: body)) := by
  obtain ⟨ts, scans, derives⟩ := first
  obtain ⟨us, scans', completes⟩ := rest
  exact ⟨_, scans.trailing_cons .semicolon scans', fun _ _ before =>
    .closed before rfl (completes ts s derives)⟩

theorem statements_writes (first : Writes s.render.toList (Derives · (.statement s)))
    (rest : Writes (trailing ';' (Stmt.renderAll body)) (Completes · body)) :
    Writes ("; ".intercalate (Stmt.renderAll (s :: body))).toList
      (Derives · (.statements (s :: body))) := by
  obtain ⟨ts, scans, derives⟩ := first
  obtain ⟨us, scans', completes⟩ := rest
  exact ⟨_, scans.joined rfl .semicolon scans', completes ts s derives⟩

end

/-! ### Trees -/

mutual

theorem Expr.render_writes : (e : Expr) → e.Every Expr.IsPrintable Stmt.IsPrintable →
    Writes e.render.toList (Postfix · e)
  | .identifier _, named =>
    ⟨_, Scans.of_eq (IsName.scans named) (by simp), .of_primary (.identifier rfl)⟩
  | .integer value, positive => ofInt64_writes positive
  | .string value, inside => string_writes inside
  | .boolean value, _ => boolean_writes value
  | .array elements, ⟨_, all⟩ => array_writes (Expr.renderAll_writes elements all)
  | .hash pairs, ⟨_, all⟩ => hash_writes (Expr.renderPairs_writes pairs all)
  | .function params body, ⟨named, all⟩ =>
    function_writes named (block_writes (Stmt.renderAll_writes body all))
  | .unary op operand, ⟨_, inside⟩ => unary_writes op (operand.render_writes inside)
  | .binary op left right, ⟨_, first, second⟩ =>
    binary_writes op (left.render_writes first) (right.render_writes second)
  | .index left position, ⟨_, first, second⟩ =>
    index_writes (left.render_writes first) (position.render_writes second)
  | .conditional condition consequence none, ⟨_, asked, taken, _⟩ =>
    conditional_writes (condition.render_writes asked)
      (block_writes (Stmt.renderAll_writes consequence taken))
  | .conditional condition consequence (some alternative), ⟨_, asked, taken, otherwise⟩ =>
    alternative_writes (condition.render_writes asked)
      (block_writes (Stmt.renderAll_writes consequence taken))
      (block_writes (Stmt.renderAll_writes alternative otherwise))
  | .call callee args, ⟨_, first, second⟩ =>
    call_writes (callee.render_writes first) (Expr.renderAll_writes args second)

theorem Expr.renderAll_writes : (es : List Expr) →
    Expr.EveryIn Expr.IsPrintable Stmt.IsPrintable es →
    Writes (", ".intercalate (Expr.renderAll es)).toList (Derives · (.items es))
  | [], _ => ⟨[], .nil, .noItem⟩
  | e :: es, ⟨first, rest⟩ =>
    items_writes (expression_writes (e.render_writes first)) (Expr.renderAll_trailing es rest)

theorem Expr.renderAll_trailing : (es : List Expr) →
    Expr.EveryIn Expr.IsPrintable Stmt.IsPrintable es →
    Writes (trailing ',' (Expr.renderAll es)) (Derives · (.moreItems es))
  | [], _ => ⟨[], .nil, .lastItem⟩
  | e :: es, ⟨first, rest⟩ =>
    moreItems_writes (expression_writes (e.render_writes first))
      (Expr.renderAll_trailing es rest)

theorem Expr.renderPairs_writes : (ps : List (Expr × Expr)) →
    Expr.EveryPair Expr.IsPrintable Stmt.IsPrintable ps →
    Writes (", ".intercalate (Expr.renderPairs ps)).toList (Derives · (.pairs ps))
  | [], _ => ⟨[], .nil, .noPair⟩
  | (key, value) :: ps, ⟨first, second, rest⟩ =>
    pairs_writes (expression_writes (key.render_writes first))
      (expression_writes (value.render_writes second)) (Expr.renderPairs_trailing ps rest)

theorem Expr.renderPairs_trailing : (ps : List (Expr × Expr)) →
    Expr.EveryPair Expr.IsPrintable Stmt.IsPrintable ps →
    Writes (trailing ',' (Expr.renderPairs ps)) (Derives · (.morePairs ps))
  | [], _ => ⟨[], .nil, .lastPair⟩
  | (key, value) :: ps, ⟨first, second, rest⟩ =>
    morePairs_writes (expression_writes (key.render_writes first))
      (expression_writes (value.render_writes second)) (Expr.renderPairs_trailing ps rest)

theorem Stmt.render_writes : (s : Stmt) → s.Every Expr.IsPrintable Stmt.IsPrintable →
    Writes s.render.toList (Derives · (.statement s))
  | .bind _ value, ⟨named, inside⟩ => bind_writes named (value.render_writes inside)
  | .ret value, ⟨_, inside⟩ => ret_writes (value.render_writes inside)
  | .expression value, ⟨_, inside⟩ => bare_writes (value.render_writes inside)
  | .block _, ⟨refused, _⟩ => refused.elim

theorem Stmt.renderAll_writes : (body : List Stmt) →
    Stmt.EveryIn Expr.IsPrintable Stmt.IsPrintable body →
    Writes ("; ".intercalate (Stmt.renderAll body)).toList (Derives · (.statements body))
  | [], _ => ⟨[], .nil, .noStatement⟩
  | s :: body, ⟨first, rest⟩ =>
    statements_writes (s.render_writes first) (Stmt.renderAll_trailing body rest)

theorem Stmt.renderAll_trailing : (body : List Stmt) →
    Stmt.EveryIn Expr.IsPrintable Stmt.IsPrintable body →
    Writes (trailing ';' (Stmt.renderAll body)) (Completes · body)
  | [], _ => ⟨[], .nil, completes_nil⟩
  | s :: body, ⟨first, rest⟩ =>
    moreStatements_writes (s.render_writes first) (Stmt.renderAll_trailing body rest)

end

/-- Parsing gives back every printable program that was written. -/
theorem parse_render {program : Program} (printable : program.Printable) :
    parse program.render = (program, []) := by
  obtain ⟨ts, scans, derives⟩ := Stmt.renderAll_writes program printable
  apply parse_eq_iff.2
  rw [Program.render, scans.tokens_eq]
  exact derives

/-- A function that adds one to its argument, and a call of it. -/
def increment : Program :=
  [.bind "inc" (.function ["x"] [.expression (.binary .plus (.identifier "x") (.integer 1))]),
    .expression (.call (.identifier "inc") [.integer 41])]

theorem increment_printable : increment.Printable := by
  have inc : IsName "inc" := by decide
  have x : IsName "x" := by decide
  have parameter : ∀ name ∈ ["x"], IsName name := by
    intro name member
    rw [List.mem_singleton.1 member]
    exact x
  have one : (0 : Int) ≤ (1 : Int64).toInt := by decide
  have argument : (0 : Int) ≤ (41 : Int64).toInt := by decide
  exact ⟨⟨inc, parameter, ⟨trivial, trivial, x, one⟩, trivial⟩,
    ⟨trivial, trivial, inc, argument, trivial⟩, trivial⟩

theorem parse_render_increment :
    increment.Printable ∧ parse increment.render = (increment, []) :=
  ⟨increment_printable, parse_render increment_printable⟩

end MonkeyLanguage
