import MonkeyLanguage.Syntax.Basic

/-!
# Equality of syntax trees

`Expr.same` and `Stmt.same` compare trees node by node. `Expr.same_iff` and `Stmt.same_iff` say
that they decide equality.
-/

namespace MonkeyLanguage

mutual

def Expr.same : Expr → Expr → Bool
  | .identifier a, .identifier b => a == b
  | .integer a, .integer b => a == b
  | .string a, .string b => a == b
  | .boolean a, .boolean b => a == b
  | .array as, .array bs => Expr.sameAll as bs
  | .hash ps, .hash qs => Expr.samePairs ps qs
  | .function ps body, .function qs body' => ps == qs && Stmt.sameAll body body'
  | .unary op a, .unary op' b => op == op' && a.same b
  | .binary op a b, .binary op' a' b' => op == op' && a.same a' && b.same b'
  | .index a b, .index a' b' => a.same a' && b.same b'
  | .conditional c t none, .conditional c' t' none => c.same c' && Stmt.sameAll t t'
  | .conditional c t (some e), .conditional c' t' (some e') =>
    c.same c' && Stmt.sameAll t t' && Stmt.sameAll e e'
  | .call f as, .call g bs => f.same g && Expr.sameAll as bs
  | _, _ => false

def Expr.sameAll : List Expr → List Expr → Bool
  | [], [] => true
  | a :: as, b :: bs => a.same b && Expr.sameAll as bs
  | _, _ => false

def Expr.samePairs : List (Expr × Expr) → List (Expr × Expr) → Bool
  | [], [] => true
  | (k, v) :: ps, (k', v') :: qs => k.same k' && v.same v' && Expr.samePairs ps qs
  | _, _ => false

def Stmt.same : Stmt → Stmt → Bool
  | .bind n a, .bind n' b => n == n' && a.same b
  | .ret a, .ret b => a.same b
  | .expression a, .expression b => a.same b
  | .block as, .block bs => Stmt.sameAll as bs
  | _, _ => false

def Stmt.sameAll : List Stmt → List Stmt → Bool
  | [], [] => true
  | a :: as, b :: bs => a.same b && Stmt.sameAll as bs
  | _, _ => false

end

mutual

theorem Expr.same_iff (a b : Expr) : a.same b = true ↔ a = b := by
  match a with
  | .identifier _ | .integer _ | .string _ | .boolean _ => cases b <;> simp [Expr.same]
  | .array as => cases b <;> simp [Expr.same, Expr.sameAll_iff as]
  | .hash ps => cases b <;> simp [Expr.same, Expr.samePairs_iff ps]
  | .function _ body => cases b <;> simp [Expr.same, Stmt.sameAll_iff body]
  | .unary _ a => cases b <;> simp [Expr.same, Expr.same_iff a]
  | .binary _ l r => cases b <;> simp [Expr.same, Expr.same_iff l, Expr.same_iff r, and_assoc]
  | .index l r => cases b <;> simp [Expr.same, Expr.same_iff l, Expr.same_iff r]
  | .conditional c t none =>
    cases b with
    | conditional _ _ e => cases e <;> simp [Expr.same, Expr.same_iff c, Stmt.sameAll_iff t]
    | _ => simp [Expr.same]
  | .conditional c t (some e) =>
    cases b with
    | conditional _ _ e' =>
      cases e' <;>
        simp [Expr.same, Expr.same_iff c, Stmt.sameAll_iff t, Stmt.sameAll_iff e, and_assoc]
    | _ => simp [Expr.same]
  | .call f as => cases b <;> simp [Expr.same, Expr.same_iff f, Expr.sameAll_iff as]

theorem Expr.sameAll_iff (as bs : List Expr) : Expr.sameAll as bs = true ↔ as = bs := by
  match as with
  | [] => cases bs <;> simp [Expr.sameAll]
  | a :: as => cases bs <;> simp [Expr.sameAll, Expr.same_iff a, Expr.sameAll_iff as]

theorem Expr.samePairs_iff (ps qs : List (Expr × Expr)) :
    Expr.samePairs ps qs = true ↔ ps = qs := by
  match ps with
  | [] => cases qs <;> simp [Expr.samePairs]
  | (k, v) :: ps =>
    match qs with
    | [] => simp [Expr.samePairs]
    | (k', v') :: qs =>
      simp [Expr.samePairs, Expr.same_iff k, Expr.same_iff v, Expr.samePairs_iff ps]

theorem Stmt.same_iff (a b : Stmt) : a.same b = true ↔ a = b := by
  match a with
  | .bind _ a => cases b <;> simp [Stmt.same, Expr.same_iff a]
  | .ret a => cases b <;> simp [Stmt.same, Expr.same_iff a]
  | .expression a => cases b <;> simp [Stmt.same, Expr.same_iff a]
  | .block as => cases b <;> simp [Stmt.same, Stmt.sameAll_iff as]

theorem Stmt.sameAll_iff (as bs : List Stmt) : Stmt.sameAll as bs = true ↔ as = bs := by
  match as with
  | [] => cases bs <;> simp [Stmt.sameAll]
  | a :: as => cases bs <;> simp [Stmt.sameAll, Stmt.same_iff a, Stmt.sameAll_iff as]

end

instance : DecidableEq Expr := fun a b => decidable_of_iff _ (Expr.same_iff a b)

instance : DecidableEq Stmt := fun a b => decidable_of_iff _ (Stmt.same_iff a b)

end MonkeyLanguage
