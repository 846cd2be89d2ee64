import Mathlib.Data.List.Induction
import MonkeyLanguage.Proofs.Store.Lookup

/-!
# Scopes are shared and nested

A history makes environments, some of them inside others, and sets names in them. What a name means
in an environment is known from the history alone: the links from each environment to the one
outside it lead to a last one, and the nearest of them in which the name was ever set gives the
value that was set last. So a later binding further out is seen from everywhere inside, but where a
nearer one hides it.
-/

namespace MonkeyLanguage

/-- Environments are numbered in the order in which they are made. -/
inductive Operation where
  | new
  | enclose (outer : Nat)
  | set (environment : Nat) (name : String) (value : Value)

/-- For an operation that makes an environment, the number of the one outside it, if any. -/
def Operation.link? : Operation → Option (Option Nat)
  | new => some none
  | enclose outer => some (some outer)
  | set _ _ _ => none

/-- What the operation sets the name to in this environment. -/
def Operation.value? (environment : Nat) (name : String) : Operation → Option Value
  | set other otherName value =>
    if other = environment ∧ otherName = name then some value else none
  | _ => none

/-! ### What a history says -/

/-- For every environment in order, the one outside it. -/
def links (history : List Operation) : List (Option Nat) := history.filterMap Operation.link?

/-- The value that the name was set to last in this environment, if it ever was. -/
def latest (history : List Operation) (name : String) (environment : Nat) : Option Value :=
  history.reverse.findSome? (Operation.value? environment name)

/-- The links lead from the environment over these, itself first, to one that is in no other. -/
inductive Path (links : List (Option Nat)) : Nat → List Nat → Prop where
  | last {e : Nat} : links[e]? = some none → Path links e [e]
  | link {e outer : Nat} {path : List Nat} : links[e]? = some (some outer) →
    Path links outer path → Path links e (e :: path)

/-- On the path to the environment no nearer one has the name set. -/
def Exposes (history : List Operation) (path : List Nat) (environment : Nat) (name : String) :
    Prop :=
  ∃ nearer further, path = nearer ++ environment :: further ∧
    ∀ e ∈ nearer, latest history name e = none

/-! ### Performing a history -/

/-- The scopes of the environments made so far, over one store. -/
structure Environments where
  scopes : List Scope
  store : Store

def Environments.start : Environments := ⟨[], .empty⟩

/-- Nothing is done to an environment that has not been made. -/
def Environments.perform (w : Environments) : Operation → Option Environments
  | .new => some ⟨w.scopes ++ [w.store.newRoot.1], w.store.newRoot.2⟩
  | .enclose outer => do
    let scope ← w.scopes[outer]?
    return ⟨w.scopes ++ [(w.store.enclose scope).1], (w.store.enclose scope).2⟩
  | .set environment name value => do
    let scope ← w.scopes[environment]?
    return ⟨w.scopes, w.store.bind scope name value⟩

section

variable {history : List Operation} {op : Operation}

theorem links_append : links (history ++ [op]) = links history ++ op.link?.toList := by
  cases op <;> simp [links, Operation.link?]

theorem latest_append (name : String) (environment : Nat) :
    latest (history ++ [op]) name environment =
      (op.value? environment name).or (latest history name environment) := by
  rw [latest, List.reverse_append, List.reverse_singleton, List.singleton_append,
    List.findSome?_cons]
  cases op.value? environment name <;> rfl

end

theorem before_or_last {α : Type} {xs : List α} {a b : α} {i : Nat}
    (found : (xs ++ [a])[i]? = some b) : xs[i]? = some b ∨ i = xs.length ∧ b = a := by
  rw [List.getElem?_append] at found
  split at found
  · exact Or.inl found
  · obtain ⟨within, rfl⟩ := List.getElem?_eq_some_iff.1 found
    simp only [List.length_singleton] at within
    exact Or.inr ⟨by omega, by simp⟩

/-! ### Paths -/

namespace Path

variable {ls more : List (Option Nat)} {e : Nat} {path path' : List Nat}

theorem unique (h : Path ls e path) (h' : Path ls e path') : path = path' := by
  induction h generalizing path' with
  | last here =>
    cases h' with
    | last _ => rfl
    | link there _ => cases here.symm.trans there
  | link here _ ih =>
    cases h' with
    | last there => cases here.symm.trans there
    | link there rest =>
      cases here.symm.trans there
      rw [ih rest]

theorem append (h : Path ls e path) : Path (ls ++ more) e path := by
  have grown : ∀ {e : Nat} {link : Option Nat}, ls[e]? = some link →
      (ls ++ more)[e]? = some link := by
    intro e link found
    rw [List.getElem?_append_left (List.getElem?_eq_some_iff.1 found).1, found]
  induction h with
  | last here => exact .last (grown here)
  | link here _ ih => exact .link (grown here) ih

theorem head_eq {frame : Nat} {rest : List Nat} (h : Path ls e (frame :: rest)) : frame = e := by
  cases h <;> rfl

/-- Links to older environments only lead downwards, so they come to an end. -/
theorem descends (older : ∀ e outer : Nat, ls[e]? = some (some outer) → outer < e)
    (h : Path ls e path) : path.Pairwise (· > ·) ∧ ∀ a ∈ path, a ≤ e := by
  induction h with
  | last _ => simp
  | link here _ ih =>
    have below := older _ _ here
    obtain ⟨descending, bound⟩ := ih
    refine ⟨List.pairwise_cons.2 ⟨fun a member => ?_, descending⟩, ?_⟩
    · exact Nat.lt_of_le_of_lt (bound a member) below
    · rintro a (_ | ⟨_, member⟩)
      · exact Nat.le_refl _
      · exact Nat.le_of_lt (Nat.lt_of_le_of_lt (bound a member) below)

end Path

/-! ### The store after a history -/

/-- Every environment has its frame in the store, a scope that follows the links, and the bindings
of the history. -/
structure Environments.Reflects (w : Environments) (history : List Operation) : Prop where
  scopes : w.scopes.length = (links history).length
  frames : w.store.frames.size = (links history).length
  older : ∀ e outer : Nat, (links history)[e]? = some (some outer) → outer < e
  paths : ∀ e scope, w.scopes[e]? = some scope → Path (links history) e scope.chain
  bindings : ∀ e name, Table.get? name (w.store.bindings e) = latest history name e

namespace Environments.Reflects

variable {w w' : Environments} {history : List Operation} {op : Operation} {e : Nat}
  {scope : Scope}

theorem start : Environments.start.Reflects [] where
  scopes := rfl
  frames := rfl
  older := nofun
  paths := nofun
  bindings := fun _ _ => rfl

theorem lookup (reflects : w.Reflects history) (name : String) (scope : Scope) :
    w.store.lookup name scope = scope.chain.findSome? (latest history name) := by
  rw [Store.lookup_eq_findSome?]
  congr
  exact funext fun frame => reflects.bindings frame name

/-- An environment has the frame of its number. -/
theorem frame_eq (reflects : w.Reflects history) (found : w.scopes[e]? = some scope) :
    scope.frame = e := by
  have path := reflects.paths e scope found
  cases scope <;> exact path.head_eq

/-- The frame of an environment is in the store. -/
theorem inside (reflects : w.Reflects history) (found : w.scopes[e]? = some scope) :
    scope.frame < w.store.frames.size := by
  rw [reflects.frame_eq found, reflects.frames, ← reflects.scopes]
  exact (List.getElem?_eq_some_iff.1 found).1

theorem newest (reflects : w.Reflects history) (link : Option Nat) :
    (links history ++ [link])[w.store.frames.size]? = some link := by
  rw [reflects.frames, List.getElem?_concat_length]

/-- An environment that is made has the next number, and nothing is set in it. -/
theorem made (reflects : w.Reflects history) {link : Option Nat} {store : Store}
    (linked : op.link? = some link)
    (older : ∀ outer, link = some outer → outer < w.store.frames.size)
    (path : Path (links history ++ [link]) w.store.frames.size scope.chain)
    (frames : store.frames.size = w.store.frames.size + 1)
    (bindings : ∀ frame, store.bindings frame = w.store.bindings frame) :
    (Environments.mk (w.scopes ++ [scope]) store).Reflects (history ++ [op]) := by
  have grown : links (history ++ [op]) = links history ++ [link] := by
    rw [links_append, linked, Option.toList_some]
  have next : w.scopes.length = w.store.frames.size := by rw [reflects.scopes, reflects.frames]
  have sets : ∀ e name, op.value? e name = none := by
    cases op with
    | set _ _ _ => cases linked
    | _ => exact fun _ _ => rfl
  constructor
  case scopes => simp [grown, reflects.scopes]
  case frames => simp [grown, frames, reflects.frames]
  case older =>
    intro e outer found
    rw [grown] at found
    rcases before_or_last found with before | ⟨rfl, last⟩
    · exact reflects.older e outer before
    · exact reflects.frames ▸ older outer last.symm
  case paths =>
    intro e other found
    rw [grown]
    rcases before_or_last found with before | ⟨rfl, rfl⟩
    · exact (reflects.paths e other before).append
    · exact next ▸ path
  case bindings =>
    intro e name
    rw [bindings, latest_append, sets, Option.none_or]
    exact reflects.bindings e name

/-- What one operation does to the environments is what it adds to the history. -/
theorem perform (reflects : w.Reflects history) (performed : w.perform op = some w') :
    w'.Reflects (history ++ [op]) := by
  cases op with
  | new =>
    obtain rfl := Option.some.inj performed
    exact reflects.made rfl nofun (.last (reflects.newest none)) w.store.size_newRoot
      (Store.bindings_newRoot w.store)
  | enclose outer =>
    obtain ⟨scope, found, made⟩ := Option.bind_eq_some_iff.1 performed
    obtain rfl := Option.some.inj made
    have older : outer < w.store.frames.size := reflects.frame_eq found ▸ reflects.inside found
    refine reflects.made rfl ?_ (.link (reflects.newest (some outer)) ?_)
      (w.store.size_enclose scope) (Store.bindings_enclose scope w.store)
    · rintro _ ⟨⟩
      exact older
    · exact (reflects.paths outer scope found).append
  | set environment name value =>
    obtain ⟨scope, found, made⟩ := Option.bind_eq_some_iff.1 performed
    obtain rfl := Option.some.inj made
    have grown : links (history ++ [.set environment name value]) = links history := by
      rw [links_append]
      exact List.append_nil _
    constructor
    case scopes => rw [grown, reflects.scopes]
    case frames => rw [grown, Store.size_bind, reflects.frames]
    case older => rw [grown]; exact reflects.older
    case paths => rw [grown]; exact reflects.paths
    case bindings =>
      intro e other
      rw [Store.bindings_bind (reflects.inside found), reflects.frame_eq found, latest_append,
        Operation.value?]
      by_cases here : environment = e
      · subst here
        rw [if_pos rfl, Table.get?_set, reflects.bindings]
        by_cases named : name = other <;> simp [named]
      · simp [here, Ne.symm here, reflects.bindings]

theorem run (performed : history.foldlM Environments.perform .start = some w) :
    w.Reflects history := by
  induction history using List.reverseRecOn generalizing w with
  | nil =>
    obtain rfl := Option.some.inj performed
    exact .start
  | append_singleton history op ih =>
    rw [List.foldlM_append] at performed
    obtain ⟨middle, before, last⟩ := Option.bind_eq_some_iff.1 performed
    rw [List.foldlM_cons] at last
    obtain ⟨made, step, same⟩ := Option.bind_eq_some_iff.1 last
    obtain rfl := Option.some.inj same
    exact (ih before).perform step

end Environments.Reflects

/-! ### What one more binding changes -/

section

variable {history : List Operation} {e : Nat} {name : String}

theorem latest_set (value : Value) (name' : String) (e' : Nat) :
    latest (history ++ [.set e name value]) name' e' =
      if e = e' ∧ name = name' then some value else latest history name' e' := by
  rw [latest_append, Operation.value?]
  split <;> rfl

theorem exposes_self (further : List Nat) : Exposes history (e :: further) e name :=
  ⟨[], further, rfl, nofun⟩

theorem exposes_cons {e' : Nat} (other : e' ≠ e) {path : List Nat} :
    Exposes history (e' :: path) e name ↔
      latest history name e' = none ∧ Exposes history path e name := by
  constructor
  · rintro ⟨_ | ⟨_, nearer⟩, further, same, unset⟩
    · exact absurd (List.cons.inj same).1 other
    · obtain ⟨rfl, rfl⟩ := List.cons.inj same
      obtain ⟨first, rest⟩ := List.forall_mem_cons.1 unset
      exact ⟨first, nearer, further, rfl, rest⟩
  · rintro ⟨first, nearer, further, rfl, rest⟩
    exact ⟨e' :: nearer, further, rfl, List.forall_mem_cons.2 ⟨first, rest⟩⟩

theorem findSome?_of_exposes (value : Value) {path : List Nat}
    (exposed : Exposes history path e name) :
    path.findSome? (latest (history ++ [.set e name value]) name) = some value := by
  induction path with
  | nil =>
    obtain ⟨nearer, further, same, -⟩ := exposed
    simp at same
  | cons e' path ih =>
    rw [List.findSome?_cons, latest_set]
    by_cases here : e' = e
    · rw [if_pos ⟨here.symm, rfl⟩]
    · obtain ⟨unset, rest⟩ := (exposes_cons here).1 exposed
      rw [if_neg fun h => here h.1.symm, unset]
      exact ih rest

theorem findSome?_of_not_exposes (value : Value) {name' : String} {path : List Nat}
    (hidden : ¬ (name' = name ∧ Exposes history path e name)) :
    path.findSome? (latest (history ++ [.set e name value]) name') =
      path.findSome? (latest history name') := by
  induction path with
  | nil => rfl
  | cons e' path ih =>
    have apart : ¬ (e = e' ∧ name = name') := by
      rintro ⟨rfl, rfl⟩
      exact hidden ⟨rfl, exposes_self path⟩
    rw [List.findSome?_cons, List.findSome?_cons, latest_set, if_neg apart]
    cases unset : latest history name' e' with
    | some found => rfl
    | none =>
      refine ih fun ⟨same, exposed⟩ => ?_
      subst same
      have other : e' ≠ e := fun here => apart ⟨here.symm, rfl⟩
      exact hidden ⟨rfl, (exposes_cons other).2 ⟨unset, exposed⟩⟩

end

/-- A name means what it was last set to in the nearest environment that ever had it set, and one
more binding changes that for its own name only, and only where no nearer one has the name. -/
theorem environments_are_nested_scopes {history : List Operation} {w : Environments}
    (performed : history.foldlM Environments.perform .start = some w) :
    (∀ e < (links history).length, ∃ scope path, w.scopes[e]? = some scope ∧
      Path (links history) e path ∧ path.Pairwise (· > ·) ∧
      ∀ name, w.store.lookup name scope = path.findSome? (latest history name)) ∧
    ∀ e < (links history).length, ∀ name value, ∃ w',
      w.perform (.set e name value) = some w' ∧ w'.scopes = w.scopes ∧
      ∀ e' name' scope path, w.scopes[e']? = some scope → Path (links history) e' path →
        (name' = name ∧ Exposes history path e name →
          w'.store.lookup name' scope = some value) ∧
        (¬ (name' = name ∧ Exposes history path e name) →
          w'.store.lookup name' scope = w.store.lookup name' scope) := by
  have reflects := Environments.Reflects.run performed
  have placed : ∀ e < (links history).length, ∃ scope, w.scopes[e]? = some scope := by
    intro e inside
    exact ⟨_, List.getElem?_eq_getElem (reflects.scopes ▸ inside)⟩
  constructor
  · intro e inside
    obtain ⟨scope, found⟩ := placed e inside
    have path := reflects.paths e scope found
    exact ⟨scope, scope.chain, found, path, (path.descends reflects.older).1,
      fun name => reflects.lookup name scope⟩
  · intro e inside name value
    obtain ⟨scope, found⟩ := placed e inside
    have bound : w.perform (.set e name value) = some ⟨w.scopes, w.store.bind scope name value⟩ :=
      Option.bind_eq_some_iff.2 ⟨scope, found, rfl⟩
    refine ⟨_, bound, rfl, fun e' name' scope' path found' path' => ?_⟩
    obtain rfl := path'.unique (reflects.paths e' scope' found')
    rw [(reflects.perform bound).lookup, reflects.lookup]
    refine ⟨?_, findSome?_of_not_exposes value⟩
    rintro ⟨rfl, exposed⟩
    exact findSome?_of_exposes value exposed

/-- Of two environments inside the first, the outer one has `a` and hides a later `a` of the first
from the inner one, which sees a later `b` of the first. -/
theorem environments_are_nested_scopes_later :
    ∃ w w₁ w₂ scope, List.foldlM Environments.perform .start
        [.new, .enclose 0, .enclose 1, .set 1 "a" (.integer 1)] = some w ∧
      w.scopes[2]? = some scope ∧
      w.perform (.set 0 "a" (.integer 2)) = some w₁ ∧
      w₁.store.lookup "a" scope = some (.integer 1) ∧
      w.perform (.set 0 "b" (.integer 3)) = some w₂ ∧
      w₂.store.lookup "b" scope = some (.integer 3) := by
  obtain ⟨found, changed⟩ := environments_are_nested_scopes
    (show List.foldlM Environments.perform .start
      [.new, .enclose 0, .enclose 1, .set 1 "a" (.integer 1)] = some _ from rfl)
  obtain ⟨scope, path, here, links, -, lookup⟩ := found 2 (by decide)
  obtain rfl := links.unique (.link rfl (.link rfl (.last rfl)))
  obtain ⟨w₁, first, -, later⟩ := changed 0 (by decide) "a" (.integer 2)
  obtain ⟨w₂, second, -, later'⟩ := changed 0 (by decide) "b" (.integer 3)
  refine ⟨_, w₁, w₂, scope, rfl, here, first, ?_, second, ?_⟩
  · rw [(later 2 "a" scope _ here links).2, lookup]
    · rfl
    · rintro ⟨-, exposed⟩
      obtain ⟨-, exposed⟩ := (exposes_cons (by decide)).1 exposed
      obtain ⟨unset, -⟩ := (exposes_cons (by decide)).1 exposed
      cases unset
  · refine (later' 2 "b" scope _ here links).1 ⟨rfl, [2, 1], [], rfl, ?_⟩
    decide

end MonkeyLanguage
