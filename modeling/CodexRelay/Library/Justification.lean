import Mathlib

/-!
Contract: derivations of facts that rest on other facts.

Some facts are given. `rule known fact` says that the facts in `known` are enough for `fact`.

Owns:
- `Within`, the facts with a derivation of a bounded depth, and `Derivable`;
- `Justified`, lists of facts in which each one rests on given facts and on facts further back;
- that a derivation of least depth does not use the fact that it derives.
-/

namespace CodexRelay.Library

variable {α : Type} (given : α → Prop) (rule : (α → Prop) → α → Prop)

/-- The facts with a derivation that nests rules no deeper than a depth. -/
def Within : Nat → α → Prop
  | 0, fact => given fact
  | depth + 1, fact => given fact ∨ rule (Within depth) fact

def Derivable (fact : α) : Prop := ∃ depth, Within given rule depth fact

/-- A list of facts, the last one first, in which each one rests on given facts and on the facts
that come after it in the list. -/
inductive Justified : List α → Prop
  | nil : Justified []
  | cons {fact : α} {earlier : List α} (fresh : fact ∉ earlier) (before : Justified earlier)
      (supported : rule (fun known => given known ∨ known ∈ earlier) fact) :
      Justified (fact :: earlier)

variable {given rule}

theorem Within.weaken {given' : α → Prop} {rule' : (α → Prop) → α → Prop}
    (givens : ∀ fact, given fact → given' fact)
    (rules : ∀ known known' : α → Prop, (∀ fact, known fact → known' fact) →
      ∀ fact, rule known fact → rule' known' fact)
    {depth : Nat} {fact : α} (within : Within given rule depth fact) :
    Within given' rule' depth fact := by
  induction depth generalizing fact with
  | zero => exact givens fact within
  | succ depth ih =>
    rcases within with isGiven | ruled
    · exact .inl (givens fact isGiven)
    · exact .inr (rules _ _ (fun _ => ih) fact ruled)

theorem Within.succ (monotone : Monotone rule) {depth : Nat} {fact : α}
    (within : Within given rule depth fact) : Within given rule (depth + 1) fact := by
  induction depth generalizing fact with
  | zero => exact .inl within
  | succ depth ih =>
    rcases within with isGiven | ruled
    · exact .inl isGiven
    · exact .inr (monotone (fun _ => ih) fact ruled)

theorem Within.of_le (monotone : Monotone rule) {depth depth' : Nat} (le : depth ≤ depth')
    {fact : α} (within : Within given rule depth fact) : Within given rule depth' fact := by
  induction le with
  | refl => exact within
  | step _ ih => exact ih.succ monotone

/-- The last rule of a derivation of least depth does not rest on the fact that it derives. -/
theorem Within.exists_least_rule {depth : Nat} {fact : α} (within : Within given rule depth fact)
    (notGiven : ¬ given fact) :
    ∃ before < depth, ¬ Within given rule before fact ∧ rule (Within given rule before) fact := by
  induction depth with
  | zero => exact absurd within notGiven
  | succ depth ih =>
    by_cases earlier : Within given rule depth fact
    · obtain ⟨before, lt, least⟩ := ih earlier
      exact ⟨before, by omega, least⟩
    · exact ⟨depth, by omega, earlier, within.resolve_left notGiven⟩

end CodexRelay.Library
