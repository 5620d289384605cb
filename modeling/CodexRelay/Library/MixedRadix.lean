import Mathlib

/-!
Contract: positional notation in which every position has its own base.

Owns:
- `ofDigits`, the number that digits stand for, the most significant one first, and `toDigits`,
  which takes a number apart from its last digit on;
- that they are inverse to each other, and that digits are ordered like their numbers;
- `number`, for digits of one base, and how digits are grouped.
-/

namespace CodexRelay.Library.MixedRadix

open List

def ofDigits : (bases digits : List Nat) → (high : Nat) → Nat
  | base :: bases, digit :: digits, high => ofDigits bases digits (high * base + digit)
  | _, _, high => high

/-- The digits of a number in front of others. The bases are those of the positions from the last one
to the first. -/
def toDigits : (bases : List Nat) → (number : Nat) → (behind : List Nat) → List Nat
  | [], _, behind => behind
  | base :: bases, number, behind => toDigits bases (number / base) (number % base :: behind)

variable {base high high' : Nat} {bases digits digits' : List Nat}

theorem ofDigits_toDigits {number : Nat} (fits : number < bases.prod) (rest behind : List Nat) :
    ofDigits (bases.reverse ++ rest) (toDigits bases number behind) 0 =
      ofDigits rest behind number := by
  induction bases generalizing number rest behind with
  | nil =>
    obtain rfl : number = 0 := by simpa using fits
    rfl
  | cons base bases ih =>
    rw [prod_cons] at fits
    rw [toDigits, reverse_cons, append_assoc, singleton_append,
      ih (Nat.div_lt_of_lt_mul fits), ofDigits, Nat.div_add_mod']

theorem toDigits_bounded (positive : ∀ base ∈ bases, 0 < base) (number : Nat)
    {rest behind : List Nat} (bounded : List.Forall₂ (· < ·) behind rest) :
    List.Forall₂ (· < ·) (toDigits bases number behind) (bases.reverse ++ rest) := by
  induction bases generalizing number rest behind with
  | nil => exact bounded
  | cons base bases ih =>
    rw [reverse_cons, append_assoc]
    exact ih (fun other member => positive other (mem_cons_of_mem _ member)) _
      (.cons (Nat.mod_lt _ (positive base mem_cons_self)) bounded)

theorem digit_lt (bounded : List.Forall₂ (· < ·) digits bases) {limit : Nat}
    (small : ∀ base ∈ bases, base ≤ limit) : ∀ digit ∈ digits, digit < limit := by
  induction bounded with
  | nil => simp
  | cons below _ ih =>
    rw [forall_mem_cons] at small ⊢
    exact ⟨below.trans_le small.1, ih small.2⟩

/-! ### The order of digits -/

theorem place_lt {digit digit' : Nat} (lt : high < high') (below : digit < base) :
    high * base + digit < high' * base + digit' := by
  have whole : (high + 1) * base ≤ high' * base := Nat.mul_le_mul_right base lt
  rw [Nat.add_mul, Nat.one_mul] at whole
  omega

theorem ofDigits_lt_iff (bounded : List.Forall₂ (· < ·) digits bases)
    (bounded' : List.Forall₂ (· < ·) digits' bases) :
    ofDigits bases digits high < ofDigits bases digits' high' ↔
      high < high' ∨ high = high' ∧ digits < digits' := by
  induction bounded generalizing digits' high high' with
  | nil =>
    cases bounded'
    simp [ofDigits]
  | @cons digit base digits bases below _ ih =>
    cases bounded' with
    | @cons digit' _ digits' _ below' bounded' =>
      rw [ofDigits, ofDigits, ih bounded', cons_lt_cons_iff]
      rcases lt_trichotomy high high' with lt | rfl | gt
      · simp [lt, place_lt lt below]
      · simp
      · have higher : high' * base + digit' < high * base + digit := place_lt gt below'
        simp [gt.not_gt, gt.ne', higher.not_gt, higher.ne']

/-! ### One base -/

def number (base : Nat) : List Nat → Nat
  | [] => 0
  | digit :: digits => digit * base ^ digits.length + number base digits

theorem ofDigits_replicate (digits : List Nat) (high : Nat) :
    ofDigits (List.replicate digits.length base) digits high =
      high * base ^ digits.length + number base digits := by
  induction digits generalizing high with
  | nil => simp [ofDigits, number]
  | cons digit digits ih =>
    rw [length_cons, replicate_succ, ofDigits, ih, number, pow_succ]
    ring

theorem number_append (front back : List Nat) :
    number base (front ++ back) = number base front * base ^ back.length + number base back := by
  induction front with
  | nil => simp [number]
  | cons digit front ih =>
    rw [cons_append, number, number, ih, length_append]
    ring

theorem number_eq_zero (positive : 0 < base) :
    number base digits = 0 ↔ ∀ digit ∈ digits, digit = 0 := by
  induction digits with
  | nil => simp [number]
  | cons digit digits ih => simp [number, ih, positive.ne']

theorem number_append_zeros (digits : List Nat) (zeros : Nat) :
    number base (digits ++ List.replicate zeros 0) = number base digits * base ^ zeros := by
  have none : number base (List.replicate zeros 0) = 0 := by
    induction zeros with
    | zero => rfl
    | succ zeros ih => rw [replicate_succ, number, ih, Nat.zero_mul]
  rw [number_append, none, length_replicate, Nat.add_zero]

section

variable (small : ∀ digit ∈ digits, digit < base)

include small

theorem number_lt : number base digits < base ^ digits.length := by
  induction digits with
  | nil => simp [number]
  | cons digit digits ih =>
    rw [forall_mem_cons] at small
    have whole : (digit + 1) * base ^ digits.length ≤ base * base ^ digits.length :=
      Nat.mul_le_mul_right _ small.1
    have rest := ih small.2
    rw [Nat.add_mul, Nat.one_mul, ← pow_succ'] at whole
    rw [number, length_cons]
    omega

theorem forall₂_replicate : List.Forall₂ (· < ·) digits (List.replicate digits.length base) := by
  induction digits with
  | nil => exact .nil
  | cons digit digits ih =>
    rw [forall_mem_cons] at small
    exact .cons small.1 (ih small.2)

end

section

variable (sameLength : digits.length = digits'.length) (small : ∀ digit ∈ digits, digit < base)
  (small' : ∀ digit ∈ digits', digit < base)

include sameLength small small'

theorem number_lt_iff : number base digits < number base digits' ↔ digits < digits' := by
  have bounded := forall₂_replicate small
  rw [sameLength] at bounded
  have ordered := @ofDigits_lt_iff 0 0 _ _ _ bounded (forall₂_replicate small')
  rw [ofDigits_replicate, ← sameLength, ofDigits_replicate] at ordered
  simpa using ordered

theorem number_inj : number base digits = number base digits' ↔ digits = digits' := by
  refine ⟨fun same => ?_, congrArg _⟩
  rcases lt_trichotomy digits digits' with lt | eq | gt
  · exact absurd same ((number_lt_iff sameLength small small').mpr lt).ne
  · exact eq
  · exact absurd same ((number_lt_iff sameLength.symm small' small).mpr gt).ne'

end

def digitsOf (base count number : Nat) : List Nat := toDigits (List.replicate count base) number []

section

variable (positive : 0 < base) {count : Nat}

include positive

theorem digitsOf_bounded (count number : Nat) :
    List.Forall₂ (· < ·) (digitsOf base count number) (List.replicate count base) := by
  have bases : ∀ other ∈ List.replicate count base, 0 < other := by simp [positive]
  have bounded := toDigits_bounded bases number .nil
  rwa [append_nil, reverse_replicate] at bounded

theorem length_digitsOf (count number : Nat) : (digitsOf base count number).length = count := by
  rw [(digitsOf_bounded positive count number).length_eq, length_replicate]

theorem number_digitsOf {value : Nat} (fits : value < base ^ count) :
    number base (digitsOf base count value) = value := by
  have whole := @ofDigits_replicate base (digitsOf base count value) 0
  rw [← prod_replicate] at fits
  have joined := ofDigits_toDigits fits [] []
  rw [append_nil, reverse_replicate] at joined
  rw [length_digitsOf positive, Nat.zero_mul, Nat.zero_add] at whole
  exact whole.symm.trans joined

theorem length_flatMap_digitsOf (words : List Nat) :
    (words.flatMap (digitsOf base count)).length = count * words.length := by
  simp [length_flatMap, length_digitsOf positive, Nat.mul_comm]

theorem flatMap_digitsOf_lt (words : List Nat) :
    ∀ digit ∈ words.flatMap (digitsOf base count), digit < base := by
  intro digit member
  obtain ⟨word, -, member⟩ := mem_flatMap.mp member
  exact digit_lt (digitsOf_bounded positive count word)
    (fun other listed => (eq_of_mem_replicate listed).le) digit member

theorem number_flatMap {words : List Nat} (fits : ∀ word ∈ words, word < base ^ count) :
    number base (words.flatMap (digitsOf base count)) = number (base ^ count) words := by
  induction words with
  | nil => rfl
  | cons word words ih =>
    rw [forall_mem_cons] at fits
    rw [flatMap_cons, number_append, number_digitsOf positive fits.1, ih fits.2,
      length_flatMap_digitsOf positive, pow_mul]
    rfl

end

end CodexRelay.Library.MixedRadix
