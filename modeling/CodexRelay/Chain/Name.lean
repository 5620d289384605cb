import CodexRelay.Library.MixedRadix
import CodexRelay.Chain.Types

/-!
Contract: the strings of names.

Owns:
- the loops of `string_to_name` and of `name::operator string`, bit by bit, and `name::set`;
- that the loops compute `stringToName` and `nameToString`;
- that the string of a name is read back, and that names are ordered like their strings.

The string of a name is its notation in thirteen digits, of which the last one has the base 16 and
the others the base 32. A C string is the list of its characters without the one that ends it.
-/

namespace CodexRelay.Chain.Name

open Library.MixedRadix List

def encode (name : Nat) (char : Char × Nat) : Nat :=
  name ||| ((charToSymbol char.1 &&& 0x1f) <<< (64 - 5 * (char.2 + 1)))

/-- `string_to_name`. Behind the end of the string, `str[12]` is the character that ends it. -/
def parse (str : List Char) : Nat :=
  let name := (str.take 12).zipIdx.foldl encode 0
  if 12 ≤ str.length then name ||| (charToSymbol (str.getD 12 '\x00') &&& 0x0f) else name

/-- One round of the loop of `name::operator string`, which fills the string from its end. -/
def decode (rest : Nat × List Char) (i : Nat) : Nat × List Char :=
  (rest.1 >>> (if i = 0 then 4 else 5),
    charmap.getD (rest.1 &&& (if i = 0 then 0x0f else 0x1f)) '.' :: rest.2)

/-- `name::operator string`. -/
def toString (value : Nat) : List Char :=
  ((List.range 13).foldl decode (value, [])).2.rdropWhile (· = '.')

def set (str : List Char) : Checked Nat := do
  eosAssert (str.length ≤ 13) .nameTypeException "Name is longer than 13 characters (${name}) "
  let value := parse str
  eosAssert (toString value = str) .nameTypeException
    "Name not properly normalized (name: ${name}, normalized: ${normalized}) "
  return value

/-- The letters of a string as their places in the alphabet, with dots up to thirteen letters. -/
def letters (str : List Char) : List Nat :=
  (str ++ List.replicate (13 - str.length) '.').map charmap.idxOf

/-! ### Writing a name -/

def bases : List Nat := 16 :: List.replicate 12 32

def symbols (value : Nat) : List Nat := toDigits bases value []

def chars (digits : List Nat) : List Char := digits.map fun digit => charmap.getD digit '.'

theorem nameToString_eq (value : Nat) :
    nameToString value = (chars (symbols value)).rdropWhile (· = '.') := by
  simp [nameToString, symbols, bases, chars, toDigits, range_succ, Nat.div_div_eq_div_mul]

theorem toString_eq (value : Nat) : toString value = nameToString value := by
  have low (n : Nat) : n &&& 15 = n % 16 := Nat.and_two_pow_sub_one_eq_mod n 4
  have digit (n : Nat) : n &&& 31 = n % 32 := Nat.and_two_pow_sub_one_eq_mod n 5
  simp [toString, decode, low, digit, nameToString, range_succ, Nat.shiftRight_eq_div_pow,
    Nat.div_div_eq_div_mul]

theorem symbols_bounded (value : Nat) : List.Forall₂ (· < ·) (symbols value) bases.reverse := by
  have bounded := toDigits_bounded (by decide : ∀ base ∈ bases, 0 < base) value .nil
  rwa [append_nil] at bounded

theorem ofDigits_symbols (value : UInt64) :
    ofDigits bases.reverse (symbols value.toNat) 0 = value.toNat := by
  have fits : value.toNat < bases.prod := value.toNat_lt
  have joined := ofDigits_toDigits fits [] []
  rwa [append_nil] at joined

/-- The dots at the end of a string are the last digits that are zero. -/
theorem exists_dots (str : List Char) :
    ∃ count, str = str.rdropWhile (· = '.') ++ List.replicate count '.' := by
  induction str using List.reverseRecOn with
  | nil => exact ⟨0, rfl⟩
  | append_singleton str c ih =>
    rw [rdropWhile_concat]
    by_cases dot : c = '.'
    · obtain ⟨count, same⟩ := ih
      refine ⟨count + 1, ?_⟩
      rw [if_pos (by simpa using dot), replicate_succ', ← append_assoc, ← same, dot]
    · exact ⟨0, by simp [dot]⟩

theorem chars_symbols (value : Nat) :
    (nameToString value).length ≤ 13 ∧ chars (symbols value) =
      nameToString value ++ List.replicate (13 - (nameToString value).length) '.' := by
  have length : (chars (symbols value)).length = 13 :=
    (length_map _).trans (symbols_bounded value).length_eq
  obtain ⟨count, same⟩ := exists_dots (chars (symbols value))
  rw [← nameToString_eq] at same
  rw [same, length_append, length_replicate] at length
  refine ⟨by omega, ?_⟩
  rwa [show 13 - (nameToString value).length = count by omega]

/-! ### Reading a name -/

theorem charToSymbol_lt (c : Char) : charToSymbol c < 2 ^ 5 := by
  unfold charToSymbol
  split_ifs with letter number
  · have le : c.toNat ≤ 122 := letter.2
    have first : 'a'.toNat = 97 := rfl
    omega
  · have le : c.toNat ≤ 53 := number.2
    have first : '1'.toNat = 49 := rfl
    omega
  · decide

theorem foldl_encode (str : List Char) (i high : Nat) (short : i + str.length ≤ 12) :
    (str.zipIdx i).foldl encode (high <<< (64 - 5 * i)) =
      high <<< (64 - 5 * i) + stringToNameFrom i str := by
  induction str generalizing i high with
  | nil => rfl
  | cons c str ih =>
    rw [length_cons] at short
    have shifted : 64 - 5 * i = 5 + (64 - 5 * (i + 1)) := by omega
    have joined : encode (high <<< (64 - 5 * i)) (c, i) =
        (high <<< 5 + charToSymbol c) <<< (64 - 5 * (i + 1)) := by
      unfold encode
      rw [Nat.and_two_pow_sub_one_eq_mod _ 5, Nat.mod_eq_of_lt (charToSymbol_lt c), shifted,
        Nat.shiftLeft_add, ← Nat.shiftLeft_or_distrib,
        ← Nat.shiftLeft_add_eq_or_of_lt (charToSymbol_lt c)]
    rw [zipIdx_cons, foldl_cons, joined, ih _ _ (by omega), stringToNameFrom,
      if_pos (by omega), Nat.mod_eq_of_lt (charToSymbol_lt c), shifted, Nat.shiftLeft_add,
      Nat.shiftLeft_eq, Nat.shiftLeft_eq _ (64 - 5 * (i + 1))]
    ring

theorem stringToNameFrom_append {str : List Char} {i : Nat} (long : i + str.length = 12) (c : Char) :
    16 ∣ stringToNameFrom i str ∧
      stringToNameFrom i (str ++ [c]) = stringToNameFrom i str + charToSymbol c % 2 ^ 4 := by
  induction str generalizing i with
  | nil =>
    obtain rfl : i = 12 := by simpa using long
    exact ⟨Nat.dvd_zero 16, (Nat.zero_add _).symm⟩
  | cons first str ih =>
    rw [length_cons] at long
    obtain ⟨whole, split⟩ := ih (by omega : i + 1 + str.length = 12)
    have inside : i < 12 := by omega
    rw [cons_append, stringToNameFrom, stringToNameFrom, if_pos inside, if_pos inside, split]
    refine ⟨Nat.dvd_add ?_ whole, (Nat.add_assoc _ _ _).symm⟩
    exact Dvd.dvd.mul_left (pow_dvd_pow 2 (by omega : 4 ≤ 64 - 5 * (i + 1))) _

theorem parse_eq {str : List Char} (short : str.length ≤ 13) : parse str = stringToName str := by
  unfold parse
  rcases Nat.lt_or_eq_of_le short with shorter | long
  · have encoded := foldl_encode str 0 0 (by omega)
    rw [Nat.zero_shiftLeft, Nat.zero_add] at encoded
    rw [take_of_length_le (by omega), encoded, getD_eq_default _ _ (by omega)]
    split_ifs
    · exact Nat.or_zero _
    · rfl
  · obtain rfl | ⟨front, c, rfl⟩ := eq_nil_or_concat' str
    · cases long
    have twelve : front.length = 12 := by simpa using long
    have encoded := foldl_encode front 0 0 (by omega)
    obtain ⟨⟨whole, multiple⟩, split⟩ := stringToNameFrom_append ((Nat.zero_add _).trans twelve) c
    have low : charToSymbol c % 2 ^ 4 < 2 ^ 4 := Nat.mod_lt _ (by decide)
    rw [Nat.zero_shiftLeft, Nat.zero_add, multiple, Nat.mul_comm] at encoded
    rw [take_left' twelve, encoded, if_pos (by omega), ← twelve, getD_eq_getElem?_getD,
      getElem?_concat_length, Option.getD_some, Nat.and_two_pow_sub_one_eq_mod _ 4,
      ← Nat.shiftLeft_eq whole 4, ← Nat.shiftLeft_add_eq_or_of_lt low]
    rw [stringToName, split, multiple, Nat.shiftLeft_eq, Nat.mul_comm]

theorem stringToNameFrom_dot (i : Nat) (str : List Char) :
    stringToNameFrom i (str ++ ['.']) = stringToNameFrom i str := by
  induction str generalizing i with
  | nil => simp [stringToNameFrom, charToSymbol]
  | cons c str ih => simp [stringToNameFrom, ih]

theorem stringToName_dots (str : List Char) (count : Nat) :
    stringToName (str ++ List.replicate count '.') = stringToName str := by
  induction count with
  | zero => rw [replicate_zero, append_nil]
  | succ count ih =>
    rw [replicate_succ', ← append_assoc, stringToName, stringToNameFrom_dot]
    exact ih

theorem map_chars {read : Char → Nat} (reads : ∀ digit < 32, read (charmap.getD digit '.') = digit)
    (value : Nat) : (chars (symbols value)).map read = symbols value := by
  have each : ∀ digit ∈ symbols value, read (charmap.getD digit '.') = id digit :=
    fun digit member => reads digit (digit_lt (symbols_bounded value) (by decide) digit member)
  rw [chars, map_map]
  exact (map_congr_left each).trans (List.map_id _)

theorem stringToNameFrom_chars {digits : List Nat} {count i : Nat} (high : Nat)
    (long : i + count = 12)
    (bounded : List.Forall₂ (· < ·) digits (List.replicate count 32 ++ [16])) :
    high * 2 ^ (64 - 5 * i) + stringToNameFrom i (chars digits) =
      ofDigits (List.replicate count 32 ++ [16]) digits high := by
  have symbol : ∀ digit < 32, charToSymbol (charmap.getD digit '.') = digit := by decide
  induction count generalizing i digits high with
  | zero =>
    obtain rfl : i = 12 := long
    obtain ⟨last, _, low, ⟨⟩, rfl⟩ := forall₂_cons_right_iff.mp bounded
    show high * 2 ^ 4 + charToSymbol (charmap.getD last '.') % 2 ^ 4 = high * 16 + last
    rw [symbol last (by omega)]
    omega
  | succ count ih =>
    obtain ⟨digit, rest, below, tail, rfl⟩ := forall₂_cons_right_iff.mp bounded
    have shifted : 64 - 5 * i = 5 + (64 - 5 * (i + 1)) := by omega
    have masked : digit % 2 ^ 5 = digit := Nat.mod_eq_of_lt below
    rw [replicate_succ, cons_append, ofDigits,
      ← ih (high * 32 + digit) (by omega : i + 1 + count = 12) tail, shifted, pow_add]
    rw [chars, map_cons, stringToNameFrom, if_pos (by omega), symbol digit below, masked, chars]
    ring

theorem stringToName_nameToString (value : UInt64) :
    stringToName (nameToString value.toNat) = value.toNat := by
  have joined := stringToNameFrom_chars 0 (Nat.zero_add 12) (symbols_bounded value.toNat)
  rw [Nat.zero_mul, Nat.zero_add, (chars_symbols value.toNat).2] at joined
  rw [← stringToName_dots, stringToName, joined]
  exact ofDigits_symbols value

/-- **The codec of names.** The string of a name is accepted and is read back; a string is accepted
exactly when it is that of the name it is read as; and names are ordered like their strings. -/
theorem strings_of_names :
    (∀ value : UInt64, set (toString value.toNat) = .ok value.toNat) ∧
      (∀ str, (∃ value, set str = .ok value) ↔ toString (parse str) = str) ∧
      ∀ first second : UInt64,
        first < second ↔ letters (toString first.toNat) < letters (toString second.toNat) := by
  have accepted : ∀ str, toString (parse str) = str → set str = .ok (parse str) := by
    intro str same
    have short : str.length ≤ 13 := by
      rw [← same, toString_eq]
      exact (chars_symbols _).1
    exact sequence_eq_ok.mpr ⟨(), eosAssert_of short _ _,
      sequence_eq_ok.mpr ⟨(), eosAssert_of same _ _, rfl⟩⟩
  refine ⟨fun value => ?_, fun str => ⟨?_, fun same => ⟨_, accepted str same⟩⟩, ?_⟩
  · have back : parse (toString value.toNat) = value.toNat := by
      rw [toString_eq, parse_eq (chars_symbols _).1, stringToName_nameToString]
    have found := accepted (toString value.toNat) (congrArg toString back)
    rwa [back] at found
  · rintro ⟨value, ran⟩
    obtain ⟨_, _, ran⟩ := of_bind ran
    obtain ⟨_, same, _⟩ := of_bind ran
    exact eosAssert_eq_ok.mp same
  · intro first second
    have ordered := @ofDigits_lt_iff 0 0 _ _ _ (symbols_bounded first.toNat)
      (symbols_bounded second.toNat)
    have written : ∀ value, letters (toString value) = symbols value := by
      intro value
      rw [toString_eq, letters, ← (chars_symbols value).2]
      exact map_chars (by decide) value
    rw [ofDigits_symbols, ofDigits_symbols] at ordered
    rw [written, written, UInt64.lt_iff_toNat_lt, ordered]
    simp

end CodexRelay.Chain.Name
