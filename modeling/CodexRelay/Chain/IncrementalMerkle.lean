import CodexRelay.Chain.Types
import CodexRelay.Library.BalancedTree

/-!
Contract: `merkle` and `incremental_merkle` compute the same root.

Owns:
- `incremental_merkle`, the balanced merkle tree that header states append block ids to. The hash of
  a canonical pair is a parameter;
- `merkle` of `merkle.cpp`, with its array that is folded in place;
- what the bit tricks of `incremental_merkle.hpp` compute;
- the active nodes of an incremental tree, and its agreement with `merkle`.
-/

namespace CodexRelay.Chain

def nextPowerOf2 (value : UInt64) : UInt64 :=
  let v := value - 1
  let v := v ||| v >>> 1
  let v := v ||| v >>> 2
  let v := v ||| v >>> 4
  let v := v ||| v >>> 8
  let v := v ||| v >>> 16
  let v := v ||| v >>> 32
  v + 1

/-- `detail::clz_power_2`, which for a power of two `2^k` returns `k`. -/
def clzPower2 (value : UInt64) : Nat :=
  64 - (if value ≠ 0 then 1 else 0) - (if value &&& 0x00000000FFFFFFFF ≠ 0 then 32 else 0)
    - (if value &&& 0x0000FFFF0000FFFF ≠ 0 then 16 else 0)
    - (if value &&& 0x00FF00FF00FF00FF ≠ 0 then 8 else 0)
    - (if value &&& 0x0F0F0F0F0F0F0F0F ≠ 0 then 4 else 0)
    - (if value &&& 0x3333333333333333 ≠ 0 then 2 else 0)
    - (if value &&& 0x5555555555555555 ≠ 0 then 1 else 0)

def calcluateMaxDepth (nodeCount : UInt64) : Nat :=
  if nodeCount = 0 then 0 else clzPower2 (nextPowerOf2 nodeCount) + 1

structure IncrementalMerkle where
  nodeCount : UInt64 := 0
  activeNodes : List Digest := []

namespace IncrementalMerkle

/-- The loop of `append`: `depth` levels remain above `top`, `active` is what
`active_iter` has not read yet and `updated` the new active nodes so far. -/
def collapse (hash : Digest → Digest → Digest) :
    (depth : Nat) → (index : UInt64) → (isPartial : Bool) → (top : Digest) →
      (active updated : List Digest) → List Digest
  | 0, _, _, top, _, updated => updated ++ [top]
  | depth + 1, index, isPartial, top, active, updated =>
    if index &&& 1 = 0 then
      collapse hash depth (index >>> 1) true (hash top top) active
        (if isPartial then updated else updated ++ [top])
    else
      let left := active.headD 0
      collapse hash depth (index >>> 1) isPartial (hash left top) active.tail
        (if isPartial then updated ++ [left] else updated)

def append (hash : Digest → Digest → Digest) (tree : IncrementalMerkle) (digest : Digest) :
    IncrementalMerkle where
  nodeCount := tree.nodeCount + 1
  activeNodes :=
    collapse hash (calcluateMaxDepth (tree.nodeCount + 1) - 1) tree.nodeCount false digest
      tree.activeNodes []

def getRoot (tree : IncrementalMerkle) : Digest :=
  if 0 < tree.nodeCount then tree.activeNodes.getLastD 0 else 0

end IncrementalMerkle

open Library List BalancedTree

variable {hash : Digest → Digest → Digest}

variable {ids : List Digest} {count : Nat}

variable {positions : Nat} {value spread index : UInt64}

/-! ### `merkle` -/

/-- The inner loop of `merkle` up to a position, in place. -/
def foldPairs (hash : Digest → Digest → Digest) (ids : List Digest) (positions : Nat) :
    List Digest :=
  (List.range positions).foldl
    (fun ids i => ids.set i (hash (ids.getD (2 * i) 0) (ids.getD (2 * i + 1) 0))) ids

def merkleRound (hash : Digest → Digest → Digest) (ids : List Digest) : List Digest :=
  let ids := if ids.length % 2 ≠ 0 then ids ++ [ids.getLastD 0] else ids
  (foldPairs hash ids (ids.length / 2)).take (ids.length / 2)

/-- The outer loop of `merkle`, for a number of rounds at most. -/
def merkleLoop (hash : Digest → Digest → Digest) : Nat → List Digest → List Digest
  | 0, ids => ids
  | rounds + 1, ids =>
    if 1 < ids.length then merkleLoop hash rounds (merkleRound hash ids) else ids

/-- `merkle`. A round makes the array shorter, so there are fewer rounds than digests. -/
def merkle (hash : Digest → Digest → Digest) (ids : List Digest) : Digest :=
  if ids.length = 0 then 0 else (merkleLoop hash ids.length ids).headD 0

theorem take_succ_getD {position : Nat} (lt : position < ids.length) :
    ids.take (position + 1) = ids.take position ++ [ids.getD position 0] := by
  rw [take_add_one, getElem?_eq_getElem lt, getD_eq_getElem _ _ lt]
  rfl

/-- The pairs at the positions before are replaced, and no digest that is still to be read. -/
theorem foldPairs_eq (even : ids.length % 2 = 0) (le : positions ≤ ids.length / 2) :
    foldPairs hash ids positions =
      fullParents hash (ids.take (2 * positions)) ++ ids.drop positions := by
  induction positions with
  | zero => simp [foldPairs, fullParents]
  | succ position ih =>
    have earlier := ih (by omega)
    have taken : ids.take (2 * (position + 1)) =
        ids.take (2 * position) ++ [ids.getD (2 * position) 0] ++
          [ids.getD (2 * position + 1) 0] := by
      rw [Nat.mul_succ, take_succ_getD (by omega), take_succ_getD (by omega)]
    have evenTaken : (ids.take (2 * position)).length % 2 = 0 := by
      rw [length_take]
      omega
    have length : (fullParents hash (ids.take (2 * position))).length = position := by
      rw [length_fullParents, length_take]
      omega
    have unread : ∀ index, position ≤ index →
        (fullParents hash (ids.take (2 * position)) ++ ids.drop position).getD index 0
          = ids.getD index 0 := by
      intro index le
      rw [getD_append_right _ _ _ _ (by omega), length, getD_eq_getElem?_getD,
        getElem?_drop, getD_eq_getElem?_getD, Nat.add_sub_cancel' le]
    rw [taken, fullParents_append_pair hash evenTaken]
    unfold foldPairs at earlier ⊢
    rw [range_succ, foldl_append, earlier, foldl_cons, foldl_nil,
      unread _ (by omega), unread _ (by omega), set_append_right _ _ (by omega), length,
      Nat.sub_self, drop_eq_getElem_cons (by omega), set_cons_zero]
    simp

theorem merkleRound_eq (ids : List Digest) : merkleRound hash ids = parents hash ids := by
  have whole : ∀ {ids : List Digest}, ids.length % 2 = 0 →
      (foldPairs hash ids (ids.length / 2)).take (ids.length / 2) =
        fullParents hash ids := by
    intro ids even
    have all : ids.take (2 * (ids.length / 2)) = ids := take_of_length_le (by omega)
    rw [foldPairs_eq even le_rfl, all]
    apply take_left'
    rw [length_fullParents]
  unfold merkleRound
  dsimp only
  by_cases odd : ids.length % 2 ≠ 0
  · rw [if_pos odd]
    obtain ⟨before, last, rfl⟩ := eq_nil_or_concat' ids |>.resolve_left
      (fun empty => odd (by rw [empty]; rfl))
    rw [length_append, length_singleton] at odd
    rw [whole (by simp; omega), getLastD_concat, fullParents_append_pair hash (by omega),
      parents_append_single hash (by omega)]
  · rw [if_neg odd, whole (by omega), parents_eq_fullParents hash (by omega)]

theorem merkleLoop_eq {rounds : Nat} (positive : 0 < ids.length)
    (enough : Nat.clog 2 ids.length ≤ rounds) :
    merkleLoop hash rounds ids = (parents hash)^[Nat.clog 2 ids.length] ids := by
  induction rounds generalizing ids with
  | zero =>
    rw [Nat.le_zero.mp enough]
    rfl
  | succ rounds ih =>
    rw [merkleLoop]
    split_ifs with several
    · have halved : Nat.clog 2 ids.length = Nat.clog 2 ((ids.length + 1) / 2) + 1 :=
        Nat.clog_of_two_le (by decide) several
      have length := length_parents hash ids
      rw [merkleRound_eq, ih (by omega) (by rw [length]; omega), halved, length,
        Function.iterate_succ_apply]
    · rw [show ids.length = 1 by omega]
      rfl

theorem merkle_eq (positive : 0 < ids.length) :
    merkle hash ids = ((parents hash)^[Nat.clog 2 ids.length] ids).headD 0 := by
  have enough : Nat.clog 2 ids.length ≤ ids.length := Nat.clog_le_of_le_pow Nat.lt_two_pow_self.le
  rw [merkle, if_neg (by omega), merkleLoop_eq positive enough]

/-! ### The bit tricks -/

/-- Every bit of the value is spread over the given number of positions below it. -/
def Spread (value spread : UInt64) (positions : Nat) : Prop :=
  ∀ index, spread.toNat.testBit index = true ↔
    ∃ distance < positions, value.toNat.testBit (index + distance) = true

theorem spread_self (value : UInt64) : Spread value value 1 := by
  intro index
  constructor
  · intro isSet
    exact ⟨0, Nat.one_pos, isSet⟩
  · rintro ⟨distance, lt, isSet⟩
    obtain rfl : distance = 0 := by omega
    exact isSet

theorem Spread.shift (spreads : Spread value spread positions) (shift : UInt64)
    (isShift : shift.toNat % 64 = positions) :
    Spread value (spread ||| spread >>> shift) (2 * positions) := by
  intro index
  rw [UInt64.toNat_or, UInt64.toNat_shiftRight, isShift, Nat.testBit_or, Nat.testBit_shiftRight,
    Bool.or_eq_true, spreads, spreads]
  constructor
  · rintro (⟨distance, lt, isSet⟩ | ⟨distance, lt, isSet⟩)
    · exact ⟨distance, by omega, isSet⟩
    · exact ⟨positions + distance, by omega, by rwa [show index + (positions + distance) =
        positions + index + distance by omega]⟩
  · rintro ⟨distance, lt, isSet⟩
    rcases Nat.lt_or_ge distance positions with near | far
    · exact .inl ⟨distance, near, isSet⟩
    · refine .inr ⟨distance - positions, by omega, ?_⟩
      rwa [show positions + index + (distance - positions) = index + distance by omega]

/-- Spread over all positions, a value is the mask of its bits. -/
theorem Spread.eq_mask (spreads : Spread value spread 64) :
    spread.toNat = 2 ^ value.toNat.size - 1 := by
  apply Nat.eq_of_testBit_eq
  intro index
  rw [Nat.testBit_two_pow_sub_one, Bool.eq_iff_iff, spreads, decide_eq_true_eq]
  constructor
  · rintro ⟨distance, -, isSet⟩
    have le := Nat.lt_size.mpr (Nat.ge_two_pow_of_testBit isSet)
    omega
  · intro lt
    have size : value.toNat.size ≤ 64 := Nat.size_le.mpr value.toNat_lt
    refine ⟨value.toNat.size - 1 - index, by omega, ?_⟩
    rw [show index + (value.toNat.size - 1 - index) = value.toNat.size - 1 by omega]
    -- the highest bit
    have reached := Nat.lt_size.mp (show value.toNat.size - 1 < value.toNat.size by omega)
    have below := Nat.lt_size_self value.toNat
    rw [show value.toNat.size = value.toNat.size - 1 + 1 by omega] at below
    exact Nat.testBit_of_two_pow_le_and_two_pow_add_one_gt reached below

theorem size_pred_eq_clog (positive : 0 < count) : (count - 1).size = Nat.clog 2 count := by
  apply eq_of_forall_ge_iff
  intro bound
  rw [Nat.size_le, Nat.clog_le_iff_le_pow (by decide)]
  omega

theorem toNat_nextPowerOf2 {count : UInt64} (positive : 0 < count.toNat) :
    (nextPowerOf2 count).toNat = 2 ^ Nat.clog 2 count.toNat % 2 ^ 64 := by
  have spreads := ((((((spread_self (count - 1)).shift 1 rfl).shift 2 rfl).shift 4 rfl).shift 8
    rfl).shift 16 rfl).shift 32 rfl
  have mask := spreads.eq_mask
  have pred : (count - 1).toNat = count.toNat - 1 := by
    have le : (1 : UInt64) ≤ count := UInt64.le_iff_toNat_le.mpr positive
    rw [UInt64.toNat_sub_of_le _ _ le]
    rfl
  unfold nextPowerOf2
  rw [UInt64.toNat_add, mask, pred, size_pred_eq_clog positive]
  congr 1
  exact Nat.sub_add_cancel Nat.one_le_two_pow

theorem clzPower2_two_pow :
    ∀ depth : Fin 65, clzPower2 (UInt64.ofNat (2 ^ depth.val)) = depth.val := by
  decide +kernel

/-- The depth of a tree: so many levels are between its leaves and its top. -/
theorem calcluateMaxDepth_eq {count : UInt64} (positive : 0 < count.toNat) :
    calcluateMaxDepth count - 1 = Nat.clog 2 count.toNat := by
  have le : Nat.clog 2 count.toNat ≤ 64 := Nat.clog_le_of_le_pow count.toNat_lt.le
  have next : nextPowerOf2 count = UInt64.ofNat (2 ^ Nat.clog 2 count.toNat) := by
    rw [← UInt64.toNat_inj, toNat_nextPowerOf2 positive, UInt64.toNat_ofNat']
  have nonzero : count ≠ 0 := by
    rintro rfl
    exact absurd positive (by decide)
  have depth := clzPower2_two_pow ⟨Nat.clog 2 count.toNat, by omega⟩
  rw [calcluateMaxDepth, if_neg nonzero, next, Nat.add_sub_cancel]
  exact depth

/-! ### The active nodes -/

namespace IncrementalMerkle

theorem and_one_eq_zero_iff (isCount : index.toNat = count) : index &&& 1 = 0 ↔ count % 2 = 0 := by
  rw [← UInt64.toNat_inj, UInt64.toNat_and, isCount]
  exact ⟨fun zero => (Nat.and_one_is_mod count).symm.trans zero,
    fun even => (Nat.and_one_is_mod count).trans even⟩

theorem toNat_shiftRight_one (isCount : index.toNat = count) : (index >>> 1).toNat = count / 2 := by
  rw [UInt64.toNat_shiftRight, isCount]
  exact Nat.shiftRight_one count

/-- The nodes of a level before the one that is collapsed, one of them without a sibling. -/
theorem exists_concat_of_odd {nodes : List Digest} (odd : ¬ nodes.length % 2 = 0) :
    ∃ before left, nodes = before ++ [left] ∧ before.length % 2 = 0 := by
  obtain ⟨before, left, rfl⟩ := (eq_nil_or_concat' nodes).resolve_left
    (fun empty => odd (by rw [empty]; rfl))
  rw [length_append, length_singleton] at odd
  exact ⟨before, left, rfl, by omega⟩

section

variable {depth : Nat} {index : UInt64} {nodes : List Digest} (isIndex : index.toNat = nodes.length)
  (below : nodes.length < 2 ^ depth) (last : Digest) (extra updated : List Digest)

include isIndex below last extra updated

/-- Above a partial node, the settled nodes on the left are kept. -/
theorem collapse_aboveDoubled :
    collapse hash depth index true last (settled hash depth nodes ++ extra) updated =
      updated ++ settled hash depth nodes ++ (parents hash)^[depth] (nodes ++ [last]) := by
  induction depth generalizing index nodes last updated with
  | zero =>
    have empty : nodes = [] := by simpa using below
    simp [empty, collapse, settled]
  | succ depth ih =>
    rw [collapse, Function.iterate_succ_apply]
    by_cases even : nodes.length % 2 = 0
    · rw [if_pos ((and_one_eq_zero_iff isIndex).mpr even), if_pos rfl,
        settled_succ_even hash even, parents_append_single hash even]
      apply ih
      · rw [toNat_shiftRight_one isIndex, length_fullParents]
      · rw [length_fullParents]
        omega
    · rw [if_neg (mt (and_one_eq_zero_iff isIndex).mp even)]
      obtain ⟨before, left, rfl, evenBefore⟩ := exists_concat_of_odd even
      rw [settled_succ_odd hash evenBefore, parents_eq_fullParents hash (by simp; omega),
        fullParents_append_pair hash evenBefore]
      rw [length_append, length_singleton] at isIndex below
      dsimp only
      rw [if_pos rfl, cons_append, headD_cons, tail_cons, ih]
      · simp
      · rw [toNat_shiftRight_one isIndex, length_fullParents]
        omega
      · rw [length_fullParents]
        omega

/-- A new leaf is settled with the nodes that it completes; the top comes last. -/
theorem collapse_settled :
    ∃ rest,
      collapse hash depth index false last (settled hash depth nodes ++ extra) updated =
        updated ++ settled hash (depth + 1) (nodes ++ [last]) ++ rest ∧
      ∃ initial, collapse hash depth index false last (settled hash depth nodes ++ extra)
            updated = initial ++ (parents hash)^[depth] (nodes ++ [last]) := by
  induction depth generalizing index nodes last with
  | zero =>
    have empty : nodes = [] := by simpa using below
    refine ⟨[], ?_, updated, ?_⟩
    · simp [empty, collapse, settled]
    · simp [empty, collapse]
  | succ depth ih =>
    rw [collapse, Function.iterate_succ_apply]
    by_cases even : nodes.length % 2 = 0
    · rw [if_pos ((and_one_eq_zero_iff isIndex).mpr even), if_neg Bool.false_ne_true,
        settled_succ_even hash even, parents_append_single hash even,
        settled_succ_odd hash even]
      have reached : (fullParents hash nodes).length < 2 ^ depth := by
        rw [length_fullParents]
        omega
      have collapsed := @collapse_aboveDoubled hash depth (index >>> 1) (fullParents hash nodes)
        (by rw [toNat_shiftRight_one isIndex, length_fullParents]) reached
        (hash last last) extra (updated ++ [last])
      rw [collapsed, settled_succ hash reached]
      refine ⟨(parents hash)^[depth] (fullParents hash nodes ++ [hash last last]), ?_, _, rfl⟩
      simp
    · rw [if_neg (mt (and_one_eq_zero_iff isIndex).mp even)]
      obtain ⟨before, left, rfl, evenBefore⟩ := exists_concat_of_odd even
      rw [settled_succ_odd hash evenBefore, parents_eq_fullParents hash (by simp; omega),
        settled_succ_even hash (by simp; omega),
        fullParents_append_pair hash evenBefore]
      rw [length_append, length_singleton] at isIndex below
      dsimp only
      rw [if_neg Bool.false_ne_true, cons_append, headD_cons, tail_cons]
      apply ih
      · rw [toNat_shiftRight_one isIndex, length_fullParents]
        omega
      · rw [length_fullParents]
        omega

end

/-! ### Agreement -/

structure Represents (hash : Digest → Digest → Digest) (tree : IncrementalMerkle)
    (digests : List Digest) : Prop where
  nodeCount : tree.nodeCount.toNat = digests.length
  settled : ∃ rest, tree.activeNodes = settled hash (Nat.clog 2 digests.length + 1) digests ++ rest
  root : 0 < digests.length → ∃ initial, tree.activeNodes =
    initial ++ (parents hash)^[Nat.clog 2 digests.length] digests

theorem represents_empty : Represents hash {} [] where
  nodeCount := rfl
  settled := ⟨[], by simp [settled, fullParents]⟩
  root := fun positive => absurd positive (by decide)

theorem Represents.append {tree : IncrementalMerkle} {digests : List Digest}
    (represents : Represents hash tree digests) (fits : digests.length + 1 < 2 ^ 64)
    (digest : Digest) : Represents hash (tree.append hash digest) (digests ++ [digest]) := by
  have count : (tree.nodeCount + 1).toNat = digests.length + 1 := by
    rw [UInt64.toNat_add, represents.nodeCount]
    exact Nat.mod_eq_of_lt fits
  have depth := @calcluateMaxDepth_eq (tree.nodeCount + 1) (by omega)
  rw [count] at depth
  have below : digests.length < 2 ^ Nat.clog 2 (digests.length + 1) := Nat.le_pow_clog (by decide) _
  have reached : digests.length < 2 ^ (Nat.clog 2 digests.length + 1) := by
    have le := Nat.le_pow_clog (b := 2) (by decide) digests.length
    rw [Nat.pow_succ]
    have positive := Nat.two_pow_pos (Nat.clog 2 digests.length)
    omega
  obtain ⟨extra, active⟩ := represents.settled
  rw [settled_eq hash reached below] at active
  obtain ⟨rest, isSettled, initial, isRoot⟩ :=
    @collapse_settled hash _ _ _ represents.nodeCount below digest extra []
  have nodes : (tree.append hash digest).activeNodes = collapse hash
      (Nat.clog 2 (digests.length + 1)) tree.nodeCount false digest
        (BalancedTree.settled hash (Nat.clog 2 (digests.length + 1)) digests ++ extra) [] := by
    rw [IncrementalMerkle.append, depth, active]
  have length : (digests ++ [digest]).length = digests.length + 1 := by simp
  refine ⟨by rw [length]; exact count, ⟨rest, ?_⟩, fun _ => ⟨initial, ?_⟩⟩
  · rw [nodes, length, isSettled, nil_append]
  · rw [nodes, length, isRoot]

theorem represents_foldl {digests : List Digest} (fits : digests.length < 2 ^ 64) :
    Represents hash (digests.foldl (append hash) {}) digests := by
  induction digests using List.reverseRecOn with
  | nil => exact represents_empty
  | append_singleton digests digest ih =>
    rw [length_append, length_singleton] at fits
    rw [foldl_append, foldl_cons, foldl_nil]
    exact (ih (by omega)).append fits digest

/-- **The two roots agree**: whatever the hash of a pair is, the tree to which the digests of a
list are appended in order has the root that `merkle` computes from the list. -/
theorem getRoot_eq_merkle (hash : Digest → Digest → Digest) (digests : List Digest)
    (fits : digests.length < 2 ^ 64) :
    (digests.foldl (append hash) {}).getRoot = merkle hash digests := by
  have represents := @represents_foldl hash digests fits
  unfold getRoot
  rcases Nat.eq_zero_or_pos digests.length with empty | positive
  · rw [eq_nil_of_length_eq_zero empty]
    rfl
  · obtain ⟨initial, active⟩ := represents.root positive
    have counted : 0 < (digests.foldl (append hash) {}).nodeCount := by
      rw [UInt64.lt_iff_toNat_lt, represents.nodeCount]
      exact positive
    have single := length_iterate_parents hash positive (Nat.le_pow_clog (by decide) _)
    obtain ⟨root, isRoot⟩ := length_eq_one_iff.mp single
    rw [if_pos counted, active, merkle_eq positive, isRoot]
    simp

/-- Five digests: on three levels a node is doubled. -/
theorem getRoot_eq_merkle_five :
    ([1, 2, 3, 4, 5].foldl (append fun left right => 10 * left + right) {}).getRoot =
      merkle (fun left right => 10 * left + right) [1, 2, 3, 4, 5] :=
  getRoot_eq_merkle _ _ (by decide)

end IncrementalMerkle

end CodexRelay.Chain
