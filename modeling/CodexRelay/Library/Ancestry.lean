import Mathlib.Data.List.Chain

/-!
Contract: ancestors in a store of nodes that name their parents.

Owns:
- `Linkage`, nodes with a key, the key of their parent and a generation number;
- `Path`, a segment of the way from a node to its ancestors;
- `NearestCommon`, the ancestor at which two ways meet;
- `ancestry`, the whole way, as a function that computes it.

A store is a partial function from keys to nodes. Inserting, removing and
cutting off nodes are changes of that function, and `Path.mono` says which paths
survive them.
-/

namespace CodexRelay.Library

open List

/-- How nodes are linked. A node is one generation after its parent, so that no
walk to the ancestors is endless. -/
structure Linkage (κ ν : Type*) where
  key : ν → κ
  parent : ν → κ
  generation : κ → Nat
  generation_key : ∀ node, generation (key node) = generation (parent node) + 1

namespace Linkage

variable {κ ν : Type*} (link : Linkage κ ν)

def Keyed (find : κ → Option ν) : Prop :=
  ∀ key node, find key = some node → link.key node = key

/-! ### Paths -/

/-- `Path find from nodes top`: the walk from key `from` passes `nodes`, the
newest first, and arrives at key `top`. -/
inductive Path (find : κ → Option ν) : κ → List ν → κ → Prop where
  | nil (key : κ) : Path find key [] key
  | cons {key top : κ} {node : ν} {older : List ν} (found : find key = some node)
      (rest : Path find (link.parent node) older top) : Path find key (node :: older) top

namespace Path

variable {link} {find find' : κ → Option ν} {key top : κ} {nodes : List ν}

theorem nil_iff : link.Path find key [] top ↔ key = top := by
  constructor
  · intro path
    cases path
    rfl
  · rintro rfl
    exact .nil key

theorem trans {middle : κ} {older : List ν} (first : link.Path find key nodes middle)
    (second : link.Path find middle older top) : link.Path find key (nodes ++ older) top := by
  induction first with
  | nil => exact second
  | cons found _ ih => exact .cons found (ih second)

theorem split {newer older : List ν} (path : link.Path find key (newer ++ older) top) :
    ∃ middle, link.Path find key newer middle ∧ link.Path find middle older top := by
  induction newer generalizing key with
  | nil => exact ⟨key, .nil key, path⟩
  | cons node newer ih =>
    cases path with
    | cons found rest =>
      obtain ⟨middle, first, second⟩ := ih rest
      exact ⟨middle, .cons found first, second⟩

section

variable (path : link.Path find key nodes top)

include path

section

variable (keyed : link.Keyed find)

include keyed

theorem found : ∀ node ∈ nodes, find (link.key node) = some node := by
  induction path with
  | nil => simp
  | cons found _ ih =>
    intro node member
    rcases mem_cons.mp member with rfl | older
    · rw [keyed _ _ found]
      exact found
    · exact ih node older

/-- A path survives every change of the store that keeps its nodes. -/
theorem mono (kept : ∀ node ∈ nodes, find' (link.key node) = some node) :
    link.Path find' key nodes top := by
  induction path with
  | nil => exact .nil _
  | cons found _ ih =>
    refine .cons ?_ (ih fun node member => kept node (.tail _ member))
    rw [← keyed _ _ found]
    exact kept _ (.head _)

theorem generation_eq : link.generation key = link.generation top + nodes.length := by
  induction path with
  | nil => rfl
  | cons found _ ih =>
    rw [← keyed _ _ found, link.generation_key, ih, length_cons]
    omega

end

theorem unique {top' : κ} {nodes' : List ν} (path' : link.Path find key nodes' top')
    (length : nodes.length = nodes'.length) : nodes = nodes' ∧ top = top' := by
  induction path generalizing nodes' with
  | nil =>
    cases path' with
    | nil => exact ⟨rfl, rfl⟩
    | cons => simp at length
  | cons found _ ih =>
    cases path' with
    | nil => simp at length
    | cons found' rest' =>
      obtain rfl := Option.some.inj (found.symm.trans found')
      obtain ⟨rfl, rfl⟩ := ih rest' (by simpa using length)
      exact ⟨rfl, rfl⟩

theorem getLast?_parent (nonempty : nodes ≠ []) : (nodes.map link.parent).getLast? = some top := by
  induction path with
  | nil => exact absurd rfl nonempty
  | @cons _ _ node older found rest ih =>
    cases older with
    | nil =>
      rw [nil_iff] at rest
      simp [rest]
    | cons next older =>
      rw [map_cons, map_cons, getLast?_cons_cons]
      exact ih (by simp)

section

variable (keyed : link.Keyed find)

include keyed

theorem generation_getElem? {index : Nat} {node : ν} (position : nodes[index]? = some node) :
    link.generation (link.key node) + index = link.generation key := by
  induction path generalizing index with
  | nil => simp at position
  | @cons _ _ head _ found _ ih =>
    cases index with
    | zero =>
      obtain rfl := Option.some.inj position
      rw [keyed _ _ found, Nat.add_zero]
    | succ index =>
      have older := ih (by simpa using position)
      rw [← keyed _ _ found, link.generation_key head]
      omega

theorem generation_le {node : ν} (member : node ∈ nodes) :
    link.generation (link.key node) ≤ link.generation key := by
  obtain ⟨index, position⟩ := mem_iff_getElem?.mp member
  have := path.generation_getElem? keyed position
  omega

theorem lt_generation {node : ν} (member : node ∈ nodes) :
    link.generation top < link.generation (link.key node) := by
  obtain ⟨index, position⟩ := mem_iff_getElem?.mp member
  have count := path.generation_getElem? keyed position
  have total := path.generation_eq keyed
  have inside := (List.getElem?_eq_some_iff.mp position).1
  omega

theorem isChain : nodes.IsChain fun newer older => link.parent newer = link.key older := by
  induction path with
  | nil => exact .nil
  | cons _ rest ih =>
    refine isChain_cons.mpr ⟨fun older isFirst => ?_, ih⟩
    cases rest with
    | nil => cases isFirst
    | cons found _ =>
      obtain rfl := Option.some.inj isFirst
      exact (keyed _ _ found).symm

theorem exists_generation {generation : Nat} (above : link.generation top < generation)
    (below : generation ≤ link.generation key) :
    ∃ node ∈ nodes, link.generation (link.key node) = generation := by
  have total := path.generation_eq keyed
  have inside : link.generation key - generation < nodes.length := by omega
  refine ⟨nodes[link.generation key - generation], getElem_mem _, ?_⟩
  have count := path.generation_getElem? keyed (getElem?_eq_getElem inside)
  omega

theorem filter_generation (bound : Nat) : ∃ start, link.Path find start
      (nodes.filter fun node => link.generation (link.key node) ≤ bound) top := by
  induction path with
  | nil key => exact ⟨key, .nil key⟩
  | @cons key top node older found rest ih =>
    by_cases inside : link.generation (link.key node) ≤ bound
    · have all : (node :: older).filter (fun node => link.generation (link.key node) ≤ bound) =
          node :: older := by
        refine filter_eq_self.mpr fun other member => decide_eq_true ?_
        have le := (Path.cons found rest).generation_le keyed member
        rw [← keyed _ _ found] at le
        exact le.trans inside
      rw [all]
      exact ⟨key, .cons found rest⟩
    · rw [filter_cons_of_neg (by simpa using inside)]
      exact ih

end

section

variable {top' : κ} {nodes' : List ν} (path' : link.Path find key nodes' top')

include path'

/-- The longer of two walks from one key goes on from the end of the shorter one. -/
theorem through (le : nodes.length ≤ nodes'.length) :
    ∃ older, nodes' = nodes ++ older ∧ link.Path find top older top' := by
  induction path generalizing nodes' with
  | nil => exact ⟨nodes', rfl, path'⟩
  | cons found _ ih =>
    cases path' with
    | nil => simp at le
    | cons found' rest' =>
      obtain rfl := Option.some.inj (found.symm.trans found')
      obtain ⟨older, rfl, rest⟩ := ih rest' (by simpa using le)
      exact ⟨older, rfl, rest⟩

/-- What a walk passes on the way to an ancestor of one of its ends. -/
theorem mem_of_lt (lt : nodes'.length < nodes.length) : ∃ node ∈ nodes, find top' = some node := by
  obtain ⟨older, rfl, rest⟩ := path'.through path lt.le
  cases rest with
  | nil => simp at lt
  | cons found _ => exact ⟨_, mem_append_right _ mem_cons_self, found⟩

end

end

end Path

/-- A common ancestor of two keys such that every other one is an ancestor of it. -/
structure NearestCommon (find : κ → Option ν) (first second common : κ) : Prop where
  ofFirst : ∃ nodes, link.Path find first nodes common
  ofSecond : ∃ nodes, link.Path find second nodes common
  nearest : ∀ {other : κ}, (∃ nodes, link.Path find first nodes other) →
    (∃ nodes, link.Path find second nodes other) → ∃ nodes, link.Path find common nodes other

/-- Two walks that pass different nodes meet at the nearest common ancestor. -/
theorem nearestCommon_of_disjoint {link : Linkage κ ν} {find : κ → Option ν}
    {first second common : κ} {firstNodes secondNodes : List ν} (keyed : link.Keyed find)
    (firstPath : link.Path find first firstNodes common)
    (secondPath : link.Path find second secondNodes common)
    (disjoint : ∀ node ∈ firstNodes, node ∉ secondNodes) :
    link.NearestCommon find first second common where
  ofFirst := ⟨firstNodes, firstPath⟩
  ofSecond := ⟨secondNodes, secondPath⟩
  nearest := by
    rintro other ⟨firstOther, firstReaches⟩ ⟨secondOther, secondReaches⟩
    rcases Nat.lt_or_ge firstOther.length firstNodes.length with above | below
    · -- The other ancestor is a node of both walks.
      have lt : secondOther.length < secondNodes.length := by
        have firstCount := firstPath.generation_eq keyed
        have secondCount := secondPath.generation_eq keyed
        have firstOtherCount := firstReaches.generation_eq keyed
        have secondOtherCount := secondReaches.generation_eq keyed
        omega
      obtain ⟨node, member, found⟩ := firstPath.mem_of_lt firstReaches above
      obtain ⟨node', member', found'⟩ := secondPath.mem_of_lt secondReaches lt
      obtain rfl := Option.some.inj (found.symm.trans found')
      exact absurd member' (disjoint node member)
    · obtain ⟨older, -, rest⟩ := firstPath.through firstReaches below
      exact ⟨older, rest⟩

/-! ### The whole way up -/

/-- The walk to the ancestors, at most `fuel` steps of it. -/
def climb (find : κ → Option ν) : (fuel : Nat) → κ → List ν
  | 0, _ => []
  | fuel + 1, key =>
    match find key with
    | none => []
    | some node => node :: climb find fuel (link.parent node)

/-- The walk to the ancestors; the generation of the key bounds its length. -/
def ancestry (find : κ → Option ν) (key : κ) : List ν :=
  link.climb find (link.generation key + 1) key

variable {link} {find find' : κ → Option ν} {key top : κ} {nodes : List ν}

theorem climb_path (keyed : link.Keyed find) {fuel : Nat} (enough : link.generation key < fuel) :
    ∃ top, link.Path find key (link.climb find fuel key) top ∧ find top = none := by
  induction fuel generalizing key with
  | zero => omega
  | succ fuel ih =>
    unfold climb
    cases found : find key with
    | none => exact ⟨key, .nil key, found⟩
    | some node =>
      have own := link.generation_key node
      rw [keyed _ _ found] at own
      have enough' : link.generation (link.parent node) < fuel := by omega
      obtain ⟨top, rest, missing⟩ := ih enough'
      exact ⟨top, .cons found rest, missing⟩

theorem ancestry_path (keyed : link.Keyed find) (key : κ) :
    ∃ top, link.Path find key (link.ancestry find key) top ∧ find top = none :=
  climb_path keyed (Nat.lt_succ_self _)

section

variable (path : link.Path find key nodes top) (keyed : link.Keyed find)

include path keyed

theorem Path.ancestry_eq_of_missing (missing : find top = none)
    : link.ancestry find key = nodes := by
  obtain ⟨top', path', missing'⟩ := ancestry_path keyed key
  generalize link.ancestry find key = nodes' at path'
  clear keyed
  induction path generalizing nodes' with
  | nil =>
    cases path' with
    | nil => rfl
    | cons found => simp [missing] at found
  | cons found _ ih =>
    cases path' with
    | nil => simp [missing'] at found
    | cons found' rest' =>
      obtain rfl := Option.some.inj (found.symm.trans found')
      rw [ih missing _ rest']

end

end Linkage

end CodexRelay.Library
