import CodexRelay.Library.Justification
import CodexRelay.Chain.ApplyContext.Model

/-!
Contract: whether keys, permissions and a delay satisfy an authority.

Owns:
- the entries of an authority and the order in which they are visited;
- `authority_checker`, with its cache of permissions and its marks of used keys;
- what an authority needs, said without the cache: `Reaches`.

Does not own: `checktime`, which does nothing to the result of a check that it lets come to its end.

The function that gives the authority of a permission is a parameter. It throws where there is no
such permission.
-/

namespace CodexRelay.Chain

open Library

variable {entry : MetaPermission} {known : PermissionLevel → Prop}

/-! ### The entries of an authority -/

inductive MetaPermission where
  | permissionLevel (entry : PermissionLevelWeight)
  | key (entry : KeyWeight)
  | wait (entry : WaitWeight)

namespace MetaPermission

/-- `get_weight_visitor`. -/
def weight : MetaPermission → Nat
  | permissionLevel entry => entry.weight
  | key entry => entry.weight
  | wait entry => entry.weight

def which : MetaPermission → Nat
  | permissionLevel _ => 0
  | key _ => 1
  | wait _ => 2

/-- `meta_permission_comparator`, whether an entry is visited before another one. -/
def precedes (lhs rhs : MetaPermission) : Bool :=
  rhs.weight < lhs.weight ∨ lhs.weight = rhs.weight ∧ rhs.which < lhs.which

end MetaPermission

/-- The entries of an authority in the order in which they are put in `permissions`. -/
def Authority.metaPermissions (authority : Authority) : List MetaPermission :=
  authority.waits.map .wait ++ authority.keys.map .key ++ authority.accounts.map .permissionLevel

def totalWeight (entries : List MetaPermission) : Nat := (entries.map MetaPermission.weight).sum

@[simp] theorem totalWeight_cons (entry : MetaPermission) (entries : List MetaPermission) :
    totalWeight (entry :: entries) = entry.weight + totalWeight entries := by
  simp [totalWeight]

/-- `flat_multiset<meta_permission, meta_permission_comparator>`: it puts the entries in the order
of the comparator and leaves the order of equal ones open. -/
structure MetaPermissionSet where
  sort : List MetaPermission → List MetaPermission
  perm : ∀ entries, (sort entries).Perm entries
  sorted : ∀ entries, (sort entries).Pairwise fun lhs rhs => ¬ rhs.precedes lhs

/-- An entry that is put in stands behind the entries equal to it. -/
def MetaPermissionSet.stable : MetaPermissionSet where
  sort entries := entries.insertionSort fun lhs rhs => ¬ rhs.precedes lhs
  perm := List.perm_insertionSort _
  sorted := by
    have total : Std.Total fun lhs rhs : MetaPermission => ¬ rhs.precedes lhs := by
      constructor
      intro lhs rhs
      simp only [MetaPermission.precedes, decide_eq_true_eq]
      omega
    have trans : IsTrans MetaPermission fun lhs rhs => ¬ rhs.precedes lhs := by
      constructor
      intro first second third
      simp only [MetaPermission.precedes, decide_eq_true_eq]
      omega
    exact List.pairwise_insertionSort _

/-! ### The checker -/

inductive PermissionCacheStatus where
  | beingEvaluated
  | permissionUnsatisfied
  | permissionSatisfied
deriving DecidableEq

abbrev PermissionCache := PermissionLevel → Option PermissionCacheStatus

/-- What a check changes: the cache of the call and the marks of the checker. -/
structure CheckState where
  cachedPermissions : PermissionCache
  usedKeys : Finset PublicKey

namespace CheckState

/-- `cached_permissions.emplace( permission, status )`, `itr->second = status`. -/
def setStatus (state : CheckState) (permission : PermissionLevel) (status : PermissionCacheStatus) :
    CheckState :=
  { state with cachedPermissions := Function.update state.cachedPermissions permission (some status) }

def statusInCache (state : CheckState) (level : PermissionLevel) : Option PermissionCacheStatus :=
  match state.cachedPermissions level with
  | some status => some status
  | none => state.cachedPermissions ⟨level.actor, 0⟩

def markKey (state : CheckState) (key : PublicKey) : CheckState :=
  { state with usedKeys := insert key state.usedKeys }

end CheckState

/-- `authority_checker`, without the marks of used keys. -/
structure AuthorityChecker where
  permissionToAuthority : PermissionLevel → Checked Authority
  recursionDepthLimit : Nat
  providedKeys : Finset PublicKey
  providedPermissions : Finset PermissionLevel := ∅
  providedDelay : Int := 0
  permissionSet : MetaPermissionSet

/-- A call of `satisfied` on an authority one level deeper. -/
abbrev Deeper := Authority → CheckState → Checked (Bool × CheckState)

def addWeight (totalWeight weight : Nat) : Nat := (totalWeight + weight) % 2 ^ 32

/-- `get_permission( p ).auth` for permissions that stand in a list. -/
def permissionToAuthorityIn (permissions : List (PermissionLevel × Authority))
    (level : PermissionLevel) : Checked Authority :=
  (permissions.lookup level).elim
    (.error ⟨.permissionQueryException, "Failed to retrieve permission: ${level} (${what})"⟩) .ok

namespace AuthorityChecker

variable (checker : AuthorityChecker)

def initializePermissionCache : PermissionCache := fun permission =>
  if permission ∈ checker.providedPermissions then some .permissionSatisfied else none

/-- The part of the visit to an account permission after `satisfied` has come to a result. -/
def settle (permission : PermissionLevelWeight) (totalWeight : Nat) (r : Bool) (state : CheckState) :
    Nat × CheckState :=
  if r then
    (addWeight totalWeight permission.weight,
      state.setStatus permission.permission .permissionSatisfied)
  else (totalWeight, state.setStatus permission.permission .permissionUnsatisfied)

/-- The visit to an account permission that is not in the cache, above the depth limit. -/
def evaluate (satisfied : Deeper) (permission : PermissionLevelWeight) (totalWeight : Nat)
    (state : CheckState) : Checked (Nat × CheckState) :=
  match checker.permissionToAuthority permission.permission with
  | .error thrown =>
    -- a permission that does not exist is left out
    if thrown.code = .permissionQueryException then .ok (totalWeight, state) else .error thrown
  | .ok auth => do
      let (r, state) ← satisfied auth (state.setStatus permission.permission .beingEvaluated)
      return settle permission totalWeight r state

/-- `weight_tally_visitor` on an account permission; `deeper` is there below the depth limit. -/
def visitPermissionLevel (deeper : Option Deeper) (permission : PermissionLevelWeight)
    (totalWeight : Nat) (state : CheckState) : Checked (Nat × CheckState) :=
  match state.statusInCache permission.permission with
  | none => deeper.elim (.ok (totalWeight, state)) fun satisfied =>
    checker.evaluate satisfied permission totalWeight state
  | some .permissionSatisfied => .ok (addWeight totalWeight permission.weight, state)
  | some _ => .ok (totalWeight, state)

/-- `weight_tally_visitor`. -/
def visit (deeper : Option Deeper) (totalWeight : Nat) (state : CheckState) :
    MetaPermission → Checked (Nat × CheckState)
  | .wait permission =>
    if 1000000 * (permission.waitSec : Int) ≤ checker.providedDelay then
      .ok (addWeight totalWeight permission.weight, state)
    else .ok (totalWeight, state)
  | .key permission =>
    if permission.key ∈ checker.providedKeys then
      .ok (addWeight totalWeight permission.weight, state.markKey permission.key)
    else .ok (totalWeight, state)
  | .permissionLevel permission => checker.visitPermissionLevel deeper permission totalWeight state

/-- The loop of `satisfied` over the entries of an authority. -/
def tally (deeper : Option Deeper) (threshold : Nat) :
    List MetaPermission → Nat → CheckState → Checked (Bool × CheckState)
  | [], _, state => .ok (false, state)
  | permission :: rest, totalWeight, state => do
      let (totalWeight, state) ← checker.visit deeper totalWeight state permission
      if threshold ≤ totalWeight then .ok (true, state)
      else tally deeper threshold rest totalWeight state

/-- `KeyReverter`: the marks of an authority that is not satisfied are taken back. -/
def revertKeys (usedKeys : Finset PublicKey) (result : Bool × CheckState) : Bool × CheckState :=
  if result.1 then result else (false, { result.2 with usedKeys := usedKeys })

/-- `satisfied` on an authority, with the call it makes one level deeper. -/
def satisfiedWith (deeper : Option Deeper) (authority : Authority) (state : CheckState) :
    Checked (Bool × CheckState) := do
  let result ← checker.tally deeper authority.threshold
    (checker.permissionSet.sort authority.metaPermissions) 0 state
  return revertKeys state.usedKeys result

/-- `satisfied` on an authority, so many levels above the depth limit. -/
def satisfiedAt : (levels : Nat) → Deeper
  | 0 => checker.satisfiedWith none
  | levels + 1 => checker.satisfiedWith (some (satisfiedAt levels))

/-- The call that a visit makes one level deeper, so many levels above the depth limit. -/
def deeperAt : (levels : Nat) → Option Deeper
  | 0 => none
  | levels + 1 => some (checker.satisfiedAt levels)

/-- The state in which a call from outside starts. -/
def start (usedKeys : Finset PublicKey) : CheckState :=
  ⟨checker.initializePermissionCache, usedKeys⟩

def satisfiedAuthority (authority : Authority) (usedKeys : Finset PublicKey) :
    Checked (Bool × Finset PublicKey) := do
  let (r, state) ← checker.satisfiedAt checker.recursionDepthLimit authority (checker.start usedKeys)
  return (r, state.usedKeys)

inductive Visit (deeper : Option Deeper) :
    MetaPermission → Nat × CheckState → Nat × CheckState → Prop
  | waitElapsed {permission : WaitWeight} {totalWeight : Nat} {state : CheckState}
      (elapsed : 1000000 * (permission.waitSec : Int) ≤ checker.providedDelay) :
      Visit deeper (.wait permission) (totalWeight, state)
        (addWeight totalWeight permission.weight, state)
  | waitPending {permission : WaitWeight} {totalWeight : Nat} {state : CheckState}
      (pending : ¬ 1000000 * (permission.waitSec : Int) ≤ checker.providedDelay) :
      Visit deeper (.wait permission) (totalWeight, state) (totalWeight, state)
  | keyProvided {permission : KeyWeight} {totalWeight : Nat} {state : CheckState}
      (provided : permission.key ∈ checker.providedKeys) :
      Visit deeper (.key permission) (totalWeight, state)
        (addWeight totalWeight permission.weight, state.markKey permission.key)
  | keyMissing {permission : KeyWeight} {totalWeight : Nat} {state : CheckState}
      (missing : permission.key ∉ checker.providedKeys) :
      Visit deeper (.key permission) (totalWeight, state) (totalWeight, state)
  | cachedSatisfied {permission : PermissionLevelWeight} {totalWeight : Nat} {state : CheckState}
      (status : state.statusInCache permission.permission = some .permissionSatisfied) :
      Visit deeper (.permissionLevel permission) (totalWeight, state)
        (addWeight totalWeight permission.weight, state)
  | cachedOther {permission : PermissionLevelWeight} {totalWeight : Nat} {state : CheckState}
      {other : PermissionCacheStatus} (status : state.statusInCache permission.permission = some other)
      (notSatisfied : other ≠ .permissionSatisfied) :
      Visit deeper (.permissionLevel permission) (totalWeight, state) (totalWeight, state)
  | tooDeep {permission : PermissionLevelWeight} {totalWeight : Nat} {state : CheckState}
      (status : state.statusInCache permission.permission = none) (limit : deeper = none) :
      Visit deeper (.permissionLevel permission) (totalWeight, state) (totalWeight, state)
  | noPermission {permission : PermissionLevelWeight} {totalWeight : Nat} {state : CheckState}
      {satisfied : Deeper} {thrown : ChainException}
      (status : state.statusInCache permission.permission = none) (level : deeper = some satisfied)
      (lookup : checker.permissionToAuthority permission.permission = .error thrown)
      (missing : thrown.code = .permissionQueryException) :
      Visit deeper (.permissionLevel permission) (totalWeight, state) (totalWeight, state)
  | evaluated {permission : PermissionLevelWeight} {totalWeight : Nat} {state after : CheckState}
      {satisfied : Deeper} {auth : Authority} {r : Bool}
      (status : state.statusInCache permission.permission = none) (level : deeper = some satisfied)
      (lookup : checker.permissionToAuthority permission.permission = .ok auth)
      (ran : satisfied auth (state.setStatus permission.permission .beingEvaluated) =
        .ok (r, after)) :
      Visit deeper (.permissionLevel permission) (totalWeight, state)
        (settle permission totalWeight r after)

theorem visit_eq_ok_iff {deeper : Option Deeper} {totalWeight : Nat} {state : CheckState}
    {result : Nat × CheckState} :
    checker.visit deeper totalWeight state entry = .ok result ↔
      checker.Visit deeper entry (totalWeight, state) result := by
  constructor
  · intro ran
    cases entry with
    | wait permission =>
      simp only [visit] at ran
      split_ifs at ran with elapsed <;> cases ran
      · exact .waitElapsed elapsed
      · exact .waitPending elapsed
    | key permission =>
      simp only [visit] at ran
      split_ifs at ran with provided <;> cases ran
      · exact .keyProvided provided
      · exact .keyMissing provided
    | permissionLevel permission =>
      simp only [visit, visitPermissionLevel] at ran
      split at ran
      · rename_i status
        cases level : deeper with
        | none =>
          rw [level] at ran
          cases ran
          exact .tooDeep status rfl
        | some satisfied =>
          rw [level] at ran
          simp only [Option.elim_some, evaluate] at ran
          split at ran
          · rename_i thrown lookup
            split_ifs at ran with missing
            cases ran
            exact .noPermission status rfl lookup missing
          · rename_i auth lookup
            obtain ⟨⟨r, after⟩, inner, ended⟩ := of_bind ran
            cases ended
            exact .evaluated status rfl lookup inner
      · rename_i status
        cases ran
        exact .cachedSatisfied status
      · rename_i other notSatisfied status
        cases ran
        exact .cachedOther status (by simpa using notSatisfied)
  · intro visited
    cases visited with
    | waitElapsed elapsed => simp only [visit, elapsed, if_true]
    | waitPending pending => simp only [visit, pending, if_false]
    | keyProvided provided => simp only [visit, provided, if_true]
    | keyMissing missing => simp only [visit, missing, if_false]
    | cachedSatisfied status => simp only [visit, visitPermissionLevel, status]
    | @cachedOther permission _ _ other status notSatisfied =>
      cases other with
      | permissionSatisfied => exact absurd rfl notSatisfied
      | beingEvaluated => simp only [visit, visitPermissionLevel, status]
      | permissionUnsatisfied => simp only [visit, visitPermissionLevel, status]
    | tooDeep status limit =>
      simp only [visit, visitPermissionLevel, status, limit, Option.elim_none]
    | noPermission status level lookup missing =>
      simp only [visit, visitPermissionLevel, status, level, Option.elim_some, evaluate, lookup,
        missing, if_true]
    | evaluated status level lookup ran =>
      simp only [visit, visitPermissionLevel, status, level, Option.elim_some, evaluate, lookup,
        ran]
      rfl

end AuthorityChecker

/-! ### What an authority needs -/

namespace AuthorityChecker

variable (checker : AuthorityChecker)

/-- An entry counts: its wait is over, its key is provided, or its permission is known. A permission
with an empty name stands for every permission of its actor. -/
def Counts (known : PermissionLevel → Prop) : MetaPermission → Prop
  | .wait permission => 1000000 * (permission.waitSec : Int) ≤ checker.providedDelay
  | .key permission => permission.key ∈ checker.providedKeys
  | .permissionLevel permission =>
    known permission.permission ∨ known ⟨permission.permission.actor, 0⟩

open Classical in
noncomputable def countedWeight (known : PermissionLevel → Prop) (entries : List MetaPermission) : Nat :=
  totalWeight (entries.filter fun entry => checker.Counts known entry)

/-- The entries of an authority that count reach its threshold. -/
def Reaches (known : PermissionLevel → Prop) (authority : Authority) : Prop :=
  authority.threshold ≤ checker.countedWeight known authority.metaPermissions

def Provided (permission : PermissionLevel) : Prop := permission ∈ checker.providedPermissions

/-- Known permissions are enough for another one: it exists, and its authority is reached. -/
def Grants (known : PermissionLevel → Prop) (permission : PermissionLevel) : Prop :=
  ∃ authority, checker.permissionToAuthority permission = .ok authority ∧
    checker.Reaches known authority

variable {checker}

@[simp] theorem countedWeight_nil (known : PermissionLevel → Prop) :
    checker.countedWeight known [] = 0 := rfl

theorem countedWeight_cons_of_counts (counts : checker.Counts known entry)
    (entries : List MetaPermission) :
    checker.countedWeight known (entry :: entries) =
      entry.weight + checker.countedWeight known entries := by
  simp [countedWeight, counts]

theorem countedWeight_cons_of_not_counts (counts : ¬ checker.Counts known entry)
    (entries : List MetaPermission) :
    checker.countedWeight known (entry :: entries) = checker.countedWeight known entries := by
  simp [countedWeight, counts]

theorem countedWeight_perm (known : PermissionLevel → Prop) {entries entries' : List MetaPermission}
    (perm : entries.Perm entries') :
    checker.countedWeight known entries = checker.countedWeight known entries' :=
  ((perm.filter _).map _).sum_eq

theorem Counts.mono {known' : PermissionLevel → Prop}
    (le : ∀ permission, known permission → known' permission) (counts : checker.Counts known entry) :
    checker.Counts known' entry := by
  cases entry with
  | wait permission => exact counts
  | key permission => exact counts
  | permissionLevel permission => exact counts.imp (le _) (le _)

theorem countedWeight_mono {known known' : PermissionLevel → Prop}
    (le : ∀ permission, known permission → known' permission) (entries : List MetaPermission) :
    checker.countedWeight known entries ≤ checker.countedWeight known' entries := by
  induction entries with
  | nil => simp
  | cons entry entries ih =>
    by_cases counts : checker.Counts known entry
    · rw [countedWeight_cons_of_counts counts, countedWeight_cons_of_counts (counts.mono le)]
      exact Nat.add_le_add_left ih _
    · rw [countedWeight_cons_of_not_counts counts]
      by_cases counts' : checker.Counts known' entry
      · rw [countedWeight_cons_of_counts counts']
        omega
      · rwa [countedWeight_cons_of_not_counts counts']

theorem grants_monotone : Monotone checker.Grants := by
  intro known known' le permission granted
  obtain ⟨authority, lookup, reaches⟩ := granted
  exact ⟨authority, lookup, Nat.le_trans reaches (countedWeight_mono le _)⟩

end AuthorityChecker

end CodexRelay.Chain
