import CodexRelay.Chain.AuthorityChecker.Model

/-!
Contract: a check that succeeds rests on a derivation.

The permissions of the cache that are satisfied are listed in the order in which they became so. A
permission is put in the list when its authority is reached by permissions that are there already,
while it is itself still being evaluated.

Owns:
- `Records`, that a list orders the satisfied permissions of a cache as a derivation;
- how a visit, the loop over an authority and a whole check extend the list.
-/

namespace CodexRelay.Chain

open Library

variable {state state' : CheckState} {order order' : List PermissionLevel} {deeper : Option Deeper}

variable {level permission : PermissionLevel} {r : Bool} {totalWeight : Nat}

namespace CheckState

def StatusKept (state state' : CheckState) : Prop :=
  ∀ permission status, state.cachedPermissions permission = some status →
    state'.cachedPermissions permission = some status

/-- A status of a permission comes from the permission or from the empty name of its actor. -/
theorem statusInCache_eq_some {status : PermissionCacheStatus}
    (cached : state.statusInCache level = some status) :
    state.cachedPermissions level = some status ∨
      state.cachedPermissions level = none ∧
        state.cachedPermissions ⟨level.actor, 0⟩ = some status := by
  unfold statusInCache at cached
  split at cached
  · rename_i own
    exact .inl (own.trans cached)
  · rename_i own
    exact .inr ⟨own, cached⟩

theorem statusInCache_eq_none :
    state.statusInCache level = none ↔
      state.cachedPermissions level = none ∧ state.cachedPermissions ⟨level.actor, 0⟩ = none := by
  unfold statusInCache
  split
  · rename_i own
    simp [own]
  · rename_i own
    simp [own]

@[simp] theorem setStatus_cachedPermissions_self (state : CheckState) (permission : PermissionLevel)
    (status : PermissionCacheStatus) :
    (state.setStatus permission status).cachedPermissions permission = some status := by
  simp [setStatus]

theorem setStatus_cachedPermissions_of_ne (state : CheckState) {other : PermissionLevel}
    (ne : other ≠ permission) (status : PermissionCacheStatus) :
    (state.setStatus permission status).cachedPermissions other = state.cachedPermissions other := by
  simp [setStatus, ne]

end CheckState

namespace AuthorityChecker

variable {checker : AuthorityChecker}

def Listed (checker : AuthorityChecker) (order : List PermissionLevel) (permission : PermissionLevel) :
    Prop :=
  checker.Provided permission ∨ permission ∈ order

/-- A list orders the satisfied permissions of a cache as a derivation. -/
structure Records (checker : AuthorityChecker) (order : List PermissionLevel) (state : CheckState) :
    Prop where
  justified : Justified checker.Provided checker.Grants order
  listed : ∀ permission, state.cachedPermissions permission = some .permissionSatisfied →
    checker.Listed order permission
  cached : ∀ permission ∈ order, state.cachedPermissions permission = some .permissionSatisfied

/-- A part of a check: the list grows, and no status of the cache changes. -/
structure Extends (checker : AuthorityChecker) (order : List PermissionLevel) (state : CheckState)
    (order' : List PermissionLevel) (state' : CheckState) : Prop where
  records : checker.Records order' state'
  grown : order ⊆ order'
  kept : state.StatusKept state'

theorem Records.extends_self (records : checker.Records order state) :
    checker.Extends order state order state :=
  ⟨records, List.Subset.refl order, fun _ _ cached => cached⟩

theorem Extends.usedKeys (ext : checker.Extends order state order' state')
    (keys : Finset PublicKey) : checker.Extends order state order' { state' with usedKeys := keys } :=
  ⟨⟨ext.records.justified, ext.records.listed, ext.records.cached⟩, ext.grown, ext.kept⟩

theorem Records.setBeingEvaluated (records : checker.Records order state)
    (unset : state.cachedPermissions permission = none) :
    checker.Extends order state order (state.setStatus permission .beingEvaluated) := by
  have others : ∀ other status, state.cachedPermissions other = some status →
      (state.setStatus permission .beingEvaluated).cachedPermissions other = some status := by
    intro other status cached
    have ne : other ≠ permission := by
      rintro rfl
      simp [unset] at cached
    rwa [state.setStatus_cachedPermissions_of_ne ne]
  refine ⟨⟨records.justified, ?_, fun other member => others other _ (records.cached other member)⟩,
    List.Subset.refl order, others⟩
  intro other cached
  by_cases same : other = permission
  · subst same
    simp at cached
  · rw [state.setStatus_cachedPermissions_of_ne same] at cached
    exact records.listed other cached

/-- The end of the evaluation of a permission. Its own status was `being_evaluated` all the time, so
it is not in the list that its authority rests on. -/
theorem Extends.settle {after : CheckState} {permission : PermissionLevelWeight} {auth : Authority}
    (unset : state.cachedPermissions permission.permission = none)
    (lookup : checker.permissionToAuthority permission.permission = .ok auth)
    (ext : checker.Extends order (state.setStatus permission.permission .beingEvaluated) order' after)
    (reached : r = true → checker.Reaches (checker.Listed order') auth) (totalWeight : Nat) :
    ∃ order'', checker.Extends order state order'' (settle permission totalWeight r after).2 ∧
      (r = true → permission.permission ∈ order'') := by
  have evaluating := ext.kept _ _ (state.setStatus_cachedPermissions_self permission.permission _)
  have fresh : permission.permission ∉ order' := fun member => by
    simp [ext.records.cached _ member] at evaluating
  have keptStatus : ∀ status, state.StatusKept (after.setStatus permission.permission status) := by
    intro status other known cached
    have ne : other ≠ permission.permission := by
      rintro rfl
      simp [unset] at cached
    rw [after.setStatus_cachedPermissions_of_ne ne]
    apply ext.kept
    rwa [state.setStatus_cachedPermissions_of_ne ne]
  cases r with
  | false =>
    refine ⟨order', ⟨⟨ext.records.justified, ?_, ?_⟩, ext.grown, keptStatus _⟩, by simp⟩
    · intro other cached
      by_cases same : other = permission.permission
      · subst same
        simp [AuthorityChecker.settle] at cached
      · apply ext.records.listed
        rwa [← after.setStatus_cachedPermissions_of_ne same]
    · intro other member
      have ne : other ≠ permission.permission := by
        rintro rfl
        exact fresh member
      exact (after.setStatus_cachedPermissions_of_ne ne _).trans (ext.records.cached other member)
  | true =>
    refine ⟨permission.permission :: order', ⟨⟨?_, ?_, ?_⟩, ?_, keptStatus _⟩, by simp⟩
    · exact .cons fresh ext.records.justified ⟨auth, lookup, reached rfl⟩
    · intro other cached
      by_cases same : other = permission.permission
      · exact .inr (by simp [same])
      · have listed := ext.records.listed other
          ((after.setStatus_cachedPermissions_of_ne same _).symm.trans cached)
        exact listed.imp_right (List.mem_cons_of_mem _)
    · intro other member
      rcases List.mem_cons.mp member with rfl | member
      · exact after.setStatus_cachedPermissions_self _ _
      · have ne : other ≠ permission.permission := by
          rintro rfl
          exact fresh member
        exact (after.setStatus_cachedPermissions_of_ne ne _).trans (ext.records.cached other member)
    · exact List.Subset.trans ext.grown (List.subset_cons_self _ _)

/-- A call that extends the list by a derivation of what it finds satisfied. -/
def DeeperSound (checker : AuthorityChecker) (satisfied : Deeper) : Prop :=
  ∀ auth order state r state', checker.Records order state → satisfied auth state = .ok (r, state') →
    ∃ order', checker.Extends order state order' state' ∧
      (r = true → checker.Reaches (checker.Listed order') auth)

section

variable (sound : ∀ satisfied, deeper = some satisfied → checker.DeeperSound satisfied)

include sound

/-- A visit adds the weight of an entry only when the entry counts. -/
theorem Visit.extends {entry : MetaPermission} {totalWeight' : Nat}
    (visited : checker.Visit deeper entry (totalWeight, state) (totalWeight', state'))
    (records : checker.Records order state) :
    ∃ order', checker.Extends order state order' state' ∧
      totalWeight' ≤ totalWeight + checker.countedWeight (checker.Listed order') [entry] := by
  have self := records.extends_self
  have counted : ∀ {order' : List PermissionLevel}, checker.Counts (checker.Listed order') entry →
      addWeight totalWeight entry.weight ≤
        totalWeight + checker.countedWeight (checker.Listed order') [entry] := by
    intro order' counts
    rw [countedWeight_cons_of_counts counts]
    exact Nat.mod_le _ _
  generalize afterwards : (totalWeight', state') = stop at visited
  cases visited with
  | waitElapsed elapsed =>
    cases afterwards
    exact ⟨order, self, counted elapsed⟩
  | keyProvided provided =>
    cases afterwards
    exact ⟨order, self.usedKeys _, counted provided⟩
  | cachedSatisfied status =>
    cases afterwards
    refine ⟨order, self, counted ?_⟩
    rcases CheckState.statusInCache_eq_some status with own | ⟨_, wildcard⟩
    · exact .inl (records.listed _ own)
    · exact .inr (records.listed _ wildcard)
  | waitPending | keyMissing | cachedOther | tooDeep | noPermission =>
    cases afterwards
    exact ⟨order, self, Nat.le_add_right _ _⟩
  | @evaluated permission _ _ after satisfied auth r status level lookup ran =>
    have unset := (CheckState.statusInCache_eq_none.mp status).1
    have started := records.setBeingEvaluated unset
    obtain ⟨order', ext, reached⟩ := sound satisfied level auth order _ r after started.records ran
    obtain ⟨order'', ext', member⟩ := Extends.settle unset lookup ext reached totalWeight
    refine ⟨order'', ?_, ?_⟩
    · rw [show state' = (settle permission totalWeight r after).2 from congrArg Prod.snd afterwards]
      exact ext'
    · rw [show totalWeight' = (settle permission totalWeight r after).1 from
        congrArg Prod.fst afterwards]
      cases r with
      | false => exact Nat.le_add_right _ _
      | true => exact counted (.inl (.inr (member rfl)))

theorem tally_extends {threshold : Nat} {entries : List MetaPermission}
    (ran : checker.tally deeper threshold entries totalWeight state = .ok (r, state'))
    (records : checker.Records order state) :
    ∃ order', checker.Extends order state order' state' ∧
      (r = true →
        threshold ≤ totalWeight + checker.countedWeight (checker.Listed order') entries) := by
  induction entries generalizing totalWeight state order with
  | nil =>
    cases ran
    exact ⟨order, records.extends_self, by simp⟩
  | cons entry rest ih =>
    obtain ⟨⟨totalWeight₁, state₁⟩, visited, ran⟩ := of_bind ran
    obtain ⟨order₁, ext, bound⟩ := ((checker.visit_eq_ok_iff).mp visited).extends sound records
    have split : ∀ known, checker.countedWeight known (entry :: rest) =
        checker.countedWeight known [entry] + checker.countedWeight known rest := by
      intro known
      by_cases counts : checker.Counts known entry
      · simp [countedWeight_cons_of_counts counts]
      · simp [countedWeight_cons_of_not_counts counts]
    dsimp only at ran
    split_ifs at ran with reached
    · cases ran
      refine ⟨order₁, ext, fun _ => ?_⟩
      rw [split]
      omega
    · obtain ⟨order', ext', reaches⟩ := ih ran ext.records
      have kept := fun permission status cached =>
        ext'.kept permission status (ext.kept permission status cached)
      refine ⟨order', ⟨ext'.records, List.Subset.trans ext.grown ext'.grown, kept⟩, fun isTrue => ?_⟩
      have later := @countedWeight_mono checker _ (checker.Listed order')
        (fun permission (listed : checker.Listed order₁ permission) => listed.imp_right (@ext'.grown _))
        [entry]
      have := reaches isTrue
      rw [split]
      omega

theorem satisfiedWith_sound : checker.DeeperSound (checker.satisfiedWith deeper) := by
  intro auth order state r state' records ran
  obtain ⟨⟨r₁, state₁⟩, tallied, ended⟩ := of_bind ran
  obtain ⟨order', ext, reaches⟩ := tally_extends sound tallied records
  have sorted := @countedWeight_perm checker (checker.Listed order') _ _
    (checker.permissionSet.perm auth.metaPermissions)
  cases r₁ with
  | false =>
    cases ended
    exact ⟨order', ext.usedKeys _, by simp⟩
  | true =>
    cases ended
    refine ⟨order', ext, fun _ => ?_⟩
    have reached := reaches rfl
    rw [sorted, Nat.zero_add] at reached
    exact reached

end

theorem satisfiedAt_sound (levels : Nat) : checker.DeeperSound (checker.satisfiedAt levels) := by
  induction levels with
  | zero => exact satisfiedWith_sound (by simp)
  | succ levels ih =>
    apply satisfiedWith_sound
    rintro satisfied level
    cases level
    exact ih

/-- A check starts with the provided permissions and nothing else. -/
theorem records_start (usedKeys : Finset PublicKey) :
    checker.Records [] (checker.start usedKeys) := by
  refine ⟨.nil, fun permission cached => ?_, by simp⟩
  simp only [start, initializePermissionCache] at cached
  split_ifs at cached with provided
  exact .inl provided

/-- Permissions in an order in which each one is reached by keys, waits, provided permissions and
permissions before it reach an authority that is satisfied. -/
theorem satisfiedAuthority_sound {authority : Authority} {usedKeys usedKeys' : Finset PublicKey}
    (satisfied : checker.satisfiedAuthority authority usedKeys = .ok (true, usedKeys')) :
    ∃ order, Justified checker.Provided checker.Grants order ∧
      checker.Reaches (checker.Listed order) authority := by
  obtain ⟨⟨r, state⟩, ran, ended⟩ := of_bind satisfied
  cases ended
  obtain ⟨order, ext, reached⟩ :=
    satisfiedAt_sound _ authority [] _ true state (records_start usedKeys) ran
  exact ⟨order, ext.records.justified, reached rfl⟩

/-- A checker over a list of permissions, with a key 7. -/
def withKey (permissions : List (PermissionLevel × Authority)) : AuthorityChecker where
  permissionToAuthority := permissionToAuthorityIn permissions
  recursionDepthLimit := 6
  providedKeys := {7}
  permissionSet := .stable

/-- An authority that is met by a permission alone. -/
def delegated (permission : PermissionLevel) : Authority :=
  { threshold := 1, accounts := [⟨permission, 1⟩] }

def keyed : Authority := { threshold := 1, keys := [⟨7, 1⟩] }

theorem satisfiedAuthority_sound_delegated :
    ∃ order, Justified (withKey [(⟨1, 2⟩, keyed)]).Provided (withKey [(⟨1, 2⟩, keyed)]).Grants order ∧
      (withKey [(⟨1, 2⟩, keyed)]).Reaches ((withKey [(⟨1, 2⟩, keyed)]).Listed order)
        (delegated ⟨1, 2⟩) :=
  @satisfiedAuthority_sound (withKey [(⟨1, 2⟩, keyed)]) (delegated ⟨1, 2⟩) ∅ {7} (by decide +kernel)

/-- The permission with the empty name of an actor, provided or satisfied by its own authority,
makes every permission of the actor count, one that does not exist as well. -/
theorem satisfied_by_wildcard :
    ({ withKey [] with providedPermissions := {⟨1, 0⟩} } : AuthorityChecker).satisfiedAuthority
        (delegated ⟨1, 2⟩) ∅ = .ok (true, ∅) ∧
      (⟨1, 2⟩ : PermissionLevel) ∉ ({⟨1, 0⟩} : Finset PermissionLevel) ∧
      (withKey [(⟨1, 0⟩, keyed)]).satisfiedAuthority
        { threshold := 2, accounts := [⟨⟨1, 0⟩, 1⟩, ⟨⟨1, 2⟩, 1⟩] } ∅ = .ok (true, {7}) ∧
      ∀ authority, permissionToAuthorityIn [(⟨1, 0⟩, keyed)] ⟨1, 2⟩ ≠ .ok authority := by
  refine ⟨by decide +kernel, by decide, by decide +kernel, fun authority found => ?_⟩
  cases found

end AuthorityChecker

end CodexRelay.Chain
