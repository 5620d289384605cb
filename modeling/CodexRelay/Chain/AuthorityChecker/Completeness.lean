import CodexRelay.Chain.AuthorityChecker.Soundness

/-!
Contract: when a check finds a derivation that exists.

A permission that is not satisfied is remembered for the rest of the check. It was evaluated on a way
through other permissions, which it could not rest on, and with the levels that the way had left. The
check finds every derivation when this never matters: a permission with a derivation, to which a way
leads, has one that avoids the way and fits into the levels that are left. A way goes only through
entries that the loop over an authority comes to before the threshold is reached.

Owns:
- `Trail`, the ways that a check can go, and `Unobstructed`;
- `Faithful`, that no permission of the cache with a derivation is remembered as not satisfied;
- that a check on an unobstructed authority finds a derivation, and one where it does not.
-/

namespace CodexRelay.Chain

open Library List

variable {path : List PermissionLevel} {state : CheckState} {known : PermissionLevel → Prop}
  {total levels : Nat} {deeper : Option Deeper} {entry : MetaPermission} {authority : Authority}

variable {depth : Nat} {status : PermissionCacheStatus} {state' : CheckState}

namespace Authority

/-- What `validate` makes sure of: there is a threshold, and the weights fit into 32 bits. -/
def Regular (authority : Authority) : Prop :=
  0 < authority.threshold ∧ totalWeight authority.metaPermissions < 2 ^ 32

end Authority

namespace AuthorityChecker

section Definitions

variable (checker : AuthorityChecker)

/-- A permission is provided, by itself or with all permissions of its actor. -/
def Settled (permission : PermissionLevel) : Prop :=
  checker.Provided permission ∨ checker.Provided ⟨permission.actor, 0⟩

/-- The permissions with a derivation of a depth that uses no authority of some permissions. -/
def Avoiding (path : List PermissionLevel) : Nat → PermissionLevel → Prop :=
  Within checker.Provided fun known permission => permission ∉ path ∧ checker.Grants known permission

/-- The wanted permissions that count below a way: one of the way only counts if it is provided. -/
def Available (wanted : PermissionLevel → Prop) (path : List PermissionLevel)
    (permission : PermissionLevel) : Prop :=
  wanted permission ∧ (permission ∈ path → checker.Provided permission)

/-- Below a way, the loop over an authority comes to a permission: what counts in front of it does
not reach the threshold. -/
def Visits (wanted : PermissionLevel → Prop) (path : List PermissionLevel) (authority : Authority)
    (permission : PermissionLevel) : Prop :=
  ∃ front weight rest, checker.permissionSet.sort authority.metaPermissions =
      front ++ .permissionLevel ⟨permission, weight⟩ :: rest ∧
    checker.countedWeight (checker.Available wanted path) front < authority.threshold

/-- The ways from an authority through permissions that are visited, the last permission first, and
the authority they lead to. -/
inductive Trail (wanted : PermissionLevel → Prop) (origin : Authority) :
    List PermissionLevel → Authority → Prop
  | start : Trail wanted origin [] origin
  | step {path : List PermissionLevel} {authority next : Authority} {permission : PermissionLevel}
      (trail : Trail wanted origin path authority)
      (visits : checker.Visits wanted path authority permission)
      (fresh : permission ∉ path) (unsettled : ¬ checker.Settled permission)
      (lookup : checker.permissionToAuthority permission = .ok next) :
      Trail wanted origin (permission :: path) next

structure Leads (wanted : PermissionLevel → Prop) (origin : Authority) (path : List PermissionLevel)
    (permission : PermissionLevel) : Prop where
  trail : ∃ authority, checker.Trail wanted origin path authority ∧
    checker.Visits wanted path authority permission
  fresh : permission ∉ path
  unsettled : ¬ checker.Settled permission

/-- No way to a wanted permission stands against it: it has a derivation that avoids the way and fits
into the levels that are left. The authorities on the way are regular, permissions without an
authority do not exist, and the empty name has no authority. -/
structure Unobstructed (wanted : PermissionLevel → Prop) (origin : Authority) : Prop where
  named : ∀ actor authority, checker.permissionToAuthority ⟨actor, 0⟩ ≠ .ok authority
  regular : ∀ path authority, checker.Trail wanted origin path authority →
    path.length ≤ checker.recursionDepthLimit → authority.Regular
  missing : ∀ path permission thrown, checker.Leads wanted origin path permission →
    path.length < checker.recursionDepthLimit →
    checker.permissionToAuthority permission = .error thrown →
    thrown.code = .permissionQueryException
  detour : ∀ path permission, checker.Leads wanted origin path permission →
    path.length ≤ checker.recursionDepthLimit → wanted permission →
    checker.Avoiding path (checker.recursionDepthLimit - path.length) permission

/-- A cache in which the permissions of the way are being evaluated, and no wanted permission is
remembered as not satisfied. -/
structure Faithful (wanted : PermissionLevel → Prop) (path : List PermissionLevel)
    (state : CheckState) : Prop where
  provided : ∀ permission, checker.Provided permission →
    state.cachedPermissions permission = some .permissionSatisfied
  evaluating : ∀ permission, state.cachedPermissions permission = some .beingEvaluated ↔
    permission ∈ path
  unsatisfied : ∀ permission, state.cachedPermissions permission = some .permissionUnsatisfied →
    ¬ wanted permission
  unsettled : ∀ permission status, state.cachedPermissions permission = some status →
    status ≠ .permissionSatisfied → ¬ checker.Provided ⟨permission.actor, 0⟩
  wildcard : ∀ actor status, state.cachedPermissions ⟨actor, 0⟩ = some status →
    checker.Provided ⟨actor, 0⟩

/-- Wanted permissions that do not rest on the permissions of the way. -/
def Usable (wanted : PermissionLevel → Prop) (path : List PermissionLevel)
    (known : PermissionLevel → Prop) : Prop :=
  ∀ permission, known permission → checker.Available wanted path permission

/-- What a check needs to come to an end and to find the wanted permissions satisfied: above the
depth limit, permissions that are usable one level deeper reach the authority of each. -/
structure Navigable (wanted : PermissionLevel → Prop) (origin : Authority) : Prop where
  named : ∀ actor authority, checker.permissionToAuthority ⟨actor, 0⟩ ≠ .ok authority
  regular : ∀ path authority, checker.Trail wanted origin path authority →
    path.length ≤ checker.recursionDepthLimit → authority.Regular
  missing : ∀ path permission thrown, checker.Leads wanted origin path permission →
    path.length < checker.recursionDepthLimit →
    checker.permissionToAuthority permission = .error thrown →
    thrown.code = .permissionQueryException
  wildcard : ∀ actor, wanted ⟨actor, 0⟩ → checker.Provided ⟨actor, 0⟩
  descends : ∀ path permission, checker.Leads wanted origin path permission →
    path.length ≤ checker.recursionDepthLimit → wanted permission →
    path.length < checker.recursionDepthLimit ∧
      ∃ next known, checker.permissionToAuthority permission = .ok next ∧
        checker.Usable wanted (permission :: path) known ∧ checker.Reaches known next

end Definitions

variable {checker : AuthorityChecker} {wanted : PermissionLevel → Prop} {origin : Authority}

section

variable {permission : PermissionLevel} (avoiding : checker.Avoiding path depth permission)

include avoiding

theorem avoiding_within : Within checker.Provided checker.Grants depth permission :=
  Within.weaken (fun _ provided => provided)
    (fun _ _ le fact ruled => grants_monotone le fact ruled.2) avoiding

theorem provided_of_avoiding (member : permission ∈ path) : checker.Provided permission := by
  cases depth with
  | zero => exact avoiding
  | succ depth => exact avoiding.resolve_right fun ruled => ruled.1 member

end

section

variable (unobstructed : checker.Unobstructed wanted origin)

include unobstructed

theorem Unobstructed.provided_of_derivable {actor : AccountName}
    (derivable : Derivable checker.Provided checker.Grants ⟨actor, 0⟩) :
    checker.Provided ⟨actor, 0⟩ := by
  obtain ⟨depth, within⟩ := derivable
  cases depth with
  | zero => exact within
  | succ depth =>
    rcases within with provided | ⟨authority, lookup, _⟩
    · exact provided
    · exact absurd lookup (unobstructed.named actor authority)

/-- A derivation of least depth that avoids the way reaches the authority of a wanted permission
without the permissions of the way and without the permission itself. -/
theorem Unobstructed.navigable
    (shallow : ∀ depth ≤ checker.recursionDepthLimit, ∀ permission,
      Within checker.Provided checker.Grants depth permission → wanted permission)
    (derivable : ∀ permission, wanted permission → Derivable checker.Provided checker.Grants permission)
    : checker.Navigable wanted origin where
  named := unobstructed.named
  regular := unobstructed.regular
  missing := unobstructed.missing
  wildcard actor isWanted := unobstructed.provided_of_derivable (derivable _ isWanted)
  descends := by
    intro path permission leads le isWanted
    have avoiding := unobstructed.detour path permission leads le isWanted
    have unprovided : ¬ checker.Provided permission := fun provided =>
      leads.unsettled (.inl provided)
    obtain ⟨before, lt, least, _, next, lookup, reaches⟩ := avoiding.exists_least_rule unprovided
    refine ⟨by omega, next, checker.Avoiding path before, lookup, ?_, reaches⟩
    intro other avoids
    refine ⟨shallow before (by omega) other (avoiding_within avoids), fun member => ?_⟩
    rcases mem_cons.mp member with rfl | member
    · exact absurd avoids least
    · exact provided_of_avoiding avoids member

end

/-! ### The cache -/

section

variable (faithful : checker.Faithful wanted path state)

include faithful

theorem Faithful.unset
    {permission : PermissionLevel} (status : state.statusInCache permission = none) :
    state.cachedPermissions permission = none ∧ permission ∉ path ∧ ¬ checker.Settled permission := by
  obtain ⟨own, wildcard⟩ := CheckState.statusInCache_eq_none.mp status
  refine ⟨own, fun member => ?_, ?_⟩
  · simp [(faithful.evaluating permission).mpr member] at own
  · rintro (provided | provided)
    · simp [faithful.provided _ provided] at own
    · simp [faithful.provided _ provided] at wildcard

/-- The change of one permission that is not provided keeps what holds of the others. -/
theorem Faithful.setStatus {path' : List PermissionLevel} {permission : PermissionLevel}
    (unsettled : ¬ checker.Settled permission) (named : ∀ actor, permission ≠ ⟨actor, 0⟩)
    (others : ∀ other, other ≠ permission → (other ∈ path ↔ other ∈ path'))
    (evaluating : status = .beingEvaluated ↔ permission ∈ path')
    (unsatisfied : status = .permissionUnsatisfied → ¬ wanted permission) :
    checker.Faithful wanted path' (state.setStatus permission status) := by
  have own := state.setStatus_cachedPermissions_self permission status
  have other {p : PermissionLevel} (ne : p ≠ permission) :=
    state.setStatus_cachedPermissions_of_ne ne status
  constructor
  · intro p provided
    have ne : p ≠ permission := by
      rintro rfl
      exact unsettled (.inl provided)
    exact (other ne).trans (faithful.provided p provided)
  · intro p
    by_cases same : p = permission
    · rw [same, own, Option.some_inj]
      exact evaluating
    · rw [other same, faithful.evaluating, others p same]
  · intro p cached
    by_cases same : p = permission
    · rw [same, own, Option.some_inj] at cached
      exact same ▸ unsatisfied cached
    · exact faithful.unsatisfied p ((other same).symm.trans cached)
  · intro p found cached notSatisfied
    by_cases same : p = permission
    · exact same ▸ fun provided => unsettled (.inr provided)
    · exact faithful.unsettled p found ((other same).symm.trans cached) notSatisfied
  · intro actor found cached
    exact faithful.wildcard actor found ((other (named actor).symm).symm.trans cached)

theorem Faithful.usedKeys (keys : Finset PublicKey) :
    checker.Faithful wanted path { state with usedKeys := keys } :=
  ⟨faithful.provided, faithful.evaluating, faithful.unsatisfied, faithful.unsettled,
    faithful.wildcard⟩

theorem Faithful.satisfied_of_counts
    (derivable : ∀ actor, wanted ⟨actor, 0⟩ → checker.Provided ⟨actor, 0⟩)
    (usable : checker.Usable wanted path known) {permission : PermissionLevelWeight}
    (cached : state.statusInCache permission.permission = some status)
    (counts : checker.Counts known (.permissionLevel permission)) :
    status = .permissionSatisfied := by
  by_contra notSatisfied
  rcases CheckState.statusInCache_eq_some cached with own | ⟨_, wildcard⟩
  · have unprovided := faithful.unsettled _ status own notSatisfied
    rcases counts with isKnown | isKnown
    · obtain ⟨isWanted, onPath⟩ := usable _ isKnown
      cases status with
      | permissionSatisfied => exact notSatisfied rfl
      | permissionUnsatisfied => exact faithful.unsatisfied _ own isWanted
      | beingEvaluated =>
        have provided := onPath ((faithful.evaluating _).mp own)
        simp [faithful.provided _ provided] at own
    · exact unprovided (derivable _ (usable _ isKnown).1)
  · have provided := faithful.provided _ (faithful.wildcard _ _ wildcard)
    rw [wildcard, Option.some_inj] at provided
    exact notSatisfied provided

end

/-! ### The check -/

/-- What is asked of a call that has so many levels left: it comes to an end, keeps the cache
faithful, and finds an authority satisfied that usable permissions reach. -/
def DeeperComplete (checker : AuthorityChecker) (wanted : PermissionLevel → Prop)
    (path : List PermissionLevel) (satisfied : Deeper) (authority : Authority) : Prop :=
  ∀ state, checker.Faithful wanted path state →
    ∃ r state', satisfied authority state = .ok (r, state') ∧ checker.Faithful wanted path state' ∧
      ∀ known, checker.Usable wanted path known → checker.Reaches known authority → r = true

/-- A visit comes to an end, and adds the weight of an entry that counts. -/
def Completes (checker : AuthorityChecker) (wanted : PermissionLevel → Prop)
    (path : List PermissionLevel) (deeper : Option Deeper) (entry : MetaPermission) (total : Nat)
    (state : CheckState) : Prop :=
  ∃ total' state', checker.visit deeper total state entry = .ok (total', state') ∧
    checker.Faithful wanted path state' ∧ total ≤ total' ∧ total' ≤ total + entry.weight ∧
    ∀ known, checker.Usable wanted path known → checker.Counts known entry →
      total' = total + entry.weight

theorem completes_of_added (fits : total + entry.weight < 2 ^ 32)
    (visited : checker.Visit deeper entry (total, state) (addWeight total entry.weight, state'))
    (faithful : checker.Faithful wanted path state') :
    checker.Completes wanted path deeper entry total state := by
  rw [addWeight, Nat.mod_eq_of_lt fits] at visited
  exact ⟨_, state', checker.visit_eq_ok_iff.mpr visited, faithful, by omega, le_rfl,
    fun _ _ _ => rfl⟩

theorem completes_of_passed (visited : checker.Visit deeper entry (total, state) (total, state'))
    (faithful : checker.Faithful wanted path state')
    (passed : ∀ known, checker.Usable wanted path known → ¬ checker.Counts known entry) :
    checker.Completes wanted path deeper entry total state :=
  ⟨total, state', checker.visit_eq_ok_iff.mpr visited, faithful, le_rfl, by omega,
    fun known usable counts => absurd counts (passed known usable)⟩

def VisitComplete (checker : AuthorityChecker) (wanted : PermissionLevel → Prop)
    (path : List PermissionLevel) (deeper : Option Deeper) (entry : MetaPermission) : Prop :=
  ∀ total state, total + entry.weight < 2 ^ 32 → checker.Faithful wanted path state →
    checker.Completes wanted path deeper entry total state

section Check

variable (navigable : checker.Navigable wanted origin) (trail : checker.Trail wanted origin path authority)
  (deep : path.length + levels = checker.recursionDepthLimit)
  (below : ∀ satisfied, checker.deeperAt levels = some satisfied → ∀ permission next,
    checker.Trail wanted origin (permission :: path) next →
      checker.DeeperComplete wanted (permission :: path) satisfied next)

include navigable trail deep below in
theorem visitPermissionLevel_complete {permission : PermissionLevelWeight}
    (visits : checker.Visits wanted path authority permission.permission) :
    checker.VisitComplete wanted path (checker.deeperAt levels) (.permissionLevel permission) := by
  intro total state fits faithful
  cases status : state.statusInCache permission.permission with
  | some found =>
    by_cases isSatisfied : found = .permissionSatisfied
    · subst isSatisfied
      exact completes_of_added fits (.cachedSatisfied status) faithful
    · apply completes_of_passed (.cachedOther status isSatisfied) faithful
      intro known usable counts
      exact isSatisfied (faithful.satisfied_of_counts navigable.wildcard usable status counts)
  | none =>
    obtain ⟨_, fresh, unsettled⟩ := faithful.unset status
    have leads : checker.Leads wanted origin path permission.permission :=
      ⟨⟨authority, trail, visits⟩, fresh, unsettled⟩
    have isWanted {known : PermissionLevel → Prop} (usable : checker.Usable wanted path known)
        (counts : checker.Counts known (.permissionLevel permission)) :
        wanted permission.permission := by
      rcases counts with isKnown | isKnown
      · exact (usable _ isKnown).1
      · exact absurd (.inr (navigable.wildcard _ (usable _ isKnown).1)) unsettled
    have reached (isWanted : wanted permission.permission) :=
      navigable.descends path _ leads (by omega) isWanted
    cases levels with
    | zero =>
      apply completes_of_passed (.tooDeep status rfl) faithful
      intro known usable counts
      have := (reached (isWanted usable counts)).1
      omega
    | succ levels =>
      cases lookup : checker.permissionToAuthority permission.permission with
      | error thrown =>
        have query := navigable.missing path _ thrown leads (by omega) lookup
        apply completes_of_passed (.noPermission status rfl lookup query) faithful
        intro known usable counts
        obtain ⟨_, next, _, found, _⟩ := reached (isWanted usable counts)
        simp [lookup] at found
      | ok next =>
        have named : ∀ actor, permission.permission ≠ ⟨actor, 0⟩ := fun actor same =>
          navigable.named actor next (same ▸ lookup)
        have started : checker.Faithful wanted (permission.permission :: path)
            (state.setStatus permission.permission .beingEvaluated) :=
          faithful.setStatus unsettled named (fun other ne => by simp [ne]) (by simp) (by simp)
        obtain ⟨r, after, ran, faithful', complete⟩ := below _ rfl permission.permission next
            (trail.step visits fresh unsettled lookup) _ started
        have found (isWanted : wanted permission.permission) : r = true := by
          obtain ⟨_, next', known, lookup', usable, reaches⟩ := reached isWanted
          rw [lookup, Except.ok.injEq] at lookup'
          exact complete known usable (lookup' ▸ reaches)
        have visited : checker.Visit (checker.deeperAt (levels + 1))
            (.permissionLevel permission) (total, state) (settle permission total r after) :=
          .evaluated status rfl lookup ran
        cases r with
        | true =>
          apply completes_of_added fits visited
          exact faithful'.setStatus unsettled named (fun other ne => by simp [ne])
            (by simp [fresh]) (by simp)
        | false =>
          apply completes_of_passed visited
          · exact faithful'.setStatus unsettled named (fun other ne => by simp [ne])
              (by simp [fresh]) (fun _ isWanted => by simpa using found isWanted)
          · intro known usable counts
            simpa using found (isWanted usable counts)

include navigable trail deep below in
theorem visit_complete {front rest : List MetaPermission}
    (split : checker.permissionSet.sort authority.metaPermissions = front ++ entry :: rest)
    (open' : checker.countedWeight (checker.Available wanted path) front < authority.threshold) :
    checker.VisitComplete wanted path (checker.deeperAt levels) entry := by
  cases entry with
  | permissionLevel permission =>
    exact visitPermissionLevel_complete navigable trail deep below ⟨front, _, rest, split, open'⟩
  | wait permission =>
    intro total state fits faithful
    by_cases elapsed : 1000000 * (permission.waitSec : Int) ≤ checker.providedDelay
    · exact completes_of_added fits (.waitElapsed elapsed) faithful
    · exact completes_of_passed (.waitPending elapsed) faithful fun _ _ => elapsed
  | key permission =>
    intro total state fits faithful
    by_cases provided : permission.key ∈ checker.providedKeys
    · exact completes_of_added fits (.keyProvided provided) (faithful.usedKeys _)
    · exact completes_of_passed (.keyMissing provided) faithful fun _ _ => provided

theorem tally_complete {threshold : Nat} {entries : List MetaPermission}
    (complete : ∀ front entry rest, entries = front ++ entry :: rest →
      total + checker.countedWeight (checker.Available wanted path) front < threshold →
      checker.VisitComplete wanted path deeper entry)
    (fits : total + totalWeight entries < 2 ^ 32) (below : total < threshold)
    (faithful : checker.Faithful wanted path state) :
    ∃ r state', checker.tally deeper threshold entries total state = .ok (r, state') ∧
      checker.Faithful wanted path state' ∧
      ∀ known, checker.Usable wanted path known →
        threshold ≤ total + checker.countedWeight known entries → r = true := by
  induction entries generalizing total state with
  | nil =>
    refine ⟨false, state, rfl, faithful, fun known _ reaches => ?_⟩
    rw [countedWeight_nil] at reaches
    omega
  | cons entry rest ih =>
    rw [totalWeight_cons] at fits
    obtain ⟨total', state₁, visited, faithful₁, le, upper, counted⟩ :=
      complete [] entry rest rfl (by simpa using below) total state (by omega) faithful
    -- what counts is added, so that the loop has left where the available permissions are enough
    have added (front : List MetaPermission) :
        total + checker.countedWeight (checker.Available wanted path) (entry :: front) ≤
          total' + checker.countedWeight (checker.Available wanted path) front := by
      by_cases counts : checker.Counts (checker.Available wanted path) entry
      · rw [countedWeight_cons_of_counts counts, counted _ (fun _ isKnown => isKnown) counts]
        omega
      · rw [countedWeight_cons_of_not_counts counts]
        omega
    by_cases reached : threshold ≤ total'
    · refine ⟨true, state₁, ?_, faithful₁, fun _ _ _ => rfl⟩
      simp only [tally, visited, ok_bind, if_pos reached]
    · obtain ⟨r, state', ran, faithful', found⟩ := @ih state₁ total'
        (fun front other rest' split early => complete (entry :: front) other rest'
          (by rw [split, cons_append]) ((added front).trans_lt early))
        (by omega) (by omega) faithful₁
      refine ⟨r, state', ?_, faithful', fun known usable reaches => ?_⟩
      · simp only [tally, visited, ok_bind, if_neg reached, ran]
      · apply found known usable
        by_cases counts : checker.Counts known entry
        · rw [countedWeight_cons_of_counts counts] at reaches
          rw [counted known usable counts]
          omega
        · rw [countedWeight_cons_of_not_counts counts] at reaches
          omega

include navigable trail deep below in
theorem satisfiedWith_complete :
    checker.DeeperComplete wanted path (checker.satisfiedWith (checker.deeperAt levels)) authority := by
  intro state faithful
  obtain ⟨positive, fits⟩ := navigable.regular path authority trail (by omega)
  have sorted := checker.permissionSet.perm authority.metaPermissions
  have complete : ∀ front entry rest,
      checker.permissionSet.sort authority.metaPermissions = front ++ entry :: rest →
      0 + checker.countedWeight (checker.Available wanted path) front < authority.threshold →
      checker.VisitComplete wanted path (checker.deeperAt levels) entry :=
    fun front entry rest split early =>
      visit_complete navigable trail deep below split (by rwa [Nat.zero_add] at early)
  have fits' : 0 + totalWeight (checker.permissionSet.sort authority.metaPermissions) < 2 ^ 32 := by
    rw [Nat.zero_add, totalWeight, (sorted.map _).sum_eq]
    exact fits
  obtain ⟨r, state', ran, faithful', found⟩ := tally_complete complete fits' positive faithful
  have result : checker.satisfiedWith (checker.deeperAt levels) authority state =
      .ok (revertKeys state.usedKeys (r, state')) := by
    rw [satisfiedWith, ran]
    rfl
  have complete' : ∀ known, checker.Usable wanted path known → checker.Reaches known authority →
      r = true := by
    intro known usable reaches
    apply found known usable
    rw [countedWeight_perm known sorted, Nat.zero_add]
    exact reaches
  cases r with
  | true => exact ⟨true, _, result, faithful', complete'⟩
  | false => exact ⟨false, _, result, faithful'.usedKeys _, complete'⟩

include navigable in
theorem satisfiedAt_complete (levels : Nat) (trail : checker.Trail wanted origin path authority)
    (deep : path.length + levels = checker.recursionDepthLimit) :
    checker.DeeperComplete wanted path (checker.satisfiedAt levels) authority := by
  induction levels generalizing path authority with
  | zero =>
    exact satisfiedWith_complete navigable trail deep (by simp [deeperAt])
  | succ levels ih =>
    apply satisfiedWith_complete navigable trail deep
    intro satisfied level permission next trail'
    cases level
    apply ih trail'
    rw [length_cons]
    omega

end Check

theorem faithful_start (wanted : PermissionLevel → Prop) (usedKeys : Finset PublicKey) :
    checker.Faithful wanted [] (checker.start usedKeys) := by
  have cached (permission : PermissionLevel) (status : PermissionCacheStatus) :
      (checker.start usedKeys).cachedPermissions permission = some status ↔
        checker.Provided permission ∧ status = .permissionSatisfied := by
    simp only [start, initializePermissionCache, Provided]
    split_ifs with provided <;> simp [provided, eq_comm]
  constructor
  · exact fun permission provided => (cached _ _).mpr ⟨provided, rfl⟩
  · simp [cached]
  · simp [cached]
  · intro permission status found notSatisfied
    exact absurd ((cached _ _).mp found).2 notSatisfied
  · exact fun actor status found => ((cached _ _).mp found).1

section Delegated

variable {permission : PermissionLevel}

theorem Visits.mem (visits : checker.Visits wanted path authority permission) :
    ∃ weight, .permissionLevel ⟨permission, weight⟩ ∈ authority.metaPermissions := by
  obtain ⟨front, weight, rest, split, _⟩ := visits
  refine ⟨weight, (checker.permissionSet.perm _).subset ?_⟩
  rw [split]
  exact mem_append_right front mem_cons_self

theorem reaches_keyed (key : 7 ∈ checker.providedKeys) (known : PermissionLevel → Prop) :
    checker.Reaches known keyed := by
  have counts : checker.Counts known (.key ⟨7, 1⟩) := key
  rw [Reaches, show keyed.metaPermissions = [.key ⟨7, 1⟩] from rfl,
    countedWeight_cons_of_counts counts]
  exact Nat.le_add_right _ _

theorem reaches_delegated (isKnown : known permission) :
    checker.Reaches known (delegated permission) := by
  have counts : checker.Counts known (.permissionLevel ⟨permission, 1⟩) := .inl isKnown
  rw [Reaches, show (delegated permission).metaPermissions = [.permissionLevel ⟨permission, 1⟩]
    from rfl, countedWeight_cons_of_counts counts]
  exact Nat.le_add_right _ _

section

variable (lookup : checker.permissionToAuthority permission = .ok keyed)

include lookup

theorem within_keyed (key : 7 ∈ checker.providedKeys) (depth : Nat) :
    Within checker.Provided checker.Grants (depth + 1) permission :=
  .inr ⟨keyed, lookup, reaches_keyed key _⟩

theorem Trail.of_delegated (trail : checker.Trail wanted (delegated permission) path authority) :
    path = [] ∧ authority = delegated permission ∨ authority = keyed := by
  induction trail with
  | start => exact .inl ⟨rfl, rfl⟩
  | step _ visits _ _ found ih =>
    obtain ⟨weight, member⟩ := visits.mem
    rcases ih with ⟨rfl, rfl⟩ | rfl
    · cases mem_singleton.mp member
      cases lookup.symm.trans found
      exact .inr rfl
    · cases mem_singleton.mp member

theorem Leads.of_delegated {other : PermissionLevel}
    (leads : checker.Leads wanted (delegated permission) path other) :
    path = [] ∧ other = permission := by
  obtain ⟨⟨authority, trail, visits⟩, _, _⟩ := leads
  obtain ⟨weight, member⟩ := visits.mem
  rcases trail.of_delegated lookup with ⟨rfl, rfl⟩ | rfl
  · cases mem_singleton.mp member
    exact ⟨rfl, rfl⟩
  · cases mem_singleton.mp member

end

theorem unobstructed_delegated
    (named : ∀ actor authority, checker.permissionToAuthority ⟨actor, 0⟩ ≠ .ok authority)
    (lookup : checker.permissionToAuthority permission = .ok keyed) (key : 7 ∈ checker.providedKeys)
    (limit : 0 < checker.recursionDepthLimit) (wanted : PermissionLevel → Prop) :
    checker.Unobstructed wanted (delegated permission) where
  named := named
  regular path authority trail _ := by
    rcases trail.of_delegated lookup with ⟨_, rfl⟩ | rfl
    · exact ⟨Nat.one_pos, show 1 + 0 < 2 ^ 32 by decide⟩
    · exact ⟨by decide, by decide⟩
  missing path other thrown leads _ failed := by
    rw [(leads.of_delegated lookup).2, lookup] at failed
    cases failed
  detour path other leads _ _ := by
    obtain ⟨rfl, rfl⟩ := leads.of_delegated lookup
    have within := within_keyed lookup key (checker.recursionDepthLimit - 1)
    rw [Nat.sub_add_cancel limit] at within
    exact within.weaken (fun _ provided => provided)
      (fun _ _ le fact granted => ⟨not_mem_nil, grants_monotone le fact granted⟩)

end Delegated

theorem not_empty_name {permissions : List (PermissionLevel × Authority)}
    (named : ∀ entry ∈ permissions, entry.1.permission ≠ 0) (actor : AccountName)
    (authority : Authority) : permissionToAuthorityIn permissions ⟨actor, 0⟩ ≠ .ok authority := by
  have absent : permissions.lookup ⟨actor, 0⟩ = none := by
    rw [lookup_eq_none_iff]
    intro entry member
    rw [bne_iff_ne]
    exact fun same => named entry member (congrArg PermissionLevel.permission same).symm
  simp [permissionToAuthorityIn, absent]

/-- A permission, met by the key or by another one, and the other one, which is met by it. -/
def inCycle : List (PermissionLevel × Authority) :=
  [(⟨1, 2⟩, { threshold := 1, keys := [⟨7, 1⟩], accounts := [⟨⟨3, 4⟩, 2⟩] }),
    (⟨3, 4⟩, delegated ⟨1, 2⟩)]

/-- The key is enough for the authority, so that its account permission is not visited. -/
def keyedFirst : Authority := { threshold := 1, keys := [⟨7, 1⟩], accounts := [⟨⟨1, 2⟩, 1⟩] }

theorem not_visits_keyedFirst {permission : PermissionLevel} :
    ¬ (withKey inCycle).Visits wanted path keyedFirst permission := by
  rintro ⟨front, weight, rest, split, early⟩
  change ([.key ⟨7, 1⟩, .permissionLevel ⟨⟨1, 2⟩, 1⟩] : List MetaPermission) = _ at split
  cases front with
  | nil => cases split
  | cons entry front =>
    obtain ⟨rfl, -⟩ := cons.inj split
    have counts : (withKey inCycle).Counts ((withKey inCycle).Available wanted path)
      (.key ⟨7, 1⟩) := Finset.mem_singleton_self 7
    rw [countedWeight_cons_of_counts counts] at early
    exact absurd early (Nat.not_lt.mpr (Nat.le_add_right 1 _))

theorem unobstructed_keyedFirst (wanted : PermissionLevel → Prop) :
    (withKey inCycle).Unobstructed wanted keyedFirst := by
  have onlyStart {path : List PermissionLevel} {authority : Authority}
      (trail : (withKey inCycle).Trail wanted keyedFirst path authority) : authority = keyedFirst := by
    induction trail with
    | start => rfl
    | step _ visits _ _ _ ih => exact absurd (ih ▸ visits) not_visits_keyedFirst
  have nowhere {path : List PermissionLevel} {permission : PermissionLevel}
      (leads : (withKey inCycle).Leads wanted keyedFirst path permission) : False := by
    obtain ⟨⟨authority, trail, visits⟩, _, _⟩ := leads
    exact not_visits_keyedFirst (onlyStart trail ▸ visits)
  refine ⟨not_empty_name (by decide), fun _ _ trail _ => ?_, fun _ _ _ leads => (nowhere leads).elim,
    fun _ _ leads => (nowhere leads).elim⟩
  rw [onlyStart trail]
  exact ⟨by decide, by decide⟩

end AuthorityChecker

end CodexRelay.Chain
