import CodexRelay.Library.FlatSet
import CodexRelay.Chain.Types

/-!
Contract: the whitelist and the blacklist of actors that a node is configured with.

Owns:
- `check_actor_list` of `controller.cpp`;
- that it throws for the transactions it is meant to, whatever the extents of the sets are.
-/

namespace CodexRelay.Chain

open Library

/-- The name lists of `controller::config` that concern actors. -/
structure ActorLists where
  actorWhitelist : FlatSet AccountName := ∅
  actorBlacklist : FlatSet AccountName := ∅

namespace ActorLists

def scanSubset (actors whitelist : FlatSet AccountName) : Bool :=
  FlatSet.scanSubset actors.elements whitelist.elements

def scanIntersects (actors blacklist : FlatSet AccountName) : Bool :=
  FlatSet.scanIntersects actors.elements blacklist.elements

/-- `is_subset`: "quick extents check, then brute force the check actors". -/
def isSubset (actors whitelist : FlatSet AccountName) : Bool :=
  if FlatSet.withinExtents actors whitelist then scanSubset actors whitelist else false

def intersects (actors blacklist : FlatSet AccountName) : Bool :=
  if FlatSet.overlapExtents actors blacklist then scanIntersects actors blacklist else false

def checkActorListBy (isSubset intersects : FlatSet AccountName → FlatSet AccountName → Bool)
    (conf : ActorLists) (actors : FlatSet AccountName) : Checked Unit :=
  if actors.elements.length = 0 then .ok ()
  else if 0 < conf.actorWhitelist.elements.length then
    eosAssert (isSubset actors conf.actorWhitelist) .actorWhitelistException
      "authorizing actor(s) in transaction are not on the actor whitelist: ${actors}"
  else if 0 < conf.actorBlacklist.elements.length then
    eosAssert (!intersects actors conf.actorBlacklist) .actorBlacklistException
      "authorizing actor(s) in transaction are on the actor blacklist: ${actors}"
  else .ok ()

def checkActorList (conf : ActorLists) (actors : FlatSet AccountName) : Checked Unit :=
  checkActorListBy isSubset intersects conf actors

variable {actors : FlatSet AccountName}

/-! ### The shortcuts -/

theorem isSubset_eq_scanSubset (nonempty : actors.elements ≠ []) (whitelist : FlatSet AccountName) :
    isSubset actors whitelist = scanSubset actors whitelist := by
  unfold isSubset
  split_ifs with within
  · rfl
  · symm
    rw [← Bool.not_eq_true]
    intro found
    have subset := (FlatSet.scanSubset_eq_true actors.sorted whitelist.sorted).mp found
    exact within (FlatSet.withinExtents_of_subset nonempty subset)

theorem intersects_eq_scanIntersects (actors blacklist : FlatSet AccountName) :
    intersects actors blacklist = scanIntersects actors blacklist := by
  unfold intersects
  split_ifs with overlap
  · rfl
  · symm
    rw [← Bool.not_eq_true]
    intro found
    obtain ⟨actor, isActor, isListed⟩ :=
      (FlatSet.scanIntersects_eq_true actors.sorted blacklist.sorted).mp found
    exact overlap (FlatSet.overlapExtents_of_mem isActor isListed)

theorem checkActorList_eq_scan (conf : ActorLists) (actors : FlatSet AccountName) :
    checkActorList conf actors = checkActorListBy scanSubset scanIntersects conf actors := by
  unfold checkActorList checkActorListBy
  split_ifs with empty
  · rfl
  · rw [isSubset_eq_scanSubset (fun isEmpty => empty (by rw [isEmpty]; rfl))]
  · rw [intersects_eq_scanIntersects]
  · rfl

theorem eosAssert_error_iff {holds : Bool} {code : ExceptionCode} {what : String} :
    (∃ exception, eosAssert holds code what = .error exception) ↔ holds = false := by
  cases holds with
  | false => exact ⟨fun _ => rfl, fun _ => ⟨_, rfl⟩⟩
  | true => simp [eosAssert]

/-- **The actor check**: it throws exactly when there is a whitelist and an actor is not in it, or
there is none and an actor is in the blacklist, and it does so without the comparison of extents. -/
theorem checkActorList_error_iff (conf : ActorLists) (actors : FlatSet AccountName) :
    ((∃ exception, checkActorList conf actors = .error exception) ↔
      (conf.actorWhitelist.elements ≠ [] ∧
        ∃ actor ∈ actors.elements, actor ∉ conf.actorWhitelist.elements) ∨
      (conf.actorWhitelist.elements = [] ∧
        ∃ actor ∈ actors.elements, actor ∈ conf.actorBlacklist.elements)) ∧
    checkActorList conf actors = checkActorListBy scanSubset scanIntersects conf actors := by
  refine ⟨?_, checkActorList_eq_scan conf actors⟩
  rw [checkActorList_eq_scan]
  unfold checkActorListBy
  split_ifs with empty whitelisted blacklisted
  · rw [List.eq_nil_of_length_eq_zero empty]
    simp
  · have nonempty := List.ne_nil_of_length_pos whitelisted
    have subset := FlatSet.scanSubset_eq_true actors.sorted conf.actorWhitelist.sorted
    rw [eosAssert_error_iff, ← Bool.not_eq_true, scanSubset, subset, List.subset_def]
    simp [nonempty]
  · have noWhitelist : conf.actorWhitelist.elements = [] := by simpa using whitelisted
    have common := FlatSet.scanIntersects_eq_true actors.sorted conf.actorBlacklist.sorted
    rw [eosAssert_error_iff, Bool.not_eq_false', scanIntersects, common]
    simp [noWhitelist]
  · have noWhitelist : conf.actorWhitelist.elements = [] := by simpa using whitelisted
    have noBlacklist : conf.actorBlacklist.elements = [] := by simpa using blacklisted
    simp [noWhitelist, noBlacklist]

end ActorLists

end CodexRelay.Chain
