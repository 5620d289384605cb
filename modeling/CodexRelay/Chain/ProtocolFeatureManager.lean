import CodexRelay.Library.Run
import CodexRelay.Chain.Types

/-!
Contract: the protocol features that are activated on the branch of the head.

Owns:
- `protocol_feature_manager` with its three records of the same activations: a vector, an entry
  for each builtin feature, and a list linked through these entries;
- `activate_feature`, `popped_blocks_to` and `is_builtin_activated`;
- the three records as functions of the activations that were not popped.

Does not own: which features are recognized, and what their activation changes.

`not_active` is the last block number, so that a feature which is not active passes for active
at that block.
-/

namespace CodexRelay.Chain

open Library List

variable {manager : ProtocolFeatureManager} {digest : Digest} {feature : ProtocolFeature}

/-! ### Features -/

inductive BuiltinProtocolFeature where
  | preactivateFeature
  | onlyLinkToExistingPermission
  | replaceDeferred
  | noDuplicateDeferredId
  | fixLinkauthRestriction
  | disallowEmptyProducerSchedule
  | restrictActionToSelf
  | onlyBillFirstAuthorizer
  | forwardSetcode
  | getSender
  | ramRestrictions
deriving DecidableEq

/-- `static_cast<uint32_t>`. -/
def BuiltinProtocolFeature.indx : BuiltinProtocolFeature → Nat
  | .preactivateFeature => 0
  | .onlyLinkToExistingPermission => 1
  | .replaceDeferred => 2
  | .noDuplicateDeferredId => 3
  | .fixLinkauthRestriction => 4
  | .disallowEmptyProducerSchedule => 5
  | .restrictActionToSelf => 6
  | .onlyBillFirstAuthorizer => 7
  | .forwardSetcode => 8
  | .getSender => 9
  | .ramRestrictions => 10

theorem BuiltinProtocolFeature.indx_injective : Function.Injective BuiltinProtocolFeature.indx := by
  intro left right same
  cases left <;> cases right <;> first | rfl | exact absurd same (by decide)

structure ProtocolFeature where
  featureDigest : Digest
  builtinFeature : Option BuiltinProtocolFeature
deriving DecidableEq

structure ProtocolFeatureSet where
  recognizedProtocolFeatures : List ProtocolFeature
  /-- the size of `_recognized_builtin_protocol_features` -/
  builtinSize : Nat
deriving DecidableEq

def ProtocolFeatureSet.find (set : ProtocolFeatureSet) (digest : Digest) : Option ProtocolFeature :=
  set.recognizedProtocolFeatures.find? (·.featureDigest = digest)

/-! ### The manager -/

@[irreducible] def noPrevious : Nat := 2 ^ 64 - 1

@[irreducible] def notActive : Nat := 2 ^ 32 - 1

structure ProtocolFeatureEntry where
  feature : ProtocolFeature
  activationBlockNum : Nat
deriving DecidableEq

structure BuiltinProtocolFeatureEntry where
  previous : Nat := noPrevious
  activationBlockNum : Nat := notActive
deriving DecidableEq

structure ProtocolFeatureManager where
  protocolFeatureSet : ProtocolFeatureSet
  activatedProtocolFeatures : List ProtocolFeatureEntry
  builtinProtocolFeatures : List BuiltinProtocolFeatureEntry
  headOfBuiltinActivationList : Nat
  initialized : Bool
deriving DecidableEq

namespace ProtocolFeatureManager

/-- The constructor, and `init` on a database without activated features. -/
def start (set : ProtocolFeatureSet) : ProtocolFeatureManager where
  protocolFeatureSet := set
  activatedProtocolFeatures := []
  builtinProtocolFeatures := List.replicate set.builtinSize {}
  headOfBuiltinActivationList := noPrevious
  initialized := true

def isBuiltinActivated (manager : ProtocolFeatureManager) (featureCodename : BuiltinProtocolFeature)
    (currentBlockNum : Nat) : Bool :=
  match manager.builtinProtocolFeatures[featureCodename.indx]? with
  | none => false
  | some entry => entry.activationBlockNum ≤ currentBlockNum

def activateFeature (manager : ProtocolFeatureManager) (featureDigest : Digest)
    (currentBlockNum : Nat) : Checked ProtocolFeatureManager := do
  eosAssert manager.initialized .protocolFeatureException
    "protocol_feature_manager is not yet initialized"
  match manager.protocolFeatureSet.find featureDigest with
  | none => .error ⟨.protocolFeatureException, "unrecognized protocol feature digest: digest"⟩
  | some feature =>
    eosAssert (∀ last ∈ manager.activatedProtocolFeatures.getLast?,
        last.activationBlockNum ≤ currentBlockNum) .protocolFeatureException
      "last protocol feature activation block num is last_activation_block_num yet attempting to activate protocol feature with a current block num of current_block_num"
    match feature.builtinFeature with
    | none => .error ⟨.protocolFeatureException,
        "invariant failure: encountered non-builtin protocol feature which is not yet supported"⟩
    | some codename =>
      match manager.builtinProtocolFeatures[codename.indx]? with
      | none => .error ⟨.protocolFeatureException,
          "invariant failure while trying to activate feature with digest: unsupported builtin_protocol_feature_t"⟩
      | some entry =>
        eosAssert (entry.activationBlockNum = notActive) .protocolFeatureException
          "cannot activate already activated builtin feature with digest: digest"
        return { manager with
          activatedProtocolFeatures :=
            manager.activatedProtocolFeatures ++ [⟨feature, currentBlockNum⟩]
          builtinProtocolFeatures := manager.builtinProtocolFeatures.set codename.indx
            ⟨manager.headOfBuiltinActivationList, currentBlockNum⟩
          headOfBuiltinActivationList := codename.indx }

/-- The first loop of `popped_blocks_to`, on the entries and the head of the list. It unlinks each
entry that it visits, so one step more than there are entries is enough. -/
def unlinkBuiltins (blockNum : Nat) : (steps : Nat) → List BuiltinProtocolFeatureEntry → (head : Nat) →
    Checked (List BuiltinProtocolFeatureEntry × Nat)
  | 0, _, _ => .error ⟨.fault, "the loop does not end"⟩
  | steps + 1, entries, head =>
    if head = noPrevious then .ok (entries, head)
    else
      match entries[head]? with
      | none => .error ⟨.fault, "access outside of _builtin_protocol_features"⟩
      | some entry =>
        if entry.activationBlockNum ≤ blockNum then .ok (entries, head)
        else unlinkBuiltins blockNum steps (entries.set head {}) entry.previous

def poppedBlocksTo (manager : ProtocolFeatureManager) (blockNum : Nat) :
    Checked ProtocolFeatureManager := do
  eosAssert manager.initialized .protocolFeatureException
    "protocol_feature_manager is not yet initialized"
  let (entries, head) ← unlinkBuiltins blockNum (manager.builtinProtocolFeatures.length + 1)
    manager.builtinProtocolFeatures manager.headOfBuiltinActivationList
  return { manager with
    activatedProtocolFeatures :=
      manager.activatedProtocolFeatures.rdropWhile (blockNum < ·.activationBlockNum)
    builtinProtocolFeatures := entries
    headOfBuiltinActivationList := head }

/-! ### Activations -/

def entryIndx (activation : ProtocolFeatureEntry) : Nat :=
  match activation.feature.builtinFeature with
  | none => noPrevious
  | some codename => codename.indx

/-- The head of the linked list, for activations with the newest first. -/
def headOf : List ProtocolFeatureEntry → Nat
  | [] => noPrevious
  | newest :: _ => entryIndx newest

/-- The entry of a builtin feature, for activations with the newest first. -/
def builtinEntryOf : List ProtocolFeatureEntry → Nat → BuiltinProtocolFeatureEntry
  | [], _ => {}
  | newest :: older, indx =>
    if entryIndx newest = indx then ⟨headOf older, newest.activationBlockNum⟩
    else builtinEntryOf older indx

def builtinsOf (set : ProtocolFeatureSet) (activations : List ProtocolFeatureEntry) :
    List BuiltinProtocolFeatureEntry :=
  (List.range set.builtinSize).map (builtinEntryOf activations)

def ofActivations (set : ProtocolFeatureSet) (activations : List ProtocolFeatureEntry) :
    ProtocolFeatureManager where
  protocolFeatureSet := set
  activatedProtocolFeatures := activations.reverse
  builtinProtocolFeatures := builtinsOf set activations
  headOfBuiltinActivationList := headOf activations
  initialized := true

structure Chronological (set : ProtocolFeatureSet) (activations : List ProtocolFeatureEntry) :
    Prop where
  descending : activations.Pairwise fun newer older =>
    older.activationBlockNum ≤ newer.activationBlockNum
  distinct : (activations.map entryIndx).Nodup
  builtin : ∀ activation ∈ activations, activation.feature.builtinFeature.isSome
  supported : ∀ activation ∈ activations, entryIndx activation < set.builtinSize
  numbered : ∀ activation ∈ activations, activation.activationBlockNum < notActive

/-- A call that returns, with the list of the activations that were not popped. -/
inductive Step (set : ProtocolFeatureSet) :
    ProtocolFeatureManager × List ProtocolFeatureEntry →
      ProtocolFeatureManager × List ProtocolFeatureEntry → Prop where
  | activated {manager manager' : ProtocolFeatureManager} {activations : List ProtocolFeatureEntry}
      {digest : Digest} {blockNum : Nat} {feature : ProtocolFeature} (found : set.find digest = some feature)
      (returned : manager.activateFeature digest blockNum = .ok manager')
      (numbered : blockNum < notActive) :
      Step set (manager, activations) (manager', ⟨feature, blockNum⟩ :: activations)
  | popped {manager manager' : ProtocolFeatureManager} {activations : List ProtocolFeatureEntry}
      {blockNum : Nat} (returned : manager.poppedBlocksTo blockNum = .ok manager') :
      Step set (manager, activations)
        (manager', activations.filter (·.activationBlockNum ≤ blockNum))

section Activations

variable {set : ProtocolFeatureSet} {activations older : List ProtocolFeatureEntry}
  {newest : ProtocolFeatureEntry} {indx blockNum : Nat}

theorem Chronological.nil : Chronological set [] := ⟨.nil, nodup_nil, by simp, by simp, by simp⟩

theorem Chronological.tail (chronological : Chronological set (newest :: older)) :
    Chronological set older where
  descending := (pairwise_cons.mp chronological.descending).2
  distinct := (nodup_cons.mp chronological.distinct).2
  builtin activation member := chronological.builtin activation (mem_cons_of_mem _ member)
  supported activation member := chronological.supported activation (mem_cons_of_mem _ member)
  numbered activation member := chronological.numbered activation (mem_cons_of_mem _ member)

theorem Chronological.length_le (chronological : Chronological set activations) :
    activations.length ≤ set.builtinSize := by
  have inRange : activations.map entryIndx ⊆ List.range set.builtinSize := by
    intro indx member
    obtain ⟨activation, activationMember, rfl⟩ := mem_map.mp member
    exact mem_range.mpr (chronological.supported activation activationMember)
  simpa using (subperm_of_subset chronological.distinct inRange).length_le

theorem entryIndx_ne_noPrevious (builtin : newest.feature.builtinFeature.isSome) :
    entryIndx newest ≠ noPrevious := by
  obtain ⟨codename, known⟩ := Option.isSome_iff_exists.mp builtin
  unfold entryIndx noPrevious
  rw [known]
  cases codename <;> decide

/-- A feature without an activation has the entry of one that is not active. -/
theorem builtinEntryOf_of_not_mem (absent : indx ∉ activations.map entryIndx) :
    builtinEntryOf activations indx = {} := by
  induction activations with
  | nil => rfl
  | cons newest older ih =>
    rw [map_cons, mem_cons, not_or] at absent
    rw [builtinEntryOf, if_neg (Ne.symm absent.1)]
    exact ih absent.2

theorem getElem_builtinsOf (inside : indx < set.builtinSize) :
    (builtinsOf set activations)[indx]? = some (builtinEntryOf activations indx) := by
  simp [builtinsOf, inside]

theorem builtinEntryOf_of_mem (member : indx ∈ activations.map entryIndx) :
    ∃ activation ∈ activations, entryIndx activation = indx ∧
      (builtinEntryOf activations indx).activationBlockNum = activation.activationBlockNum := by
  induction activations with
  | nil => exact absurd member not_mem_nil
  | cons newest older ih =>
    by_cases same : entryIndx newest = indx
    · rw [builtinEntryOf, if_pos same]
      exact ⟨newest, mem_cons_self, same, rfl⟩
    · have inOlder := (mem_cons.mp member).resolve_left (Ne.symm same)
      obtain ⟨activation, activationMember, found⟩ := ih inOlder
      rw [builtinEntryOf, if_neg same]
      exact ⟨activation, mem_cons_of_mem _ activationMember, found⟩

theorem builtinsOf_cons : builtinsOf set (newest :: older) =
    (builtinsOf set older).set (entryIndx newest) ⟨headOf older, newest.activationBlockNum⟩ := by
  apply ext_getElem
  · simp [builtinsOf]
  · intro indx _ _
    simp only [builtinsOf, getElem_set, getElem_map, getElem_range, builtinEntryOf]

theorem builtinsOf_tail (absent : entryIndx newest ∉ older.map entryIndx) :
    (builtinsOf set (newest :: older)).set (entryIndx newest) {} = builtinsOf set older := by
  apply ext_getElem
  · simp [builtinsOf]
  · intro indx _ _
    simp only [builtinsOf, getElem_set, getElem_map, getElem_range, builtinEntryOf]
    split_ifs with same
    · rw [← same]
      exact (builtinEntryOf_of_not_mem absent).symm
    · rfl

/-- The activations up to a block are those before which the loops stop. -/
theorem dropWhile_eq_filter (chronological : Chronological set activations) (blockNum : Nat) :
    activations.dropWhile (blockNum < ·.activationBlockNum) =
      activations.filter (·.activationBlockNum ≤ blockNum) := by
  induction activations with
  | nil => rfl
  | cons newest older ih =>
    by_cases above : blockNum < newest.activationBlockNum
    · rw [dropWhile_cons_of_pos (by simpa using above),
        filter_cons_of_neg (by simpa using above), ih chronological.tail]
    · have upTo : ∀ activation ∈ newest :: older, activation.activationBlockNum ≤ blockNum := by
        intro activation member
        rcases mem_cons.mp member with rfl | olderMember
        · exact not_lt.mp above
        · exact ((pairwise_cons.mp chronological.descending).1 activation olderMember).trans
            (not_lt.mp above)
      rw [dropWhile_cons_of_neg (by simpa using above)]
      exact (filter_eq_self.mpr fun activation member => by simpa using upTo activation member).symm

/-! ### The calls -/

theorem unlinkBuiltins_of_chronological (chronological : Chronological set activations)
    {steps : Nat} (enough : activations.length < steps) :
    unlinkBuiltins blockNum steps (builtinsOf set activations) (headOf activations) =
      let remaining := activations.dropWhile (blockNum < ·.activationBlockNum)
      .ok (builtinsOf set remaining, headOf remaining) := by
  induction activations generalizing steps with
  | nil =>
    obtain ⟨steps, rfl⟩ := Nat.exists_eq_succ_of_ne_zero (Nat.ne_of_gt enough)
    exact if_pos rfl
  | cons newest older ih =>
    obtain ⟨steps, rfl⟩ := Nat.exists_eq_succ_of_ne_zero (Nat.ne_of_gt (Nat.zero_lt_of_lt enough))
    have inside := chronological.supported newest mem_cons_self
    have linked := entryIndx_ne_noPrevious (chronological.builtin newest mem_cons_self)
    unfold unlinkBuiltins
    rw [headOf, if_neg linked, getElem_builtinsOf inside, builtinEntryOf, if_pos rfl]
    dsimp only
    by_cases above : blockNum < newest.activationBlockNum
    · rw [if_neg (not_le.mpr above), dropWhile_cons_of_pos (by simpa using above),
        builtinsOf_tail (nodup_cons.mp chronological.distinct).1]
      exact ih chronological.tail (Nat.lt_of_succ_lt_succ enough)
    · rw [if_pos (not_lt.mp above), dropWhile_cons_of_neg (by simpa using above)]
      rfl

/-- `popped_blocks_to` returns and leaves the activations up to the block. -/
theorem poppedBlocksTo_ofActivations (chronological : Chronological set activations)
    (blockNum : Nat) :
    (ofActivations set activations).poppedBlocksTo blockNum =
      .ok (ofActivations set (activations.filter (·.activationBlockNum ≤ blockNum))) := by
  have enough : activations.length < (builtinsOf set activations).length + 1 := by
    have fits := chronological.length_le
    simp only [builtinsOf, length_map, length_range]
    omega
  have vector : activations.reverse.rdropWhile (blockNum < ·.activationBlockNum) =
      (activations.filter (·.activationBlockNum ≤ blockNum)).reverse := by
    rw [List.rdropWhile, reverse_reverse, dropWhile_eq_filter chronological]
  unfold poppedBlocksTo ofActivations
  dsimp only
  rw [eosAssert, if_pos rfl, ok_bind, unlinkBuiltins_of_chronological chronological enough,
    dropWhile_eq_filter chronological]
  dsimp only
  rw [ok_bind, vector]
  rfl

theorem activateFeature_eq_ok {manager' : ProtocolFeatureManager}
    (found : manager.protocolFeatureSet.find digest = some feature)
    (returned : manager.activateFeature digest blockNum = .ok manager') :
    ∃ codename entry, feature.builtinFeature = some codename ∧
      (∀ last ∈ manager.activatedProtocolFeatures.getLast?, last.activationBlockNum ≤ blockNum) ∧
      manager.builtinProtocolFeatures[codename.indx]? = some entry ∧
      entry.activationBlockNum = notActive ∧
      manager' = { manager with
        activatedProtocolFeatures := manager.activatedProtocolFeatures ++ [⟨feature, blockNum⟩]
        builtinProtocolFeatures := manager.builtinProtocolFeatures.set codename.indx
          ⟨manager.headOfBuiltinActivationList, blockNum⟩
        headOfBuiltinActivationList := codename.indx } := by
  unfold activateFeature at returned
  obtain ⟨_, -, returned⟩ := of_bind returned
  rw [found] at returned
  obtain ⟨_, ordered, returned⟩ := of_bind returned
  cases known : feature.builtinFeature with
  | none =>
    rw [known] at returned
    cases returned
  | some codename =>
    rw [known] at returned
    dsimp only at returned
    cases supported : manager.builtinProtocolFeatures[codename.indx]? with
    | none =>
      rw [supported] at returned
      cases returned
    | some entry =>
      rw [supported] at returned
      obtain ⟨_, inactive, returned⟩ := of_bind returned
      exact ⟨codename, entry, rfl, eosAssert_eq_ok.mp ordered, supported, eosAssert_eq_ok.mp inactive,
        (Except.ok.inj returned).symm⟩

/-- `activate_feature`, when it returns, adds one activation to the branch. -/
theorem activateFeature_ofActivations (chronological : Chronological set activations)
    (found : set.find digest = some feature) (numbered : blockNum < notActive)
    (returned : (ofActivations set activations).activateFeature digest blockNum = .ok manager) :
    manager = ofActivations set (⟨feature, blockNum⟩ :: activations) ∧
      Chronological set (⟨feature, blockNum⟩ :: activations) := by
  obtain ⟨codename, entry, known, ordered, supported, inactive, rfl⟩ :=
    activateFeature_eq_ok found returned
  have index : entryIndx ⟨feature, blockNum⟩ = codename.indx := by
    unfold entryIndx
    rw [known]
  have inside : codename.indx < set.builtinSize := by
    have bounded := (List.getElem?_eq_some_iff.mp supported).1
    simpa [ofActivations, builtinsOf] using bounded
  have absent : codename.indx ∉ activations.map entryIndx := by
    intro member
    obtain ⟨activation, activationMember, -, same⟩ := builtinEntryOf_of_mem member
    change (builtinsOf set activations)[codename.indx]? = _ at supported
    rw [getElem_builtinsOf inside, Option.some.injEq] at supported
    rw [← supported, same] at inactive
    exact (chronological.numbered activation activationMember).ne inactive
  constructor
  · unfold ofActivations
    rw [builtinsOf_cons, reverse_cons, index, headOf, index]
  · refine ⟨pairwise_cons.mpr ⟨?_, chronological.descending⟩, ?_, ?_, ?_, ?_⟩
    · intro older member
      cases activations with
      | nil => exact absurd member not_mem_nil
      | cons newest rest =>
        have newestLe : newest.activationBlockNum ≤ blockNum := ordered newest (by simp [ofActivations])
        rcases mem_cons.mp member with rfl | olderMember
        · exact newestLe
        · exact ((pairwise_cons.mp chronological.descending).1 older olderMember).trans newestLe
    · rw [map_cons, index]
      exact nodup_cons.mpr ⟨absent, chronological.distinct⟩
    · exact forall_mem_cons.mpr ⟨by rw [known]; rfl, chronological.builtin⟩
    · exact forall_mem_cons.mpr ⟨by rw [index]; exact inside, chronological.supported⟩
    · exact forall_mem_cons.mpr ⟨numbered, chronological.numbered⟩

theorem Chronological.filter (chronological : Chronological set activations)
    (kept : ProtocolFeatureEntry → Bool) : Chronological set (activations.filter kept) where
  descending := chronological.descending.filter _
  distinct := chronological.distinct.sublist (filter_sublist.map _)
  builtin activation member := chronological.builtin activation (mem_of_mem_filter member)
  supported activation member := chronological.supported activation (mem_of_mem_filter member)
  numbered activation member := chronological.numbered activation (mem_of_mem_filter member)

theorem start_eq_ofActivations (set : ProtocolFeatureSet) : start set = ofActivations set [] := by
  have entries : List.replicate set.builtinSize ({} : BuiltinProtocolFeatureEntry) = builtinsOf set [] := by
    unfold builtinsOf
    rw [show builtinEntryOf [] = fun _ => {} from funext fun _ => rfl, map_const', length_range]
  unfold start ofActivations
  rw [entries]
  rfl

/-- Below the last block number, the entry of a builtin feature tells whether it is active. -/
theorem isBuiltinActivated_ofActivations (chronological : Chronological set activations)
    (codename : BuiltinProtocolFeature) (numbered : blockNum < notActive) :
    (ofActivations set activations).isBuiltinActivated codename blockNum = true ↔
      ∃ activation ∈ activations, activation.feature.builtinFeature = some codename ∧
        activation.activationBlockNum ≤ blockNum := by
  have indexOf : ∀ activation ∈ activations, entryIndx activation = codename.indx ↔
      activation.feature.builtinFeature = some codename := by
    intro activation member
    obtain ⟨other, known⟩ := Option.isSome_iff_exists.mp (chronological.builtin activation member)
    unfold entryIndx
    rw [known]
    simp [BuiltinProtocolFeature.indx_injective.eq_iff]
  unfold isBuiltinActivated
  change (match (builtinsOf set activations)[codename.indx]? with
    | none => false
    | some entry => decide (entry.activationBlockNum ≤ blockNum)) = true ↔ _
  by_cases inside : codename.indx < set.builtinSize
  · rw [getElem_builtinsOf inside]
    dsimp only
    rw [decide_eq_true_iff]
    by_cases member : codename.indx ∈ activations.map entryIndx
    · obtain ⟨activation, activationMember, index, same⟩ := builtinEntryOf_of_mem member
      rw [same]
      constructor
      · intro active
        exact ⟨activation, activationMember, (indexOf activation activationMember).mp index, active⟩
      · rintro ⟨other, otherMember, known, active⟩
        have sameIndex := ((indexOf other otherMember).mpr known).trans index.symm
        rw [← inj_on_of_nodup_map chronological.distinct otherMember activationMember sameIndex]
        exact active
    · rw [builtinEntryOf_of_not_mem member]
      constructor
      · intro active
        exact absurd numbered (not_lt.mpr active)
      · rintro ⟨other, otherMember, known, -⟩
        exact absurd (mem_map.mpr ⟨other, otherMember, (indexOf other otherMember).mpr known⟩) member
  · have outside : (builtinsOf set activations)[codename.indx]? = none := by
      simpa [builtinsOf] using inside
    rw [outside]
    constructor
    · intro impossible
      cases impossible
    · rintro ⟨other, otherMember, known, -⟩
      have bounded := chronological.supported other otherMember
      rw [(indexOf other otherMember).mpr known] at bounded
      exact absurd bounded inside

structure Tracked (set : ProtocolFeatureSet)
    (state : ProtocolFeatureManager × List ProtocolFeatureEntry) : Prop where
  chronological : Chronological set state.2
  records : state.1 = ofActivations set state.2

theorem Tracked.step {state state' : ProtocolFeatureManager × List ProtocolFeatureEntry}
    (tracked : Tracked set state) (step : Step set state state') : Tracked set state' := by
  obtain ⟨chronological, records⟩ := tracked
  cases step with
  | activated found returned numbered =>
    dsimp only at records
    rw [records] at returned
    obtain ⟨records', chronological'⟩ :=
      activateFeature_ofActivations chronological found numbered returned
    exact ⟨chronological', records'⟩
  | popped returned =>
    dsimp only at records
    rw [records, poppedBlocksTo_ofActivations chronological] at returned
    exact ⟨chronological.filter _, (Except.ok.inj returned).symm⟩

/-- In every state of a run in which no feature is activated at the last block number, the records
are those that the activations determine which were not popped. Below the last block number a
builtin feature is active exactly from the block of its activation on. -/
theorem tracks_activations_of_run {visited : List (ProtocolFeatureManager × List ProtocolFeatureEntry)}
    {state : ProtocolFeatureManager × List ProtocolFeatureEntry}
    (run : Run (Step set) (start set, []) visited state) :
    state.1 = ofActivations set state.2 ∧
      ∀ codename blockNum, blockNum < notActive →
        (state.1.isBuiltinActivated codename blockNum = true ↔
          ∃ activation ∈ state.2, activation.feature.builtinFeature = some codename ∧
            activation.activationBlockNum ≤ blockNum) := by
  have tracked : Tracked set state :=
    run.invariant ⟨.nil, start_eq_ofActivations set⟩ fun _ _ holds step => holds.step step
  refine ⟨tracked.records, fun codename blockNum numbered => ?_⟩
  rw [tracked.records]
  exact isBuiltinActivated_ofActivations tracked.chronological codename numbered

end Activations

/-! ### Samples -/

def preactivation : ProtocolFeature := ⟨17, some .preactivateFeature⟩

def oneFeature : ProtocolFeatureSet := ⟨[preactivation], 1⟩

/-- A feature that was never activated is active at the last block number. -/
theorem active_at_last_block_num :
    (start oneFeature).isBuiltinActivated .preactivateFeature (2 ^ 32 - 1) = true ∧
      (start oneFeature).activatedProtocolFeatures = [] := by
  decide +kernel

def linkRestriction : ProtocolFeature := ⟨18, some .onlyLinkToExistingPermission⟩

def twoFeatures : ProtocolFeatureSet := ⟨[preactivation, linkRestriction], 2⟩

/-- A feature that was activated at block 5 stays active, and one of block 7 is popped and activated
again at block 8. -/
theorem tracks_popped_activation : ∃ manager,
    manager = ofActivations twoFeatures [⟨linkRestriction, 8⟩, ⟨preactivation, 5⟩] ∧
      manager.isBuiltinActivated .preactivateFeature 6 = true ∧
      ¬ manager.isBuiltinActivated .onlyLinkToExistingPermission 7 = true := by
  have first : (start twoFeatures).activateFeature 17 5 =
      .ok (ofActivations twoFeatures [⟨preactivation, 5⟩]) := by
    decide +kernel
  have second : (ofActivations twoFeatures [⟨preactivation, 5⟩]).activateFeature 18 7 =
      .ok (ofActivations twoFeatures [⟨linkRestriction, 7⟩, ⟨preactivation, 5⟩]) := by
    decide +kernel
  have popped : (ofActivations twoFeatures [⟨linkRestriction, 7⟩, ⟨preactivation, 5⟩]).poppedBlocksTo
      6 = .ok (ofActivations twoFeatures [⟨preactivation, 5⟩]) := by
    decide +kernel
  have again : (ofActivations twoFeatures [⟨preactivation, 5⟩]).activateFeature 18 8 =
      .ok (ofActivations twoFeatures [⟨linkRestriction, 8⟩, ⟨preactivation, 5⟩]) := by
    decide +kernel
  have run : Run (Step twoFeatures) (start twoFeatures, []) _
      (_, [⟨linkRestriction, 8⟩, ⟨preactivation, 5⟩]) :=
    .snoc (.snoc (.snoc (.snoc .refl (.activated rfl first (by decide +kernel)))
      (.activated rfl second (by decide +kernel))) (.popped popped))
      (.activated rfl again (by decide +kernel))
  obtain ⟨records, active⟩ := tracks_activations_of_run run
  refine ⟨_, records, (active _ 6 (by decide +kernel)).mpr ?_, ?_⟩
  · exact ⟨⟨preactivation, 5⟩, by decide, rfl, by decide⟩
  · rw [active _ 7 (by decide +kernel)]
    decide

end ProtocolFeatureManager

end CodexRelay.Chain
