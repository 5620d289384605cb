import CodexRelay.Chain.HeaderState.Branch

/-!
Contract: a header that a node produces is accepted by the nodes that receive it.

Owns:
- that `next` opens the same pending state for the producer and for a receiver;
- that `finish_next` for a received header returns what it returned to the producer;
- that a round of slots, wherever it begins, gives every active producer the same number of them.

Nothing is assumed of the signer: `sign` checks that the key recovered from its signature
is the scheduled one.
-/

namespace CodexRelay.Chain

variable {fc : Primitives}

variable {state : BlockHeaderState} {slot confirmed : Nat}

/-! ### Opening the pending state -/

theorem BlockHeaderState.nextSlot_idem {chosen : Nat} (width : state.header.timestamp < 2 ^ 32)
    (chose : state.nextSlot slot = .ok chosen) :
    state.nextSlot chosen = .ok chosen := by
  unfold nextSlot at chose
  split at chose
  case isTrue given =>
    obtain ⟨_, future, chose⟩ := of_bind chose
    obtain rfl := Except.ok.inj chose
    unfold nextSlot
    rw [if_pos given, future]
    rfl
  case isFalse =>
    obtain rfl := Except.ok.inj chose
    unfold nextSlot
    by_cases wraps : (state.header.timestamp + 1) % 2 ^ 32 = 0
    · rw [if_neg (not_not.mpr wraps)]
      rfl
    · rw [if_pos wraps]
      have future : state.header.timestamp < (state.header.timestamp + 1) % 2 ^ 32 := by omega
      exact sequence_eq_ok.mpr ⟨(), eosAssert_eq_ok.mpr future, rfl⟩

theorem BlockHeaderState.next_timestamp {pending : PendingBlockHeaderState}
    (opened : state.next fc slot confirmed = .ok pending) :
    state.nextSlot slot = .ok pending.timestamp ∧ pending.confirmed = confirmed := by
  unfold next at opened
  obtain ⟨chosen, chose, opened⟩ := of_bind opened
  obtain ⟨prokey, -, opened⟩ := of_bind opened
  obtain ⟨_, -, opened⟩ := of_bind opened
  obtain rfl := Except.ok.inj opened
  exact ⟨chose, rfl⟩

theorem BlockHeaderState.next_of_produced {pending : PendingBlockHeaderState}
    (width : state.header.timestamp < 2 ^ 32) (opened : state.next fc slot confirmed = .ok pending) :
    state.next fc pending.timestamp pending.confirmed = .ok pending := by
  obtain ⟨chose, confirmedEq⟩ := next_timestamp opened
  have again := nextSlot_idem width chose
  rw [← opened, confirmedEq]
  unfold next
  rw [again, chose]

/-! ### Finishing it -/

namespace PendingBlockHeaderState

variable {pending : PendingBlockHeaderState} {h : SignedBlockHeader} {validator : FeatureValidator}

theorem finishNextCore_signed {unsigned : BlockHeaderState} {signature : Signature}
    (finished : pending.finishNextCore fc h validator = .ok unsigned) :
    pending.finishNextCore fc { h with producerSignature := signature } validator =
      .ok { unsigned with header := { h with producerSignature := signature } } := by
  unfold finishNextCore at finished ⊢
  obtain ⟨_, checked, finished⟩ := of_bind finished
  obtain ⟨extensions, extracted, finished⟩ := of_bind finished
  obtain ⟨activated, features, finished⟩ := of_bind finished
  obtain rfl := Except.ok.inj finished
  exact sequence_eq_ok.mpr ⟨(), checked, sequence_eq_ok.mpr ⟨extensions, extracted,
    sequence_eq_ok.mpr ⟨activated, features, rfl⟩⟩⟩

/-- What the producer signed, a receiver finishes in the same way. -/
theorem finishNext_of_signed {signer : Digest → Signature} {result : BlockHeaderState}
    (signed : pending.finishNextSigned fc h validator signer = .ok result)
    (skipValidateSignee : Bool) :
    pending.finishNext fc result.header validator skipValidateSignee = .ok result := by
  unfold finishNextSigned at signed
  obtain ⟨unsigned, finished, signed⟩ := of_bind signed
  have header := (finishNextCore_eq_ok finished).2.1
  unfold BlockHeaderState.sign at signed
  obtain ⟨_, recovered, signed⟩ := of_bind signed
  have isResult := (Except.ok.inj signed).symm
  have core : pending.finishNextCore fc result.header validator = .ok result := by
    rw [isResult, header]
    exact finishNextCore_signed finished
  refine sequence_eq_ok.mpr ⟨result, core, ?_⟩
  cases skipValidateSignee with
  | true => rfl
  | false =>
    refine sequence_eq_ok.mpr ⟨(), ?_, rfl⟩
    rw [isResult]
    exact eosAssert_eq_ok.mpr (eosAssert_eq_ok.mp recovered)

end PendingBlockHeaderState

/-- **Produced headers are accepted**: whatever a node produces with `next`,
`make_block_header` and the signing `finish_next`, `next` accepts the header and returns the
same state. -/
theorem BlockHeaderState.nextFromHeader_of_produced {state result : BlockHeaderState}
    {pending : PendingBlockHeaderState} {slot confirmed : Nat} {validator : FeatureValidator}
    {signer : Digest → Signature} (width : state.header.timestamp < 2 ^ 32)
    (opened : state.next fc slot confirmed = .ok pending)
    (transactionMroot actionMroot : Digest) (newProducers : Option ProducerSchedule)
    (features : List Digest)
    (signed : pending.finishNextSigned fc
      (pending.makeBlockHeader fc transactionMroot actionMroot newProducers features)
      validator signer = .ok result) (skipValidateSignee : Bool) :
    state.nextFromHeader fc result.header validator skipValidateSignee = .ok result := by
  have header : result.header.timestamp = pending.timestamp ∧
      result.header.confirmed = pending.confirmed := by
    obtain ⟨unsigned, signature, finished, rfl⟩ :=
      PendingBlockHeaderState.finishNextSigned_eq_ok signed
    rw [(PendingBlockHeaderState.finishNextCore_eq_ok finished).2.1]
    exact ⟨rfl, rfl⟩
  unfold nextFromHeader
  rw [header.1, header.2]
  exact sequence_eq_ok.mpr ⟨pending, next_of_produced width opened,
    PendingBlockHeaderState.finishNext_of_signed signed skipValidateSignee⟩

/-- Every signature recovers to the key of the same number. -/
def selfSigning : Primitives := { Primitives.zero with recoverKey := fun signature _ => some signature }

def signedGenesis : GenesisState := ⟨[⟨1, 5⟩], 0, 0⟩

/-- The first block of a sole producer, signed with its key. -/
theorem nextFromHeader_of_first_block :
    ∃ result : BlockHeaderState, result.blockNum = 2 ∧ result.header.producerSignature = 5 ∧
      (signedGenesis.headerState selfSigning).nextFromHeader selfSigning result.header
        (fun _ _ _ => .ok ()) false = .ok result := by
  let pending := (signedGenesis.headerState selfSigning).buildPending selfSigning 1 ⟨1, 5⟩ 0
  have opened : (signedGenesis.headerState selfSigning).next selfSigning 1 0 = .ok pending := rfl
  have signed : ∃ result : BlockHeaderState, result.blockNum = 2 ∧
      result.header.producerSignature = 5 ∧
      pending.finishNextSigned selfSigning (pending.makeBlockHeader selfSigning 0 0 none [])
        (fun _ _ _ => .ok ()) (fun _ => 5) = .ok result :=
    ⟨_, rfl, rfl, rfl⟩
  obtain ⟨result, number, signature, signed⟩ := signed
  exact ⟨result, number, signature, BlockHeaderState.nextFromHeader_of_produced (by decide) opened
    0 0 none [] signed false⟩

/-! ### Slots -/

namespace BlockHeaderState

theorem getScheduledProducer_eq_ok {key : ProducerKey} : state.getScheduledProducer slot = .ok key ↔
    state.activeSchedule.producers[slot % (state.activeSchedule.producers.length *
      producerRepetitions) / producerRepetitions]? = some key := by
  unfold getScheduledProducer
  dsimp only
  split
  case h_1 found => rw [found, Except.ok.injEq, Option.some.injEq]
  case h_2 missing => simp [missing]

/-- A round of slots gives each producer `producer_repetitions` of them, wherever it begins. -/
theorem scheduled_slots_card {key : ProducerKey}
    (distinct : state.activeSchedule.producers.Nodup)
    (member : key ∈ state.activeSchedule.producers) (start : Nat) :
    ((Finset.Ico start (start + state.activeSchedule.producers.length *
      producerRepetitions)).filter fun slot => state.getScheduledProducer slot = .ok key).card =
        producerRepetitions := by
  obtain ⟨index, inside, rfl⟩ := List.getElem_of_mem member
  rw [Nat.filter_Ico_card_eq_of_periodic, Nat.count_eq_card_filter_range]
  · -- In the round that begins at slot 0 they are consecutive.
    refine (congrArg Finset.card (?_ : _ = Finset.Ico (index * producerRepetitions)
      (index * producerRepetitions + producerRepetitions))).trans (by simp)
    ext slot
    rw [Finset.mem_filter, Finset.mem_range, Finset.mem_Ico, getScheduledProducer_eq_ok]
    unfold producerRepetitions
    constructor
    · rintro ⟨below, found⟩
      have same := (List.getElem?_inj inside distinct).mp
        ((List.getElem?_eq_getElem inside).trans found.symm)
      rw [Nat.mod_eq_of_lt below] at same
      omega
    · rintro ⟨low, high⟩
      have below : slot < state.activeSchedule.producers.length * 3 := by omega
      have same : slot / 3 = index := by omega
      rw [Nat.mod_eq_of_lt below, same]
      exact ⟨below, List.getElem?_eq_getElem inside⟩
  · intro slot
    simp only [getScheduledProducer_eq_ok, Nat.add_mod_right]

/-- From slot 7 on, the third of four producers has the slots 7, 8 and 18. -/
theorem scheduled_slots_card_third :
    ((Finset.Ico 7 19).filter fun slot =>
      (GenesisState.headerState .zero ⟨[⟨1, 1⟩, ⟨2, 2⟩, ⟨3, 3⟩, ⟨4, 4⟩], 0, 0⟩).getScheduledProducer
        slot = .ok ⟨3, 3⟩).card = 3 :=
  scheduled_slots_card (by decide) (by decide) 7

end BlockHeaderState

end CodexRelay.Chain
