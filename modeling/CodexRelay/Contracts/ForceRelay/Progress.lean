import CodexRelay.Contracts.ForceRelay.Agreement

/-!
Contract: which confirmed block the transaction of a commit applies.

`commit` sends `onblock` for the entries at the front of the list, up to the first one without
quorum and for eight of them at most. The list is sorted by the number alone. So an entry of a
competing block, or an old one, can stand in front of a confirmed one and hold it up.

Owns the inline actions of a commit in their order, and when the transaction applies the lowest
number that is pending.
-/

namespace CodexRelay.Contracts.ForceRelay

open Chain List Eosiolib

variable {record next : Record} {call : Call} {last : Nat}

/-- The inline actions that a commit has sent, with the entries that they apply. The actions for the
handlers run before the next `onblock`; `handle` is what they do to the tables. -/
def runOnBlocks (env : Environment) (handle : Scope → HandlerAction → Checked Scope) :
    List OnBlock → Scope → Checked (Scope × List UnconfirmBlock)
  | [], scope => return (scope, [])
  | call :: rest, scope => do
      let entry ← appliedEntry env [env.self] call.block scope
      let outcome ← onblock env [env.self] call.block scope
      let scope ← outcome.2.foldlM handle outcome.1
      let result ← runOnBlocks env handle rest scope
      return (result.1, entry.toList ++ result.2)

/-- The entries in front of the first one without quorum, of the first eight. -/
def confirmedFront (depositSum : Asset) (unconfirms : List UnconfirmBlock) : List UnconfirmBlock :=
  (unconfirms.take 8).takeWhile fun entry => 2 * depositSum.amount ≤ 3 * entry.confirm.amount

/-- What the confirmations of an entry come to with one more for the block. -/
def UnconfirmBlock.pledged (block : BlockType) (deposit : Asset) (entry : UnconfirmBlock) : Int :=
  if entry.base.same block then entry.confirm.amount + deposit.amount else entry.confirm.amount

/-- Fewer than eight entries are at or below the number `last`. These and the first entry above it
have two thirds of the deposits. -/
structure Clear (deposits : Int) (last : Nat) (weight : UnconfirmBlock → Int)
    (entries : List UnconfirmBlock) (first : Option UnconfirmBlock) : Prop where
  few : entries.countP (·.base.num ≤ last) < 8
  stale : ∀ entry ∈ entries, entry.base.num ≤ last → 2 * deposits ≤ 3 * weight entry
  leads : ∃ entry ∈ first, 2 * deposits ≤ 3 * weight entry

/-- The block of the commit is not too old, and with the deposit of the account no entry holds up
the first one that is newer than the last block. The order of the entries matters for the first one
alone: where the block is new, `std::sort` decides which of the entries with one number it is. -/
def Unblocked (env : Environment) (transfer : AccountName) (block : BlockType)
    (actions : List Action) (scope : Scope) : Prop :=
  ∃ it channel relaystat, scope.transfers transfer = some it ∧ scope.channel = some channel ∧
    scope.relaystat = some relaystat ∧
    ¬ (¬ relaystat.last.isNil ∧ block.num ≤ relaystat.last.num) ∧
    if ∃ entry ∈ relaystat.unconfirms, entry.base.same block then
      Clear channel.depositSum.amount relaystat.last.num (·.pledged block it.deposit)
        relaystat.unconfirms (relaystat.unconfirms.find? (relaystat.last.num < ·.base.num))
    else
      let fresh : UnconfirmBlock := ⟨block, it.deposit, actions, [transfer]⟩
      Clear channel.depositSum.amount relaystat.last.num (·.confirm.amount)
        (fresh :: relaystat.unconfirms)
        ((env.sort (relaystat.unconfirms ++ [fresh])).find? (relaystat.last.num < ·.base.num))

variable {env : Environment} {handle : Scope → HandlerAction → Checked Scope}
  {scope final : Scope} {relaystat : BlockRelayStat} {channel : Channel} {depositSum : Asset}
  {first entry : UnconfirmBlock} {stale rest front unconfirms result applied : List UnconfirmBlock}
  {block : BlockType} {chain : Name} {transfer : AccountName} {actions : List Action}
  {sent calls : List OnBlock}

/-! ### The order of the entries -/

def ByNumber (unconfirms : List UnconfirmBlock) : Prop :=
  unconfirms.Pairwise fun entry later => entry.base.num ≤ later.base.num

/-- In the list of a run the entries are sorted, and no two are for one block. -/
structure Arranged (unconfirms : List UnconfirmBlock) : Prop where
  sorted : ByNumber unconfirms
  distinct : (unconfirms.map (·.base)).Pairwise fun block later => ¬ block.same later = true

/-- A block that has an entry is confirmed there. Another one gets an entry of its own. -/
theorem recordCommit_cases {deposit : Asset} (arranged : Arranged unconfirms)
    (ran : recordCommit env transfer deposit block actions unconfirms = .ok result) :
    (∃ newConfirm, (∃ entry ∈ unconfirms, entry.base.same block) ∧
      (∀ entry ∈ unconfirms, entry.base.same block →
        newConfirm.amount = entry.pledged block deposit) ∧
      result = unconfirms.map fun entry => if entry.base.same block then
        { entry with confirm := newConfirm, confirmeds := entry.confirmeds ++ [transfer] }
        else entry) ∨
    (¬ ∃ entry ∈ unconfirms, entry.base.same block) ∧
      result = env.sort (unconfirms ++ [⟨block, deposit, actions, [transfer]⟩]) := by
  unfold recordCommit at ran
  cases found : unconfirms.find? (·.base.same block) with
  | none =>
    rw [found, Option.elim_none, newEntry, UnconfirmBlock.confirmBy, bind_assoc,
      eosioAssert_bind] at ran
    cases ran.2
    exact .inr ⟨by simpa using find?_eq_none.mp found, rfl⟩
  | some entry =>
    rw [found, Option.elim_some] at ran
    obtain ⟨newConfirm, added, confirmed⟩ := of_bind ran
    have same : entry.base.same block = true := by simpa using find?_some found
    obtain ⟨before, after, rfl, -, rfl⟩ := confirmFirst_of_find found confirmed
    -- no other entry is for the block
    have distinct := pairwise_append.mp (pairwise_map.mp arranged.distinct)
    have earlier : ∀ other ∈ before, ¬ other.base.same block = true := fun other member alike =>
      distinct.2.2 other member entry mem_cons_self
        (BlockType.same_trans alike (BlockType.same_symm same))
    have later : ∀ other ∈ after, ¬ other.base.same block = true := fun other member alike =>
      rel_of_pairwise_cons distinct.2.1 member
        (BlockType.same_trans same (BlockType.same_symm alike))
    refine .inl ⟨newConfirm, ⟨entry, by simp, same⟩, ?_, ?_⟩
    · intro other member alike
      have isEntry : other = entry := by grind
      rw [isEntry, UnconfirmBlock.pledged, if_pos same, eq_of_add added, add_comm]
    · rw [map_append, map_cons, if_pos same, map_congr_left fun other member =>
        if_neg (earlier other member), map_congr_left fun other member =>
        if_neg (later other member), map_id', map_id']

theorem Arranged.recordCommit {deposit : Asset} (arranged : Arranged unconfirms)
    (ran : recordCommit env transfer deposit block actions unconfirms = .ok result) :
    Arranged result := by
  refine ⟨?_, (recorded_of_recordCommit ran).distinct arranged.distinct⟩
  rcases recordCommit_cases arranged ran with ⟨newConfirm, -, -, rfl⟩ | ⟨-, rfl⟩
  · refine pairwise_map.mpr (arranged.sorted.imp fun {earlier later} ordered => ?_)
    split_ifs <;> exact ordered
  · exact env.sort_sorted _

def Scope.Sorted (scope : Scope) : Prop :=
  ∀ relaystat ∈ scope.relaystat, Arranged relaystat.unconfirms

theorem Scope.Sorted.of_effect (sorted : record.scope.Sorted) (effect : Effect env record call next)
    (other : ∀ actors chain account block actions, call ≠ .commit actors chain account block actions) :
    next.scope.Sorted := by
  cases effect with
  | created =>
    rintro _ ⟨⟩
    exact ⟨.nil, .nil⟩
  | mapped | unprocessed | deposited | skipped => exact sorted
  | late | committed => exact absurd rfl (other _ _ _ _ _)
  | applied _ _ _ _ relaystat _ stat =>
    rintro _ ⟨⟩
    obtain ⟨ordered, distinct⟩ := sorted relaystat stat
    exact ⟨ordered.filter _, distinct.sublist (filter_sublist.map _)⟩

theorem Scope.Sorted.step (sorted : record.scope.Sorted) (ran : record.step env call = .ok next) :
    next.scope.Sorted := by
  cases call with
  | commit actors chain account block actions =>
    obtain ⟨outcome, committed, returned⟩ := of_bind ran
    cases returned
    obtain ⟨it, channel, relaystat, -, -, -, stat,
      ⟨-, rfl⟩ | ⟨-, unconfirms, recorded, -, same⟩⟩ := commit_eq_ok committed
    · exact sorted
    · intro changed isChanged
      rw [same] at isChanged
      cases isChanged
      exact (sorted relaystat stat).recordCommit recorded
  | newchannel | newmap | ontransfer | onblock => exact sorted.of_effect (effect_of_step ran) nofun

def UnconfirmBlock.onBlock (chain : Name) (entry : UnconfirmBlock) : OnBlock :=
  { chain, block := entry.base, actions := entry.actions }

theorem sendOnBlocks_eq_ok
    (ran : sendOnBlocks env chain depositSum (unconfirms.take 8) = .ok sent) :
    sent = (confirmedFront depositSum unconfirms).map (·.onBlock chain) ∧
      ∀ entry ∈ confirmedFront depositSum unconfirms,
        reachesQuorum env entry.confirm depositSum = .ok true := by
  unfold confirmedFront
  generalize unconfirms.take 8 = entries at ran ⊢
  induction entries generalizing sent with
  | nil =>
    cases ran
    exact ⟨rfl, nofun⟩
  | cons entry rest ih =>
    obtain ⟨confirmed, reached, ran⟩ := of_bind ran
    have weighs := reachesQuorum_eq_ok reached
    rw [takeWhile_cons, ← weighs]
    cases confirmed with
    | false =>
      cases ran
      exact ⟨rfl, nofun⟩
    | true =>
      obtain ⟨later, ranRest, returned⟩ := of_bind ran
      cases returned
      obtain ⟨rfl, others⟩ := ih ranRest
      exact ⟨rfl, forall_mem_cons.mpr ⟨reached, others⟩⟩

theorem runOnBlocks_stale (stat : scope.relaystat = some relaystat)
    (old : ∀ entry ∈ front, entry.base.num ≤ relaystat.last.num) :
    runOnBlocks env handle (front.map (·.onBlock chain) ++ calls) scope =
      runOnBlocks env handle calls scope := by
  induction front with
  | nil => rfl
  | cons entry front ih =>
    obtain ⟨own, others⟩ := forall_mem_cons.mp old
    have skipped : appliedEntry env [env.self] entry.base scope = .ok none := by
      unfold appliedEntry requireAuth
      rw [eosAssert_of mem_cons_self, ok_bind, stat, Option.elim_some, ok_bind, if_pos own]
      rfl
    have kept : onblock env [env.self] entry.base scope = .ok (scope, []) := by
      unfold onblock
      rw [skipped]
      rfl
    rw [map_cons, cons_append, runOnBlocks, show (entry.onBlock chain).block = entry.base
      from rfl, skipped, ok_bind, kept, ok_bind, show List.foldlM handle (scope, []).1 (scope, []).2 =
      .ok scope from rfl, ok_bind, ih others]
    cases runOnBlocks env handle calls scope with
    | error => rfl
    | ok => rfl

theorem findConfirmed_of_stale (old : ∀ entry ∈ stale, entry.base.num < first.base.num)
    (quorum : reachesQuorum env first.confirm depositSum = .ok true) :
    findConfirmed env depositSum first.base (stale ++ first :: rest) = .ok (some first) := by
  induction stale with
  | nil =>
    unfold findConfirmed
    rw [nil_append]
    dsimp only
    rw [if_pos (BlockType.same_iff.mpr ⟨rfl, rfl, rfl, rfl⟩), quorum]
    rfl
  | cons entry stale ih =>
    obtain ⟨own, others⟩ := forall_mem_cons.mp old
    rw [cons_append, findConfirmed, if_neg fun same => own.ne (BlockType.num_of_same same)]
    exact ih others

theorem appliedEntry_of_first (created : scope.channel = some channel)
    (funded : Eosiolib.lt (env.coreAsset 0) channel.depositSum = .ok true)
    (stat : scope.relaystat = some relaystat)
    (split : relaystat.unconfirms = stale ++ first :: rest)
    (old : ∀ entry ∈ stale, entry.base.num ≤ relaystat.last.num)
    (newer : relaystat.last.num < first.base.num)
    (quorum : reachesQuorum env first.confirm channel.depositSum = .ok true) :
    appliedEntry env [env.self] first.base scope = .ok (some first) := by
  unfold appliedEntry requireAuth
  rw [eosAssert_of mem_cons_self, ok_bind, stat, Option.elim_some, ok_bind,
    if_neg newer.not_ge, created]
  unfold requireRow
  rw [Option.elim_some, ok_bind, funded, ok_bind, eosioAssert, eosAssert_of rfl, ok_bind, split]
  exact findConfirmed_of_stale (fun entry member => (old entry member).trans_lt newer) quorum

/-- The first entry that is newer than the last block has the lowest number that is pending. -/
theorem num_of_first (sorted : ByNumber (stale ++ first :: rest))
    (old : ∀ other ∈ stale, other.base.num ≤ last) (newer : last < first.base.num)
    (member : entry ∈ stale ++ first :: rest) (pending : last < entry.base.num)
    (least : ∀ other ∈ stale ++ first :: rest, last < other.base.num →
      entry.base.num ≤ other.base.num) : first.base.num = entry.base.num := by
  apply le_antisymm
  · rcases mem_append.mp member with isStale | later
    · exact absurd (old entry isStale) pending.not_ge
    · rcases mem_cons.mp later with rfl | later
      · exact le_rfl
      · exact rel_of_pairwise_cons (pairwise_append.mp sorted).2.1 later
  · exact least first (mem_append_right _ mem_cons_self) newer

/-- The first of the leading entries that is newer than the last block. -/
theorem confirmedFront_split (leading : entry ∈ confirmedFront depositSum unconfirms)
    (above : last < entry.base.num) :
    ∃ first stale more rest, confirmedFront depositSum unconfirms = stale ++ first :: more ∧
      unconfirms = stale ++ first :: rest ∧ last < first.base.num ∧
      ∀ other ∈ stale, other.base.num ≤ last := by
  obtain ⟨first, found⟩ : ∃ first, (confirmedFront depositSum unconfirms).find?
      (last < ·.base.num) = some first :=
    Option.isSome_iff_exists.mp (find?_isSome.mpr ⟨entry, leading, decide_eq_true above⟩)
  obtain ⟨newer, stale, more, front, old⟩ := find?_eq_some_iff_append.mp found
  have isFront : confirmedFront depositSum unconfirms <+: unconfirms :=
    (List.takeWhile_prefix _).trans (List.take_prefix _ _)
  obtain ⟨rest, whole⟩ := isFront
  refine ⟨first, stale, more, more ++ rest, front, ?_, of_decide_eq_true newer, ?_⟩
  · rw [← whole, front, append_assoc]
    rfl
  · intro other listed
    simpa using old other listed

/-! ### The condition on the list before the commit -/

/-- The loop of `commit` gets to an entry above `last` exactly when the list is clear. -/
theorem leading_iff_clear (sorted : ByNumber unconfirms) :
    (∃ entry ∈ confirmedFront depositSum unconfirms, last < entry.base.num) ↔
      Clear depositSum.amount last (·.confirm.amount) unconfirms
        (unconfirms.find? (last < ·.base.num)) := by
  constructor
  · rintro ⟨entry, leading, above⟩
    obtain ⟨first, stale, more, rest, front, split, newer, old⟩ := confirmedFront_split leading above
    have quorum : ∀ other ∈ stale ++ first :: more,
        2 * depositSum.amount ≤ 3 * other.confirm.amount := by
      intro other member
      rw [← front] at member
      simpa using mem_takeWhile_imp member
    have short : stale.length < 8 := by
      have bound : (confirmedFront depositSum unconfirms).length ≤ 8 :=
        (List.takeWhile_prefix _).length_le.trans (length_take_le 8 unconfirms)
      rw [front, length_append, length_cons] at bound
      omega
    have above : ∀ other ∈ first :: rest, ¬ other.base.num ≤ last := by
      intro other member
      rcases mem_cons.mp member with rfl | later
      · exact newer.not_ge
      · rw [split] at sorted
        exact (newer.trans_le (rel_of_pairwise_cons (pairwise_append.mp sorted).2.1 later)).not_ge
    have none : (first :: rest).countP (·.base.num ≤ last) = 0 := by
      rw [countP_eq_zero]
      intro other member
      simpa using above other member
    subst split
    refine ⟨?_, ?_, first, ?_, quorum first (by simp)⟩
    · rw [countP_append, none]
      exact (countP_le_length.trans_lt short)
    · intro other member isOld
      rcases mem_append.mp member with isStale | later
      · exact quorum other (mem_append_left _ isStale)
      · exact absurd isOld (above other later)
    · rw [find?_append, find?_eq_none.mpr fun other member => by simpa using old other member,
        find?_cons, decide_eq_true newer]
      rfl
  · rintro ⟨few, stale, first, found, own⟩
    obtain ⟨newer, before, after, rfl, old⟩ := find?_eq_some_iff_append.mp found
    refine ⟨first, ?_, of_decide_eq_true newer⟩
    have isOld : ∀ other ∈ before, other.base.num ≤ last := fun other member => by
      simpa using old other member
    have short : before.length < 8 := by
      rw [countP_append, countP_eq_length.mpr fun other member =>
        decide_eq_true (isOld other member)] at few
      omega
    unfold confirmedFront
    rw [take_append, take_of_length_le short.le, takeWhile_append_of_pos fun other member =>
      decide_eq_true (stale other (mem_append_left _ member) (isOld other member)),
      show 8 - before.length = (7 - before.length) + 1 by omega, take_succ_cons, takeWhile_cons,
      decide_eq_true own]
    simp

theorem clear_map {deposits : Int} {weight : UnconfirmBlock → Int}
    {confirmed : UnconfirmBlock → UnconfirmBlock}
    (base : ∀ entry, (confirmed entry).base = entry.base)
    (weighs : ∀ entry ∈ unconfirms, (confirmed entry).confirm.amount = weight entry) :
    Clear deposits last (·.confirm.amount) (unconfirms.map confirmed)
        ((unconfirms.map confirmed).find? (last < ·.base.num)) ↔
      Clear deposits last weight unconfirms (unconfirms.find? (last < ·.base.num)) := by
  have found : (unconfirms.map confirmed).find? (last < ·.base.num) =
      (unconfirms.find? (last < ·.base.num)).map confirmed := by
    rw [find?_map]
    simp only [Function.comp_def, base]
  have count : (unconfirms.map confirmed).countP (·.base.num ≤ last) =
      unconfirms.countP (·.base.num ≤ last) := by
    rw [countP_map]
    simp only [Function.comp_def, base]
  rw [found]
  constructor
  · rintro ⟨few, stale, first, leads, own⟩
    obtain ⟨entry, isFirst, rfl⟩ := Option.map_eq_some_iff.mp leads
    refine ⟨count ▸ few, fun other member isOld => ?_, entry, isFirst, ?_⟩
    · rw [← weighs other member]
      exact stale _ (mem_map_of_mem member) (by rwa [base])
    · rw [← weighs entry (mem_of_find?_eq_some isFirst)]
      exact own
  · rintro ⟨few, stale, first, leads, own⟩
    refine ⟨count ▸ few, ?_, confirmed first, by rw [leads]; rfl, ?_⟩
    · intro other member isOld
      obtain ⟨entry, known, rfl⟩ := mem_map.mp member
      rw [base] at isOld
      exact (weighs entry known).symm ▸ stale entry known isOld
    · exact (weighs first (mem_of_find?_eq_some leads)).symm ▸ own

theorem Clear.perm {deposits : Int} {weight : UnconfirmBlock → Int} {first : Option UnconfirmBlock}
    (clear : Clear deposits last weight unconfirms first) (arranged : unconfirms.Perm result) :
    Clear deposits last weight result first :=
  ⟨arranged.countP_eq _ ▸ clear.few, fun entry member => clear.stale entry (arranged.mem_iff.mpr member),
    clear.leads⟩

theorem leading_iff_unblocked {it : RelayTransfer} (arranged : Arranged relaystat.unconfirms)
    (row : scope.transfers transfer = some it) (created : scope.channel = some channel)
    (stat : scope.relaystat = some relaystat)
    (recent : ¬ (¬ relaystat.last.isNil ∧ block.num ≤ relaystat.last.num))
    (recorded : recordCommit env transfer it.deposit block actions relaystat.unconfirms =
      .ok unconfirms) :
    (∃ entry ∈ confirmedFront channel.depositSum unconfirms,
        relaystat.last.num < entry.base.num) ↔ Unblocked env transfer block actions scope := by
  rw [leading_iff_clear (arranged.recordCommit recorded).sorted]
  have rows {condition : RelayTransfer → Channel → BlockRelayStat → Prop} :
      (∃ it channel relaystat, scope.transfers transfer = some it ∧ scope.channel = some channel ∧
        scope.relaystat = some relaystat ∧ condition it channel relaystat) ↔
      condition it channel relaystat := by
    rw [row, created, stat]
    grind
  unfold Unblocked
  rw [rows, and_iff_right recent]
  rcases recordCommit_cases arranged recorded with ⟨newConfirm, known, added, rfl⟩ | ⟨unknown, rfl⟩
  · rw [if_pos known, clear_map]
    · intro entry
      split_ifs <;> rfl
    · intro entry member
      split_ifs with same
      · exact added entry member same
      · rw [UnconfirmBlock.pledged, if_neg same]
  · have sameEntries := (env.sort_perm (relaystat.unconfirms ++
      [⟨block, it.deposit, actions, [transfer]⟩])).trans (perm_append_singleton _ _)
    rw [if_neg unknown]
    exact ⟨fun clear => clear.perm sameEntries, fun clear => clear.perm sameEntries.symm⟩

/-- **Progress of the relay.** An entry with quorum and the lowest number that is pending after a
commit is applied in the same transaction exactly when nothing holds it up. -/
theorem applied_iff_unblocked {visited : List World} {world : World}
    (run : Library.Run (Step env fun _ _ => True) (fun _ => {}) visited world)
    {actors : List AccountName} {committed : Scope}
    (ran : commit env actors chain transfer block actions (world chain).scope = .ok (committed, sent))
    (finished : runOnBlocks env handle sent committed = .ok (final, applied))
    (created : committed.channel = some channel) (pending : entry ∈ committed.pending)
    (least : ∀ other ∈ committed.pending, entry.base.num ≤ other.base.num) :
    (∃ other ∈ applied, other.base.num = entry.base.num ∧
        reachesQuorum env other.confirm channel.depositSum = .ok true) ↔
      Unblocked env transfer block actions (world chain).scope := by
  have sorted : (world chain).scope.Sorted :=
    @Step.invariant _ _ (fun record => record.scope.Sorted) nofun
      (fun _ _ _ kept _ ran => kept.step ran) _ _ run chain
  obtain ⟨it, channel', relaystat, row, created', funded, stat, ⟨ignored, same⟩ |
    ⟨recent, unconfirms, recorded, sends, same⟩⟩ := commit_eq_ok ran
  · -- nothing was sent
    obtain ⟨rfl, rfl⟩ := Prod.mk.inj same
    cases finished
    constructor
    · rintro ⟨_, ⟨⟩, _⟩
    · rintro ⟨_, _, relaystat', _, _, stat', recent, -⟩
      cases stat.symm.trans stat'
      exact absurd ignored recent
  have kept := congrArg Scope.channel same
  change committed.channel = (world chain).scope.channel at kept
  cases created'.symm.trans (kept.symm.trans created)
  have newStat : committed.relaystat = some { relaystat with unconfirms } :=
    congrArg Scope.relaystat same
  obtain ⟨rfl, quorums⟩ := sendOnBlocks_eq_ok sends
  have ordered := ((sorted relaystat stat).recordCommit recorded).sorted
  obtain ⟨member, newer⟩ := (Scope.mem_pending newStat).mp pending
  have lowest : ∀ other ∈ unconfirms, relaystat.last.num < other.base.num →
      entry.base.num ≤ other.base.num := fun other listed above =>
    least other ((Scope.mem_pending newStat).mpr ⟨listed, above⟩)
  rw [← leading_iff_unblocked (sorted relaystat stat) row created' stat recent recorded]
  constructor
  · rintro ⟨other, isApplied, -⟩
    by_contra none
    push Not at none
    rw [← append_nil (List.map _ _), runOnBlocks_stale newStat none] at finished
    cases finished
    cases isApplied
  · rintro ⟨leading, isLeading, above⟩
    obtain ⟨first, stale, more, rest, front, split, isNewer, isOld⟩ :=
      confirmedFront_split isLeading above
    have own := quorums first (by rw [front]; simp)
    rw [front, map_append, runOnBlocks_stale newStat isOld] at finished
    obtain ⟨decided, applies, finished⟩ := of_bind finished
    rw [show (first.onBlock chain).block = first.base from rfl,
      appliedEntry_of_first created funded newStat split isOld isNewer own] at applies
    cases applies
    obtain ⟨outcome, -, finished⟩ := of_bind finished
    obtain ⟨handled, -, finished⟩ := of_bind finished
    obtain ⟨later, -, finished⟩ := of_bind finished
    cases finished
    subst split
    exact ⟨first, mem_cons_self, num_of_first ordered isOld isNewer member newer lowest, own⟩

/-! ### Two relayers -/

def forkedBlock : BlockType := { firstBlock with id := 21 }

/-- The accounts 2 and 3 deposit 1 and 99, and 2 commits some blocks. Then 3 commits the first one. -/
def relayed (blocks : List BlockType) :
    Checked (World × (Scope × List OnBlock) × Scope × List UnconfirmBlock) := do
  let world ← replay .bounded (fun _ _ => True)
    ([.newchannel [7] 7 0, .ontransfer 2 1 ⟨1, 4⟩ "", .ontransfer 3 1 ⟨99, 4⟩ ""] ++
      blocks.map fun block => .commit [2] 7 2 block []) fun _ => {}
  let outcome ← commit .bounded [3] 7 3 firstBlock [] (world 7).scope
  let result ← runOnBlocks .bounded (fun scope _ => .ok scope) outcome.2 outcome.1
  return (world, outcome, result)

def committedFirst : UnconfirmBlock := ⟨firstBlock, ⟨99, 4⟩, [], [3]⟩

theorem of_relayed {blocks : List BlockType} {world : World} {committed final : Scope}
    (ran : relayed blocks = .ok (world, (committed, sent), final, applied)) :
    (∃ visited, Library.Run (Step .bounded fun _ _ => True) (fun _ => {}) visited world) ∧
      commit .bounded [3] 7 3 firstBlock [] (world 7).scope = .ok (committed, sent) ∧
      runOnBlocks .bounded (fun scope _ => .ok scope) sent committed = .ok (final, applied) := by
  obtain ⟨_, replayed, ran⟩ := of_bind ran
  obtain ⟨_, commits, ran⟩ := of_bind ran
  obtain ⟨_, finished, ran⟩ := of_bind ran
  cases ran
  exact ⟨run_of_replay .refl replayed, commits, finished⟩

/-- The commit by the account 3 is enough for the first block, which is applied. -/
theorem applied_iff_unblocked_first :
    ∃ world committed sent final, relayed [] = .ok (world, (committed, sent), final, [committedFirst]) ∧
      committed.pending = [committedFirst] ∧
      Unblocked .bounded 3 firstBlock [] (world 7).scope := by
  obtain ⟨⟨world, ⟨committed, sent⟩, final, applied⟩, ran, created, pending, rfl⟩ :=
    @exists_eq_ok _ (relayed []) (fun result => result.2.1.1.channel = some ⟨7, 0, ⟨100, 4⟩⟩ ∧
      result.2.1.1.pending = [committedFirst] ∧ result.2.2.2 = [committedFirst]) _
      (by decide +kernel)
  obtain ⟨⟨visited, run⟩, commits, finished⟩ := of_relayed ran
  refine ⟨world, committed, sent, final, ran, pending, ?_⟩
  have member : committedFirst ∈ committed.pending := by
    rw [show committed.pending = [committedFirst] from pending]
    exact mem_cons_self
  have least : ∀ other ∈ committed.pending, committedFirst.base.num ≤ other.base.num := by
    rw [show committed.pending = [committedFirst] from pending]
    decide
  exact (applied_iff_unblocked run commits finished created member least).mp
    ⟨committedFirst, mem_cons_self, rfl, by decide⟩

/-- The account 2 has committed another block with the number of the first one. Its entry stands in
front, and the first block is not applied although it has the quorum. -/
theorem quorum_held_up_by_fork : ∃ visited world committed sent final,
      Library.Run (Step .bounded fun _ _ => True) (fun _ => {}) visited world ∧
      commit .bounded [3] 7 3 firstBlock [] (world 7).scope = .ok (committed, sent) ∧
      runOnBlocks .bounded (fun scope _ => .ok scope) sent committed = .ok (final, []) ∧
      committed.channel = some ⟨7, 0, ⟨100, 4⟩⟩ ∧
      committed.pending = [⟨forkedBlock, ⟨1, 4⟩, [], [2]⟩, committedFirst] ∧
      reachesQuorum .bounded committedFirst.confirm ⟨100, 4⟩ = .ok true := by
  obtain ⟨⟨world, ⟨committed, sent⟩, final, applied⟩, ran, created, pending, rfl⟩ :=
    @exists_eq_ok _ (relayed [forkedBlock]) (fun result =>
      result.2.1.1.channel = some ⟨7, 0, ⟨100, 4⟩⟩ ∧
      result.2.1.1.pending = [⟨forkedBlock, ⟨1, 4⟩, [], [2]⟩, committedFirst] ∧ result.2.2.2 = []) _
      (by decide +kernel)
  obtain ⟨⟨visited, run⟩, commits, finished⟩ := of_relayed ran
  exact ⟨visited, world, committed, sent, final, run, commits, finished, created, pending, by decide⟩

end CodexRelay.Contracts.ForceRelay
