import CodexRelay.Contracts.ForceSystem.Steps
import CodexRelay.Library.Ranking

/-!
Contract: the election proposes the producers with the largest stakes.

Owns:
- who is eligible, and what an election has to propose;
- that the insertion of `update_elected_bps` ranks the eligible producers, for the places that count.
-/

namespace CodexRelay.Contracts.ForceSystem

open Chain Library List

variable {env : Environment} {tables result : Tables} {bpname : AccountName} {bp : BpInfo}
  {needed staked held : Int} {super : Bool} {now : Nat}

/-! ### Eligible producers -/

def Tables.blockMortgege (env : Environment) (tables : Tables) : Int :=
  toInt64 ((tables.rewardInfo env.constants).cycleReward.tdiv env.constants.updateCycle * mortgage)

/-- Active, not punished, and with more than the mortgage that is needed. -/
def Tables.Eligible (env : Environment) (tables : Tables) (bpname : AccountName) : Prop :=
  ∃ bp ∈ tables.bps.lookup bpname, bp.isactive ∧ bp.activeType ≠ .punish ∧
    tables.blockMortgege env < (bp.judged env bpname).2
deriving Decidable

def Tables.stakeOf (env : Environment) (tables : Tables) (bpname : AccountName) : Int :=
  (tables.bps.lookup bpname).elim 0 fun bp => (bp.judged env bpname).1

def Tables.keyOf (tables : Tables) (bpname : AccountName) : AccountName × Nat :=
  (bpname, (tables.bps.lookup bpname).elim 0 BpInfo.blockSigningKey)

/-- Ties are resolved in favour of the producer that is later in the table. -/
def Tables.Outranks (env : Environment) (tables : Tables) (bpname other : AccountName) : Prop :=
  tables.stakeOf env other < tables.stakeOf env bpname ∨
    tables.stakeOf env other = tables.stakeOf env bpname ∧ other < bpname

/-- The eligible producers with the largest stakes, all of them if there are too few, each once and
sorted by name. -/
structure Elected (env : Environment) (tables : Tables) (schedule : List (AccountName × Nat)) :
    Prop where
  sorted : (schedule.map Prod.fst).Pairwise (· < ·)
  eligible : ∀ entry ∈ schedule, tables.Eligible env entry.1 ∧ entry = tables.keyOf entry.1
  length : schedule.length = min env.constants.numOfTopBps
    (tables.bpNames.filter (tables.Eligible env ·)).length
  best : ∀ entry ∈ schedule, ∀ other, tables.Eligible env other → other ∉ schedule.map Prod.fst →
    tables.Outranks env entry.1 other

/-! ### The insertion -/

def Tables.Ranks (env : Environment) (tables : Tables) (bpname other : AccountName) : Prop :=
  tables.stakeOf env other ≤ tables.stakeOf env bpname
deriving Decidable

instance : Std.Total (tables.Ranks env) := ⟨fun _ right => le_total (tables.stakeOf env right) _⟩

instance : IsTrans AccountName (tables.Ranks env) := ⟨fun _ _ _ first second => second.trans first⟩

/-- The two vectors with some producers. Behind their stakes `sorts` has the zeros of the beginning. -/
def Tables.ballot (env : Environment) (tables : Tables) (names : List AccountName) : Election where
  voteSchedule := names.map tables.keyOf
  sorts := names.map (tables.stakeOf env) ++ replicate env.constants.numOfTopBps 0

theorem refreshed_keeps :
    (refreshed env now needed held super bp).isactive = bp.isactive ∧
      ((refreshed env now needed held super bp).activeType = .punish ↔ bp.activeType = .punish) ∧
      (refreshed env now needed held super bp).blockSigningKey = bp.blockSigningKey := by
  unfold refreshed
  dsimp only
  split_ifs with waited lacking lacking
  · simp [BpInfo.isactive, waited]
  · simp [BpInfo.isactive, waited]
  · simp [BpInfo.isactive, lacking]
  · exact ⟨rfl, Iff.rfl, rfl⟩

/-- What `sorts` has at a place: the stake of the next producer, or a zero of the beginning. -/
theorem getD_sorts_ballot (front back : List AccountName) :
    (tables.ballot env (front ++ back)).sorts.getD front.length 0 =
      back.head?.elim 0 (tables.stakeOf env) := by
  unfold Tables.ballot
  dsimp only
  rw [map_append, append_assoc, getD_append_right _ _ _ _ (length_map _).le, length_map, Nat.sub_self]
  cases back with
  | nil => cases env.constants.numOfTopBps <;> rfl
  | cons value back => rfl

theorem insertIdx_ballot (front back : List AccountName) :
    Election.mk
        ((tables.ballot env (front ++ back)).voteSchedule.insertIdx front.length (tables.keyOf bpname))
        ((tables.ballot env (front ++ back)).sorts.insertIdx front.length (tables.stakeOf env bpname)) =
      tables.ballot env (front ++ bpname :: back) := by
  unfold Tables.ballot
  have schedule := insertIdx_append_length (front.map tables.keyOf) (back.map tables.keyOf)
    (tables.keyOf bpname)
  have sorts := insertIdx_append_length (front.map (tables.stakeOf env))
    (back.map (tables.stakeOf env) ++ replicate env.constants.numOfTopBps 0)
    (tables.stakeOf env bpname)
  rw [length_map] at schedule sorts
  rw [map_append, map_append, append_assoc, schedule, sorts, map_append, map_append, append_assoc]
  rfl

theorem electFrom_of_eligible (active : bp.isactive) (unpunished : bp.activeType ≠ .punish)
    (secured : needed < held) (key : tables.keyOf bpname = (bpname, bp.blockSigningKey))
    (nonneg : 0 ≤ tables.stakeOf env bpname) (rounds : Nat) (front back : List AccountName) :
    (electFrom env now needed (tables.stakeOf env bpname) held super bpname rounds front.length bp
      (tables.ballot env (front ++ back))).2 =
        tables.ballot env (front ++ insertWithin (tables.Ranks env) bpname rounds back) := by
  -- the producers in front, which the earlier rounds have passed, have more stake
  induction rounds generalizing front back bp with
  | zero => rfl
  | succ rounds ih =>
    obtain ⟨sameActive, samePunished, sameKey⟩ := @refreshed_keeps env bp needed held super now
    rw [← sameActive] at active
    replace unpunished := fun punished => unpunished (samePunished.mp punished)
    rw [← sameKey] at key
    unfold electFrom
    dsimp only
    rw [getD_sorts_ballot, ← key, insertIdx_ballot]
    cases back with
    | nil =>
      rw [if_pos ⟨nonneg, active, unpunished, secured⟩]
      rfl
    | cons value back =>
      rw [insertWithin]
      by_cases rank : tables.Ranks env bpname value
      · rw [if_pos rank, if_pos ⟨rank, active, unpunished, secured⟩]
      · have next := ih active unpunished key (front ++ [value]) back
        rw [length_append, append_assoc, append_assoc] at next
        rw [if_neg rank, if_neg fun chosen => rank chosen.1]
        exact next

theorem electFrom_of_not_eligible {election : Election}
    (ineligible : ¬ (bp.isactive ∧ bp.activeType ≠ .punish ∧ needed < held)) (rounds place : Nat) :
    (electFrom env now needed staked held super bpname rounds place bp election).2 = election := by
  induction rounds generalizing place bp with
  | zero => rfl
  | succ rounds ih =>
    obtain ⟨sameActive, samePunished, -⟩ := @refreshed_keeps env bp needed held super now
    have still : ¬ ((refreshed env now needed held super bp).isactive ∧
        (refreshed env now needed held super bp).activeType ≠ .punish ∧ needed < held) := by
      rwa [sameActive, Ne, samePunished]
    unfold electFrom
    dsimp only
    rw [if_neg fun chosen => still chosen.2]
    exact ih still (place + 1)

/-! ### The election -/

/-- The eligible ones of some producers, with the largest stake first. -/
def Tables.ranking (env : Environment) (tables : Tables) (names : List AccountName) :
    List AccountName :=
  (names.filter (tables.Eligible env ·)).insertionSort (tables.Ranks env)

theorem ranking_cons (names : List AccountName) :
    tables.ranking env (bpname :: names) = if tables.Eligible env bpname then
      (tables.ranking env names).orderedInsert (tables.Ranks env) bpname
    else tables.ranking env names := by
  unfold Tables.ranking
  rw [filter_cons]
  simp only [decide_eq_true_eq]
  split_ifs
  · rfl
  · rfl

theorem mem_ranking {names : List AccountName} :
    bpname ∈ tables.ranking env names ↔ bpname ∈ names ∧ tables.Eligible env bpname := by
  unfold Tables.ranking
  rw [(perm_insertionSort _ _).mem_iff, mem_filter, decide_eq_true_eq]

section

variable (nonneg : ∀ bpname, 0 ≤ tables.stakeOf env bpname)

include nonneg

theorem electBp_eq (found : tables.bps.lookup bpname = some bp) (names : List AccountName) :
    (electBp env now (tables.blockMortgege env) super bpname bp (tables.ballot env names)).2 =
      tables.ballot env (if tables.Eligible env bpname then
        insertWithin (tables.Ranks env) bpname env.constants.numOfTopBps names else names) := by
  have stake : tables.stakeOf env bpname = (bp.judged env bpname).1 := by
    unfold Tables.stakeOf
    rw [found, Option.elim_some]
  have key : tables.keyOf bpname = (bpname, bp.blockSigningKey) := by
    unfold Tables.keyOf
    rw [found, Option.elim_some]
  unfold electBp
  rw [← stake]
  split_ifs with eligible
  · obtain ⟨row, listed, active, unpunished, secured⟩ := eligible
    cases found.symm.trans listed
    exact electFrom_of_eligible active unpunished secured key (nonneg bpname) _ [] names
  · apply electFrom_of_not_eligible
    exact fun chosen => eligible ⟨bp, found, chosen⟩

/-- The producers are ranked in the order of the table, so that a later one comes first in a tie. -/
theorem electBps_ranks {current : Tables} {names done before : List AccountName}
    {election : Election} (nodup : names.Nodup)
    (same : ∀ bpname ∈ names, current.bps.lookup bpname = tables.bps.lookup bpname)
    (ranked : before.take env.constants.numOfTopBps =
      (tables.ranking env done).take env.constants.numOfTopBps)
    (ran : electBps env (tables.blockMortgege env) names (tables.ballot env before) current =
      .ok (result, election)) :
    ∃ after, election = tables.ballot env after ∧ after.take env.constants.numOfTopBps =
      (tables.ranking env (names.reverse ++ done)).take env.constants.numOfTopBps := by
  induction names generalizing current done before with
  | nil =>
    cases ran
    exact ⟨before, rfl, ranked⟩
  | cons bpname names ih =>
    obtain ⟨bp, found, ran⟩ := of_row ran
    obtain ⟨amount, made, ran⟩ := of_bind ran
    obtain ⟨super, -, ran⟩ := of_bind ran
    obtain rfl := asset_eq_ok made
    obtain ⟨fresh, nodup⟩ := nodup_cons.mp nodup
    rw [same bpname mem_cons_self] at found
    dsimp only at ran
    rw [electBp_eq nonneg found] at ran
    rw [reverse_cons, append_assoc, singleton_append]
    refine ih nodup (fun other mem => ?_) ?_ ran
    · have different : other ≠ bpname := fun equal => fresh (equal ▸ mem)
      exact (AList.lookup_insert_ne different).trans (same other (mem_cons_of_mem _ mem))
    · rw [ranking_cons]
      split_ifs
      · exact take_insertWithin_of_take_eq ranked
      · exact ranked

end

theorem exists_electBps {current : Tables} {super names : List AccountName} {election : Election}
    (fits : env.amountFits needed) (newest : current.newestSchedule = .ok super)
    (registered : ∀ bpname ∈ names, bpname ∈ current.bps) :
    ∃ elected, electBps env needed names election current = .ok elected := by
  have made : asset env needed = .ok needed := by
    unfold asset
    rw [eosioAssert, eosAssert_of fits]
    rfl
  induction names generalizing current election with
  | nil => exact ⟨_, rfl⟩
  | cons bpname names ih =>
    obtain ⟨bp, found⟩ := Option.isSome_iff_exists.mp
      (AList.lookup_isSome.mpr (registered bpname mem_cons_self))
    have later (round : BpInfo) : ∀ other ∈ names, other ∈ (current.setBp bpname round).bps :=
      fun other mem => (AList.mem_insert _).mpr (.inr (registered other (mem_cons_of_mem _ mem)))
    unfold electBps
    rw [found]
    show ∃ elected, (asset env needed >>= _) = .ok elected
    rw [made, ok_bind]
    split_ifs
    · rw [newest, ok_bind]
      exact ih newest (later _)
    · exact ih newest (later _)

theorem stakeOf_nonneg (nonneg : ∀ bpname bp, tables.bps.lookup bpname = some bp → 0 ≤ bp.totalStaked)
    (bpname : AccountName) : 0 ≤ tables.stakeOf env bpname := by
  unfold Tables.stakeOf
  cases found : tables.bps.lookup bpname with
  | none => exact le_rfl
  | some bp =>
    rw [Option.elim_some]
    unfold BpInfo.judged
    cases judged : (if bp.isactive ∧ bp.mortgage ≤ 0 then env.getGenesisBpData bpname else none) with
    | none => exact nonneg bpname bp found
    | some staked =>
      split_ifs at judged
      obtain ⟨row, listed, rfl⟩ := Option.map_eq_some_iff.mp judged
      have positive : ∀ stake ∈ genesisStakes, 0 ≤ stake := by decide
      exact positive _ (of_mem_zip (mem_of_find?_eq_some listed)).2

section

variable (tables)

theorem pairwise_bpNames : tables.bpNames.Pairwise (· < ·) := by
  have nodup : tables.bpNames.Nodup := (perm_insertionSort _ _).nodup_iff.mpr tables.bps.nodupKeys
  exact ((pairwise_insertionSort _ _).sortedLE.sortedLT_of_nodup nodup).pairwise

theorem mem_bpNames : bpname ∈ tables.bpNames ↔ bpname ∈ tables.bps :=
  (perm_insertionSort _ _).mem_iff

theorem pairwise_ranking : (tables.ranking env tables.bpNames.reverse).Pairwise
    (tables.Outranks env) := by
  have later := (pairwise_reverse.mpr (pairwise_bpNames tables)).filter (tables.Eligible env ·)
  apply (pairwise_insertionSort_stable later).imp
  intro left right ⟨rank, tie⟩
  rcases lt_or_eq_of_le rank with less | equal
  · exact .inl less
  · exact .inr ⟨equal, tie equal.ge⟩

theorem nodup_ranking : (tables.ranking env tables.bpNames.reverse).Nodup := by
  apply (pairwise_ranking tables).imp
  rintro bpname _ (less | ⟨-, less⟩) rfl
  · exact lt_irrefl _ less
  · exact lt_irrefl _ less

theorem mem_ranking_of_eligible (eligible : tables.Eligible env bpname) :
    bpname ∈ tables.ranking env tables.bpNames.reverse := by
  refine mem_ranking.mpr ⟨mem_reverse.mpr ((mem_bpNames tables).mpr ?_), eligible⟩
  obtain ⟨bp, found, -⟩ := eligible
  exact AList.lookup_isSome.mp (Option.isSome_iff_exists.mpr ⟨bp, found⟩)

theorem map_fst_keyOf (names : List AccountName) : (names.map tables.keyOf).map Prod.fst = names := by
  rw [map_map]
  exact map_id names

end

/-- The first places of the ranking, sorted by name, are what an election has to propose. -/
theorem elected_of_perm {schedule : List (AccountName × Nat)}
    (sorted : schedule.Pairwise fun left right => left.1 ≤ right.1)
    (perm : schedule.Perm (((tables.ranking env tables.bpNames.reverse).take
      env.constants.numOfTopBps).map tables.keyOf)) : Elected env tables schedule := by
  have names := perm.map Prod.fst
  rw [map_fst_keyOf] at names
  have chosen : ∀ entry ∈ schedule, entry = tables.keyOf entry.1 ∧
      entry.1 ∈ (tables.ranking env tables.bpNames.reverse).take env.constants.numOfTopBps := by
    intro entry mem
    obtain ⟨bpname, listed, rfl⟩ := mem_map.mp (perm.mem_iff.mp mem)
    exact ⟨rfl, listed⟩
  refine ⟨?_, ?_, ?_, ?_⟩
  · have distinct := names.nodup_iff.mpr ((take_sublist _ _).nodup (nodup_ranking tables))
    exact ((pairwise_map.mpr sorted).sortedLE.sortedLT_of_nodup distinct).pairwise
  · intro entry mem
    obtain ⟨key, listed⟩ := chosen entry mem
    exact ⟨(mem_ranking.mp (mem_of_mem_take listed)).2, key⟩
  · rw [perm.length_eq, length_map, length_take]
    unfold Tables.ranking
    rw [(perm_insertionSort _ _).length_eq, filter_reverse, length_reverse]
  · intro entry mem other eligible absent
    -- the places that count and the others are the two parts of one ranking
    have ranked := @pairwise_ranking env tables
    have listed := mem_ranking_of_eligible tables eligible
    rw [← take_append_drop env.constants.numOfTopBps (tables.ranking env _)] at ranked listed
    have behind := (mem_append.mp listed).resolve_left fun taken => absent (names.mem_iff.mpr taken)
    exact (pairwise_append.mp ranked).2.2 entry.1 (chosen entry mem).2 other behind

/-- `update_elected_bps` proposes the producers with the largest stakes, for every table in which no
stake is negative. It returns if there is a schedule and the mortgage that it needs is an amount. -/
theorem updateElectedBps_elects
    (nonneg : ∀ bpname bp, tables.bps.lookup bpname = some bp → 0 ≤ bp.totalStaked) :
    (∀ result, updateElectedBps env tables = .ok result →
      ∃ schedule, result.proposed = some schedule ∧ Elected env tables schedule) ∧
    ∀ super, tables.newestSchedule = .ok super → env.amountFits (tables.blockMortgege env) →
      ∃ result, updateElectedBps env tables = .ok result := by
  constructor
  · intro result ran
    obtain ⟨⟨middle, election⟩, elected, ran⟩ := of_bind ran
    cases ran
    obtain ⟨names, rfl, ranked⟩ := @electBps_ranks env tables middle (stakeOf_nonneg nonneg) tables
      tables.bpNames [] [] election (pairwise_bpNames tables).nodup (fun _ _ => rfl) rfl elected
    rw [append_nil] at ranked
    refine ⟨_, rfl, elected_of_perm (pairwise_insertionSort _ _) ?_⟩
    rw [← ranked, map_take]
    exact perm_insertionSort _ _
  · intro super newest fits
    obtain ⟨elected, ran⟩ := @exists_electBps env (tables.blockMortgege env) tables super
      tables.bpNames (tables.ballot env []) fits newest fun bpname mem => (mem_bpNames tables).mp mem
    unfold updateElectedBps
    change ∃ result, (electBps env (tables.blockMortgege env) tables.bpNames (tables.ballot env [])
      tables >>= _) = .ok result
    rw [ran]
    exact ⟨_, rfl⟩

/-- The producers 9 to 30 have the same stake, and 31 has more, but is punished. -/
def crowded : Tables where
  bps := (9 :: 31 :: producers).foldr (fun bpname => AList.insert bpname
    { blockSigningKey := bpname
      commissionRate := 1
      voteageUpdateHeight := 0
      mortgage := 10 ^ 8
      totalStaked := if bpname = 31 then 6 else 5
      activeType := if bpname = 31 then .punish else .normal }) ∅
  schedules := .singleton 1 []

/-- There is a place less than eligible producers, and the first one of the table gets none. -/
theorem updateElectedBps_elects_crowded : ∃ result,
    updateElectedBps .bounded crowded = .ok result ∧
      result.proposed = some (producers.map fun bpname => (bpname, bpname)) ∧
      ∃ schedule, result.proposed = some schedule ∧ Elected .bounded crowded schedule := by
  have nonneg : ∀ entry ∈ crowded.bps.entries, 0 ≤ entry.2.totalStaked := by decide +kernel
  obtain ⟨elects, returns⟩ := @updateElectedBps_elects .bounded crowded fun bpname bp found =>
    nonneg ⟨bpname, bp⟩ (AList.mem_lookup_iff.mp found)
  obtain ⟨result, ran⟩ := returns [] rfl (by decide +kernel)
  refine ⟨result, ran, ?_, elects result ran⟩
  have proposed : (updateElectedBps .bounded crowded).toOption.bind Tables.proposed =
      some (producers.map fun bpname => (bpname, bpname)) := by decide +kernel
  rwa [ran] at proposed

end CodexRelay.Contracts.ForceSystem
