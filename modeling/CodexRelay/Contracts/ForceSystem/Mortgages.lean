import CodexRelay.Contracts.ForceSystem.Steps

/-!
Contract: the mortgages of producers.

`reward_block` takes a fine for drained blocks from a mortgage, whatever is left of it.

Owns:
- the ledger of what was deposited and claimed beside the tables;
- that the mortgages are accounted for, and not negative as long as they cover the fines.
-/

namespace CodexRelay.Contracts.ForceSystem

open Chain Library AList Function

variable {env : Environment} {tables result : Tables} {owned owned' : AccountName → Int}
  {bpname : AccountName} {bp : BpInfo}

/-- The mortgage of a producer and what was taken from it. One that is not registered has neither. -/
def Tables.mortgages (tables : Tables) (bpname : AccountName) : Int × Int :=
  (tables.bps.lookup bpname).elim (0, 0) fun bp => (bp.mortgage, bp.remainPunish)

/-- The tables may differ in all but the mortgages: a producer can be registered or elected. -/
def KeepsMortgages (tables result : Tables) : Prop :=
  ∀ bpname ∈ tables.bps.keys ++ result.bps.keys, result.mortgages bpname = tables.mortgages bpname
deriving Decidable

/-- The tables, with what was deposited for a producer and what it has claimed. -/
structure Mortgages where
  tables : Tables := {}
  deposited : AccountName → Int := fun _ => 0
  claimed : AccountName → Int := fun _ => 0

/-- The functions that change mortgages, and whatever else happens to the tables. -/
inductive MortgageCall where
  | addmortgage (actors : List AccountName) (bpname payer : AccountName) (quantity : Asset)
  | claimmortgage (actors : List AccountName) (bpname receiver : AccountName) (quantity : Asset)
  | rewardBlock (scheduleVersion : Nat) (rewardAmount : Int) (forceChange : Bool)
  | elsewhere (tables : Tables)

/-- The inline transfer of a mortgage fails unless its quantity is positive. -/
def Mortgages.step (env : Environment) (ledger : Mortgages) : MortgageCall → Checked Mortgages
  | .addmortgage actors bpname payer quantity => do
    let (tables, _) ← addmortgage env actors bpname payer quantity ledger.tables
    eosioAssert (0 < quantity.amount) "must transfer positive quantity"
    return { ledger with
      tables
      deposited := update ledger.deposited bpname (ledger.deposited bpname + quantity.amount) }
  | .claimmortgage actors bpname receiver quantity => do
    let (tables, _) ← claimmortgage env actors bpname receiver quantity ledger.tables
    eosioAssert (0 < quantity.amount) "must transfer positive quantity"
    return { ledger with
      tables
      claimed := update ledger.claimed bpname (ledger.claimed bpname + quantity.amount) }
  | .rewardBlock scheduleVersion rewardAmount forceChange => do
    let tables ← rewardBlock env scheduleVersion rewardAmount forceChange ledger.tables
    return { ledger with tables }
  | .elsewhere tables =>
    if KeepsMortgages ledger.tables tables then return { ledger with tables }
    else .error ⟨.eosioAssertMessageException, "not elsewhere"⟩

def fine (rewardPreBlock : Int) (drain : Nat) : Int :=
  if 0 < drain then toInt64 (rewardPreBlock * 2 * drain) else 0

def Affords (env : Environment) (rewardPreBlock : Int) (forceChange : Bool) (tables : Tables)
    (producer : Producer) : Prop :=
  ¬ env.isGenesisBp producer.bpname → ∀ bp ∈ tables.bps.lookup producer.bpname,
    fine rewardPreBlock (drainBlockNum env bp producer forceChange) ≤ bp.mortgage
deriving Decidable

/-- The mortgage of every producer of the schedule, which has each only once, covers its fine. -/
def Covers (env : Environment) (ledger : Mortgages) : MortgageCall → Prop
  | .rewardBlock scheduleVersion _ forceChange =>
    ∀ producers ∈ ledger.tables.schedules.lookup scheduleVersion,
      (producers.map Producer.bpname).Nodup ∧ ∀ producer ∈ producers,
        Affords env ((ledger.tables.rewardInfo env.constants).cycleReward.tdiv
          env.constants.updateCycle) forceChange ledger.tables producer
  | _ => True

instance (ledger : Mortgages) : (call : MortgageCall) → Decidable (Covers env ledger call)
  | .rewardBlock .. => inferInstanceAs (Decidable (∀ _ ∈ _, _))
  | .addmortgage .. | .claimmortgage .. | .elsewhere .. => .isTrue trivial

/-- Mortgages and fines make up what the producers own, and only those of genesis are negative. -/
def Tables.Accounted (env : Environment) (tables : Tables) (owned : AccountName → Int) : Prop :=
  ∀ bpname, (tables.mortgages bpname).1 + (tables.mortgages bpname).2 = owned bpname ∧
    (¬ env.isGenesisBp bpname → 0 ≤ (tables.mortgages bpname).1)

theorem Tables.mortgages_of_lookup (found : tables.bps.lookup bpname = some bp) :
    tables.mortgages bpname = (bp.mortgage, bp.remainPunish) := by
  rw [mortgages, found]
  rfl

theorem KeepsMortgages.eq (kept : KeepsMortgages tables result) (bpname : AccountName) :
    result.mortgages bpname = tables.mortgages bpname := by
  by_cases listed : bpname ∈ tables.bps.keys ++ result.bps.keys
  · exact kept bpname listed
  · rw [List.mem_append, not_or] at listed
    rw [Tables.mortgages, Tables.mortgages, lookup_eq_none.mpr listed.1,
      lookup_eq_none.mpr listed.2]

theorem Tables.Accounted.lookup (accounted : tables.Accounted env owned)
    (found : tables.bps.lookup bpname = some bp) :
    bp.mortgage + bp.remainPunish = owned bpname ∧ (¬ env.isGenesisBp bpname → 0 ≤ bp.mortgage) := by
  have own := accounted bpname
  rwa [mortgages_of_lookup found] at own

theorem Tables.Accounted.setBp (accounted : tables.Accounted env owned)
    (others : ∀ other, other ≠ bpname → owned' other = owned other)
    (own : bp.mortgage + bp.remainPunish = owned' bpname)
    (nonneg : ¬ env.isGenesisBp bpname → 0 ≤ bp.mortgage) :
    (tables.setBp bpname bp).Accounted env owned' := by
  intro other
  by_cases different : other = bpname
  · subst different
    rw [mortgages_of_lookup (lookup_insert _)]
    exact ⟨own, nonneg⟩
  · have kept : (tables.setBp bpname bp).mortgages other = tables.mortgages other :=
      congrArg (Option.elim · _ _) (lookup_insert_ne different)
    rw [others other different, kept]
    exact accounted other

theorem drained_eq_ok {rewardPreBlock : Int} {drain : Nat} {punished : BpInfo}
    (ran : drained env rewardPreBlock drain bp = .ok punished) :
    punished.mortgage = bp.mortgage - fine rewardPreBlock drain ∧
      punished.remainPunish = bp.remainPunish + fine rewardPreBlock drain := by
  unfold drained at ran
  unfold fine
  split_ifs at ran ⊢
  · obtain ⟨amount, made, ran⟩ := of_bind ran
    obtain ⟨left, subtracted, ran⟩ := of_bind ran
    obtain ⟨remainPunish, added, ran⟩ := of_bind ran
    cases ran
    obtain rfl := asset_eq_ok made
    exact ⟨minus_eq_ok subtracted, plus_eq_ok added⟩
  · cases ran
    exact ⟨(sub_zero _).symm, (add_zero _).symm⟩

theorem accounted_of_rewardProducers {rewardPreBlock age sum : Int} {forceChange : Bool}
    {producers : List Producer} (accounted : tables.Accounted env owned)
    (distinct : (producers.map Producer.bpname).Nodup)
    (affords : ∀ producer ∈ producers, Affords env rewardPreBlock forceChange tables producer)
    (ran : rewardProducers env rewardPreBlock forceChange producers age tables = .ok (result, sum)) :
    result.Accounted env owned := by
  induction producers generalizing age tables with
  | nil =>
    cases ran
    exact accounted
  | cons producer producers ih =>
    obtain ⟨fresh, distinct⟩ := List.nodup_cons.mp distinct
    obtain ⟨⟨middle, next⟩, ranFirst, ranRest⟩ := of_bind ran
    obtain ⟨bp, found, ranFirst⟩ := of_row ranFirst
    obtain ⟨needed, -, ranFirst⟩ := of_bind ranFirst
    obtain ⟨punished, ranDrain, ranFirst⟩ := of_bind ranFirst
    cases ranFirst
    obtain ⟨left, fined⟩ := drained_eq_ok ranDrain
    obtain ⟨own, -⟩ := accounted.lookup found
    refine ih ?_ distinct (fun later member other bp row => ?_) ranRest
    · refine accounted.setBp (fun _ _ => rfl) ?_ fun other => ?_
      · show punished.mortgage + punished.remainPunish = _
        omega
      · have covered := affords producer (.head _) other bp found
        show 0 ≤ punished.mortgage
        omega
    · -- a row of a later producer is as before
      have different : later.bpname ≠ producer.bpname := fun same =>
        fresh (same ▸ List.mem_map_of_mem member)
      exact affords later (.tail _ member) other bp ((lookup_insert_ne different).symm.trans row)

theorem mortgages_of_step {ledger next : Mortgages} {call : MortgageCall}
    (accounted : ledger.tables.Accounted env (ledger.deposited - ledger.claimed))
    (covers : Covers env ledger call) (ran : ledger.step env call = .ok next) :
    next.tables.Accounted env (next.deposited - next.claimed) := by
  cases call with
  | addmortgage actors bpname payer quantity =>
    obtain ⟨⟨tables, sent⟩, acted, ran⟩ := of_bind ran
    obtain ⟨positive, ran⟩ := of_assert ran
    cases ran
    obtain ⟨-, acted⟩ := of_auth acted
    obtain ⟨-, acted⟩ := of_assert acted
    obtain ⟨bp, found, acted⟩ := of_row acted
    obtain ⟨-, acted⟩ := of_assert acted
    obtain ⟨mortgage, added, acted⟩ := of_bind acted
    cases acted
    obtain ⟨own, nonneg⟩ := accounted.lookup found
    have more := plus_eq_ok added
    refine accounted.setBp (fun other different => ?_) ?_ fun other => ?_
    · simp only [Pi.sub_apply, update_of_ne different]
    · simp only [Pi.sub_apply, update_self] at own ⊢
      omega
    · have before := nonneg other
      show 0 ≤ mortgage
      omega
  | claimmortgage actors bpname receiver quantity =>
    obtain ⟨⟨tables, sent⟩, acted, ran⟩ := of_bind ran
    obtain ⟨-, ran⟩ := of_assert ran
    cases ran
    obtain ⟨-, acted⟩ := of_auth acted
    obtain ⟨bp, found, acted⟩ := of_row acted
    obtain ⟨-, acted⟩ := of_assert acted
    obtain ⟨enough, acted⟩ := of_assert acted
    obtain ⟨mortgage, subtracted, acted⟩ := of_bind acted
    cases acted
    obtain ⟨own, -⟩ := accounted.lookup found
    have less := minus_eq_ok subtracted
    refine accounted.setBp (fun other different => ?_) ?_ fun _ => ?_
    · simp only [Pi.sub_apply, update_of_ne different]
    · simp only [Pi.sub_apply, update_self] at own ⊢
      omega
    · show 0 ≤ mortgage
      omega
  | rewardBlock scheduleVersion rewardAmount forceChange =>
    obtain ⟨tables, acted, returned⟩ := of_bind ran
    cases returned
    obtain ⟨producers, found, acted⟩ := of_row acted
    obtain ⟨⟨rewarded, age⟩, ranLoop, acted⟩ := of_bind acted
    obtain ⟨_, -, acted⟩ := of_bind acted
    obtain ⟨_, -, acted⟩ := of_bind acted
    cases acted
    obtain ⟨distinct, affords⟩ := covers producers found
    have kept := accounted_of_rewardProducers accounted distinct affords ranLoop
    exact kept
  | elsewhere tables =>
    have kept : KeepsMortgages ledger.tables tables := by
      by_contra differ
      cases (if_neg differ).symm.trans ran
    cases (if_pos kept).symm.trans ran
    intro bpname
    show (tables.mortgages bpname).1 + (tables.mortgages bpname).2 = _ ∧ _
    rw [kept.eq]
    exact accounted bpname

/-- Producers start without a mortgage. In every run in which the mortgages cover the fines,
they are not negative. With the fines and the claims they make up the deposits. -/
theorem mortgages_of_run {start : Tables} {visited : List Mortgages} {last : Mortgages}
    (fresh : ∀ bpname bp, start.bps.lookup bpname = some bp → bp.mortgage = 0 ∧ bp.remainPunish = 0)
    (run : Run (Taken (Mortgages.step env) (Covers env)) { tables := start } visited last)
    (found : last.tables.bps.lookup bpname = some bp) (other : ¬ env.isGenesisBp bpname) :
    0 ≤ bp.mortgage ∧
      bp.mortgage + bp.remainPunish + last.claimed bpname = last.deposited bpname := by
  have accounted : last.tables.Accounted env (last.deposited - last.claimed) := by
    apply @Taken.invariant _ _ _ (Mortgages.step env) (Covers env) { tables := start } _ _
      (fun ledger => ledger.tables.Accounted env (ledger.deposited - ledger.claimed))
      _ _ run
    · intro bpname
      have none : start.mortgages bpname = (0, 0) := by
        unfold Tables.mortgages
        cases found : start.bps.lookup bpname with
        | none => rfl
        | some bp =>
          obtain ⟨mortgage, remainPunish⟩ := fresh bpname bp found
          rw [Option.elim_some, mortgage, remainPunish]
      rw [none]
      exact ⟨rfl, fun _ => le_rfl⟩
    · exact fun ledger call next kept covers stepped => mortgages_of_step kept covers stepped
  obtain ⟨own, nonneg⟩ := accounted.lookup found
  rw [Pi.sub_apply] at own
  exact ⟨nonneg other, by omega⟩

/-- A cycle in which the producer 10, the first of the 21, has not produced any of its blocks. -/
def missedCycle : Tables where
  bps := producers.foldr (AList.insert ·
    { blockSigningKey := 0, commissionRate := 1, voteageUpdateHeight := 0 } ·) ∅
  schedules := .singleton 1 (producers.map fun bpname => ⟨bpname, if bpname = 10 then 0 else 3⟩)

/-- With a mortgage the fine is covered. The producer claims a part of what is left. -/
theorem mortgages_of_run_missedCycle : ∃ visited last,
    Run (Taken (Mortgages.step .bounded) (Covers .bounded)) {} visited last ∧
      ∃ bp, last.tables.bps.lookup 10 = some bp ∧ bp.remainPunish = 55806 ∧ 0 ≤ bp.mortgage ∧
        bp.mortgage + bp.remainPunish + last.claimed 10 = last.deposited 10 := by
  obtain ⟨visited, last, run, fined⟩ := @exists_run_of_replay _ _ _
    (Mortgages.step .bounded) (Covers .bounded) {} _
    [.elsewhere missedCycle, .addmortgage [5] 10 5 ⟨60000, 4⟩, .rewardBlock 1 0 false,
      .claimmortgage [10] 10 5 ⟨4000, 4⟩]
    (fun last => (last.tables.bps.lookup 10).map BpInfo.remainPunish = some 55806) _
    (by decide +kernel)
  obtain ⟨bp, found, amount⟩ := Option.map_eq_some_iff.mp fined
  exact ⟨visited, last, run, bp, found, amount,
    mortgages_of_run (fun _ _ absent => by cases absent) run found nofun⟩

/-- The fine is taken from a mortgage of 0 as well. -/
theorem mortgage_negative_after_missedCycle : ∃ visited last,
    Run (Taken (Mortgages.step .bounded) fun _ _ => True) {} visited last ∧
      (last.tables.bps.lookup 10).map BpInfo.mortgage = some (-55806) :=
  exists_run_of_replay [.elsewhere missedCycle, .rewardBlock 1 0 false] (by decide +kernel)

end CodexRelay.Contracts.ForceSystem
