import CodexRelay.Contracts.ForceSystem.Effects

/-!
Contract: the rewards that are passed on are covered by what was issued until a day ends.

A cycle issues its reward and passes three percent of it on for the blocks. At the end of a day the
mining reward is computed again, from the blocks of the day and `cycle_reward`. The gradient step
raises `cycle_reward` first, so that the day is paid at a higher rate than it was issued at.

Owns `WithinDay`, that no daily update comes, and the theorem over runs.
-/

namespace CodexRelay.Contracts.ForceSystem

open Chain Library

variable {env : Environment} {tables result : Tables} {sent : List Sent}

/-! ### Parts of a reward -/

theorem toInt64_le {value : Int} (nonneg : 0 ≤ value) : toInt64 value ≤ value := by
  by_cases fits : value < 2 ^ 63
  · rw [toInt64_of_lt (by omega) fits]
  · have bound := toInt64_lt value
    omega

theorem precision_mul_part_le {value : Int} (nonneg : 0 ≤ value) :
    rewardRatioPrecision * (toInt64 value).tdiv rewardRatioPrecision ≤ value := by
  have below := toInt64_le nonneg
  have divided := Int.mul_tdiv_add_tmod (toInt64 value) rewardRatioPrecision
  have rest := Int.lt_tmod_of_pos (toInt64 value) (show (0 : Int) < rewardRatioPrecision by decide)
  by_cases sign : 0 ≤ toInt64 value
  · have restNonneg := Int.tmod_nonneg (rewardRatioPrecision : Int) sign
    omega
  · unfold rewardRatioPrecision at *
    omega

/-! ### The history -/

/-- No more than the part for the blocks was passed on. -/
structure RewardsCovered (tables : Tables) : Prop where
  issued : 0 ≤ tables.issued
  covered : rewardRatioPrecision * tables.passed ≤ rewardBp * tables.issued

/-- A reward that `issue` will refuse is pending. -/
def Doomed (inline : List Sent) : Prop :=
  ∃ recipient quantity memo, quantity ≤ 0 ∧ .issue recipient quantity memo ∈ inline

/-- Whether `onblock` ends a cycle with a daily update. -/
def endsDay (env : Environment) (bpname : AccountName) (scheduleVersion : Nat) (tables : Tables) :
    Bool :=
  match endsCycle env bpname scheduleVersion tables with
  | .ok ends => ends && (tables.rewardInfo env.constants).rewardUpdate env.constants
  | .error _ => false

def Call.block : Call → Option (AccountName × Nat)
  | .onblock bpname scheduleVersion _ => some (bpname, scheduleVersion)
  | _ => none

/-- The call does not end a day. -/
def WithinDay (env : Environment) (tables : Tables) (call : Call) : Prop :=
  ∀ block ∈ call.block, ¬ endsDay env block.1 block.2 tables
deriving Decidable

theorem RewardsCovered.withCycle {constants : Constants} (covered : RewardsCovered tables)
    (positive : 0 < (tables.rewardInfo constants).blockRewards constants tables.blockNum)
    (withinDay : ¬ (tables.rewardInfo constants).rewardUpdate constants) :
    RewardsCovered (tables.withCycle constants) := by
  obtain ⟨issued, covered⟩ := covered
  have share : rewardRatioPrecision * blockShare ((tables.rewardInfo constants).blockRewards
      constants tables.blockNum) ≤ (tables.rewardInfo constants).blockRewards constants
        tables.blockNum * rewardBp :=
    precision_mul_part_le (mul_nonneg positive.le (by decide))
  constructor
  · exact add_nonneg issued positive.le
  · rw [Tables.withCycle]
    dsimp only
    rw [if_neg withinDay]
    unfold rewardRatioPrecision rewardBp at *
    omega

/-! ### Runs -/

/-- The rewards are covered, unless the transaction that executes will be reverted. -/
def Accounted (tables : Tables) : Prop := RewardsCovered tables ∨ Doomed tables.inline

theorem Doomed.append {inline : List Sent} (doomed : Doomed inline) (sent : List Sent) :
    Doomed (sent ++ inline) := by
  obtain ⟨recipient, quantity, memo, negative, pending⟩ := doomed
  exact ⟨recipient, quantity, memo, negative, List.mem_append_right _ pending⟩

theorem Accounted.of_quiet (accounted : Accounted tables) (quiet : Quiet tables result)
    (sent : List Sent) : Accounted { result with inline := sent ++ result.inline } := by
  rcases accounted with ⟨issued, covered⟩ | doomed
  · left
    constructor
    · show 0 ≤ result.issued
      rw [quiet.issued]
      exact issued
    · show _ * result.passed ≤ _ * result.issued
      rw [quiet.issued, quiet.passed]
      exact covered
  · right
    show Doomed (sent ++ result.inline)
    rw [quiet.inline]
    exact doomed.append sent

/-- An inline action is quiet, but for the tokens, and a reward that is issued is positive. -/
theorem history_of_executeSent {next : Sent}
    (ran : executeSent env tables next = .ok (result, sent)) :
    result.inline = tables.inline ∧ result.issued = tables.issued ∧ result.passed = tables.passed ∧
      ∀ recipient quantity memo, next = .issue recipient quantity memo → 0 < quantity := by
  cases next with
  | transfer sender recipient quantity memo =>
    obtain ⟨-, -, rfl⟩ := transfer_cases (ok_of_silent ran).1
    exact ⟨rfl, rfl, rfl, nofun⟩
  | issue recipient quantity memo =>
    obtain ⟨-, positive, rfl, -⟩ := issue_cases ran
    refine ⟨rfl, rfl, rfl, ?_⟩
    rintro _ _ _ ⟨⟩
    exact positive
  | castcoin sender recipient quantity =>
    obtain ⟨-, rfl⟩ := castcoin_cases (ok_of_silent ran).1
    exact ⟨rfl, rfl, rfl, nofun⟩
  | settlemine =>
    cases ran
    exact ⟨rfl, rfl, rfl, nofun⟩
  | activemine =>
    cases ran
    exact ⟨rfl, rfl, rfl, nofun⟩
  | relayRewardmine =>
    cases ran
    exact ⟨rfl, rfl, rfl, nofun⟩
  | rewardmine =>
    have quiet := (untouched_of_rewardmine ran).1.toQuiet
    exact ⟨quiet.inline, quiet.issued, quiet.passed, nofun⟩

section

variable (accounted : Accounted tables)

include accounted

theorem Accounted.inline (ran : executeInline env tables = .ok (result, sent)) :
    Accounted { result with inline := sent ++ result.inline } := by
  obtain ⟨next, rest, pending, ran⟩ := executeInline_cases ran
  obtain ⟨inline, issued, passed, positive⟩ := history_of_executeSent ran
  rcases accounted with ⟨nonneg, covered⟩ | doomed
  · left
    constructor
    · show 0 ≤ result.issued
      rw [issued]
      exact nonneg
    · show _ * result.passed ≤ _ * result.issued
      rw [issued, passed]
      exact covered
  · right
    show Doomed (sent ++ result.inline)
    rw [inline]
    apply Doomed.append
    obtain ⟨recipient, quantity, memo, negative, listed⟩ := doomed
    rw [pending] at listed
    rcases List.mem_cons.mp listed with rfl | later
    · have := positive recipient quantity memo rfl
      omega
    · exact ⟨recipient, quantity, memo, negative, later⟩

theorem Accounted.onblock {bpname : AccountName} {scheduleVersion : Nat}
    {activeProducers : List AccountName}
    (withinDay : WithinDay env tables (.onblock bpname scheduleVersion activeProducers))
    (ran : onblock env bpname scheduleVersion activeProducers tables = .ok (result, sent)) :
    Accounted { result with inline := sent ++ result.inline } := by
  rcases onblock_cases ran with ⟨untouched, rfl⟩ | ⟨ends, rewarded, ranCycle, untouched⟩
  · exact accounted.of_quiet untouched.toQuiet []
  · obtain ⟨cycle, rfl⟩ := untouched_of_rewardCycle ranCycle
    by_cases positive :
        0 < (tables.rewardInfo env.constants).blockRewards env.constants tables.blockNum
    · refine Accounted.of_quiet ?_ (cycle.trans untouched).toQuiet _
      rcases accounted with covered | doomed
      · refine .inl (covered.withCycle positive fun update => withinDay _ rfl ?_)
        unfold endsDay
        rw [ends]
        exact update
      · exact .inr doomed
    · exact .inr ⟨_, _, _, not_lt.mp positive, List.mem_append_left _ List.mem_cons_self⟩

theorem accounted_of_step {call : Call} (withinDay : WithinDay env tables call)
    (ran : step env tables call = .ok result) : Accounted result := by
  obtain ⟨⟨after, sent⟩, executed, returned⟩ := of_bind ran
  cases returned
  rcases quiet_of_execute executed with
    quiet | rfl | rfl | ⟨bpname, scheduleVersion, activeProducers, rfl⟩
  · exact accounted.of_quiet quiet sent
  · exact accounted.inline executed
  · cases executed
    rcases accounted with ⟨issued, covered⟩ | doomed
    · exact .inl ⟨issued, covered⟩
    · exact .inr doomed
  · exact accounted.onblock withinDay executed

end

/-- In every run without a daily update, the rewards that were passed on are at most what was
issued. -/
theorem passed_le_issued_of_run {balances : AccountName → Int} {blockNum : Nat} {supply : Int}
    {visited : List Tables} {last : Tables}
    (run : Run (Taken (step env) (WithinDay env)) { balances, blockNum, supply } visited last)
    (done : last.inline = []) : last.passed ≤ last.issued := by
  have initial : Accounted { balances, blockNum, supply } := .inl ⟨le_rfl, le_rfl⟩
  have kept : Accounted last := by
    apply Taken.invariant initial _ run
    intro tables call next accounted withinDay stepped
    exact accounted_of_step accounted withinDay stepped
  rcases kept with ⟨issued, covered⟩ | ⟨_, _, _, -, pending⟩
  · unfold rewardRatioPrecision rewardBp at covered
    omega
  · rw [done] at pending
    cases pending

/-- Blocks of the first producer, each with a new schedule, so that each ends a cycle. -/
def cycles (count : Nat) : List Call :=
  ((List.range count).map fun cycle =>
    [.nextBlock, .onblock 10 (cycle + 1) producers, .inline, .inline]).flatten

/-- Four cycles of the first day. -/
theorem passed_le_issued_of_run_cycles :
    ∃ visited last, Run (Taken (step .bounded) (WithinDay .bounded)) {} visited last ∧
      (last.inline = [] ∧ last.issued = 37204 ∧ last.passed = 1116) ∧ last.passed ≤ last.issued := by
  obtain ⟨visited, last, run, done, amounts⟩ := @exists_run_of_replay _ _ _ (step .bounded)
    (WithinDay .bounded) {} _ (register ++ .onblock 10 0 producers :: cycles 4)
    (fun last => last.inline = [] ∧ last.issued = 37204 ∧ last.passed = 1116) _ (by decide +kernel)
  exact ⟨visited, last, run, ⟨done, amounts⟩, passed_le_issued_of_run run done⟩

/-- With the fifth cycle the first day ends, and more is passed on than was issued. -/
theorem passed_exceeds_issued :
    ∃ visited last, Run (Taken (step .bounded) fun _ _ => True) {} visited last ∧
      last.inline = [] ∧ last.issued = 46505 ∧ last.passed = 47634 :=
  exists_run_of_replay
    (register ++ .onblock 10 0 producers :: cycles 5 ++ [.inline, .inline, .inline])
    (by decide +kernel)

end CodexRelay.Contracts.ForceSystem
