import CodexRelay.Contracts.ForceSystem.Effects

/-!
Contract: who consents to punishing a producer.

`unapppunish` erases the approvals of all producers, whoever calls it.

Owns:
- the ledger of the approvals that stand beside the tables: given, not withdrawn by the producer
  that gave them, and for a motion that lasts;
- that a punishment always has a quorum of them, and that the table holds all of them as long as
  nobody withdraws those of others.
-/

namespace CodexRelay.Contracts.ForceSystem

open Chain Library AList

variable {env : Environment} {tables result : Tables} {sent : List Sent}
  {actors : List AccountName} {bpname punishbpname : AccountName}

/-- The tables, with the approvals that stand for the motion against every producer. -/
structure Consent where
  tables : Tables := {}
  standing : AccountName → Finset AccountName := fun _ => ∅

/-- The actions on motions, and whatever else happens to the other tables. -/
inductive MotionCall where
  | punishbp (actors : List AccountName) (initiator bpname : AccountName)
  | canclepunish (actors : List AccountName) (initiator bpname : AccountName)
  | apppunish (actors : List AccountName) (bpname punishbpname : AccountName)
  | unapppunish (actors : List AccountName) (bpname punishbpname : AccountName)
  | elsewhere (tables : Tables)

def Consent.step (env : Environment) (consent : Consent) : MotionCall → Checked Consent
  | .punishbp actors initiator bpname => do
    let (tables, _) ← punishbp env actors initiator bpname consent.tables
    return ⟨tables, Function.update consent.standing bpname ∅⟩
  | .canclepunish actors initiator bpname => do
    let (tables, _) ← canclepunish env actors initiator bpname consent.tables
    return ⟨tables, Function.update consent.standing bpname ∅⟩
  | .apppunish actors bpname punishbpname => do
    let (tables, _) ← apppunish env actors bpname punishbpname consent.tables
    -- the motion has ended if the producer was punished
    return ⟨tables, Function.update consent.standing punishbpname
      ((tables.punishbps.lookup punishbpname).elim ∅ fun _ =>
        insert bpname (consent.standing punishbpname))⟩
  | .unapppunish actors bpname punishbpname => do
    let tables ← unapppunish actors bpname punishbpname consent.tables
    return ⟨tables, Function.update consent.standing punishbpname
      ((consent.standing punishbpname).erase bpname)⟩
  | .elsewhere tables => return { consent with tables := { tables with
      punishbps := consent.tables.punishbps
      apppunishbps := consent.tables.apppunishbps } }

/-- Approvals are withdrawn by a producer that is the only one to have approved. -/
def WithdrawsOwn (consent : Consent) : MotionCall → Prop
  | .unapppunish _ bpname punishbpname => consent.tables.approvals punishbpname = [bpname]
  | _ => True

instance (consent : Consent) : (call : MotionCall) → Decidable (WithdrawsOwn consent call)
  | .unapppunish .. => inferInstanceAs (Decidable (_ = _))
  | .punishbp .. | .canclepunish .. | .apppunish .. | .elsewhere .. => .isTrue trivial

/-- The approvals in the table stand, and there are none without a motion. In a loyal run, in which
nobody withdraws those of others, all that stand are in the table. -/
structure Consistent (loyal : Prop) (tables : Tables) (bpname : AccountName)
    (standing : Finset AccountName) : Prop where
  listed : (tables.approvals bpname).toFinset ⊆ standing
  complete : loyal → standing ⊆ (tables.approvals bpname).toFinset
  nodup : (tables.approvals bpname).Nodup
  motion : tables.punishbps.lookup bpname = none → tables.approvals bpname = []

variable {loyal : Prop}

theorem Consistent.erased (standing : Finset AccountName) (none : tables.approvals bpname = [])
    (complete : loyal → standing = ∅) : Consistent loyal tables bpname standing where
  listed := by rw [none]; exact Finset.empty_subset _
  complete isLoyal := by rw [complete isLoyal]; exact Finset.empty_subset _
  nodup := by rw [none]; exact List.nodup_nil
  motion _ := none

theorem Consistent.ended (none : tables.approvals bpname = []) : Consistent loyal tables bpname ∅ :=
  .erased ∅ none fun _ => rfl

/-- The tables change for one motion only. -/
theorem Consistent.update {consent : Consent}
    (recorded : ∀ bpname, Consistent loyal consent.tables bpname (consent.standing bpname))
    (others : ∀ other, other ≠ bpname →
      result.apppunishbps.lookup other = consent.tables.apppunishbps.lookup other ∧
      result.punishbps.lookup other = consent.tables.punishbps.lookup other)
    {standing : Finset AccountName} (own : Consistent loyal result bpname standing) (other : AccountName) :
    Consistent loyal result other (Function.update consent.standing bpname standing other) := by
  by_cases same : other = bpname
  · rwa [same, Function.update_self]
  · obtain ⟨approvals, motion⟩ := others other same
    obtain ⟨listed, complete, nodup, unmoved⟩ := recorded other
    have kept : result.approvals other = consent.tables.approvals other := by
      rw [Tables.approvals, approvals, Tables.approvals]
    rw [Function.update_of_ne same]
    exact ⟨by rwa [kept], by rwa [kept], by rwa [kept], fun ended => by
      rw [kept, unmoved (motion.symm.trans ended)]⟩

/-- An approval enters the row, or the producer is punished and both rows are erased. -/
theorem tables_of_apppunish
    (ran : apppunish env actors bpname punishbpname tables = .ok (result, sent)) :
    bpname ∉ tables.approvals punishbpname ∧ tables.punishbps.lookup punishbpname ≠ none ∧
      (result = tables.approve bpname punishbpname ∨
        result.punishbps = tables.punishbps.erase punishbpname ∧
          result.apppunishbps =
            (tables.approve bpname punishbpname).apppunishbps.erase punishbpname ∧
          ∃ super, tables.newestSchedule = .ok super ∧ env.constants.numOfTopBps * 2 / 3 ≤
            (effectiveApprovals super (tables.approvals punishbpname ++ [bpname])).length) := by
  obtain ⟨fresh, present, ⟨rfl, -⟩ | ⟨-, executed⟩⟩ := apppunish_cases ran
  · exact ⟨fresh, present, .inl rfl⟩
  · refine ⟨fresh, present, ?_⟩
    rcases moves_of_execPunishBp executed with
      ⟨rfl, -⟩ | ⟨_, _, super, _, motions, approvals, listed, newest, -, -, enough, -⟩
    · exact .inl rfl
    · cases (lookup_insert _).symm.trans listed
      exact .inr ⟨motions, approvals, super, newest, enough⟩

theorem consistent_of_step {consent next : Consent} {call : MotionCall}
    (recorded : ∀ bpname, Consistent loyal consent.tables bpname (consent.standing bpname))
    (own : loyal → WithdrawsOwn consent call) (ran : consent.step env call = .ok next)
    (bpname : AccountName) : Consistent loyal next.tables bpname (next.standing bpname) := by
  cases call with
  | punishbp actors initiator punished =>
    obtain ⟨⟨tables, sent⟩, acted, returned⟩ := of_bind ran
    cases returned
    obtain ⟨-, acted⟩ := of_auth acted
    obtain ⟨drainNum, -, acted⟩ := of_row acted
    obtain ⟨-, acted⟩ := of_assert acted
    obtain ⟨-, acted⟩ := of_assert acted
    cases acted
    apply Consistent.update recorded
    · intro other different
      refine ⟨?_, lookup_insert_ne different⟩
      dsimp only
      split_ifs
      · exact lookup_erase_ne different
      · rfl
    · apply Consistent.ended
      cases found : consent.tables.punishbps.lookup punished with
      | none => simpa [Tables.approvals, found] using (recorded punished).motion found
      | some => simp [Tables.approvals]
  | canclepunish actors initiator punished =>
    obtain ⟨⟨tables, sent⟩, acted, returned⟩ := of_bind ran
    cases returned
    obtain ⟨-, acted⟩ := of_auth acted
    obtain ⟨motion, -, acted⟩ := of_row acted
    obtain ⟨-, acted⟩ := of_assert acted
    cases acted
    apply Consistent.update recorded
    · intro other different
      exact ⟨lookup_erase_ne different, lookup_erase_ne different⟩
    · apply Consistent.ended
      simp [Tables.approvals]
  | apppunish actors approver punished =>
    obtain ⟨⟨tables, sent⟩, acted, returned⟩ := of_bind ran
    cases returned
    obtain ⟨fresh, present, rfl | ⟨motions, approvals, -⟩⟩ := tables_of_apppunish acted
    · apply Consistent.update recorded
      · intro other different
        exact ⟨lookup_insert_ne different, rfl⟩
      · obtain ⟨motion, found⟩ := Option.ne_none_iff_exists'.mp present
        have added : ((consent.tables.approve approver punished).approvals punished).toFinset =
            insert approver (consent.tables.approvals punished).toFinset := by
          simp [Tables.approvals, Tables.approve]
        show Consistent _ _ _ ((consent.tables.punishbps.lookup punished).elim _ _)
        rw [found, Option.elim_some]
        refine ⟨?_, fun isLoyal => ?_, ?_, fun ended => absurd ended present⟩
        · rw [added]
          exact Finset.insert_subset_insert _ (recorded punished).listed
        · rw [added]
          exact Finset.insert_subset_insert _ ((recorded punished).complete isLoyal)
        · simpa [Tables.approvals, Tables.approve] using (recorded punished).nodup.concat fresh
    · apply Consistent.update recorded
      · intro other different
        rw [motions, approvals, lookup_erase_ne different, lookup_erase_ne different]
        exact ⟨lookup_insert_ne different, rfl⟩
      · rw [motions, lookup_erase]
        apply Consistent.ended
        rw [Tables.approvals, approvals, lookup_erase]
        rfl
  | unapppunish actors withdrawer punished =>
    obtain ⟨tables, acted, returned⟩ := of_bind ran
    cases returned
    obtain ⟨-, acted⟩ := of_auth acted
    obtain ⟨_, -, acted⟩ := of_row acted
    cases acted
    apply Consistent.update recorded
    · intro other different
      exact ⟨lookup_erase_ne different, rfl⟩
    · apply Consistent.erased
      · simp [Tables.approvals]
      · intro isLoyal
        have sole : consent.tables.approvals punished = [withdrawer] := own isLoyal
        have all := (recorded punished).complete isLoyal
        rw [sole, List.toFinset_cons, List.toFinset_nil, insert_empty_eq] at all
        exact Finset.subset_empty.mp
          ((Finset.erase_subset_erase _ all).trans_eq (Finset.erase_singleton _))
  | elsewhere tables =>
    cases ran
    obtain ⟨listed, complete, nodup, motion⟩ := recorded bpname
    exact ⟨listed, complete, nodup, motion⟩

/-- **Consent.** In every run in which nobody withdraws the approvals of others, the table holds the
approvals that stand. In every run a producer is punished only with those of two thirds of the newest
schedule. -/
theorem consent_of_run :
    (∀ visited last, Run (Taken (Consent.step env) WithdrawsOwn) {} visited last →
      ∀ bpname, (last.tables.approvals bpname).toFinset = last.standing bpname) ∧
    ∀ visited last, Run (Taken (Consent.step env) fun _ _ => True) {} visited last →
      ∀ actors approver bpname next, last.step env (.apppunish actors approver bpname) = .ok next →
        next.tables.punishbps.lookup bpname = none →
        ∃ super, last.tables.newestSchedule = .ok super ∧ env.constants.numOfTopBps * 2 / 3 ≤
          ((insert approver (last.standing bpname)).filter (· ∈ super)).card := by
  have recorded {loyal : Prop} {allowed : Consent → MotionCall → Prop} {visited : List Consent}
      {last : Consent} (run : Run (Taken (Consent.step env) allowed) {} visited last)
      (own : ∀ consent call, allowed consent call → loyal → WithdrawsOwn consent call) :
      ∀ bpname, Consistent loyal last.tables bpname (last.standing bpname) := by
    apply @Taken.invariant _ _ _ (Consent.step env) allowed {} _ _ (fun consent =>
      ∀ bpname, Consistent loyal consent.tables bpname (consent.standing bpname)) _ _ run
    · exact fun bpname => .ended rfl
    · exact fun consent call next kept permitted stepped =>
        consistent_of_step kept (own consent call permitted) stepped
  constructor
  · intro visited last run bpname
    obtain ⟨listed, complete, -, -⟩ := @recorded True _ _ _ run (fun _ _ own _ => own) bpname
    exact listed.antisymm (complete trivial)
  · intro visited last run actors approver bpname next ran ended
    obtain ⟨⟨tables, sent⟩, acted, returned⟩ := of_bind ran
    cases returned
    obtain ⟨fresh, present, rfl | ⟨-, -, super, newest, enough⟩⟩ := tables_of_apppunish acted
    · exact absurd ended present
    · refine ⟨super, newest, enough.trans ?_⟩
      obtain ⟨listed, -, nodup, -⟩ := @recorded False _ _ _ run (fun _ _ _ => False.elim) bpname
      have distinct := (nodup.concat fresh).filter (fun member => decide (member ∈ super))
      rw [List.concat_eq_append] at distinct
      unfold effectiveApprovals
      rw [← List.toFinset_card_of_nodup distinct]
      apply Finset.card_le_card
      intro member
      have stands := @listed member
      simp only [List.mem_toFinset, List.mem_filter, List.mem_append, List.mem_singleton,
        decide_eq_true_eq, Finset.mem_filter, Finset.mem_insert] at stands ⊢
      tauto

/-- A motion against the producer 11, which was drained, with the approval of the producer 10. -/
def firstApproval : List MotionCall :=
  [.elsewhere
      { lastdrainbp := .singleton 11 3
        bps := .singleton 11 { blockSigningKey := 0, commissionRate := 1, voteageUpdateHeight := 0 }
        schedules := .singleton 1 (producers.map (⟨·, 0⟩))
        blockNum := 400 },
    .punishbp [6] 6 11, .apppunish [10] 10 11]

/-- The producer 10 withdraws its approval, and fourteen others approve. -/
def fourteenApprovals : List MotionCall :=
  firstApproval ++ .unapppunish [10] 10 11 ::
    (List.range 14).map fun number => .apppunish [number + 16] (number + 16) 11

/-- With the approval of a fifteenth the producer is punished. -/
theorem consent_of_run_fourteenApprovals :
    ∃ visited last next, Run (Taken (Consent.step .bounded) WithdrawsOwn) {} visited last ∧
      last.standing 11 = Finset.Ico 16 30 ∧
      (last.tables.approvals 11).toFinset = last.standing 11 ∧
      last.step .bounded (.apppunish [30] 30 11) = .ok next ∧
      next.tables.punishbps.lookup 11 = none ∧
      ∃ super, last.tables.newestSchedule = .ok super ∧
        14 ≤ ((insert 30 (last.standing 11)).filter (· ∈ super)).card := by
  obtain ⟨visited, last, run, standing, returns⟩ := @exists_run_of_replay _ _ _
    (Consent.step .bounded) WithdrawsOwn {} _ fourteenApprovals
    (fun last => last.standing 11 = Finset.Ico 16 30 ∧
      (last.step .bounded (.apppunish [30] 30 11)).toOption.any
        fun next => (next.tables.punishbps.lookup 11).isNone) _ (by decide +kernel)
  obtain ⟨table, quorum⟩ := @consent_of_run .bounded
  cases ran : last.step .bounded (.apppunish [30] 30 11) with
  | error thrown =>
    rw [ran] at returns
    cases returns
  | ok next =>
    rw [ran] at returns
    have ended : next.tables.punishbps.lookup 11 = none := Option.isNone_iff_eq_none.mp returns
    exact ⟨visited, last, next, run, standing, table _ _ run 11, ran, ended,
      quorum _ _ (run.mono fun _ _ ⟨call, _, stepped⟩ => ⟨call, trivial, stepped⟩) _ _ _ _ ran ended⟩

/-- The account 5, which is no producer, withdraws the approval. -/
theorem approval_withdrawn_by_stranger :
    ∃ visited last, Run (Taken (Consent.step .bounded) fun _ _ => True) {} visited last ∧
      (last.tables.approvals 11).toFinset ≠ last.standing 11 :=
  exists_run_of_replay (firstApproval ++ [.unapppunish [5] 5 11]) (by decide +kernel)

end CodexRelay.Contracts.ForceSystem
