import CodexRelay.Contracts.ForceRelay.Effects

/-!
Contract: every block is applied at most once and every action of it goes to at most one handler.

`onblock` leaves a block alone whose number is not above that of the last block, and `onblockimp`
makes the block the last one, so the numbers rise along every run. `newmap` refuses an action that
has a handler, whether it creates a row or overwrites one, so an action has one handler at most, and
the inner loop of `onblockimp` sends it at most once.
-/

namespace CodexRelay.Contracts.ForceRelay

open Chain List

variable {handler : MapHandler} {handlers : List MapHandler}

def MapHandler.Apart (handler other : MapHandler) : Prop :=
  handler.actaccount ≠ other.actaccount ∨ handler.actname ≠ other.actname

/-- The blocks that were applied have rising numbers, and each of their actions was sent to the
handler of the action, if there was one. -/
structure InOrder (record : Record) : Prop where
  rising : (record.applied.map (·.block.num)).Pairwise (· > ·)
  bounded : ∀ relaystat, record.scope.relaystat = some relaystat →
    ∀ application ∈ record.applied, application.block.num ≤ relaystat.last.num
  unopened : record.scope.channel = none → record.applied = []
  apart : record.scope.handlers.Pairwise MapHandler.Apart
  appliedApart : ∀ application ∈ record.applied, application.handlers.Pairwise MapHandler.Apart
  dispatched : ∀ application ∈ record.applied, application.sent =
    dispatch application.block application.actions application.handlers

theorem inOrder_init : InOrder {} where
  rising := List.Pairwise.nil
  bounded := nofun
  unopened _ := rfl
  apart := List.Pairwise.nil
  appliedApart := nofun
  dispatched := nofun

/-! ### Handlers -/

theorem mem_setHandler {row : MapHandler} (member : handler ∈ setHandler row handlers) :
    handler ∈ handlers ∨ (handler.actaccount = row.actaccount ∧ handler.actname = row.actname) := by
  induction handlers with
  | nil =>
    obtain rfl := mem_singleton.mp member
    exact .inr ⟨rfl, rfl⟩
  | cons first rest ih =>
    unfold setHandler at member
    split_ifs at member
    · rcases mem_cons.mp member with rfl | old
      · exact .inr ⟨rfl, rfl⟩
      · exact .inl old
    · rcases mem_cons.mp member with rfl | old
      · exact .inr ⟨rfl, rfl⟩
      · exact .inl (mem_cons_of_mem _ old)
    · rcases mem_cons.mp member with rfl | later
      · exact .inl mem_cons_self
      · exact (ih later).imp_left (mem_cons_of_mem _)

/-- A row for an action without a handler keeps the handlers apart, as a new row and in the place of
an old one. -/
theorem apart_setHandler {row : MapHandler} (apart : handlers.Pairwise MapHandler.Apart)
    (unused : ∀ handler ∈ handlers, handler.Apart row) :
    (setHandler row handlers).Pairwise MapHandler.Apart := by
  induction handlers with
  | nil => exact pairwise_singleton _ _
  | cons first rest ih =>
    obtain ⟨firstApart, restApart⟩ := pairwise_cons.mp apart
    have rowApart : ∀ handler ∈ first :: rest, row.Apart handler := fun handler member =>
      (unused handler member).imp Ne.symm Ne.symm
    have unusedRest := fun handler member => unused handler (mem_cons_of_mem first member)
    unfold setHandler
    split_ifs
    · exact pairwise_cons.mpr ⟨rowApart, apart⟩
    · apply pairwise_cons.mpr
      exact ⟨fun handler member => rowApart handler (mem_cons_of_mem _ member), restApart⟩
    · refine pairwise_cons.mpr ⟨fun handler member => ?_, ?_⟩
      · rcases mem_setHandler member with old | ⟨account, name⟩
        · exact firstApart handler old
        · rw [MapHandler.Apart, account, name]
          exact unused first mem_cons_self
      · exact ih restApart unusedRest

theorem handles_apart {other : MapHandler} {act : Action} (apart : handler.Apart other)
    (handles : handler.handles act = true) : other.handles act = false := by
  simp only [MapHandler.handles, decide_eq_true_eq] at handles
  simp only [MapHandler.handles, decide_eq_false_iff_not]
  rw [← handles.1, ← handles.2]
  rintro ⟨account, name⟩
  exact apart.elim (fun different => different account.symm) fun different => different name.symm

theorem find?_handles {act : Action} (apart : handlers.Pairwise MapHandler.Apart)
    (member : handler ∈ handlers) (handles : handler.handles act = true) :
    handlers.find? (fun handler => handler.handles act) = some handler := by
  induction handlers with
  | nil => cases member
  | cons first rest ih =>
    obtain ⟨firstApart, restApart⟩ := pairwise_cons.mp apart
    rcases mem_cons.mp member with rfl | later
    · rw [find?_cons, handles]
    · have other : first.handles act = false :=
        handles_apart ((firstApart handler later).imp Ne.symm Ne.symm) handles
      rw [find?_cons, other]
      exact ih restApart later

theorem filter_handles (act : Action) (apart : handlers.Pairwise MapHandler.Apart) :
    handlers.filter (fun handler => handler.handles act) =
      (handlers.find? fun handler => handler.handles act).toList := by
  induction handlers with
  | nil => rfl
  | cons first rest ih =>
    obtain ⟨firstApart, restApart⟩ := pairwise_cons.mp apart
    cases handles : first.handles act with
    | false =>
      rw [filter_cons, find?_cons, handles]
      exact ih restApart
    | true =>
      have others : rest.filter (fun handler => handler.handles act) = [] := by
        refine filter_eq_nil_iff.mpr fun handler member => ?_
        rw [handles_apart (firstApart handler member) handles]
        exact Bool.false_ne_true
      rw [filter_cons, find?_cons, handles, if_pos rfl, others]
      rfl

/-- With the handlers apart, the loops send an action to its handler, if it has one. -/
theorem dispatch_eq_filterMap (block : BlockType) (actions : List Action)
    (apart : handlers.Pairwise MapHandler.Apart) :
    dispatch block actions handlers = actions.filterMap fun act =>
      (handlers.find? fun handler => handler.handles act).map (onaction block act) := by
  unfold dispatch
  induction actions with
  | nil => rfl
  | cons act rest ih =>
    rw [flatMap_cons, ih, filter_handles act apart, filterMap_cons]
    cases handlers.find? fun handler => handler.handles act <;> rfl

theorem InOrder.step {env : Environment} {record next : Record} {call : Call}
    (inOrder : InOrder record) (effect : Effect env record call next) : InOrder next := by
  obtain ⟨rising, bounded, unopened, apart, appliedApart, dispatched⟩ := inOrder
  cases effect with
  | created _ _ _ absent =>
    refine ⟨rising, ?_, nofun, apart, appliedApart, dispatched⟩
    intro _ _ application member
    rw [unopened absent] at member
    cases member
  | mapped _ row _ unused =>
    exact ⟨rising, bounded, unopened, apart_setHandler apart unused, appliedApart, dispatched⟩
  | unprocessed => exact ⟨rising, bounded, unopened, apart, appliedApart, dispatched⟩
  | deposited => exact ⟨rising, bounded, nofun, apart, appliedApart, dispatched⟩
  | late => exact ⟨rising, bounded, unopened, apart, appliedApart, dispatched⟩
  | committed _ _ _ _ _ relaystat _ _ _ stat =>
    refine ⟨rising, ?_, unopened, apart, appliedApart, dispatched⟩
    rintro _ ⟨⟩
    exact bounded relaystat stat
  | skipped => exact ⟨rising, bounded, unopened, apart, appliedApart, dispatched⟩
  | applied _ _ block entry relaystat known stat newer =>
    have below := bounded relaystat stat
    refine ⟨?_, ?_, ?_, apart, ?_, ?_⟩
    · refine pairwise_cons.mpr ⟨fun num member => ?_, rising⟩
      obtain ⟨application, earlier, rfl⟩ := mem_map.mp member
      exact (below application earlier).trans_lt newer
    · rintro _ ⟨⟩ application member
      rcases mem_cons.mp member with rfl | earlier
      · exact Nat.le_refl _
      · exact (below application earlier).trans newer.le
    · intro absent
      rw [show record.scope.channel = none from absent] at known
      cases known
    · intro application member
      rcases mem_cons.mp member with rfl | earlier
      · exact apart
      · exact appliedApart application earlier
    · intro application member
      rcases mem_cons.mp member with rfl | earlier
      · rfl
      · exact dispatched application earlier

/-- The blocks of a chain are applied in rising order, and each action of an applied block is sent
once, to the one handler whose row has its account and name, or not at all if there is none. -/
theorem applied_in_order_once {env : Environment} {visited : List World} {last : World}
    (run : Library.Run (Step env fun _ _ => True) (fun _ => {}) visited last) (chain : Name) :
    ((last chain).applied.map (·.block.num)).Pairwise (· > ·) ∧
    ∀ application ∈ (last chain).applied,
      (application.sent = application.actions.filterMap fun act =>
        (application.handlers.find? fun handler => handler.handles act).map
          (onaction application.block act)) ∧
      ∀ act, ∀ handler ∈ application.handlers, handler.handles act = true →
        application.handlers.find? (fun handler => handler.handles act) = some handler := by
  have inOrder : InOrder (last chain) :=
    Step.invariant inOrder_init (fun _ _ _ kept _ ran => kept.step (effect_of_step ran)) run chain
  refine ⟨inOrder.rising, fun application member => ⟨?_, ?_⟩⟩
  · have apart := inOrder.appliedApart application member
    rw [inOrder.dispatched application member, dispatch_eq_filterMap _ _ apart]
  · intro act handler known handles
    exact find?_handles (inOrder.appliedApart application member) known handles

/-- A block with two actions, of which one has a handler. -/
theorem applied_in_order_once_two_actions :
    ∃ visited last, Library.Run (Step .bounded fun _ _ => True) (fun _ => {}) visited last ∧
      (last 7).applied.map (·.sent) = [[⟨30, 7, 11, ⟨20, 21, [], []⟩⟩]] ∧
      ∀ application ∈ (last 7).applied,
        (application.sent = application.actions.filterMap fun act =>
          (application.handlers.find? fun handler => handler.handles act).map
            (onaction application.block act)) := by
  obtain ⟨visited, last, run, sent⟩ := @exists_run .bounded (fun _ _ => True) _
    [.newchannel [7] 7 0, .newmap [7] ⟨7, 40, 20, 21, 1, 30, ""⟩, .ontransfer 2 1 ⟨60, 4⟩ "",
      .commit [2] 7 2 firstBlock [⟨20, 21, [], []⟩, ⟨20, 22, [], []⟩], .onblock [1] 7 firstBlock]
    (fun last => (last 7).applied.map (·.sent) = [[⟨30, 7, 11, ⟨20, 21, [], []⟩⟩]]) _
    (by decide +kernel)
  exact ⟨visited, last, run, sent, fun application member =>
    ((applied_in_order_once run 7).2 application member).1⟩

end CodexRelay.Contracts.ForceRelay
