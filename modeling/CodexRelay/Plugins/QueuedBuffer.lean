import CodexRelay.Chain.Types
import CodexRelay.Library.Run
import CodexRelay.Library.FixedWidth

/-!
Contract: the send queue of a connection, `queued_buffer` of the net plugin.

Owns:
- the two waiting queues, their byte counter and the output queue, with the calls on them;
- `Ledger`, which also keeps what was added to the queues and what was moved out;
- that the counter is exact and each queue is left in order, whatever the order of the calls.
-/

namespace CodexRelay.Plugins

open Chain Library List

variable {κ : Type}

structure QueuedWrite (κ : Type) where
  buff : List UInt8
  callback : κ
deriving DecidableEq

structure QueuedBuffer (κ : Type) where
  writeQueueSize : Nat := 0
  writeQueue : List (QueuedWrite κ) := []
  syncWriteQueue : List (QueuedWrite κ) := []
  outQueue : List (QueuedWrite κ) := []

def defMaxWriteQueueSize : Nat := 1024 * 1024 * 4 * 10

namespace QueuedBuffer

variable (buffer : QueuedBuffer κ)

def clearWriteQueue : QueuedBuffer κ :=
  { buffer with writeQueue := [], syncWriteQueue := [], writeQueueSize := 0 }

def clearOutQueue : QueuedBuffer κ := { buffer with outQueue := [] }

def addWriteQueue (write : QueuedWrite κ) (toSyncQueue : Bool) : QueuedBuffer κ × Bool :=
  let buffer :=
    if toSyncQueue then { buffer with syncWriteQueue := buffer.syncWriteQueue ++ [write] }
    else { buffer with writeQueue := buffer.writeQueue ++ [write] }
  let size := toUInt32 (buffer.writeQueueSize + write.buff.length)
  ({ buffer with writeQueueSize := size }, ¬ 2 * defMaxWriteQueueSize < size)

/-- The private overload of `fill_out_buffer`, which empties the queue it is given. It returns the
counter, the output queue and `bufs`. -/
def drain : List (QueuedWrite κ) → Nat → List (QueuedWrite κ) → List (List UInt8) →
    Nat × List (QueuedWrite κ) × List (List UInt8)
  | [], size, out, bufs => (size, out, bufs)
  | m :: rest, size, out, bufs =>
    drain rest (toUInt32 (size - m.buff.length)) (out ++ [m]) (bufs ++ [m.buff])

def fillOutBuffer (bufs : List (List UInt8)) : Checked (QueuedBuffer κ × List (List UInt8)) := do
  if 0 < buffer.syncWriteQueue.length then
    let (writeQueueSize, outQueue, bufs) :=
      drain buffer.syncWriteQueue buffer.writeQueueSize buffer.outQueue bufs
    return ({ buffer with syncWriteQueue := [], writeQueueSize, outQueue }, bufs)
  else
    let (writeQueueSize, outQueue, bufs) :=
      drain buffer.writeQueue buffer.writeQueueSize buffer.outQueue bufs
    eosAssert (writeQueueSize = 0) .pluginException "write queue size expected to be zero"
    return ({ buffer with writeQueue := [], writeQueueSize, outQueue }, bufs)

/-! ### One call -/

/-- The queue for sync messages, or the one for all others. -/
def queue : Bool → List (QueuedWrite κ)
  | true => buffer.syncWriteQueue
  | false => buffer.writeQueue

/-- The queue that `fill_out_buffer` empties. -/
def sendsSync : Bool := 0 < buffer.syncWriteQueue.length

end QueuedBuffer

open QueuedBuffer

def bytes (queue : List (QueuedWrite κ)) : Nat := (queue.map (·.buff.length)).sum

/-- The counter is the number of bytes that wait, and does not wrap. -/
structure QueuedBuffer.Sized (buffer : QueuedBuffer κ) : Prop where
  exact : buffer.writeQueueSize = bytes buffer.syncWriteQueue + bytes buffer.writeQueue
  small : buffer.writeQueueSize < 2 ^ 32

theorem QueuedBuffer.Sized.addWriteQueue {buffer : QueuedBuffer κ} (sized : buffer.Sized)
    {write : QueuedWrite κ} (toSyncQueue : Bool)
    (room : bytes buffer.syncWriteQueue + bytes buffer.writeQueue + write.buff.length < 2 ^ 32) :
    (buffer.addWriteQueue write toSyncQueue).1.Sized ∧
      ∀ sync, (buffer.addWriteQueue write toSyncQueue).1.queue sync =
        buffer.queue sync ++ if sync = toSyncQueue then [write] else [] := by
  have size := sized.exact
  have counter : toUInt32 (buffer.writeQueueSize + write.buff.length) =
      buffer.writeQueueSize + write.buff.length := by
    unfold toUInt32
    omega
  unfold QueuedBuffer.addWriteQueue
  cases toSyncQueue
  all_goals
    refine ⟨⟨?_, ?_⟩, fun sync => by cases sync <;> simp [queue]⟩
    · simp only [Bool.false_eq_true, ↓reduceIte, counter, bytes, map_append, sum_append, map_cons,
        map_nil, sum_cons, sum_nil] at size ⊢
      omega
    · simp only [Bool.false_eq_true, ↓reduceIte, counter]
      omega

theorem drain_eq (queue : List (QueuedWrite κ)) {size : Nat} (out : List (QueuedWrite κ))
    (bufs : List (List UInt8)) (enough : bytes queue ≤ size) (small : size < 2 ^ 32) :
    drain queue size out bufs =
      (size - bytes queue, out ++ queue, bufs ++ queue.map (·.buff)) := by
  induction queue generalizing size out bufs with
  | nil => simp [drain, bytes]
  | cons m rest ih =>
    have total : bytes (m :: rest) = m.buff.length + bytes rest := by simp [bytes]
    have left : toUInt32 (size - m.buff.length) = size - m.buff.length := by
      unfold toUInt32
      omega
    rw [drain, left, ih _ _ (by omega) (by omega), total, Nat.sub_add_eq]
    simp

/-- The assertion of `fill_out_buffer` holds, and one queue moves to the output as it is. -/
def QueuedBuffer.Fills (buffer : QueuedBuffer κ) (bufs : List (List UInt8)) : Prop :=
  ∃ filled, buffer.fillOutBuffer bufs =
      .ok (filled, bufs ++ (buffer.queue buffer.sendsSync).map (·.buff)) ∧
    filled.outQueue = buffer.outQueue ++ buffer.queue buffer.sendsSync ∧
    (∀ sync, filled.queue sync = if sync = buffer.sendsSync then [] else buffer.queue sync) ∧
    filled.Sized

theorem QueuedBuffer.Sized.fillOutBuffer {buffer : QueuedBuffer κ} (sized : buffer.Sized)
    (bufs : List (List UInt8)) : buffer.Fills bufs := by
  obtain ⟨exact_, small⟩ := sized
  unfold Fills QueuedBuffer.fillOutBuffer sendsSync
  by_cases sync : 0 < buffer.syncWriteQueue.length
  · rw [if_pos sync, drain_eq _ _ _ (by omega) small, decide_eq_true sync]
    refine ⟨_, rfl, rfl, fun which => by cases which <;> rfl, ?_, ?_⟩
    · show _ - _ = 0 + bytes buffer.writeQueue
      omega
    · show _ - _ < _
      omega
  · have none : buffer.syncWriteQueue = [] := eq_nil_of_length_eq_zero (by omega)
    have empty : bytes buffer.syncWriteQueue = 0 := by rw [none]; rfl
    rw [if_neg sync, drain_eq _ _ _ (by omega) small, decide_eq_false sync]
    dsimp only
    rw [eosAssert_of (by omega)]
    refine ⟨_, rfl, rfl, fun which => ?_, ?_, ?_⟩
    · cases which
      · rfl
      · rfl
    · show _ - _ = bytes buffer.syncWriteQueue + 0
      omega
    · show _ - _ < _
      omega

/-! ### Runs -/

inductive QueueCall (κ : Type) where
  | addWriteQueue (write : QueuedWrite κ) (toSyncQueue : Bool)
  | fillOutBuffer
  | clearOutQueue
  | clearWriteQueue

def QueueCall.size : QueueCall κ → Nat
  | .addWriteQueue write _ => write.buff.length
  | _ => 0

/-- The queues of a connection, with what was ever added to each of them and what `fill_out_buffer`
has put into the output from it. -/
structure Ledger (κ : Type) where
  buffer : QueuedBuffer κ := {}
  added : Bool → List (QueuedWrite κ) := fun _ => []
  moved : Bool → List (QueuedWrite κ) := fun _ => []

namespace Ledger

variable {ledger next : Ledger κ} {call : QueueCall κ}

def step (ledger : Ledger κ) : QueueCall κ → Checked (Ledger κ)
  | .addWriteQueue write toSyncQueue =>
    .ok { ledger with
      buffer := (ledger.buffer.addWriteQueue write toSyncQueue).1
      added := fun sync => ledger.added sync ++ if sync = toSyncQueue then [write] else [] }
  | .fillOutBuffer => do
    let (buffer, _) ← ledger.buffer.fillOutBuffer []
    return { ledger with
      buffer
      moved := fun sync => ledger.moved sync ++
        if sync = ledger.buffer.sendsSync then buffer.outQueue.drop ledger.buffer.outQueue.length
        else [] }
  | .clearOutQueue => .ok { ledger with buffer := ledger.buffer.clearOutQueue }
  | .clearWriteQueue => .ok { ledger with buffer := ledger.buffer.clearWriteQueue }

/-- The queued bytes stay below 2^32. -/
def Allowed (ledger : Ledger κ) (call : QueueCall κ) : Prop :=
  bytes ledger.buffer.syncWriteQueue + bytes ledger.buffer.writeQueue + call.size < 2 ^ 32
deriving Decidable

structure Sound (ledger : Ledger κ) : Prop where
  sized : ledger.buffer.Sized
  order : ∀ sync, ledger.moved sync ++ ledger.buffer.queue sync <+ ledger.added sync

theorem Sound.step (sound : ledger.Sound) (allowed : ledger.Allowed call)
    (ran : ledger.step call = .ok next) : next.Sound := by
  obtain ⟨sized, order⟩ := sound
  cases call with
  | addWriteQueue write toSyncQueue =>
    cases ran
    obtain ⟨sized', queues⟩ := sized.addWriteQueue toSyncQueue allowed
    refine ⟨sized', fun sync => ?_⟩
    dsimp only
    rw [queues, ← append_assoc]
    exact (order sync).append_right _
  | fillOutBuffer =>
    obtain ⟨filled, filling, out, queues, sized'⟩ := sized.fillOutBuffer []
    change (ledger.buffer.fillOutBuffer [] >>= _) = _ at ran
    rw [filling] at ran
    cases ran
    refine ⟨sized', fun sync => ?_⟩
    dsimp only
    rw [queues, out, drop_left]
    split_ifs with sent
    · rw [append_nil, ← sent]
      exact order sync
    · rw [append_nil]
      exact order sync
  | clearOutQueue =>
    cases ran
    exact ⟨⟨sized.exact, sized.small⟩, fun sync => by cases sync <;> exact order _⟩
  | clearWriteQueue =>
    cases ran
    refine ⟨⟨rfl, Nat.two_pow_pos 32⟩, fun sync => ?_⟩
    have emptied : ledger.buffer.clearWriteQueue.queue sync = [] := by cases sync <;> rfl
    rw [emptied, append_nil]
    exact (sublist_append_left _ _).trans (order sync)

end Ledger

/-- On every interleaving of the calls the counter is exact, the assertion never fails and each
queue is left in the order in which it was filled, the one for sync messages first. -/
theorem sendQueue_fifo {visited : List (Ledger κ)} {last : Ledger κ}
    (run : Run (Taken Ledger.step Ledger.Allowed) {} visited last) :
    last.buffer.writeQueueSize =
        bytes last.buffer.syncWriteQueue + bytes last.buffer.writeQueue ∧
      (∀ sync, last.moved sync ++ last.buffer.queue sync <+ last.added sync) ∧
      ∀ bufs, last.buffer.Fills bufs := by
  have start : Ledger.Sound ({} : Ledger κ) :=
    ⟨⟨rfl, Nat.two_pow_pos 32⟩, fun sync => by cases sync <;> exact .slnil⟩
  have sound := Taken.invariant start (fun _ _ _ sound allowed ran => sound.step allowed ran) run
  exact ⟨sound.sized.exact, sound.order, sound.sized.fillOutBuffer⟩

/-- An ordinary message waits while a sync message is sent. -/
theorem sendQueue_fifo_of_syncFirst :
    ∃ visited last, Run (Taken Ledger.step Ledger.Allowed) ({} : Ledger Nat) visited last ∧
      last.moved true = [⟨[2, 2], 2⟩] ∧ last.buffer.writeQueueSize =
        bytes last.buffer.syncWriteQueue + bytes last.buffer.writeQueue := by
  obtain ⟨visited, last, run, sent⟩ := @exists_run_of_replay _ _ _ Ledger.step Ledger.Allowed {} _
    [.addWriteQueue ⟨[1], 1⟩ false, .addWriteQueue ⟨[2, 2], 2⟩ true, .fillOutBuffer]
    (fun last => last.moved true = [⟨[2, 2], 2⟩]) _ (by decide +kernel)
  exact ⟨visited, last, run, sent, (sendQueue_fifo run).1⟩

end CodexRelay.Plugins
