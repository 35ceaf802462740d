import Fika.Global.Service
import Fika.Lib.Fallible

/-!
# Workers and queues of the supervisor (`worker.cpp`, `ipc_queue_manager.cpp`)

A worker owns the child process its factory last gave it, or none; the queue
manager owns the queues the supervisor has created.

- `Fault`: how an operation of the supervisor can fail to return.
- `Worker`: `class worker`; `name` is the one operation that does not check for
  a missing child.
- `QueueManager`: `boost_queue_manager`.
-/

namespace Fika

open Lib

/-- How an operation can fail to return: by dereferencing a null child or a null
queue, by an exception (`main` catches it outside the supervisor's loop and
returns), or by waiting for ever. -/
inductive Fault where
  | nullChild
  | nullQueue
  | exception (what : Str)
  | blocked
deriving DecidableEq

/-! ## Workers -/

/-- `child_process`: the name of the binary, and whether the process runs. -/
structure ChildProcess where
  name : Str
  running : Bool := true
deriving DecidableEq

/-- `worker::process_factory_t`, by the number of the call: a child, a null
pointer, or an exception. -/
abbrev ProcessFactory := Nat → Except Str (Option ChildProcess)

/-- `class worker`. -/
structure Worker where
  factory : ProcessFactory
  process : Option ChildProcess := none
  spawned : Nat := 0

namespace Worker

/-- `worker::start`. -/
def start (w : Worker) : Except Fault Worker :=
  match w.factory w.spawned with
  | .ok process => .ok { w with process := process, spawned := w.spawned + 1 }
  | .error what => .error (.exception what)

/-- The child is no longer running, whether it was terminated or ended by
itself. -/
def exited (w : Worker) : Worker :=
  { w with process := w.process.map fun child => { child with running := false } }

/-- `worker::stop`. -/
def stop (w : Worker) : Worker := w.exited

/-- `worker::is_alive`. -/
def isAlive (w : Worker) : Bool :=
  match w.process with
  | some child => child.running
  | none => false

/-- `worker::restart`. -/
def restart (w : Worker) : Except Fault Worker := if w.isAlive then w.stop.start else w.start

/-- `worker::name`. -/
def name (w : Worker) : Except Fault Str :=
  match w.process with
  | some child => .ok child.name
  | none => .error .nullChild

/-- The worker holds a child process. -/
def Holds (w : Worker) : Prop := w.process.isSome = true

instance (w : Worker) : Decidable w.Holds := inferInstanceAs (Decidable (w.process.isSome = true))

theorem name_of_holds {w : Worker} (h : w.Holds) : ∃ child, w.process = some child ∧
    w.name = .ok child.name := by
  obtain ⟨child, hc⟩ := Option.isSome_iff_exists.mp h
  exact ⟨child, hc, by rw [name, hc]⟩

theorem holds_of_isAlive {w : Worker} (h : w.isAlive = true) : w.Holds := by
  unfold isAlive at h
  cases hp : w.process with
  | none =>
    rw [hp] at h
    cases h
  | some child => exact Option.isSome_iff_exists.mpr ⟨child, hp⟩

theorem name_of_not_holds {w : Worker} (h : ¬ w.Holds) : w.name = .error .nullChild := by
  rw [name, Option.not_isSome_iff_eq_none.mp h]

/-- What `start` does: the next call of the factory, whatever it returns. -/
theorem start_ensures (w : Worker) :
    Ensures (fun f => ∃ what, f = .exception what)
      (fun w' => w.factory w.spawned = .ok w'.process ∧ w'.factory = w.factory ∧
        w'.spawned = w.spawned + 1) w.start := by
  unfold start
  split
  · next process hf => exact ⟨hf, rfl, rfl⟩
  · next what hf => exact ⟨what, rfl⟩

@[simp] theorem exited_holds (w : Worker) : w.exited.Holds ↔ w.Holds := by
  simp [Holds, exited]

@[simp] theorem exited_isAlive (w : Worker) : w.exited.isAlive = false := by
  unfold isAlive exited
  cases w.process <;> rfl

@[simp] theorem exited_name (w : Worker) : w.exited.name = w.name := by
  unfold name exited
  cases w.process <;> rfl

end Worker

/-- `WorkerState`. -/
inductive WorkerState where
  | running
  | stopped
deriving DecidableEq, Repr

/-- `worker_entity`. -/
structure WorkerEntity where
  w : Worker
  state : WorkerState := .stopped

/-! ## Queues -/

/-- `queue_descriptor`. -/
structure QueueDescriptor where
  name : Str
  maxMessages : Nat
  messageSize : Nat

/-- A `boost::interprocess::message_queue` that carries `ipc_message`s. -/
structure MessageQueue where
  maxMessages : Nat
  messageSize : Nat
  messages : List IpcMessage := []

/-- `sizeof(ipc_message)`: the job message (two arrays, an `int` and three
one-byte enumerations, aligned to four) and the index of the variant. -/
def ipcMessageSize : Nat := 332

/-- `boost_queue_manager::queues_`. -/
structure QueueManager where
  queues : Str → Option MessageQueue := fun _ => none

namespace QueueManager

/-- `boost_queue_manager::create`: `create_only` throws for a name that is in
use. -/
def create (mgr : QueueManager) (q : QueueDescriptor) : Except Fault QueueManager :=
  match mgr.queues q.name with
  | some _ => .error (.exception (lit "File exists"))
  | none =>
    let mq : MessageQueue := { maxMessages := q.maxMessages, messageSize := q.messageSize }
    .ok { queues := Function.update mgr.queues q.name (some mq) }

/-- `boost_queue_manager::send_stop_job`: `queues_[name]` is null for a queue that
was not created, `send` throws for a message that is too large for the queue, and
waits while the queue is full. -/
def sendStopJob (mgr : QueueManager) (name : Str) : Except Fault QueueManager :=
  match mgr.queues name with
  | none => .error .nullQueue
  | some mq =>
    if mq.messageSize < ipcMessageSize then .error (.exception (lit "size"))
    else if mq.maxMessages ≤ mq.messages.length then .error .blocked
    else
      let mq := { mq with messages := mq.messages ++ [.poisonPill] }
      .ok { queues := Function.update mgr.queues name (some mq) }

/-- The messages in the queue called `name`. -/
def messages (mgr : QueueManager) (name : Str) : List IpcMessage :=
  ((mgr.queues name).map MessageQueue.messages).getD []

/-- Replace the messages in the queue called `name`. -/
def setMessages (mgr : QueueManager) (name : Str) (msgs : List IpcMessage) : QueueManager :=
  let mq := (mgr.queues name).map fun mq => { mq with messages := msgs }
  { queues := Function.update mgr.queues name mq }

/-- No queue holds a poison pill. -/
def NoPill (mgr : QueueManager) : Prop := ∀ name, .poisonPill ∉ mgr.messages name

variable {mgr mgr' : QueueManager} {name name' : Str}

theorem messages_of_queue {mq : MessageQueue} (h : mgr.queues name = some mq) :
    mgr.messages name = mq.messages := by rw [messages, h]; rfl

theorem messages_setMessages_self {mq : MessageQueue} (h : mgr.queues name = some mq)
    (msgs : List IpcMessage) : (mgr.setMessages name msgs).messages name = msgs := by
  have hq : (mgr.setMessages name msgs).queues name
      = (mgr.queues name).map fun mq => { mq with messages := msgs } := Function.update_self ..
  rw [messages, hq, h]
  rfl

theorem messages_setMessages_other (msgs : List IpcMessage) (h : name' ≠ name) :
    (mgr.setMessages name msgs).messages name' = mgr.messages name' := by
  have hq : (mgr.setMessages name msgs).queues name' = mgr.queues name' :=
    Function.update_of_ne h ..
  rw [messages, hq, messages]

/-- A queue that holds a message exists. -/
theorem exists_of_messages {msg : IpcMessage} {rest : List IpcMessage}
    (h : mgr.messages name = msg :: rest) : ∃ mq, mgr.queues name = some mq := by
  unfold messages at h
  cases hq : mgr.queues name with
  | none =>
    rw [hq] at h
    cases h
  | some mq => exact ⟨mq, rfl⟩

/-- A created queue is empty. -/
theorem noPill_create {q : QueueDescriptor} (h : mgr.NoPill) (hc : mgr.create q = .ok mgr') :
    mgr'.NoPill := by
  unfold create at hc
  split at hc
  · cases hc
  · intro name
    by_cases hname : name = q.name
    · have hq : mgr'.queues name
          = some { maxMessages := q.maxMessages, messageSize := q.messageSize } := by
        cases hc
        show Function.update mgr.queues q.name _ name = _
        rw [hname, Function.update_self]
      rw [messages_of_queue hq]
      exact List.not_mem_nil
    · have hq : mgr'.queues name = mgr.queues name := by
        cases hc
        show Function.update mgr.queues q.name _ name = _
        rw [Function.update_of_ne hname]
      -- another queue is as it was
      have hm := h name
      unfold messages at hm ⊢
      rw [hq]
      exact hm

end QueueManager

end Fika
