import Fika.Global.FileJob

/-!
# Services, their queues and their senders (`service.h`, `service.cpp`, `qn_rslv.h`)

Each of the three job-processing binaries runs one `Service`: a loop that takes
messages from the one queue the binary receives from and posts a handler for
each of them to a thread pool, until a poison pill ends the loop; the pool is
then joined and the process exits.

- `Binary`, `Binary.queue`: the binaries and the queue each one receives from;
  the names are pairwise different (`Binary.queue_injective`), so a queue is
  identified by its receiver.
- `ServiceState`, `onMessage`: the receive loop, with the posted handlers that
  have not run yet.
- `getSender`, `deliver`: the senders a binary registers, and what a handler's
  `sender->send` puts on which queue.
-/

namespace Fika

open Lib

/-! ## Queue names -/

/-- `util::get_direct_queue`. -/
def getDirectQueue (sender receiver : Str) : Str :=
  lit "fika.direct." ++ sender ++ lit ".to." ++ receiver

/-- `util::get_inbox_queue`. -/
def getInboxQueue (receiver : Str) : Str := lit "fika.inbox." ++ receiver

/-- The binaries that receive jobs from a message queue. -/
inductive Binary where
  | qm
  | detect
  | parse
deriving DecidableEq, Repr

namespace Binary

/-- The file name of the binary, which is the name of its process. -/
def name : Binary → Str
  | qm => lit "qm"
  | detect => lit "detect"
  | parse => lit "parse"

/-- The queue the binary's `main` receives from. -/
def queue : Binary → Str
  | qm => getInboxQueue (lit "qm")
  | detect => getDirectQueue (lit "qm") (lit "detect")
  | parse => getDirectQueue (lit "qm") (lit "parse")

theorem queue_injective {b b' : Binary} (h : b.queue = b'.queue) : b = b' := by
  cases b <;> cases b' <;> first | rfl | exact absurd h (by decide)

end Binary

/-! ## The receive loop -/

/-- Where `Service::start` stands: in the loop (`running_`), waiting in
`pool_.join()`, or returned, with the process gone. -/
inductive Phase where
  | receiving
  | joining
  | exited
deriving DecidableEq, Repr

/-- A service: its phase, and the posted handlers that have not run yet, each by
the job message it captured. -/
structure ServiceState where
  phase : Phase := .receiving
  pool : List FileJobShm := []
deriving DecidableEq

namespace ServiceState

/-- One turn of `Service::receiveLoop` on a received message: a pill clears
`running_`, anything else is posted to the pool. -/
def onMessage (sv : ServiceState) : IpcMessage → ServiceState
  | .poisonPill => { sv with phase := .joining }
  | .fileJobShm job => { sv with pool := sv.pool ++ [job] }

end ServiceState

/-- The posted lambda: whatever `handle` throws is logged and swallowed, and
what it had not sent stays unsent. -/
def posted {α : Type} (handled : Except Str (List α)) : List α :=
  match handled with
  | .ok sent => sent
  | .error _ => []

/-! ## Senders -/

/-- `queue_sender`: a `MsgQueueSender` on the queue of a binary, or the
`null_sender`. -/
inductive QueueSender where
  | msgQueueSender (receiver : Binary)
  | nullSender
deriving DecidableEq

/-- `Service::senders_`. -/
abbrev Senders := List (Str × QueueSender)

/-- `Service::add_sender`: `emplace` keeps an entry that is already there. -/
def addSender (senders : Senders) (queue : Str) (sender : QueueSender) : Senders :=
  if senders.any fun entry => entry.1 == queue then senders else senders ++ [(queue, sender)]

/-- `Service::get_sender`. -/
def getSender (senders : Senders) (queue : Str) : Option QueueSender :=
  (senders.find? fun entry => entry.1 == queue).map Prod.snd

/-- `sender->send(msg)` on the sender registered under `queue`, as the messages
it puts on queues; without a sender the message is dropped with a warning. -/
def deliver (senders : Senders) (queue : Str) (msg : IpcMessage) : List (Binary × IpcMessage) :=
  match getSender senders queue with
  | some (.msgQueueSender receiver) => [(receiver, msg)]
  | some .nullSender => []
  | none => []

end Fika
