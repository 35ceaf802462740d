import Fika.Global.Commands
import Fika.Supervisor.Worker

/-!
# The supervisor (`supervisor.cpp`, `cmd_def.h`, `supervisor/src/main.cpp`)

The supervisor starts, stops and restarts worker processes on command and
restarts the ones that have died. An operation is atomic except where it waits:
for room in a full queue, and for a child to exit. What happens in the meantime
is part of the operation's input (`Waits`), and what happens between two
operations is a step of its own (`ExternalEvent`).

- `startWorkers`, `stopWorkers`, `monitorOnce`, `handleCommand`: the operations.
- `ExternalEvent`: children die, take a message from their queue (and exit on a
  poison pill), jobs arrive, the CLI reads a response.
- `SameChild`: what events and waits leave of an entry, stated once.
- `Op`, `step`, `runOps`: sequences of operations and events.
-/

namespace Fika

open Lib

/-! ## The queues of the binaries -/

/-- `binary_to_queue`. -/
def binaryToQueue : List (Str × Str) := [
  (lit "detect", getDirectQueue (lit "qm") (lit "detect")),
  (lit "parse", getDirectQueue (lit "qm") (lit "parse")),
  (lit "qm", getInboxQueue (lit "qm"))]

/-- `binary_to_queue.find(name)`. -/
def queueOf (name : Str) : Option Str :=
  (binaryToQueue.find? fun entry => entry.1 == name).map Prod.snd

/-- The table agrees with the queues the binaries receive from. -/
theorem queueOf_name (b : Binary) : queueOf b.name = some b.queue := by
  cases b <;> decide

/-! ## The supervisor and what happens around it -/

/-- `class supervisor`. `mqSend` holds the responses the CLI has not read. -/
structure Supervisor where
  queues : List QueueDescriptor := []
  workers : List WorkerEntity := []
  queueMgr : QueueManager := {}
  commands : List CommandType := []
  mqSend : List CommandResponse := []

/-- The capacity of `supervisor_fika_mq`. -/
def maxResponses : Nat := 100

/-- What happens without the supervisor: the child of an entry dies by itself, or
takes a message from its queue; a job is put on a queue; the CLI reads a
response. -/
inductive ExternalEvent where
  | die (i : Nat)
  | receive (i : Nat)
  | put (queue : Str) (job : FileJobShm)
  | readResponse
deriving DecidableEq

/-- What happens while an operation waits: for room in a queue, then for a child
to exit. -/
structure Waits where
  sending : List ExternalEvent := []
  waiting : List ExternalEvent := []

namespace Supervisor

/-- The constructor. -/
def new (factories : List ProcessFactory) (queues : List QueueDescriptor) : Supervisor where
  queues := queues
  workers := factories.map fun factory => { w := { factory := factory } }

/-- `supervisor::create_queues`, once `reset_queues` has unbound the names. -/
def createQueues (s : Supervisor) : Except Fault Supervisor := do
  let queueMgr ← s.queues.foldlM QueueManager.create s.queueMgr
  return { s with queueMgr := queueMgr }

/-- `supervisor::register_commands`. -/
def registerCommands (s : Supervisor) : Supervisor :=
  { s with commands := [.start, .stop, .restart, .ping] }

/-- What `main` does before it runs the supervisor. -/
def launch (factories : List ProcessFactory) (queues : List QueueDescriptor) :
    Except Fault Supervisor := do
  let s ← (new factories queues).createQueues
  return s.registerCommands

/-- The queues `main` describes. -/
def mainQueues : List QueueDescriptor := [
  { name := Binary.queue .detect, maxMessages := 100, messageSize := ipcMessageSize },
  { name := Binary.queue .parse, maxMessages := 100, messageSize := ipcMessageSize },
  { name := Binary.queue .qm, maxMessages := 100, messageSize := ipcMessageSize }]

/-- The workers of `supervisor.json`, by the file names of their binaries. -/
def configuredWorkers : List Str := [lit "qm", lit "ingestd", lit "detect", lit "parse"]

/-- The factories `main` makes for them, when every process can be started. -/
def mainFactories : List ProcessFactory :=
  configuredWorkers.map fun name _ => .ok (some { name := name })

/-- The names of these queues differ, so the supervisor can be launched. -/
theorem launch_main : ∃ s, launch mainFactories mainQueues = .ok s := by
  cases hs : launch mainFactories mainQueues with
  | ok s => exact ⟨s, rfl⟩
  | error f =>
    have hok : (launch mainFactories mainQueues).isOk = true := by rfl
    rw [hs] at hok
    cases hok

/-! ## External events -/

/-- The child of entry `i` exits. -/
def exit (s : Supervisor) (i : Nat) : Supervisor :=
  { s with workers := s.workers.modify i fun e => { e with w := e.w.exited } }

def setMessages (s : Supervisor) (queue : Str) (msgs : List IpcMessage) : Supervisor :=
  { s with queueMgr := s.queueMgr.setMessages queue msgs }

/-- The queue the live child of entry `i` receives from. -/
def receivesFrom (s : Supervisor) (i : Nat) : Option Str := do
  let e ← s.workers[i]?
  let child ← e.w.process
  if child.running then queueOf child.name else none

/-- The child of entry `i` takes a message: a pill ends it. -/
def receive (s : Supervisor) (i : Nat) : Supervisor :=
  match s.receivesFrom i with
  | none => s
  | some queue =>
    match s.queueMgr.messages queue with
    | [] => s
    | .poisonPill :: rest => (s.setMessages queue rest).exit i
    | .fileJobShm _ :: rest => s.setMessages queue rest

/-- Another process puts a job on a queue that has room for it. -/
def put (s : Supervisor) (queue : Str) (job : FileJobShm) : Supervisor :=
  match s.queueMgr.queues queue with
  | none => s
  | some mq =>
    if mq.messages.length < mq.maxMessages then
      s.setMessages queue (mq.messages ++ [.fileJobShm job])
    else s

def event (s : Supervisor) : ExternalEvent → Supervisor
  | .die i => s.exit i
  | .receive i => s.receive i
  | .put queue job => s.put queue job
  | .readResponse => { s with mqSend := s.mqSend.tail }

def events (s : Supervisor) (evs : List ExternalEvent) : Supervisor := evs.foldl event s

/-! ## Operations -/

/-- `w.w->start(); w.state = WorkerState::Running`. -/
def startEntity (e : WorkerEntity) : Except Fault WorkerEntity := do
  let w ← e.w.start
  return { w := w, state := .running }

/-- One turn of the loop of `start_workers`. -/
def startTurn (serviceName : Str) (e : WorkerEntity) : Except Fault WorkerEntity :=
  -- the empty name comes first in the disjunction: no worker is asked for its name
  if serviceName = [] then startEntity e
  else do
    let name ← e.w.name
    if name = serviceName then startEntity e else return e

/-- `supervisor::start_workers`. -/
def startWorkers (s : Supervisor) (serviceName : Str) : Except Fault Supervisor := do
  let workers ← s.workers.mapM (startTurn serviceName)
  return { s with workers := workers }

/-- One turn of the loop of `monitor_once`. -/
def monitorTurn (e : WorkerEntity) : Except Fault WorkerEntity :=
  if e.w.isAlive = false ∧ e.state = .running then do
    let w ← e.w.restart
    return { e with w := w }
  else return e

/-- `supervisor::monitor_once`. -/
def monitorOnce (s : Supervisor) : Except Fault Supervisor := do
  let workers ← s.workers.mapM monitorTurn
  return { s with workers := workers }

/-- The `try` block of `stop_workers`: an exception of `send_stop_job` is logged. -/
def trySendStopJob (s : Supervisor) (queue : Str) : Except Fault Supervisor :=
  match s.queueMgr.sendStopJob queue with
  | .ok queueMgr => .ok { s with queueMgr := queueMgr }
  | .error (.exception _) => .ok s
  | .error fault => .error fault

/-- `w.w->wait(); w.state = WorkerState::Stopped`: the wait does not return while
the child runs. -/
def reap (s : Supervisor) (i : Nat) : Except Fault Supervisor :=
  match s.workers[i]? with
  | none => .ok s
  | some e =>
    if e.w.isAlive then .error .blocked
    else .ok { s with workers := s.workers.modify i fun e => { e with state := .stopped } }

/-- The two steps of `stop_workers` for one worker: enqueue the pill, wait. -/
def stopEntity (s : Supervisor) (w : Waits) (queue : Str) (i : Nat) :
    Except Fault Supervisor := do
  let s ← (s.events w.sending).trySendStopJob queue
  (s.events w.waiting).reap i

/-- One turn of the loop of `stop_workers`. -/
def stopTurn (serviceName : Str) (waits : Nat → Waits) (s : Supervisor) (i : Nat) :
    Except Fault Supervisor :=
  match s.workers[i]? with
  | none => .ok s
  | some e => do
    -- here the name comes first, and every worker is asked for it
    let name ← e.w.name
    if name = serviceName ∨ serviceName = [] then
      match queueOf name with
      | some queue => s.stopEntity (waits i) queue i
      -- no poison pill queue: warn and `continue`
      | none => return s
    else return s

/-- `supervisor::stop_workers`. -/
def stopWorkers (s : Supervisor) (serviceName : Str) (waits : Nat → Waits) :
    Except Fault Supervisor :=
  (List.range s.workers.length).foldlM (stopTurn serviceName waits) s

/-- `supervisor::send_pong`. -/
def sendPong (s : Supervisor) (msg : CommandResponse) (w : Waits) : Except Fault Supervisor :=
  let s := s.events w.sending
  if maxResponses ≤ s.mqSend.length then .error .blocked
  else .ok { s with mqSend := s.mqSend ++ [msg] }

/-- The `execute` of the registered commands; the others have none. -/
def execute (s : Supervisor) (serviceName : Str) (waits : Nat → Waits) :
    CommandType → Except Fault Supervisor
  | .start => s.startWorkers serviceName
  | .stop => s.stopWorkers serviceName waits
  | .restart => do
    let s ← s.stopWorkers serviceName waits
    s.startWorkers serviceName
  | .ping => s.sendPong pong (waits 0)
  -- not registered
  | _ => .ok s

/-- `supervisor::handle_command`. -/
def handleCommand (s : Supervisor) (cmdType : CommandType) (serviceName : Str)
    (waits : Nat → Waits) : Except Fault Supervisor :=
  if cmdType ∈ s.commands then s.execute serviceName waits cmdType else .ok s

end Supervisor

/-- The operations on a supervisor, and the events between them. -/
inductive Op where
  | command (cmdType : CommandType) (serviceName : Str) (waits : Nat → Waits)
  | monitor
  | event (ev : ExternalEvent)

namespace Supervisor

/-- One operation or event. -/
def step (s : Supervisor) : Op → Except Fault Supervisor
  | .command cmdType serviceName waits => s.handleCommand cmdType serviceName waits
  | .monitor => s.monitorOnce
  | .event ev => .ok (s.event ev)

/-- A sequence of them. -/
def runOps (s : Supervisor) (ops : List Op) : Except Fault Supervisor := ops.foldlM step s

/-- The command `fika start`. -/
def startAll : Op := .command .start [] fun _ => {}

/-- The deployed supervisor after a sequence of operations. -/
def deployedAfter (ops : List Op) : Option Supervisor :=
  (launch mainFactories mainQueues >>= fun s => s.runOps ops).toOption

/-- The supervisor that `deployedAfter` describes, as a launch and a run. -/
theorem deployedAfter_eq_some {ops : List Op} {s : Supervisor}
    (h : deployedAfter ops = some s) :
    ∃ s₀, launch mainFactories mainQueues = .ok s₀ ∧ s₀.runOps ops = .ok s := by
  unfold deployedAfter at h
  obtain ⟨s₀, hs₀⟩ := launch_main
  refine ⟨s₀, hs₀, ?_⟩
  rw [hs₀] at h
  change (s₀.runOps ops).toOption = some s at h
  cases hrun : s₀.runOps ops with
  | error f =>
    rw [hrun] at h
    cases h
  | ok t =>
    rw [hrun] at h
    exact congrArg Except.ok (Option.some.inj h)

/-- Whatever is evaluated on the deployed supervisor holds of it. -/
theorem deployed_eval {α : Type} {ops : List Op} {s : Supervisor}
    (hs : deployedAfter ops = some s) {f : Supervisor → α} {a : α}
    (h : (deployedAfter ops).map f = some a) : f s = a := by
  rw [hs, Option.map_some] at h
  exact Option.some.inj h

/-- After `fika start` every worker holds a child. -/
theorem deployed_holds {s : Supervisor} (hs : deployedAfter [startAll] = some s) :
    ∀ e ∈ s.workers, e.w.Holds := by
  have hall : (s.workers.all fun e => decide e.w.Holds) = true :=
    deployed_eval (f := fun s => s.workers.all fun e => decide e.w.Holds) hs (by rfl)
  exact fun e he => of_decide_eq_true (List.all_eq_true.mp hall e he)

theorem runOps_cons (s : Supervisor) (op : Op) (ops : List Op) :
    s.runOps (op :: ops) = s.step op >>= fun t => t.runOps ops := rfl

end Supervisor

/-! ## What events and waits leave of an entry -/

/-- `e'` is `e` with the same child, which may have exited. -/
structure SameChild (e e' : WorkerEntity) : Prop where
  factory : e'.w.factory = e.w.factory
  spawned : e'.w.spawned = e.w.spawned
  holds : e'.w.Holds ↔ e.w.Holds
  name : e'.w.name = e.w.name
  alive : e'.w.isAlive = true → e.w.isAlive = true

namespace SameChild

variable {e e' e'' : WorkerEntity}

theorem refl (e : WorkerEntity) : SameChild e e := ⟨rfl, rfl, Iff.rfl, rfl, id⟩

theorem trans (h : SameChild e e') (h' : SameChild e' e'') : SameChild e e'' where
  factory := h'.factory.trans h.factory
  spawned := h'.spawned.trans h.spawned
  holds := h'.holds.trans h.holds
  name := h'.name.trans h.name
  alive ha := h.alive (h'.alive ha)

theorem exited (e : WorkerEntity) : SameChild e { e with w := e.w.exited } where
  factory := rfl
  spawned := rfl
  holds := e.w.exited_holds
  name := e.w.exited_name
  alive ha := by simp at ha

theorem setState (e : WorkerEntity) (state : WorkerState) :
    SameChild e { e with state := state } := ⟨rfl, rfl, Iff.rfl, rfl, id⟩

end SameChild

/-- The same child, in the same state of the supervisor's book-keeping. -/
def Untouched (e e' : WorkerEntity) : Prop := SameChild e e' ∧ e'.state = e.state

theorem Untouched.refl (e : WorkerEntity) : Untouched e e := ⟨.refl e, rfl⟩

theorem Untouched.trans {e e' e'' : WorkerEntity} (h : Untouched e e') (h' : Untouched e' e'') :
    Untouched e e'' := ⟨h.1.trans h'.1, h'.2.trans h.2⟩

namespace Supervisor

variable {s s' t : Supervisor}

/-- Entry by entry, `s'` relates to `s`. -/
def Entrywise (R : WorkerEntity → WorkerEntity → Prop) (s s' : Supervisor) : Prop :=
  List.Forall₂ R s.workers s'.workers

theorem Entrywise.refl {R : WorkerEntity → WorkerEntity → Prop} (hR : ∀ e, R e e)
    (s : Supervisor) : Entrywise R s s := List.forall₂_same.mpr fun e _ => hR e

theorem Entrywise.trans {R : WorkerEntity → WorkerEntity → Prop}
    (hR : ∀ {e e' e'' : WorkerEntity}, R e e' → R e' e'' → R e e'')
    (h : Entrywise R s s') (h' : Entrywise R s' t) : Entrywise R s t := by
  unfold Entrywise at *
  generalize s.workers = l, s'.workers = l', t.workers = l'' at h h'
  induction h generalizing l'' with
  | nil =>
    cases h'
    exact .nil
  | cons hab _ ih =>
    cases h' with
    | cons hbc h' => exact .cons (hR hab hbc) (ih _ h')

theorem Entrywise.mono {R R' : WorkerEntity → WorkerEntity → Prop}
    (hR : ∀ {e e' : WorkerEntity}, R e e' → R' e e') (h : Entrywise R s s') :
    Entrywise R' s s' := h.imp fun _ _ => hR

theorem exit_untouched (s : Supervisor) (i : Nat) : Entrywise Untouched s (s.exit i) :=
  forall₂_modify Untouched.refl (fun e => ⟨.exited e, rfl⟩) s.workers i

theorem receive_untouched (s : Supervisor) (i : Nat) : Entrywise Untouched s (s.receive i) := by
  unfold receive
  split
  · exact .refl Untouched.refl s
  · split
    · exact .refl Untouched.refl s
    · exact exit_untouched _ i
    · exact .refl Untouched.refl _

theorem put_untouched (s : Supervisor) (queue : Str) (job : FileJobShm) :
    Entrywise Untouched s (s.put queue job) := by
  unfold put
  split
  · exact .refl Untouched.refl s
  · split
    · exact .refl Untouched.refl _
    · exact .refl Untouched.refl s

/-- Events only let children exit. -/
theorem event_untouched (s : Supervisor) (ev : ExternalEvent) :
    Entrywise Untouched s (s.event ev) := by
  cases ev with
  | die i => exact exit_untouched s i
  | receive i => exact receive_untouched s i
  | put queue job => exact put_untouched s queue job
  | readResponse => exact .refl Untouched.refl s

/-- What no event of a list breaks holds after the list. -/
theorem events_invariant {I : Supervisor → Prop} {evs : List ExternalEvent} (h : I s)
    (hevent : ∀ t, I t → ∀ ev ∈ evs, I (t.event ev)) : I (s.events evs) :=
  List.foldlRecOn evs event h hevent

theorem events_untouched (s : Supervisor) (evs : List ExternalEvent) :
    Entrywise Untouched s (s.events evs) :=
  events_invariant (.refl Untouched.refl s) fun t ht ev _ =>
    ht.trans Untouched.trans (event_untouched t ev)

theorem events_sameChild (s : Supervisor) (evs : List ExternalEvent) :
    Entrywise SameChild s (s.events evs) := (events_untouched s evs).mono And.left

/-! ## What a turn of `stop_workers` does -/

/-- Sending a pill touches no worker, and no child is asked for its name. -/
theorem trySendStopJob_ensures (s : Supervisor) (queue : Str) :
    Ensures (· ≠ .nullChild) (fun s' => s'.workers = s.workers) (s.trySendStopJob queue) := by
  unfold trySendStopJob QueueManager.sendStopJob
  cases s.queueMgr.queues queue with
  | none => exact fun h => nomatch h
  | some mq =>
    by_cases hsize : mq.messageSize < ipcMessageSize
    · simp [hsize, Ensures]
    · by_cases hfull : mq.maxMessages ≤ mq.messages.length
      · simp [hsize, hfull, Ensures]
      · simp [hsize, hfull, Ensures]

/-- A wait that returns has seen the child exit; the entry is then Stopped. -/
theorem reap_ok {i : Nat} {e : WorkerEntity} (he : s.workers[i]? = some e)
    (h : s.reap i = .ok s') :
    e.w.isAlive = false ∧
      s' = { s with workers := s.workers.modify i fun e => { e with state := .stopped } } := by
  unfold reap at h
  simp only [he] at h
  split at h
  · cases h
  · next halive => exact ⟨by simpa using halive, (Except.ok.inj h).symm⟩

theorem reap_ensures (s : Supervisor) (i : Nat) :
    Ensures (· ≠ .nullChild) (Entrywise SameChild s) (s.reap i) := by
  unfold reap
  split
  · exact Entrywise.refl SameChild.refl s
  · split
    · exact fun h => nomatch h
    · exact forall₂_modify SameChild.refl (fun e => .setState e .stopped) s.workers i

/-- Stopping one worker replaces no child. -/
theorem stopEntity_ensures (s : Supervisor) (w : Waits) (queue : Str) (i : Nat) :
    Ensures (· ≠ .nullChild) (Entrywise SameChild s) (s.stopEntity w queue i) := by
  refine (trySendStopJob_ensures _ queue).bind fun t ht => ?_
  have hsent : Entrywise SameChild s t := by
    unfold Entrywise
    rw [ht]
    exact events_sameChild s w.sending
  have hwaited : Entrywise SameChild s (t.events w.waiting) :=
    hsent.trans SameChild.trans (events_sameChild t w.waiting)
  exact (reap_ensures _ i).mono fun s' hs' => hwaited.trans SameChild.trans hs'

/-- A turn replaces no child, and asks only the worker at hand for its name. -/
theorem stopTurn_ensures {allowed : Fault → Prop} {i : Nat} (serviceName : Str)
    (waits : Nat → Waits) (hallowed : ∀ f, f ≠ .nullChild → allowed f)
    (hname : ∀ e, s.workers[i]? = some e → Ensures allowed (fun _ => True) e.w.name) :
    Ensures allowed (Entrywise SameChild s) (stopTurn serviceName waits s i) := by
  have hrefl : Entrywise SameChild s s := .refl SameChild.refl s
  unfold stopTurn
  split
  · exact hrefl
  · next e he =>
    refine (hname e he).bind fun name _ => ?_
    split
    · split
      · exact (stopEntity_ensures s _ _ i).weaken hallowed
      · exact hrefl
    · exact hrefl

end Supervisor

end Fika
