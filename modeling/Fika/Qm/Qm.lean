import Fika.Qm.StateMachine
import Fika.Global.Service

/-!
# The queue manager (`qm.cpp`, `qm_service.cpp`, `qm/src/main.cpp`)

`qm` receives every new job and every reply on its inbox, drives the job's state
machine and names the service the job goes to next.

- `handleEvent`, `addJob`, `processResults`: `class qm`.
- `qmSenders`: what `main` registers; `qmHandle`: `qm_service::handle`.
- `processResults_new`, `processResults_detecting`, `processResults_done`,
  `processResults_failed`: what qm does with each status its inbox can hold.
-/

namespace Fika

open Lib

/-- `class qm`: `jobs_in_memory`, keyed by job id. -/
structure Qm where
  jobsInMemory : Str → Option FileJob := fun _ => none

/-- What `qm::handle_event` leaves behind: the job it was given, whether the
state machine accepted the event, and the returned pair. -/
structure EventResult where
  job : FileJob
  accepted : Bool
  qname : Str
  msg : FileJobShm

/-- `qm::handle_event`: the message stays blank when the event is rejected, and
the queue name follows the job's type either way. -/
def handleEvent (job : FileJob) (event : Event) : EventResult :=
  let applied := apply job event
  { job := applied.2
    accepted := applied.1
    qname :=
      -- a rejected event leaves the type as it was, and with it the queue name
      match applied.2.type with
      | .detector => lit "detect"
      | .parser => lit "parse"
      | .none => []
    msg := if applied.1 then fromFileJob applied.2 else {} }

/-- What `qm::process_results` does: the pair it returns, the result of the
`state_machine::apply` call if it made one, and the path it passed to
`pickup.remove_file` if it did. -/
structure QmResult where
  qm : Qm
  qname : Str
  msg : FileJobShm
  accepted : Option Bool := none
  removeFile : Option Str := none

/-- `qm::add_job`. -/
def addJob (q : Qm) (job : FileJob) : QmResult :=
  let job := { job with status := .new }
  let r := handleEvent job .submit
  { qm := { jobsInMemory := fun key => if key = job.jobId then some job else q.jobsInMemory key }
    qname := r.qname
    msg := r.msg
    accepted := some r.accepted }

/-- A `handle_event` call of `qm::process_results`. -/
def dispatchEvent (q : Qm) (job : FileJob) (event : Event) : QmResult :=
  let r := handleEvent job event
  { qm := q, qname := r.qname, msg := r.msg, accepted := some r.accepted }

/-- `qm::process_results`. -/
def processResults (q : Qm) (job : FileJobShm) : QmResult :=
  let extendedJob := toFileJob job
  match extendedJob.status with
  | .new => addJob q extendedJob
  | .detecting => dispatchEvent q extendedJob .detectionOk
  | .failed => { qm := q, qname := lit "fail", msg := job }
  | .parsing => dispatchEvent q extendedJob .parseOk
  | .done =>
    { qm := q, qname := lit "null_sender", msg := {}, removeFile := some extendedJob.path }

/-- The senders `main` of qm registers. -/
def qmSenders : Senders :=
  addSender (addSender (addSender [] (lit "parse") (.msgQueueSender .parse))
    (lit "detect") (.msgQueueSender .detect)) (lit "null_sender") .nullSender

/-- The messages `qm_service::handle` puts on queues for a job message. -/
def QmResult.sent (r : QmResult) : List (Binary × IpcMessage) :=
  deliver qmSenders r.qname (.fileJobShm r.msg)

/-! ## What qm does with each status -/

@[simp] theorem deliver_qm_detect (msg : IpcMessage) :
    deliver qmSenders (lit "detect") msg = [(.detect, msg)] := by
  have h : getSender qmSenders (lit "detect") = some (.msgQueueSender .detect) := by decide
  rw [deliver, h]

@[simp] theorem deliver_qm_parse (msg : IpcMessage) :
    deliver qmSenders (lit "parse") msg = [(.parse, msg)] := by
  have h : getSender qmSenders (lit "parse") = some (.msgQueueSender .parse) := by decide
  rw [deliver, h]

@[simp] theorem deliver_qm_null_sender (msg : IpcMessage) :
    deliver qmSenders (lit "null_sender") msg = [] := by
  have h : getSender qmSenders (lit "null_sender") = some .nullSender := by decide
  rw [deliver, h]

/-- No sender is registered under the name a failed job is routed to. -/
@[simp] theorem deliver_qm_fail (msg : IpcMessage) :
    deliver qmSenders (lit "fail") msg = [] := by
  have h : getSender qmSenders (lit "fail") = none := by decide
  rw [deliver, h]

variable {q : Qm} {m : FileJobShm}

/-- The message qm forwards: `m` after a decode and encode, with the status and
type of the accepted transition. -/
def forwarded (m : FileJobShm) (status : Status) (type : JobType) : FileJobShm :=
  { m.reencode with status := status, type := type }

theorem processResults_new (h : m.status = .new) :
    (processResults q m).sent = [(.detect, .fileJobShm (forwarded m .detecting .detector))] ∧
      (processResults q m).accepted = some true ∧ (processResults q m).removeFile = none := by
  have hst : (toFileJob m).status = .new := h
  -- `add_job` sets the status to NEW again before it submits
  have happ : apply { toFileJob m with status := .new } .submit
      = (true, { toFileJob m with type := .detector, status := .detecting }) :=
    apply_submit rfl
  rw [processResults, hst]
  refine ⟨?_, ?_, rfl⟩
  · show deliver qmSenders (handleEvent { toFileJob m with status := .new } .submit).qname
      (.fileJobShm (handleEvent { toFileJob m with status := .new } .submit).msg) = _
    rw [handleEvent, happ]
    exact deliver_qm_detect _
  · show some (apply { toFileJob m with status := .new } .submit).1 = some true
    rw [happ]

theorem processResults_detecting (h : m.status = .detecting) :
    (processResults q m).sent = [(.parse, .fileJobShm (forwarded m .parsing .parser))] ∧
      (processResults q m).accepted = some true ∧ (processResults q m).removeFile = none := by
  have hst : (toFileJob m).status = .detecting := h
  have happ := apply_detectionOk hst
  rw [processResults, hst]
  refine ⟨?_, ?_, rfl⟩
  · show deliver qmSenders (handleEvent (toFileJob m) .detectionOk).qname
      (.fileJobShm (handleEvent (toFileJob m) .detectionOk).msg) = _
    rw [handleEvent, happ]
    exact deliver_qm_parse _
  · show some (apply (toFileJob m) .detectionOk).1 = some true
    rw [happ]

theorem processResults_done (h : m.status = .done) :
    (processResults q m).sent = [] ∧ (processResults q m).accepted = none ∧
      (processResults q m).removeFile = some m.path.str := by
  have hst : (toFileJob m).status = .done := h
  rw [processResults, hst]
  exact ⟨deliver_qm_null_sender _, rfl, rfl⟩

theorem processResults_failed (h : m.status = .failed) :
    (processResults q m).sent = [] ∧ (processResults q m).accepted = none ∧
      (processResults q m).removeFile = none := by
  have hst : (toFileJob m).status = .failed := h
  rw [processResults, hst]
  exact ⟨deliver_qm_fail _, rfl, rfl⟩

/-- qm asks for a file to be removed exactly when it handles a finished job. -/
theorem processResults_removeFile (q : Qm) (m : FileJobShm) :
    (processResults q m).removeFile = if m.status = .done then some m.path.str else none := by
  have hst : (toFileJob m).status = m.status := rfl
  rw [processResults, hst]
  cases hm : m.status <;> rfl

end Fika
