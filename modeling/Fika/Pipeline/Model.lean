import Mathlib.Logic.Function.Basic
import Fika.Lib.Run
import Fika.Qm.Qm
import Fika.Detect.DetectService
import Fika.Parse.ParseService
import Fika.Ingestd.Ingestd

/-!
# The running pipeline

`ingestd`, qm, detect and parse with their three message queues, as one system
whose atomic steps interleave in any order: an upload, a poison pill put on a
queue, a service taking a message from its queue, a posted handler running, a
service leaving its drained pool, a stopped service being started again.

- `Pipeline`: the queues, the services and the objects they own, the files, and
  the history, latest first (what was submitted, which detectors were asked
  about which job, what qm handled, what it removed).
- `Action`, `step`: the steps. A detect handler carries the detectors as they
  behave in that call, so that nothing is assumed about how a detector decides.
- `StepSpec`, `step_spec`: what each step does, said once for all invariants.
-/

namespace Fika

open Lib

universe u

/-- A deployment: the configured directories and the available parsers. -/
structure Deployment (P : Type u) where
  config : Config
  create : MimeType → Option P

/-- A job ingestd has submitted: the request and the message sent for it. -/
structure Submission where
  req : UploadRequest
  msg : FileJobShm

/-- A job the detect service has handled, with the detectors it asked. -/
structure Detection where
  job : FileJobShm
  detectors : List FileDetector

/-- The state of the pipeline. -/
structure Pipeline (P : Type u) where
  queue : Binary → List IpcMessage := fun _ => []
  service : Binary → ServiceState := fun _ => {}
  qm : Qm := {}
  parsers : ParserRegistry P := {}
  fs : FileSystem
  submitted : List Submission := []
  detections : List Detection := []
  handled : List FileJobShm := []
  removed : List Str := []

/-- The steps. `i` is the position of the handler in its pool: the pool runs
posted handlers in any order. -/
inductive Action where
  | upload (req : UploadRequest)
  | pill (b : Binary)
  | receive (b : Binary)
  | runQm (i : Nat)
  | runDetect (i : Nat) (detectors : List FileDetector)
  | runParse (i : Nat)
  | join (b : Binary)
  | restart (b : Binary)

namespace Pipeline

variable {P : Type u}

/-- All queues empty, all services receiving, over any files. -/
def init (fs : FileSystem) : Pipeline P := { fs := fs }

/-- Append a message to the queue of `b`. -/
def send (s : Pipeline P) (b : Binary) (msg : IpcMessage) : Pipeline P :=
  { s with queue := Function.update s.queue b (s.queue b ++ [msg]) }

/-- Put the messages a handler sent on their queues, in order. -/
def sendAll (s : Pipeline P) (msgs : List (Binary × IpcMessage)) : Pipeline P :=
  msgs.foldl (fun s p => s.send p.1 p.2) s

/-- Replace the state of the service of `b`. -/
def setService (s : Pipeline P) (b : Binary) (sv : ServiceState) : Pipeline P :=
  { s with service := Function.update s.service b sv }

/-- Take the `i`-th posted handler of `b` out of its pool. -/
def unpost (s : Pipeline P) (b : Binary) (i : Nat) : Pipeline P :=
  s.setService b { s.service b with pool := (s.service b).pool.eraseIdx i }

/-- Take the first message from the queue of `b` and go once around its receive
loop. -/
def receive (s : Pipeline P) (b : Binary) (msg : IpcMessage) (rest : List IpcMessage) :
    Pipeline P :=
  { s with queue := Function.update s.queue b rest }.setService b ((s.service b).onMessage msg)

/-- Record what `ingestd` did with an upload. -/
def ingest (s : Pipeline P) (req : UploadRequest) (r : UploadResult) : Pipeline P :=
  match r.sent with
  | none => { s with fs := r.fs }
  | some msg =>
    { s with fs := r.fs, submitted := ⟨req, msg⟩ :: s.submitted }.send .qm (.fileJobShm msg)

/-- `qm_service::handle`, with the file removal that `process_results` asks for. -/
def handleQm (s : Pipeline P) (m : FileJobShm) : Pipeline P :=
  let r := processResults s.qm m
  let fs := match r.removeFile with
    | none => s.fs
    | some file => removeFile file s.fs
  { s with
    qm := r.qm
    fs := fs
    handled := m :: s.handled
    removed := r.removeFile.toList ++ s.removed }.sendAll r.sent

/-- `detect_service::handle` as posted. -/
def handleDetect (s : Pipeline P) (detectors : List FileDetector) (m : FileJobShm) :
    Pipeline P :=
  { s with detections := ⟨m, detectors⟩ :: s.detections }.sendAll (detectReplies detectors m)

/-- `parse_service::handle`. -/
def handleParse (create : MimeType → Option P) (s : Pipeline P) (m : FileJobShm) :
    Pipeline P :=
  let r := parseHandle create s.parsers m
  { s with parsers := r.2 }.sendAll r.1

/-- A fresh process for `b`: an empty pool and fresh objects. -/
def relaunch (s : Pipeline P) (b : Binary) : Pipeline P :=
  let s := match b with
    | .qm => { s with qm := {} }
    | .detect => s
    | .parse => { s with parsers := {} }
  s.setService b {}

/-- One step; `none` when it is not enabled. -/
def step (d : Deployment P) (s : Pipeline P) : Action → Option (Pipeline P)
  | .upload req => some (s.ingest req (Fika.upload d.config req s.fs))
  | .pill b => some (s.send b .poisonPill)
  | .receive b =>
    -- a receive blocks on an empty queue
    match (s.service b).phase, s.queue b with
    | .receiving, msg :: rest => some (s.receive b msg rest)
    | _, _ => none
  | .runQm i => ((s.service .qm).pool[i]?).map (s.unpost .qm i).handleQm
  | .runDetect i detectors =>
    ((s.service .detect).pool[i]?).map ((s.unpost .detect i).handleDetect detectors)
  | .runParse i => ((s.service .parse).pool[i]?).map ((s.unpost .parse i).handleParse d.create)
  | .join b =>
    -- `pool_.join()` returns once every posted handler has run
    if (s.service b).phase = .joining ∧ (s.service b).pool = [] then
      some (s.setService b { phase := .exited })
    else none
  | .restart b => if (s.service b).phase = .exited then some (s.relaunch b) else none

/-! ## Queues and services after an operation -/

section

variable {s : Pipeline P} {b b' : Binary}

@[simp] theorem send_queue_self (msg : IpcMessage) :
    (s.send b msg).queue b = s.queue b ++ [msg] := Function.update_self ..

theorem send_queue_other (msg : IpcMessage) (h : b' ≠ b) :
    (s.send b msg).queue b' = s.queue b' := Function.update_of_ne h ..

@[simp] theorem setService_service_self (sv : ServiceState) :
    (s.setService b sv).service b = sv := Function.update_self ..

theorem setService_service_other (sv : ServiceState) (h : b' ≠ b) :
    (s.setService b sv).service b' = s.service b' := Function.update_of_ne h ..

@[simp] theorem receive_queue_self (msg : IpcMessage) (rest : List IpcMessage) :
    (s.receive b msg rest).queue b = rest := Function.update_self ..

theorem receive_queue_other (msg : IpcMessage) (rest : List IpcMessage) (h : b' ≠ b) :
    (s.receive b msg rest).queue b' = s.queue b' := Function.update_of_ne h ..

@[simp] theorem receive_service_self (msg : IpcMessage) (rest : List IpcMessage) :
    (s.receive b msg rest).service b = (s.service b).onMessage msg := Function.update_self ..

theorem receive_service_other (msg : IpcMessage) (rest : List IpcMessage) (h : b' ≠ b) :
    (s.receive b msg rest).service b' = s.service b' := Function.update_of_ne h ..

end

/-! ## What a step does -/

/-- The effect of each step. -/
inductive StepSpec (d : Deployment P) (s : Pipeline P) : Action → Pipeline P → Prop where
  | accepted {req : UploadRequest} {m : FileJobShm}
      (h : (Fika.upload d.config req s.fs).sent = some m) :
      StepSpec d s (.upload req)
        ({ s with
          fs := (Fika.upload d.config req s.fs).fs
          submitted := ⟨req, m⟩ :: s.submitted }.send .qm (.fileJobShm m))
  | refused {req : UploadRequest} (h : (Fika.upload d.config req s.fs).sent = none) :
      StepSpec d s (.upload req) { s with fs := (Fika.upload d.config req s.fs).fs }
  | pill (b : Binary) : StepSpec d s (.pill b) (s.send b .poisonPill)
  | received {b : Binary} {msg : IpcMessage} {rest : List IpcMessage}
      (hphase : (s.service b).phase = .receiving) (hqueue : s.queue b = msg :: rest) :
      StepSpec d s (.receive b) (s.receive b msg rest)
  | ranQm {i : Nat} {m : FileJobShm} (hpool : (s.service .qm).pool[i]? = some m) :
      StepSpec d s (.runQm i) ((s.unpost .qm i).handleQm m)
  | ranDetect {i : Nat} {detectors : List FileDetector} {m : FileJobShm}
      (hpool : (s.service .detect).pool[i]? = some m) :
      StepSpec d s (.runDetect i detectors) ((s.unpost .detect i).handleDetect detectors m)
  | ranParse {i : Nat} {m : FileJobShm} (hpool : (s.service .parse).pool[i]? = some m) :
      StepSpec d s (.runParse i) ((s.unpost .parse i).handleParse d.create m)
  | joined {b : Binary} (hphase : (s.service b).phase = .joining)
      (hpool : (s.service b).pool = []) :
      StepSpec d s (.join b) (s.setService b { phase := .exited })
  | restarted {b : Binary} (hphase : (s.service b).phase = .exited) :
      StepSpec d s (.restart b) (s.relaunch b)

theorem step_spec {d : Deployment P} {s s' : Pipeline P} {a : Action}
    (h : step d s a = some s') : StepSpec d s a s' := by
  cases a with
  | upload req =>
    obtain rfl := Option.some.inj h
    cases hsent : (Fika.upload d.config req s.fs).sent with
    | none =>
      -- `ingest` reduces once it is known whether a message was sent
      have hing : s.ingest req (Fika.upload d.config req s.fs)
          = { s with fs := (Fika.upload d.config req s.fs).fs } := by rw [ingest, hsent]
      rw [hing]
      exact .refused hsent
    | some m =>
      have hing : s.ingest req (Fika.upload d.config req s.fs)
          = { s with
              fs := (Fika.upload d.config req s.fs).fs
              submitted := ⟨req, m⟩ :: s.submitted }.send .qm (.fileJobShm m) := by
        rw [ingest, hsent]
      rw [hing]
      exact .accepted hsent
  | pill b =>
    obtain rfl := Option.some.inj h
    exact .pill b
  | receive b =>
    rw [step] at h
    split at h
    · next msg rest hphase hqueue =>
      obtain rfl := Option.some.inj h
      exact .received hphase hqueue
    · cases h
  | runQm i =>
    obtain ⟨m, hm, rfl⟩ := Option.map_eq_some_iff.mp h
    exact .ranQm hm
  | runDetect i detectors =>
    obtain ⟨m, hm, rfl⟩ := Option.map_eq_some_iff.mp h
    exact .ranDetect hm
  | runParse i =>
    obtain ⟨m, hm, rfl⟩ := Option.map_eq_some_iff.mp h
    exact .ranParse hm
  | join b =>
    rw [step] at h
    split at h
    · next hcond =>
      obtain rfl := Option.some.inj h
      exact .joined hcond.1 hcond.2
    · cases h
  | restart b =>
    rw [step] at h
    split at h
    · next hphase =>
      obtain rfl := Option.some.inj h
      exact .restarted hphase
    · cases h

/-- Runs of the pipeline in which every detect call uses a chain from `chains`;
everything else is free. -/
def Chains (chains : List FileDetector → Prop) (_ : Pipeline P) : Action → Prop
  | .runDetect _ detectors => chains detectors
  | _ => True

/-- The states the pipeline can reach from empty queues, over any files, with
detector chains from `chains`. -/
def Reachable (d : Deployment P) (chains : List FileDetector → Prop) (s : Pipeline P) : Prop :=
  ∃ fs, Reaches (step d) (Chains chains) (init fs) s

/-! ## One job through the pipeline -/

/-- A deployment that can parse PDF documents. -/
def sampleDeployment : Deployment Unit where
  config := { fikaSpoolDir := lit "/spool" }
  create := fun m => if m = .pdf then some () else none

/-- A detector that calls every file a PDF document. -/
def sampleDetectors : List FileDetector :=
  [{ name := lit "libmagic", detect := fun _ => .ok (lit "application/pdf") }]

theorem nonThrowing_sampleDetectors : NonThrowing sampleDetectors := by
  intro det hdet file
  rw [List.mem_singleton.mp hdet]
  rfl

def sampleRequest : UploadRequest where
  body := lit "%PDF"
  now := 1700000000
  millis := 1700000000123
  rand := 7

/-- Another upload, one second later. -/
def laterRequest : UploadRequest :=
  { sampleRequest with now := sampleRequest.now + 1, rand := sampleRequest.rand + 1 }

/-- An upload and the five handlers that take it to its end. -/
def sampleRun : List Action := [
  .upload sampleRequest,
  .receive .qm, .runQm 0,
  .receive .detect, .runDetect 0 sampleDetectors,
  .receive .qm, .runQm 0,
  .receive .parse, .runParse 0,
  .receive .qm, .runQm 0]

/-- The state after the first `n` steps of the run. -/
def sampleState (n : Nat) : Option (Pipeline Unit) :=
  run (step sampleDeployment) (init fun _ => none) (sampleRun.take n)

theorem chains_sampleRun {chains : List FileDetector → Prop} (hchains : chains sampleDetectors) :
    ∀ a ∈ sampleRun, ∀ s : Pipeline Unit, Chains chains s a := by
  intro a ha s
  simp only [sampleRun, List.mem_cons, List.not_mem_nil, or_false] at ha
  rcases ha with rfl | rfl | rfl | rfl | rfl | rfl | rfl | rfl | rfl | rfl | rfl
  all_goals trivial

/-- Every state of the run is reachable, in particular under every guard that
admits its detectors. -/
theorem sampleState_reachable {n : Nat} {s : Pipeline Unit}
    {chains : List FileDetector → Prop} (hchains : chains sampleDetectors)
    (h : sampleState n = some s) : Reachable sampleDeployment chains s :=
  ⟨fun _ => none, reaches_of_run (runOk_of_forall fun a ha t =>
    chains_sampleRun hchains a (List.mem_of_mem_take ha) t) h⟩

/-! ## Two jobs in each other's way -/

/-- Two uploads, the second one before the first has left qm; after fifteen steps the first
job is DONE, and the second one in the pool of detect. -/
def crossedRun : List Action := [
  .upload sampleRequest, .receive .qm, .upload laterRequest, .runQm 0,
  .receive .detect, .receive .qm, .runDetect 0 sampleDetectors, .runQm 0,
  .receive .detect, .receive .qm, .runQm 0, .receive .parse, .runParse 0, .receive .qm, .runQm 0,
  .runDetect 0 sampleDetectors, .receive .qm, .runQm 0, .receive .parse, .runParse 0,
  .receive .qm, .runQm 0]

/-- The state after the first `n` steps of the run. -/
def crossedState (n : Nat) : Option (Pipeline Unit) :=
  run (step sampleDeployment) (init fun _ => none) (crossedRun.take n)

theorem chains_crossedRun {chains : List FileDetector → Prop} (hchains : chains sampleDetectors) :
    ∀ a ∈ crossedRun, ∀ s : Pipeline Unit, Chains chains s a := by
  intro a ha s
  simp only [crossedRun, List.mem_cons, List.not_mem_nil, or_false] at ha
  rcases ha with rfl | rfl | rfl | rfl | rfl | rfl | rfl | rfl | rfl | rfl | rfl | rfl | rfl | rfl |
    rfl | rfl | rfl | rfl | rfl | rfl | rfl | rfl
  all_goals trivial

theorem crossedState_reachable {n : Nat} {s : Pipeline Unit}
    {chains : List FileDetector → Prop} (hchains : chains sampleDetectors)
    (h : crossedState n = some s) : Reachable sampleDeployment chains s :=
  ⟨fun _ => none, reaches_of_run (runOk_of_forall fun a ha t =>
    chains_crossedRun hchains a (List.mem_of_mem_take ha) t) h⟩

end Pipeline

end Fika
