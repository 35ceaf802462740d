import Fika.Lib.Flow
import Fika.Pipeline.Termination
import Fika.Supervisor.Supervisor

/-!
# The pipeline with bounded queues and thread pools
(`service.cpp`, `ipc_client.h`, `supervisor/src/main.cpp`)

The three services as a network of bounded mailboxes: a message queue holds a fixed
number of messages and `send` waits while it is full; a handler occupies one of the
threads of its service from its call until it has returned, also while its `send`
waits; ingestd and whoever sends a poison pill wait in the same way; and any process
can be killed at any time.

- `Objects`, `network`: what the processes own, and the three `handle` functions, the
  upload handler and the pills as a `Network`.
- `handle_forwards`: a handler sends nothing, or one message that is well formed,
  under the same id and path, and worth less.
- `Reachable.sound`: queues and pools are never overfull and every message anywhere is
  well formed, through full queues, kills and launches.
- `bounded_work`, `bounded_rest`: the services take at most twenty steps for an
  accepted upload and three for a pill, in any run; they can always go on until they
  come to rest, and what is left then waits for the full queue of a stopped service.
-/

namespace Fika

open Lib Network Pipeline

universe u

instance : Fintype Binary where
  elems := {.qm, .detect, .parse}
  complete b := by cases b <;> decide

namespace Bounded

/-- The sizes of the queues and of the thread pools. -/
structure Limits where
  capacity : Binary → Nat
  threads : Binary → Nat

/-- Every queue has room for a message and every pool has a thread. -/
structure Limits.Positive (l : Limits) : Prop where
  capacity : ∀ b, 0 < l.capacity b
  threads : ∀ b, 0 < l.threads b

/-- The limits of a deployment: the queues `main` of the supervisor describes, and as
many threads as the machine runs at a time. -/
def mainLimits (hardwareConcurrency : Nat) : Limits where
  capacity b := ((Supervisor.mainQueues.find? fun q => q.name == b.queue).map
    QueueDescriptor.maxMessages).getD 0
  threads _ := hardwareConcurrency

theorem mainLimits_capacity (hardwareConcurrency : Nat) (b : Binary) :
    (mainLimits hardwareConcurrency).capacity b = 100 := by
  cases b <;> rfl

/-- What the processes own, the files, and the history, latest first. -/
structure Objects (P : Type u) where
  qm : Qm := {}
  parsers : ParserRegistry P := {}
  fs : FileSystem
  submitted : List Submission := []
  handled : List FileJobShm := []
  removed : List Str := []

/-- What comes from outside: uploads, and the poison pills of supervisors. -/
inductive ClientOp where
  | upload (req : UploadRequest)
  | pill (b : Binary)

/-- The job messages among what a handler sends; no handler sends a pill. -/
def jobs (sent : List (Binary × IpcMessage)) : List (Binary × FileJobShm) :=
  sent.filterMap fun p => p.2.job?.map fun m => (p.1, m)

section
variable {P : Type u}

/-- `qm_service::handle`, with the file removal that `process_results` asks for. -/
def handleQm (o : Objects P) (m : FileJobShm) : Objects P × List (Binary × FileJobShm) :=
  let r := processResults o.qm m
  let fs := match r.removeFile with
    | none => o.fs
    | some file => removeFile file o.fs
  ({ o with
      qm := r.qm
      fs := fs
      handled := m :: o.handled
      removed := r.removeFile.toList ++ o.removed }, jobs r.sent)

/-- `detect_service::handle` as posted. -/
def handleDetect (detectors : List FileDetector) (o : Objects P) (m : FileJobShm) :
    Objects P × List (Binary × FileJobShm) :=
  (o, jobs (detectReplies detectors m))

/-- `parse_service::handle`. -/
def handleParse (create : MimeType → Option P) (o : Objects P) (m : FileJobShm) :
    Objects P × List (Binary × FileJobShm) :=
  let r := parseHandle create o.parsers m
  ({ o with parsers := r.2 }, jobs r.1)

/-- Record what `ingestd` did with an upload, up to the `send` of the job it has
built. -/
def ingest (o : Objects P) (req : UploadRequest) (r : UploadResult) :
    Objects P × List (Binary × Mail FileJobShm) :=
  match r.sent with
  | none => ({ o with fs := r.fs }, [])
  | some m => ({ o with fs := r.fs, submitted := ⟨req, m⟩ :: o.submitted }, [(.qm, .work m)])

/-- The pipeline as a network; a detect handler carries the detectors as they behave
in that call. -/
def network (d : Deployment P) (l : Limits) :
    Network Binary FileJobShm (Objects P) (List FileDetector) ClientOp where
  capacity := l.capacity
  threads := l.threads
  handle
    | .qm, _, o, m => handleQm o m
    | .detect, detectors, o, m => handleDetect detectors o m
    | .parse, _, o, m => handleParse d.create o m
  client
    | .upload req, o => ingest o req (Fika.upload d.config req o.fs)
    | .pill b, o => (o, [(b, .halt)])
  fresh
    | .qm, o => { o with qm := {} }
    | .detect, o => o
    | .parse, o => { o with parsers := {} }

/-- A state of the bounded pipeline. -/
abbrev State (P : Type u) := Network.State Binary FileJobShm (Objects P)

/-- What happens next in the bounded pipeline. -/
abbrev Event := Network.Event Binary (List FileDetector) ClientOp

/-- All queues empty, all services receiving, over any files. -/
def init (fs : FileSystem) : State P := { shared := { fs := fs } }

/-- The states the bounded pipeline can reach, with events that all meet the guard. -/
def Reachable (d : Deployment P) (l : Limits) (ok : State P → Event → Prop) (t : State P) : Prop :=
  ∃ fs, Reaches (network d l).step ok (init fs) t

/-! ## What a handler sends -/

/-- Nothing, or one message: well formed, under the same id and path, worth less. -/
inductive Forwards (b : Binary) (m : FileJobShm) : List (Binary × FileJobShm) → Prop where
  | nothing : Forwards b m []
  | one {b' : Binary} {r : FileJobShm} (hwf : WellFormed b' r) (hkey : r.key = m.key)
      (hpath : r.path.str = m.path.str) (hless : weight b' r.status < weight b m.status) :
      Forwards b m [(b', r)]

variable {d : Deployment P} {l : Limits} {m : FileJobShm}

theorem forwards_qm (o : Objects P) (h : WellFormed .qm m) : Forwards .qm m (handleQm o m).2 := by
  show Forwards .qm m (jobs (processResults o.qm m).sent)
  cases h.discipline with
  | submitted hs =>
    rw [(processResults_new hs).1]
    refine .one ⟨.detecting rfl rfl, terminated_forwarded m _ _⟩
      (FileJobShm.reencode_jobId_str h.terminated) (FileJobShm.reencode_path_str h.terminated) ?_
    rw [hs]
    exact Nat.lt_succ_self 4
  | detected hs ht =>
    rw [(processResults_detecting hs).1]
    refine .one ⟨.parsing rfl rfl, terminated_forwarded m _ _⟩
      (FileJobShm.reencode_jobId_str h.terminated) (FileJobShm.reencode_path_str h.terminated) ?_
    rw [hs]
    exact Nat.lt_succ_self 2
  | parsed hs ht =>
    rw [(processResults_done hs).1]
    exact .nothing
  | failed hs =>
    rw [(processResults_failed hs).1]
    exact .nothing

/-- A quiet chain answers with one message, and any other with none. -/
theorem handleDetect_sent (detectors : List FileDetector) (o : Objects P) (m : FileJobShm) :
    (handleDetect detectors o m).2 = if QuietChain detectors m.path.str then
      [(.qm, detectReply detectors m)] else [] := by
  show jobs (detectReplies detectors m) = _
  by_cases hquiet : QuietChain detectors m.path.str
  · rw [if_pos hquiet, detectReplies_quiet hquiet]
    rfl
  · rw [if_neg hquiet, detectReplies_loud hquiet]
    rfl

/-- Whatever the registry holds, the reply is DONE or FAILED. -/
theorem handleParse_sent (create : MimeType → Option P) (o : Objects P) (m : FileJobShm) :
    (handleParse create o m).2 = [(.qm, { m with
      status := if (findParser create o.parsers m.mime).1.isSome then .done else .failed })] := by
  show jobs (deliver parseSenders (lit "qm") (.fileJobShm { m with status := _ })) = _
  rw [deliver_parse_qm]
  rfl

theorem forwards_detect (detectors : List FileDetector) (o : Objects P)
    (h : WellFormed .detect m) : Forwards .detect m (handleDetect detectors o m).2 := by
  rw [handleDetect_sent]
  split
  · refine .one ⟨discipline_detectReply h.discipline, h.terminated.jobId, h.terminated.path⟩
      rfl rfl ?_
    show weight .qm (if (verdict detectors m.path.str).isSome then Status.detecting else .failed)
      < 4
    split <;> decide
  · exact .nothing

theorem forwards_parse (o : Objects P) (h : WellFormed .parse m) :
    Forwards .parse m (handleParse d.create o m).2 := by
  rw [handleParse_sent]
  cases h.discipline with
  | parsing hs ht =>
    cases (findParser d.create o.parsers m.mime).1.isSome with
    | true =>
      exact .one ⟨.parsed rfl ht, h.terminated.jobId, h.terminated.path⟩ rfl rfl
        (Nat.lt_succ_self 1)
    | false =>
      exact .one ⟨.failed rfl, h.terminated.jobId, h.terminated.path⟩ rfl rfl
        (Nat.lt_succ_self 1)

theorem handle_forwards (b : Binary) (c : List FileDetector) (o : Objects P)
    (h : WellFormed b m) : Forwards b m ((network d l).handle b c o m).2 := by
  cases b with
  | qm => exact forwards_qm o h
  | detect => exact forwards_detect c o h
  | parse => exact forwards_parse o h

/-! ## Every state -/

/-- What a client sends: the job of an accepted upload, or a pill. -/
theorem client_sends {op : ClientOp} {o : Objects P} {p : Binary × Mail FileJobShm}
    (hp : p ∈ ((network d l).client op o).2) :
    (∃ req m, op = .upload req ∧ (Fika.upload d.config req o.fs).sent = some m ∧
      p = (.qm, .work m)) ∨ ∃ b, op = .pill b ∧ p = (b, .halt) := by
  cases op with
  | upload req =>
    change p ∈ (ingest o req (Fika.upload d.config req o.fs)).2 at hp
    cases hsent : (Fika.upload d.config req o.fs).sent with
    | none =>
      simp only [ingest, hsent, List.not_mem_nil] at hp
    | some m =>
      simp only [ingest, hsent] at hp
      exact .inl ⟨req, m, rfl, hsent, List.mem_singleton.mp hp⟩
  | pill b => exact .inr ⟨b, rfl, List.mem_singleton.mp hp⟩

theorem keeps_wellFormed : (network d l).Keeps WellFormed where
  client op o b m hm := by
    rcases client_sends hm with ⟨req, m', -, hsent, heq⟩ | ⟨b', -, heq⟩
    · cases heq
      rw [upload_sent hsent]
      exact ⟨.submitted rfl, terminated_newJob _ _⟩
    · cases heq
  handle b c o m h p hp := by
    have hf := handle_forwards (d := d) (l := l) b c o h
    generalize ((network d l).handle b c o m).2 = outs at hp hf
    cases hf with
    | nothing => cases hp
    | one hwf hkey hpath hless =>
      rw [List.mem_singleton.mp hp]
      exact hwf

theorem pays_weight :
    (network d l).Pays WellFormed fun b m => weight b m.status where
  pos b m _ := weight_pos b m.status
  handle b c o m h := by
    have hf := handle_forwards (d := d) (l := l) b c o h
    generalize ((network d l).handle b c o m).2 = outs at hf
    cases hf with
    | nothing => exact weight_pos b m.status
    | one hwf hkey hpath hless =>
      rw [List.map_cons, List.map_nil, List.sum_singleton]
      exact hless

/-- A handler passes its job on under the same id and path. -/
theorem passes_key : (network d l).Passes WellFormed fun m => (m.key, m.path.str) where
  handle b c o m h := by
    have hf := handle_forwards (d := d) (l := l) b c o h
    generalize ((network d l).handle b c o m).2 = outs at hf
    cases hf with
    | nothing => exact .inl rfl
    | one hwf hkey hpath hless => exact .inr ⟨_, rfl, Prod.ext hkey hpath⟩

/-- What every state of the bounded pipeline satisfies. -/
structure Sound (d : Deployment P) (l : Limits) (t : State P) : Prop where
  within : (network d l).Within t
  wellFormed : Everywhere WellFormed t

theorem sound_init (fs : FileSystem) : Sound d l (init fs : State P) where
  within := ⟨fun _ => Nat.zero_le _, fun _ => Nat.zero_le _, fun _ hx => (nomatch hx)⟩
  wellFormed := ⟨fun _ _ hm => (nomatch hm),
    fun _ => ⟨fun _ hm => (nomatch hm), fun _ hm => (nomatch hm), fun _ ht => (nomatch ht)⟩⟩

variable {t t' : State P} {ok : State P → Event → Prop}

theorem Sound.step {e : Event} (h : Sound d l t) (hs : (network d l).step t e = some t') :
    Sound d l t' :=
  ⟨within_step h.within hs, everywhere_step keeps_wellFormed h.wellFormed hs⟩

theorem Reachable.sound (h : Reachable d l ok t) : Sound d l t := by
  obtain ⟨fs, hr⟩ := h
  exact hr.invariant (sound_init fs) fun ha _ hs => ha.step hs

/-! ## Coming to rest -/

/-- How many uploads were accepted. -/
def uploads (t : State P) : Nat := t.entered.countP fun p => p.2.message?.isSome

/-- How many pills were sent. -/
def pills (t : State P) : Nat := t.entered.countP fun p => p.2.message?.isNone

theorem weight_le (b : Binary) (status : Status) : weight b status ≤ 5 := by
  cases b with
  | qm => cases status <;> decide
  | detect => exact Nat.le_succ 4
  | parse => exact Nat.le_add_left 2 3

theorem fare_le (t : State P) :
    fare (fun b (m : FileJobShm) => weight b m.status) t ≤ 20 * uploads t + 3 * pills t := by
  unfold fare uploads pills
  induction t.entered with
  | nil => exact Nat.le_refl _
  | cons p rest ih =>
    obtain ⟨b, mail⟩ := p
    rw [List.map_cons, List.sum_cons, List.countP_cons, List.countP_cons]
    cases mail with
    | halt =>
      change 3 + _ ≤ 20 * (_ + 0) + 3 * (_ + 1)
      omega
    | work m =>
      have hle := weight_le b m.status
      change 4 * weight b m.status + _ ≤ 20 * (_ + 1) + 3 * (_ + 0)
      omega

/-- **The services' work is bounded** in any run whatever, with full queues, blocked
handlers, kills, launches and detectors that throw: at most twenty steps for each
accepted upload (receives, calls, sends, returns) and three for each pill. -/
theorem bounded_work (d : Deployment P) (l : Limits) (fs : FileSystem) (es : List Event)
    (t : State P) (hrun : run (network d l).step (init fs) es = some t) :
    es.countP Network.Event.internal ≤ 20 * uploads t + 3 * pills t := by
  have hpaid := run_fare keeps_wellFormed pays_weight (sound_init (d := d) (l := l) fs).wellFormed
    hrun
  have hzero : (price fun b (m : FileJobShm) => weight b m.status).total (init fs : State P) = 0 :=
    rfl
  have hfare := fare_le t
  rw [hzero] at hpaid
  omega

/-- An upload that is detected as a PDF document, and the twenty steps that take its
job to the end. -/
def sampleEvents : List Event := [
  .client (.upload sampleRequest), .accept 0,
  .receive .qm, .invoke .qm 0 [], .send .qm 0, .finish .qm 0,
  .receive .detect, .invoke .detect 0 sampleDetectors, .send .detect 0, .finish .detect 0,
  .receive .qm, .invoke .qm 0 [], .send .qm 0, .finish .qm 0,
  .receive .parse, .invoke .parse 0 [], .send .parse 0, .finish .parse 0,
  .receive .qm, .invoke .qm 0 [], .finish .qm 0]

/-- The state after the first `n` steps, with four threads to a service. -/
def sampleBounded (n : Nat) : Option (State Unit) :=
  run (network sampleDeployment (mainLimits 4)).step (init fun _ => none) (sampleEvents.take n)

/-- The bound is reached. -/
theorem bounded_work_sample :
    ∃ t, run (network sampleDeployment (mainLimits 4)).step (init fun _ => none) sampleEvents
        = some t ∧ uploads t = 1 ∧ pills t = 0 ∧
      sampleEvents.countP Network.Event.internal = 20 ∧
      sampleEvents.countP Network.Event.internal ≤ 20 * uploads t + 3 * pills t := by
  obtain ⟨t, ht⟩ := Option.isSome_iff_exists.mp (show (run
    (network sampleDeployment (mainLimits 4)).step (init fun _ => none) sampleEvents).isSome = true
    by rfl)
  have hcounts : (run (network sampleDeployment (mainLimits 4)).step (init fun _ => none)
      sampleEvents).map (fun t => (uploads t, pills t)) = some (1, 0) := by rfl
  rw [ht, Option.map_some, Option.some.injEq, Prod.mk.injEq] at hcounts
  exact ⟨t, ht, hcounts.1, hcounts.2, rfl,
    bounded_work sampleDeployment (mainLimits 4) (fun _ => none) sampleEvents t ht⟩

/-- **Full queues alone never block the pipeline**: in every reachable state no queue
and no thread pool is overfull, and the processes can go on by themselves to a state
in which none of them can. In such a state whoever waits for room waits for the full
queue of a service that has stopped receiving; so if all services receive, nothing is
on its way any more. -/
theorem bounded_rest (d : Deployment P) (l : Limits) (hl : l.Positive) (t : State P)
    (h : Reachable d l anyEvent t) :
    (∀ b, (t.node b).box.length ≤ l.capacity b ∧ (t.node b).busy.length ≤ l.threads b) ∧
    (∃ es u, (∀ e ∈ es, Network.Event.internal e = true) ∧
      run (network d l).step t es = some u ∧ (network d l).Stuck u) ∧
    ((network d l).Stuck t →
      (∀ p ∈ t.outside, Clogged (network d l) t p.1) ∧
      (∀ b, ∀ handler ∈ (t.node b).busy,
        ∃ p rest, handler.2 = p :: rest ∧ Clogged (network d l) t p.1) ∧
      ((∀ b, (t.node b).stage = .receiving) → Quiet t)) := by
  have hsound := h.sound
  refine ⟨fun b => ⟨hsound.within.box b, hsound.within.busy b⟩, ?_, fun hstuck => ?_⟩
  · have hnone : ∀ e ∈ ([] : List Event), e.internal = true := fun e he => (nomatch he)
    exact (hsound.wellFormed.rests keeps_wellFormed pays_weight hnone rfl).2
  · obtain ⟨hout, hbusy⟩ := hstuck.blocked hl.capacity
    exact ⟨hout, hbusy, hstuck.quiet hl.capacity hl.threads⟩

theorem positive_mainLimits {hardwareConcurrency : Nat} (h : 0 < hardwareConcurrency) :
    (mainLimits hardwareConcurrency).Positive where
  capacity b := by
    rw [mainLimits_capacity]
    decide
  threads _ := h

/-- While detect has the sample job in its hands, the pipeline can go on to a rest. -/
theorem bounded_rest_detecting :
    ∃ t, sampleBounded 8 = some t ∧ ∃ es u, (∀ e ∈ es, Network.Event.internal e = true) ∧
      run (network sampleDeployment (mainLimits 4)).step t es = some u ∧
      (network sampleDeployment (mainLimits 4)).Stuck u := by
  obtain ⟨t, ht⟩ := Option.isSome_iff_exists.mp (show (sampleBounded 8).isSome = true by rfl)
  have hreach : Reachable sampleDeployment (mainLimits 4) anyEvent t :=
    ⟨fun _ => none, reaches_of_run (runOk_of_forall fun _ _ _ => trivial) ht⟩
  exact ⟨t, ht, (bounded_rest sampleDeployment (mainLimits 4) (positive_mainLimits (by decide)) t
    hreach).2.1⟩

end

end Bounded

end Fika
