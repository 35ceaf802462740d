import Fika.Lib.Publish
import Fika.Pipeline.Spool

/-!
# Uploads at the same time (`ingestd.cpp`)

The HTTP server of `ingestd` runs the `/upload` handler of every connection in a thread
of its own. A handler opens its temporary file, writes to it piece by piece, closes it,
renames it, sends the job and answers, with the steps of other handlers, of qm, detect
and parse between any two of its own. The rest of the model has the whole handler as one
step (`upload`); here is what that leaves out.

- `draft`, `upload_eq_publish`: the handler as a writer that publishes a file.
- `Ingest`, `Event`, `step`: the pipeline with the handlers at work, over files with
  names and objects. A handler that is killed is one that takes no further step.
- `concurrent_refines`: when no two uploads at work, and no upload and an earlier job,
  have the same second, and all spool paths fit the message, every state is that of a run
  with uploads at one go, but for the files of those at work.
- `concurrent_jobs`: whatever the seconds, the jobs that are submitted are those of such a
  run; an upload whose rename fails because another one has taken its file submits none.
- `same_second_mixes`: two uploads in one second, a file with bytes of both, and one job.
-/

namespace Fika

open Lib

universe u

/-! ## The handler as a writer -/

/-- The file operations of the `/upload` handler. -/
def draft (c : Config) (req : UploadRequest) : Publish.Draft Str UInt8 where
  tmp := incommingPath c req.now
  dst := spoolPath c req.now
  tmp_ne_dst := incommingPath_ne_spoolPath c req.now req.now
  opened := req.io.opened
  text := match req.io.written with
    | none => req.body
    | some n => req.body.take n
  renamed := req.io.renamed

/-- A file written to its end holds the whole body. -/
theorem draft_text_of_written {c : Config} {req : UploadRequest} (h : req.io.written = none) :
    (draft c req).text = req.body := by
  simp only [draft, h]

theorem incommingPath_injective {c : Config} {n n' : Int}
    (h : incommingPath c n = incommingPath c n') : n = n' := by
  rw [incommingPath_eq, incommingPath_eq] at h
  exact decimalInt_injective (List.append_cancel_left h)

/-- Uploads of different seconds have no file in common. -/
theorem draft_apart {c : Config} {req req' : UploadRequest} (h : req.now ≠ req'.now) :
    (draft c req).Apart (draft c req') := by
  rintro p (rfl | rfl) (hp | hp)
  · exact h (incommingPath_injective hp)
  · exact incommingPath_ne_spoolPath c _ _ hp
  · exact incommingPath_ne_spoolPath c _ _ hp.symm
  · exact h (spoolPath_injective hp)

theorem writeTmp_eq_written (c : Config) (req : UploadRequest) (fs : FileSystem) :
    writeTmp (incommingPath c req.now) req fs = (draft c req).written fs := by
  rw [writeTmp, Publish.Draft.written]
  show (if req.io.opened = true then
      fun p => if p = incommingPath c req.now then some (draft c req).text else fs p else fs)
    = if req.io.opened = true then
      Function.update fs (incommingPath c req.now) (some (draft c req).text) else fs
  split
  · funext p
    by_cases hp : p = incommingPath c req.now
    · rw [if_pos hp, hp, Function.update_self]
    · rw [if_neg hp, Function.update_of_ne hp]
  · rfl

/-- The job of an upload. -/
def uploadJob (c : Config) (req : UploadRequest) : FileJobShm :=
  newJob (generateUniqueId req.millis req.rand) (spoolPath c req.now)

/-- **The handler publishes its file**, and sends the job if it could. -/
theorem upload_eq_publish {c : Config} {req : UploadRequest} (fs : FileSystem)
    (h : req.body ≠ []) :
    (upload c req fs).fs = ((draft c req).publish fs).1 ∧
      (upload c req fs).sent =
        if ((draft c req).publish fs).2 then some (uploadJob c req) else none := by
  have hupload : (upload c req fs).fs = (handleFile c.fikaSpoolNewDir (incommingPath c req.now)
        (uploadFilename req.now) req ((draft c req).written fs)).1 ∧
      (upload c req fs).sent = (handleFile c.fikaSpoolNewDir (incommingPath c req.now)
        (uploadFilename req.now) req ((draft c req).written fs)).2 := by
    rw [upload, if_neg h, ← writeTmp_eq_written]
    exact ⟨rfl, rfl⟩
  rw [hupload.1, hupload.2]
  cases hsrc : (draft c req).written fs (draft c req).tmp with
  | none =>
    have hread : (draft c req).written fs (incommingPath c req.now) = none := hsrc
    rw [Publish.Draft.publish_stayed (.inl hsrc)]
    simp only [handleFile, moveFile, hread]
    exact ⟨trivial, rfl⟩
  | some text =>
    have hread : (draft c req).written fs (incommingPath c req.now) = some text := hsrc
    cases hr : req.io.renamed with
    | false =>
      rw [Publish.Draft.publish_stayed (.inr hr)]
      simp only [handleFile, moveFile, hread, hr, Bool.false_eq_true, if_false]
      exact ⟨trivial, trivial⟩
    | true =>
      rw [Publish.Draft.publish_renamed hsrc hr]
      simp only [handleFile, moveFile, hread, hr, if_true]
      refine ⟨?_, rfl⟩
      change (fun p => if p = spoolPath c req.now then some text
          else if p = incommingPath c req.now then none else (draft c req).written fs p)
        = Function.update (Function.update ((draft c req).written fs) (incommingPath c req.now)
            none) (spoolPath c req.now) (some text)
      funext p
      by_cases hd : p = spoolPath c req.now
      · rw [if_pos hd, hd, Function.update_self]
      · rw [if_neg hd, Function.update_of_ne hd]
        by_cases ht : p = incommingPath c req.now
        · rw [if_pos ht, ht, Function.update_self]
        · rw [if_neg ht, Function.update_of_ne ht]

/-! ## The pipeline with the handlers at work -/

namespace Concurrent

/-- The pipeline, the upload handlers at work on the files, and what was answered,
latest first. -/
structure Ingest (P : Type u) where
  pipe : Pipeline P
  writers : Publish.Writers Nat UploadRequest Str UInt8
  answers : List (UploadRequest × Response) := []

/-- The steps: a connection `k` is accepted; its handler opens, writes `n` bytes,
closes, calls `move_file`, sends the job; any other step of the pipeline. -/
inductive Event where
  | accept (k : Nat) (req : UploadRequest)
  | openTmp (k : Nat)
  | write (k n : Nat)
  | close (k : Nat)
  | moveFile (k : Nat)
  | submit (k : Nat)
  | other (a : Action)

variable {P : Type u}

/-- The file that the step removes. -/
def removal (s : Pipeline P) : Action → Option Str
  | .runQm i => ((s.service .qm).pool[i]?).bind fun m => (processResults s.qm m).removeFile
  | _ => none

def isUpload : Action → Bool
  | .upload _ => true
  | _ => false

namespace Ingest

/-- Nothing at work over the given files. -/
def init (files : Files Str UInt8) : Ingest P where
  pipe := Pipeline.init files.read
  writers := { files := files }

/-- The pipeline sees what the names of the files show. -/
def withWriters (s : Ingest P) (w : Publish.Writers Nat UploadRequest Str UInt8) : Ingest P :=
  { s with writers := w, pipe := { s.pipe with fs := w.files.read } }

/-- `mq_.send` of the upload's job. -/
def sendJob (s : Ingest P) (c : Config) (req : UploadRequest) : Ingest P :=
  { s with
    pipe := { s.pipe with submitted := ⟨req, uploadJob c req⟩ :: s.pipe.submitted }.send .qm
      (.fileJobShm (uploadJob c req)) }

/-- The answer to a request. -/
def answer (s : Ingest P) (req : UploadRequest) (res : Response) : Ingest P :=
  { s with answers := (req, res) :: s.answers }

end Ingest

/-- One step; `none` when it is not enabled. -/
def step (d : Deployment P) (s : Ingest P) : Event → Option (Ingest P)
  | .accept k req =>
    if req.body = [] then
      some (s.answer req { status := 400, content := lit "No data in request\n" })
    else (Publish.step (draft d.config) s.writers (.start k req)).map s.withWriters
  | .openTmp k => (Publish.step (draft d.config) s.writers (.openTmp k)).map s.withWriters
  | .write k n => (Publish.step (draft d.config) s.writers (.write k n)).map s.withWriters
  | .close k => (Publish.step (draft d.config) s.writers (.close k)).map s.withWriters
  | .moveFile k =>
    match s.writers.tasks k with
    | none => none
    | some task =>
      (Publish.step (draft d.config) s.writers (.rename k)).map fun w =>
        if (w.tasks k).isSome then s.withWriters w
        -- `handle_file` only logs that the rename has failed
        else (s.withWriters w).answer task.req { content := lit "Job submitted\n" }
  | .submit k =>
    match s.writers.tasks k with
    | none => none
    | some task =>
      (Publish.step (draft d.config) s.writers (.finish k)).map fun w =>
        ((s.withWriters w).sendJob d.config task.req).answer task.req
          { content := lit "Job submitted\n" }
  | .other a =>
    if isUpload a then none
    else
      (Pipeline.step d s.pipe a).map fun p =>
        { s with pipe := p }.withWriters <| s.writers.setFiles <|
          match removal s.pipe a with
          | none => s.writers.files
          | some file => s.writers.files.unlink file

/-- What the step of a handler is for the files. -/
def Event.work : Event → Option (Publish.Event Nat UploadRequest Str)
  | .openTmp k => some (.openTmp k)
  | .write k n => some (.write k n)
  | .close k => some (.close k)
  | .moveFile k => some (.rename k)
  | _ => none

/-- The effect of each step. -/
inductive StepSpec (d : Deployment P) (s : Ingest P) : Event → Ingest P → Prop where
  | refused {k : Nat} {req : UploadRequest} (hbody : req.body = []) :
      StepSpec d s (.accept k req)
        (s.answer req { status := 400, content := lit "No data in request\n" })
  | accepted {k : Nat} {req : UploadRequest} {w : Publish.Writers Nat UploadRequest Str UInt8}
      (hbody : req.body ≠ [])
      (hw : Publish.step (draft d.config) s.writers (.start k req) = some w) :
      StepSpec d s (.accept k req) (s.withWriters w)
  | worked {e : Event} {pe : Publish.Event Nat UploadRequest Str} {k : Nat}
      {w : Publish.Writers Nat UploadRequest Str UInt8} {task : Publish.Task UploadRequest}
      (hpe : e.work = some pe) (hk : pe.writer = some k)
      (hw : Publish.step (draft d.config) s.writers pe = some w)
      (hgoes : w.tasks k = some task) :
      StepSpec d s e (s.withWriters w)
  | gaveUp {k : Nat} {req : UploadRequest} {w : Publish.Writers Nat UploadRequest Str UInt8}
      (htask : s.writers.tasks k = some ⟨req, .moving⟩)
      (hw : Publish.step (draft d.config) s.writers (.rename k) = some w)
      (hends : w.tasks k = none) :
      StepSpec d s (.moveFile k)
        ((s.withWriters w).answer req { content := lit "Job submitted\n" })
  | submitted {k : Nat} {req : UploadRequest} {w : Publish.Writers Nat UploadRequest Str UInt8}
      (htask : s.writers.tasks k = some ⟨req, .moved⟩)
      (hw : Publish.step (draft d.config) s.writers (.finish k) = some w) :
      StepSpec d s (.submit k) (((s.withWriters w).sendJob d.config req).answer req
        { content := lit "Job submitted\n" })
  | other {a : Action} {p : Pipeline P} (ha : isUpload a = false)
      (hp : Pipeline.step d s.pipe a = some p) :
      StepSpec d s (.other a) ({ s with pipe := p }.withWriters <| s.writers.setFiles <|
        match removal s.pipe a with
        | none => s.writers.files
        | some file => s.writers.files.unlink file)

theorem step_spec {d : Deployment P} {s s' : Ingest P} {e : Event} (h : step d s e = some s') :
    StepSpec d s e s' := by
  cases e with
  | accept k req =>
    simp only [step] at h
    split at h
    · next hbody =>
      obtain rfl := Option.some.inj h
      exact .refused hbody
    · next hbody =>
      obtain ⟨w, hw, rfl⟩ := Option.map_eq_some_iff.mp h
      exact .accepted hbody hw
  | openTmp k =>
    obtain ⟨w, hw, rfl⟩ := Option.map_eq_some_iff.mp h
    cases Publish.step_spec hw with
    | opened htask ho => exact .worked rfl rfl hw (Publish.setTask_self ..)
    | notOpened htask ho => exact .worked rfl rfl hw (Publish.setTask_self ..)
  | write k n =>
    obtain ⟨w, hw, rfl⟩ := Option.map_eq_some_iff.mp h
    cases Publish.step_spec hw with
    | wrote htask hn => exact .worked rfl rfl hw (Publish.setTask_self ..)
  | close k =>
    obtain ⟨w, hw, rfl⟩ := Option.map_eq_some_iff.mp h
    cases Publish.step_spec hw with
    | closed htask hall => exact .worked rfl rfl hw (Publish.setTask_self ..)
  | moveFile k =>
    cases hk : s.writers.tasks k with
    | none =>
      simp only [step, hk] at h
      cases h
    | some task =>
      simp only [step, hk] at h
      obtain ⟨w, hw, rfl⟩ := Option.map_eq_some_iff.mp h
      cases hgoes : w.tasks k with
      | some task' =>
        rw [if_pos Option.isSome_some]
        exact .worked rfl rfl hw hgoes
      | none =>
        rw [if_neg (by decide)]
        cases Publish.step_spec hw with
        | renamed htask hf hr =>
          rw [Publish.setTask_self] at hgoes
          cases hgoes
        | stayed htask hr =>
          obtain rfl := Option.some.inj (hk.symm.trans htask)
          exact .gaveUp htask hw hgoes
  | submit k =>
    cases hk : s.writers.tasks k with
    | none =>
      simp only [step, hk] at h
      cases h
    | some task =>
      simp only [step, hk] at h
      obtain ⟨w, hw, rfl⟩ := Option.map_eq_some_iff.mp h
      cases Publish.step_spec hw with
      | finished htask =>
        obtain rfl := Option.some.inj (hk.symm.trans htask)
        exact .submitted htask hw
  | other a =>
    simp only [step] at h
    split at h
    · cases h
    · next ha =>
      obtain ⟨p, hp, rfl⟩ := Option.map_eq_some_iff.mp h
      exact .other (Bool.eq_false_iff.mpr ha) hp

/-- A handler that goes on has the request it had. -/
theorem work_tasks {d : Deployment P} {s : Ingest P} {e : Event}
    {pe : Publish.Event Nat UploadRequest Str} {w : Publish.Writers Nat UploadRequest Str UInt8}
    {k : Nat} {task : Publish.Task UploadRequest} (hpe : e.work = some pe)
    (hw : Publish.step (draft d.config) s.writers pe = some w) (hk : w.tasks k = some task) :
    ∃ before, s.writers.tasks k = some before ∧ task.req = before.req := by
  refine (Publish.tasks_step hw hk).resolve_right ?_
  rintro rfl
  cases e <;> cases hpe

/-! ## The pipeline over other files -/

/-- The same pipeline with other files and submissions. -/
def onFiles (s : Pipeline P) (fs : FileSystem) (subs : List Submission) : Pipeline P :=
  { s with fs := fs, submitted := subs }

/-- The files after a removal. -/
def afterRemoval (file : Option Str) (fs : FileSystem) : FileSystem :=
  match file with
  | none => fs
  | some file => removeFile file fs

variable {d : Deployment P} {s s' : Ingest P} {t p p' : Pipeline P} {a : Action} {fs : FileSystem}
  {subs : List Submission}

theorem sendAll_onFiles (msgs : List (Binary × IpcMessage)) :
    (onFiles p fs subs).sendAll msgs = onFiles (p.sendAll msgs) fs subs := by
  induction msgs generalizing p with
  | nil => rfl
  | cons msg msgs ih => exact ih (p := p.send msg.1 msg.2)

theorem handleQm_onFiles (p : Pipeline P) (m : FileJobShm) :
    (onFiles p fs subs).handleQm m
      = onFiles (p.handleQm m) (afterRemoval (processResults p.qm m).removeFile fs) subs := by
  rw [Pipeline.handleQm, Pipeline.handleQm, ← sendAll_onFiles]
  rfl

/-- What the pipeline does between uploads depends neither on the files nor on what was
submitted, and changes the files by its removals only. -/
theorem step_onFiles (ha : isUpload a = false) (hs : Pipeline.step d p a = some p')
    (fs : FileSystem) (subs : List Submission) :
    Pipeline.step d (onFiles p fs subs) a
      = some (onFiles p' (afterRemoval (removal p a) fs) subs) := by
  cases Pipeline.step_spec hs with
  | accepted hsent => cases ha
  | refused hsent => cases ha
  | pill b => rfl
  | @received b msg rest hphase hqueue =>
    have hphase' : ((onFiles p fs subs).service b).phase = .receiving := hphase
    have hqueue' : (onFiles p fs subs).queue b = msg :: rest := hqueue
    simp only [Pipeline.step, hphase', hqueue']
    rfl
  | @ranQm i m hpool =>
    have hpool' : ((onFiles p fs subs).service .qm).pool[i]? = some m := hpool
    have hremoval : removal p (.runQm i) = (processResults p.qm m).removeFile := by
      rw [removal, hpool]
      rfl
    rw [Pipeline.step, hpool', hremoval]
    exact congrArg some (handleQm_onFiles (p.unpost .qm i) m)
  | @ranDetect i detectors m hpool =>
    have hpool' : ((onFiles p fs subs).service .detect).pool[i]? = some m := hpool
    rw [Pipeline.step, hpool']
    exact congrArg some (sendAll_onFiles (p := { p.unpost .detect i with
      detections := ⟨m, detectors⟩ :: p.detections }) (detectReplies detectors m))
  | @ranParse i m hpool =>
    have hpool' : ((onFiles p fs subs).service .parse).pool[i]? = some m := hpool
    rw [Pipeline.step, hpool']
    exact congrArg some (sendAll_onFiles (p := { p.unpost .parse i with
      parsers := (parseHandle d.create p.parsers m).2 }) (parseHandle d.create p.parsers m).1)
  | @joined b hphase hpool =>
    have hcond : ((onFiles p fs subs).service b).phase = .joining ∧
        ((onFiles p fs subs).service b).pool = [] := ⟨hphase, hpool⟩
    rw [Pipeline.step, if_pos hcond]
    rfl
  | @restarted b hphase =>
    have hphase' : ((onFiles p fs subs).service b).phase = .exited := hphase
    rw [Pipeline.step, if_pos hphase']
    cases b <;> rfl

theorem submitted_other (ha : isUpload a = false) (hs : Pipeline.step d p a = some p') :
    p'.submitted = p.submitted := by
  rcases Pipeline.submitted_cases hs with h | ⟨req, m, rfl, -, -⟩
  · exact h
  · cases ha

theorem removal_cases {file : Str} (h : removal p a = some file) :
    ∃ i m, a = .runQm i ∧ (p.service .qm).pool[i]? = some m ∧ m.status = .done ∧
      file = m.path.str := by
  cases a with
  | runQm i =>
    obtain ⟨m, hm, hfile⟩ := Option.bind_eq_some_iff.mp h
    rw [processResults_removeFile] at hfile
    split at hfile
    · next hdone => exact ⟨i, m, rfl, hm, hdone, (Option.some.inj hfile).symm⟩
    · cases hfile
  | _ => cases h

/-! ## Uploads of different seconds -/

/-- The runs in which no upload has the second of another one at work or of an earlier
job, and all paths fit; `ok` is what is assumed of the steps of the pipeline. -/
def Apart (d : Deployment P) (ok : Action → Prop) (s : Ingest P) : Event → Prop
  | .accept _ req => ok (.upload req) ∧ FitsPath (spoolPath d.config req.now) ∧
      req.now ∉ s.pipe.seconds ∧ ∀ k task, s.writers.tasks k = some task → req.now ≠ task.req.now
  | .other a => ok a
  | _ => True

variable {ok : Action → Prop} {w : Publish.Writers Nat UploadRequest Str UInt8}

/-- `t` is the pipeline as if no upload at work had begun. -/
structure Follows (d : Deployment P) (ok : Action → Prop) (s : Ingest P) (t : Pipeline P) :
    Prop where
  pipe : s.pipe = onFiles t s.writers.files.read t.submitted
  shadow : Publish.Shadow (draft d.config) s.writers t.fs
  accepted : ∀ k task, s.writers.tasks k = some task → task.req.body ≠ [] ∧
    ok (.upload task.req) ∧ FitsPath (spoolPath d.config task.req.now) ∧ task.req.now ∉ t.seconds
  fits : Pipeline.PathsFit d t
  seconds : t.seconds.Nodup

/-- A step of a handler that publishes nothing. -/
theorem Follows.withWriters (h : Follows d ok s t)
    (hshadow : Publish.Shadow (draft d.config) w t.fs)
    (htasks : ∀ k task, w.tasks k = some task →
      ∃ before, s.writers.tasks k = some before ∧ task.req = before.req) :
    Follows d ok (s.withWriters w) t := by
  refine ⟨?_, hshadow, fun k task hk => ?_, h.fits, h.seconds⟩
  · show { s.pipe with fs := w.files.read } = _
    rw [h.pipe]
    rfl
  · obtain ⟨before, hbefore, hreq⟩ := htasks k task hk
    rw [hreq]
    exact h.accepted k before hbefore

/-- The upload at one go that follows an upload at work. -/
theorem Follows.published {req : UploadRequest} {k : Nat} {stage : Publish.Stage}
    (h : Follows d ok s t) (htask : s.writers.tasks k = some ⟨req, stage⟩)
    (hshadow : Publish.Shadow (draft d.config) (s.writers.setTask k none)
      ((draft d.config req).publish t.fs).1) {b : Bool}
    (hb : ((draft d.config req).publish t.fs).2 = b) :
    ∃ t', Pipeline.step d t (.upload req) = some t' ∧ Follows d ok
      (if b then (s.withWriters (s.writers.setTask k none)).sendJob d.config req
        else s.withWriters (s.writers.setTask k none)) t' := by
  obtain ⟨hbody, hok, hfit, hnew⟩ := h.accepted k _ htask
  obtain ⟨hfs, hsent⟩ := upload_eq_publish (c := d.config) t.fs hbody
  rw [hb] at hsent
  refine ⟨_, rfl, ?_⟩
  have hold : ∀ k' task, (s.writers.setTask k none).tasks k' = some task →
      k' ≠ k ∧ s.writers.tasks k' = some task := by
    intro k' task hk'
    rcases Publish.setTask_cases hk' with ⟨-, hnone⟩ | hold
    · cases hnone
    · exact hold
  cases b with
  | false =>
    have hingest : t.ingest req (Fika.upload d.config req t.fs)
        = { t with fs := ((draft d.config req).publish t.fs).1 } := by
      rw [Pipeline.ingest, hsent, ← hfs]
      rfl
    rw [hingest]
    refine ⟨?_, hshadow, fun k' task hk' => h.accepted k' task (hold k' task hk').2, h.fits,
      h.seconds⟩
    show { s.pipe with fs := s.writers.files.read } = _
    rw [h.pipe]
    rfl
  | true =>
    have hingest : t.ingest req (Fika.upload d.config req t.fs)
        = { t with
            fs := ((draft d.config req).publish t.fs).1
            submitted := ⟨req, uploadJob d.config req⟩ :: t.submitted }.send .qm
              (.fileJobShm (uploadJob d.config req)) := by
      rw [Pipeline.ingest, hsent, ← hfs]
      rfl
    rw [hingest]
    refine ⟨?_, hshadow, fun k' task hk' => ?_, fun sub hsub => ?_, List.nodup_cons.mpr
      ⟨hnew, h.seconds⟩⟩
    · show Pipeline.send (P := P) { s.pipe with
        fs := s.writers.files.read
        submitted := ⟨req, uploadJob d.config req⟩ :: s.pipe.submitted } .qm _ = _
      rw [h.pipe]
      rfl
    · obtain ⟨hne, hwas⟩ := hold k' task hk'
      obtain ⟨hbody', hok', hfit', hnew'⟩ := h.accepted k' task hwas
      refine ⟨hbody', hok', hfit', fun hmem => ?_⟩
      rcases List.mem_cons.mp hmem with heq | hmem
      · -- the two of them would share their files
        have hapart := h.shadow.apart k' k _ _ hne hwas htask (incommingPath d.config req.now)
        refine hapart (.inl ?_) (.inl rfl)
        show incommingPath d.config req.now = incommingPath d.config task.req.now
        rw [heq]
      · exact hnew' hmem
    · rcases List.mem_cons.mp hsub with rfl | hsub
      · exact hfit
      · exact h.fits sub hsub

/-- A step of the rest of the pipeline. -/
theorem Follows.other (hr : Pipeline.Reachable d (fun _ => True) t) (h : Follows d ok s t)
    (ha : isUpload a = false) (hs : Pipeline.step d s.pipe a = some p) :
    ∃ t', Pipeline.step d t a = some t' ∧
      Follows d ok ({ s with pipe := p }.withWriters <| s.writers.setFiles <|
        match removal s.pipe a with
        | none => s.writers.files
        | some file => s.writers.files.unlink file) t' := by
  have hover : onFiles s.pipe t.fs t.submitted = t := by
    rw [h.pipe]
    rfl
  have hstep := step_onFiles ha hs t.fs t.submitted
  rw [hover] at hstep
  refine ⟨_, hstep, ?_⟩
  have hsub : p.submitted = t.submitted := by
    rw [submitted_other ha hs, h.pipe]
    rfl
  cases hremoval : removal s.pipe a with
  | none =>
    refine ⟨?_, h.shadow, h.accepted, h.fits, h.seconds⟩
    show { p with fs := s.writers.files.read } = _
    rw [← hsub]
    rfl
  | some file =>
    have hview : afterRemoval (some file) t.fs = Function.update t.fs file none := by
      funext q
      show (if q = file then none else t.fs q) = _
      by_cases hq : q = file
      · rw [if_pos hq, hq, Function.update_self]
      · rw [if_neg hq, Function.update_of_ne hq]
    refine ⟨?_, ?_, h.accepted, h.fits, h.seconds⟩
    · show { p with fs := (s.writers.files.unlink file).read } = _
      rw [← hsub]
      rfl
    · show Publish.Shadow _ (s.writers.setFiles (s.writers.files.unlink file))
        (afterRemoval (some file) t.fs)
      rw [hview]
      refine h.shadow.unlinked fun k task hk => ?_
      -- the file is that of a job that was submitted, in another second
      obtain ⟨i, m, rfl, hpool, -, rfl⟩ := removal_cases hremoval
      have hpool' : (t.service .qm).pool[i]? = some m := by
        rw [← hover]
        exact hpool
      obtain ⟨sub, hsubmitted, ht⟩ :=
        (hr.payload.held (.inr (List.mem_of_getElem? hpool'))).origin
      have hpath : m.path.str = spoolPath d.config sub.req.now :=
        ht.carries.path.trans ((Pipeline.path_eq_iff hr hsubmitted).mpr (h.fits sub hsubmitted))
      rw [hpath]
      refine ⟨(incommingPath_ne_spoolPath d.config _ _).symm, fun _ hsame => ?_⟩
      exact (h.accepted k task hk).2.2.2
        (List.mem_map.mpr ⟨sub, hsubmitted, spoolPath_injective hsame⟩)

/-- **One step** of the pipeline with handlers at work is none, or one, of the pipeline
with uploads at one go. -/
theorem follows_step {e : Event} (hr : Pipeline.Reachable d (fun _ => True) t)
    (h : Follows d ok s t) (he : Apart d ok s e) (hs : step d s e = some s') :
    (∃ t', (∃ a, ok a ∧ Pipeline.step d t a = some t') ∧ Follows d ok s' t') ∨
      Follows d ok s' t := by
  cases step_spec hs with
  | refused hbody => exact .inr ⟨h.pipe, h.shadow, h.accepted, h.fits, h.seconds⟩
  | accepted hbody hw =>
    obtain ⟨hok, hfit, hnew, hapart⟩ := he
    cases Publish.step_spec hw with
    | started hidle =>
      refine .inr ⟨?_, ?_, fun k' task hk' => ?_, h.fits, h.seconds⟩
      · show { s.pipe with fs := s.writers.files.read } = _
        rw [h.pipe]
        rfl
      · exact h.shadow.started hidle fun k' task hk' => draft_apart (hapart k' task hk')
      · rcases Publish.setTask_cases hk' with ⟨-, hreq⟩ | ⟨-, hold⟩
        · obtain rfl := Option.some.inj hreq
          refine ⟨hbody, hok, hfit, ?_⟩
          rw [h.pipe] at hnew
          exact hnew
        · exact h.accepted k' task hold
  | worked hpe hk hw hgoes =>
    obtain ⟨before, hbefore, -⟩ := work_tasks hpe hw hgoes
    exact .inr (h.withWriters (h.shadow.worked hw hk hbefore hgoes) fun k task =>
      work_tasks hpe hw)
  | gaveUp htask hw hends =>
    cases Publish.step_spec hw with
    | renamed htask' hf hr =>
      rw [Publish.setTask_self] at hends
      cases hends
    | stayed htask' hr =>
      obtain rfl := (Publish.Task.mk.inj (Option.some.inj (htask.symm.trans htask'))).1
      obtain ⟨hshadow, hnot⟩ := h.shadow.stayed htask hr
      obtain ⟨t', ht', hf⟩ := h.published htask hshadow hnot
      refine .inl ⟨t', ⟨_, (h.accepted _ _ htask).2.1, ht'⟩, ?_⟩
      exact ⟨hf.pipe, hf.shadow, hf.accepted, hf.fits, hf.seconds⟩
  | submitted htask hw =>
    cases Publish.step_spec hw with
    | finished htask' =>
      obtain ⟨hshadow, hdone⟩ := h.shadow.finished htask
      obtain ⟨t', ht', hf⟩ := h.published htask hshadow hdone
      refine .inl ⟨t', ⟨_, (h.accepted _ _ htask).2.1, ht'⟩, ?_⟩
      exact ⟨hf.pipe, hf.shadow, hf.accepted, hf.fits, hf.seconds⟩
  | other ha hp =>
    obtain ⟨t', ht', hf⟩ := h.other hr ha hp
    exact .inl ⟨t', ⟨_, he, ht'⟩, hf⟩

theorem follows_of_reaches {files : Files Str UInt8} (hfiles : files.Sound)
    (h : Reaches (step d) (Apart d ok) (Ingest.init files) s) :
    ∃ t, Reaches (Pipeline.step d) (fun _ a => ok a) (Pipeline.init files.read) t ∧
      Follows d ok s t := by
  have hany : ∀ {t : Pipeline P},
      Reaches (Pipeline.step d) (fun _ a => ok a) (Pipeline.init files.read) t →
        Pipeline.Reachable d (fun _ => True) t := fun ht =>
    ⟨files.read, ht.mono fun {_ a} _ => by cases a <;> trivial⟩
  refine h.invariant (P := fun s => ∃ t,
      Reaches (Pipeline.step d) (fun _ a => ok a) (Pipeline.init files.read) t ∧ Follows d ok s t)
    ⟨_, .refl, ?_⟩ fun {a b e} ha he hs => ?_
  · refine ⟨rfl, Publish.shadow_idle hfiles, fun k task hk => ?_, fun sub hsub => ?_,
      List.nodup_nil⟩
    · cases hk
    · cases hsub
  · obtain ⟨t, ht, hf⟩ := ha
    rcases follows_step (hany ht) hf he hs with ⟨t', ⟨a, ha, ht'⟩, hf'⟩ | hf'
    · exact ⟨t', ht.tail ha ht', hf'⟩
    · exact ⟨t, ht, hf'⟩

/-- **Uploads at the same time are uploads one after the other**: when no two uploads at
work have the same second, nor an upload and an earlier job, and the spool path of every
upload fits the array of the message, then in every interleaving with each other and with
the services the pipeline is one in which each upload that has come to its end was a single
step; only the files of the uploads at work differ, and a spool file is at every moment as
it was before such an upload or as the upload leaves it at its end (with the part of the
body that could be written, if that was not all), never anything between the two. -/
theorem concurrent_refines (d : Deployment P) (ok : Action → Prop) (files : Files Str UInt8)
    (hfiles : files.Sound) (s : Ingest P)
    (h : Reaches (step d) (Apart d ok) (Ingest.init files) s) :
    ∃ t, Reaches (Pipeline.step d) (fun _ a => ok a) (Pipeline.init files.read) t ∧
      { s.pipe with fs := t.fs } = t ∧
      (∀ p, (∀ k task, s.writers.tasks k = some task →
        p ≠ incommingPath d.config task.req.now ∧ p ≠ spoolPath d.config task.req.now) →
          s.pipe.fs p = t.fs p) ∧
      ∀ now, s.pipe.fs (spoolPath d.config now) = t.fs (spoolPath d.config now) ∨
        ∃ k req, s.writers.tasks k = some ⟨req, .moved⟩ ∧ req.now = now ∧
          s.pipe.fs (spoolPath d.config now)
            = (Fika.upload d.config req t.fs).fs (spoolPath d.config now) := by
  obtain ⟨t, ht, hf⟩ := follows_of_reaches hfiles h
  have hfs : s.pipe.fs = s.writers.files.read := by
    rw [hf.pipe]
    rfl
  refine ⟨t, ht, ?_, fun p hp => ?_, fun now => ?_⟩
  · rw [hf.pipe]
    rfl
  · rw [hfs]
    refine hf.shadow.others p fun k task hk => ?_
    rintro (rfl | rfl)
    · exact (hp k task hk).1 rfl
    · exact (hp k task hk).2 rfl
  · rw [hfs]
    have hnot : ∀ k task, s.writers.tasks k = some task →
        spoolPath d.config now ≠ (draft d.config task.req).tmp := fun k task _ =>
      (incommingPath_ne_spoolPath d.config _ _).symm
    rcases hf.shadow.read_of_not_tmp hnot with hold | ⟨k, ⟨req, stage⟩, hk, rfl, hdst, hread⟩
    · exact .inl hold
    · refine .inr ⟨k, req, hk, (spoolPath_injective hdst).symm, ?_⟩
      rw [(upload_eq_publish t.fs (hf.accepted k _ hk).1).1]
      exact hread

/-- An upload one second later. -/
def nextRequest : UploadRequest :=
  { Pipeline.sampleRequest with body := lit "PNG", now := Pipeline.sampleRequest.now + 1 }

/-- Two handlers in turns; the one that began first is the last to rename. -/
def inTurns (first second : UploadRequest) : List Event := [
  .accept 0 first, .accept 1 second, .openTmp 0, .write 0 2, .openTmp 1, .write 1 1, .write 0 2,
  .write 1 2, .close 1, .close 0, .moveFile 1, .submit 1, .moveFile 0]

theorem apart_inTurns : runOk (step Pipeline.sampleDeployment)
    (Apart Pipeline.sampleDeployment fun _ => True) (Ingest.init {})
    (inTurns Pipeline.sampleRequest nextRequest) := by
  refine ⟨⟨trivial, ⟨by decide, by decide⟩, List.not_mem_nil, fun k task hk => ?_⟩,
    fun s hs => ⟨⟨trivial, ⟨by decide, by decide⟩, ?_, fun k task hk => ?_⟩, fun _ _ =>
      runOk_of_forall fun e he _ => ?_⟩⟩
  · cases hk
  · obtain rfl := Option.some.inj hs
    exact List.not_mem_nil
  · obtain rfl := Option.some.inj hs
    rcases Publish.setTask_cases hk with ⟨-, htask⟩ | ⟨-, hnone⟩
    · obtain rfl := Option.some.inj htask
      decide
    · cases hnone
  · simp only [List.mem_cons, List.not_mem_nil, or_false] at he
    rcases he with rfl | rfl | rfl | rfl | rfl | rfl | rfl | rfl | rfl | rfl | rfl
    all_goals trivial

/-- The second upload is a job, the first one has a file and no job yet. -/
theorem concurrent_refines_inTurns : ∃ (s : Ingest Unit) (t : Pipeline Unit),
    run (step Pipeline.sampleDeployment) (Ingest.init {})
      (inTurns Pipeline.sampleRequest nextRequest) = some s ∧
    { s.pipe with fs := t.fs } = t ∧ t.submitted.map Submission.req = [nextRequest] := by
  have hval : (run (step Pipeline.sampleDeployment) (Ingest.init {})
      (inTurns Pipeline.sampleRequest nextRequest)).map (fun s : Ingest Unit =>
        s.pipe.submitted.map Submission.req) = some [nextRequest] := by rfl
  obtain ⟨s, hs, hreq⟩ := Option.map_eq_some_iff.mp hval
  obtain ⟨t, -, ht, -⟩ := concurrent_refines Pipeline.sampleDeployment (fun _ => True) {}
    Files.sound_empty s (reaches_of_run apart_inTurns hs)
  refine ⟨s, t, hs, ht, ?_⟩
  rw [← ht]
  exact hreq

/-! ## Uploads of any seconds -/

/-- The submission as it is when nothing goes wrong with the files. -/
def flawless (sub : Submission) : Submission := { sub with req := { sub.req with io := {} } }

/-- The runs with detector chains from `chains`; everything else is free. -/
def Chains (chains : List FileDetector → Prop) (s : Ingest P) : Event → Prop
  | .other a => Pipeline.Chains chains s.pipe a
  | _ => True

/-- The jobs of `s` are those of `t`, and the answers are those of uploads at one go. -/
structure SameJobs (d : Deployment P) (s : Ingest P) (t : Pipeline P) : Prop where
  pipe : onFiles s.pipe t.fs (s.pipe.submitted.map flawless) = t
  accepted : ∀ k task, s.writers.tasks k = some task → task.req.body ≠ []
  answers : ∀ a ∈ s.answers, ∀ fs, a.2 = (Fika.upload d.config a.1 fs).response

theorem SameJobs.withWriters (h : SameJobs d s t)
    (htasks : ∀ k task, w.tasks k = some task → task.req.body ≠ []) :
    SameJobs d (s.withWriters w) t := ⟨h.pipe, htasks, h.answers⟩

/-- Everybody with a body is told that the job was submitted. -/
theorem SameJobs.answer {req : UploadRequest} (h : SameJobs d s t) (hbody : req.body ≠ []) :
    SameJobs d (s.answer req { content := lit "Job submitted\n" }) t := by
  refine ⟨h.pipe, h.accepted, fun a ha fs => ?_⟩
  rcases List.mem_cons.mp ha with rfl | ha
  · rw [Fika.upload, if_neg hbody]
  · exact h.answers a ha fs

theorem sameJobs_step {chains : List FileDetector → Prop} {e : Event} (h : SameJobs d s t)
    (he : Chains chains s e) (hs : step d s e = some s') :
    (∃ t', (∃ a, Pipeline.Chains chains t a ∧ Pipeline.step d t a = some t') ∧ SameJobs d s' t') ∨
      SameJobs d s' t := by
  cases step_spec hs with
  | refused hbody =>
    refine .inr ⟨h.pipe, h.accepted, fun a ha fs => ?_⟩
    rcases List.mem_cons.mp ha with rfl | ha
    · rw [Fika.upload, if_pos hbody]
    · exact h.answers a ha fs
  | accepted hbody hw =>
    refine .inr (h.withWriters fun k task hk => ?_)
    rcases Publish.tasks_step hw hk with ⟨before, hbefore, hreq⟩ | heq
    · rw [hreq]
      exact h.accepted k before hbefore
    · obtain ⟨-, rfl⟩ := Publish.Event.start.inj heq
      exact hbody
  | worked hpe hk hw hgoes =>
    refine .inr (h.withWriters fun k task hk' => ?_)
    obtain ⟨before, hbefore, hreq⟩ := work_tasks hpe hw hk'
    rw [hreq]
    exact h.accepted k before hbefore
  | @gaveUp k req w htask hw hends =>
    refine .inr ((h.withWriters fun k' task hk' => ?_).answer (h.accepted k _ htask))
    obtain ⟨before, hbefore, hreq⟩ := work_tasks (e := .moveFile k) rfl hw hk'
    rw [hreq]
    exact h.accepted k' before hbefore
  | @submitted k req w htask hw =>
    have hbody := h.accepted k _ htask
    let flawlessReq : UploadRequest := { req with io := {} }
    -- at one go, with file operations that succeed
    have hsent : (Fika.upload d.config flawlessReq t.fs).sent = some (uploadJob d.config req) :=
      (upload_succeeds t.fs ⟨rfl, rfl, rfl⟩ (show flawlessReq.body ≠ [] from hbody)).2.2
    have hrest : ∀ k' task, w.tasks k' = some task → task.req.body ≠ [] := fun k' task hk' => by
      cases Publish.step_spec hw with
      | finished htask' =>
        rcases Publish.setTask_cases hk' with ⟨-, hnone⟩ | ⟨-, hold⟩
        · cases hnone
        · exact h.accepted k' task hold
    refine .inl ⟨_, ⟨.upload flawlessReq, trivial, rfl⟩,
      SameJobs.answer ⟨?_, hrest, h.answers⟩ hbody⟩
    rw [Pipeline.ingest, hsent, ← h.pipe]
    rfl
  | @other a p ha hp =>
    have hstep := step_onFiles ha hp t.fs (s.pipe.submitted.map flawless)
    rw [h.pipe] at hstep
    refine .inl ⟨_, ⟨a, ?_, hstep⟩, ?_, h.accepted, h.answers⟩
    · cases a <;> exact he
    · rw [← submitted_other ha hp]
      rfl

theorem sameJobs_of_reaches {chains : List FileDetector → Prop} {files : Files Str UInt8}
    (h : Reaches (step d) (Chains chains) (Ingest.init files) s) :
    ∃ t, Pipeline.Reachable d chains t ∧ SameJobs d s t := by
  obtain ⟨t, ht, hsame⟩ := h.invariant (P := fun s => ∃ t, Reaches (Pipeline.step d)
      (Pipeline.Chains chains) (Pipeline.init files.read) t ∧ SameJobs d s t)
    ⟨_, .refl, rfl, fun _ _ hk => (by cases hk), fun _ ha => (by cases ha)⟩
    fun {a b e} ha he hs => by
      obtain ⟨t, ht, hsame⟩ := ha
      rcases sameJobs_step hsame he hs with ⟨t', ⟨a, ha, ht'⟩, hsame'⟩ | hsame'
      · exact ⟨t', ht.tail ha ht', hsame'⟩
      · exact ⟨t, ht, hsame'⟩
  exact ⟨t, ⟨files.read, ht⟩, hsame⟩

/-- **Whatever the seconds of the uploads**, whichever of their file operations fail and
in whatever order the handlers run: the queues, the services and the jobs submitted are
those of a run in which each submitted job was uploaded at one go, and each client is
answered as the handler answers when it runs at one go. Which uploads submit a job is not
said: of two that share their files one may be left without (`same_second_mixes`). -/
theorem concurrent_jobs (d : Deployment P) (chains : List FileDetector → Prop)
    (files : Files Str UInt8) (s : Ingest P)
    (h : Reaches (step d) (Chains chains) (Ingest.init files) s) :
    (∃ t, Pipeline.Reachable d chains t ∧
      { s.pipe with fs := t.fs, submitted := s.pipe.submitted.map flawless } = t) ∧
    ∀ a ∈ s.answers, ∀ fs, a.2 = (Fika.upload d.config a.1 fs).response := by
  obtain ⟨t, ht, hsame⟩ := sameJobs_of_reaches h
  exact ⟨⟨t, ht, hsame.pipe⟩, hsame.answers⟩

/-- Two uploads in one second, in turns: both clients are told that their job was
submitted, there is one job, and its file holds bytes of both bodies. -/
theorem same_second_mixes : ∃ (s : Ingest Unit) (t : Pipeline Unit),
    run (step Pipeline.sampleDeployment) (Ingest.init {})
      (inTurns Pipeline.sampleRequest Pipeline.secondRequest) = some s ∧
    { s.pipe with fs := t.fs, submitted := s.pipe.submitted.map flawless } = t ∧
    s.answers.length = 2 ∧ t.submitted.map Submission.req = [Pipeline.secondRequest] ∧
    s.pipe.fs (spoolPath Pipeline.sampleDeployment.config Pipeline.sampleRequest.now)
      = some (lit "PNGF") := by
  have hval : (run (step Pipeline.sampleDeployment) (Ingest.init {})
      (inTurns Pipeline.sampleRequest Pipeline.secondRequest)).map (fun s : Ingest Unit =>
        (s.answers.length, (s.pipe.submitted.map flawless).map Submission.req,
          s.pipe.fs (spoolPath Pipeline.sampleDeployment.config Pipeline.sampleRequest.now)))
      = some (2, [Pipeline.secondRequest], some (lit "PNGF")) := by rfl
  obtain ⟨s, hs, htriple⟩ := Option.map_eq_some_iff.mp hval
  rw [Prod.mk.injEq, Prod.mk.injEq] at htriple
  obtain ⟨hanswers, hreq, hfile⟩ := htriple
  have hfree : ∀ e ∈ inTurns Pipeline.sampleRequest Pipeline.secondRequest,
      ∀ s : Ingest Unit, Chains (fun _ => True) s e := by
    intro e he _
    simp only [inTurns, List.mem_cons, List.not_mem_nil, or_false] at he
    rcases he with rfl | rfl | rfl | rfl | rfl | rfl | rfl | rfl | rfl | rfl | rfl | rfl | rfl
    all_goals trivial
  obtain ⟨⟨t, -, ht⟩, -⟩ := concurrent_jobs Pipeline.sampleDeployment (fun _ => True) {} s
    (reaches_of_run (runOk_of_forall hfree) hs)
  refine ⟨s, t, hs, ht, hanswers, ?_, hfile⟩
  rw [← ht]
  exact hreq

end Concurrent

end Fika
