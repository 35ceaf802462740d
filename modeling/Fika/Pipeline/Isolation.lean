import Fika.Pipeline.Concurrent
import Fika.Pipeline.Reference

/-!
# One upload among others (`ingestd.cpp`)

Uploads of one second share their files, and can mix their bodies, lose them, or have
qm remove them for each other. None of this reaches an upload of another second: not
through a name, for their names differ, and not through an object that a handler has
open, for such an object never gets a name of another second.

- `OnceIn`: runs in which one second has one upload, whose file operations succeed, and
  every spool path fits the message; everything else is free.
- `Isolated`: what holds of that second in every state of such a run, and
  `Isolated.work`, `Isolated.sendJob`, `Isolated.other`: each kind of step keeps it.
- `upload_isolated`: the file of the upload holds its body until its job is DONE.
-/

namespace Fika

open Lib

universe u

namespace Concurrent

variable {P : Type u} {d : Deployment P} {n : Int} {s s' : Ingest P} {t p p' : Pipeline P} {a : Action}
  {w : Publish.Writers Nat UploadRequest Str UInt8} {k : Nat} {sub : Submission}

/-! ## Names of different seconds -/

/-- Uploads that share a temporary file share their spool file. -/
theorem paired_draft (c : Config) : Publish.Paired (draft c) := by
  rintro req req' (h | h)
  · refine .inr ?_
    show spoolPath c req.now = spoolPath c req'.now
    rw [incommingPath_injective h]
  · exact absurd h (incommingPath_ne_spoolPath c _ _)

/-- No upload of the second is at work. -/
def NoneIn (n : Int) (s : Ingest P) : Prop :=
  ∀ k task, s.writers.tasks k = some task → task.req.now ≠ n

/-- Only one upload has come in the second `n`, and its file operations succeed; the
others may do what they like, as long as their spool paths fit the message too. -/
def OnceIn (d : Deployment P) (n : Int) (s : Ingest P) : Event → Prop
  | .accept _ req => FitsPath (spoolPath d.config req.now) ∧
      (req.now = n → req.io.Succeeds ∧ n ∉ s.pipe.seconds ∧ NoneIn n s)
  | _ => True

/-- The upload of the second `n` is alone with its files, wherever it has come to. -/
structure Isolated (d : Deployment P) (n : Int) (s : Ingest P) : Prop where
  view : s.pipe.fs = s.writers.files.read
  sound : s.writers.files.Sound
  handles : Publish.Handles (draft d.config) s.writers
  fits : ∀ k task, s.writers.tasks k = some task → FitsPath (spoolPath d.config task.req.now)
  jobsFit : Pipeline.PathsFit d s.pipe
  atWork : ∀ k task, s.writers.tasks k = some task → task.req.now = n →
    task.req.io.Succeeds ∧ n ∉ s.pipe.seconds ∧
      ∃ v, Publish.Stands s.writers.files v (draft d.config task.req) task.stage
  alone : ∀ k k' task task', s.writers.tasks k = some task → s.writers.tasks k' = some task' →
    task.req.now = n → task'.req.now = n → k = k'
  once : ∀ sub ∈ s.pipe.submitted, ∀ sub' ∈ s.pipe.submitted, sub.req.now = n →
    sub'.req.now = n → sub = sub'
  kept : ∀ sub ∈ s.pipe.submitted, sub.req.now = n → ¬ s.pipe.HandledDone sub →
    s.writers.files.read (spoolPath d.config n) = some sub.req.body

theorem now_mem_seconds (hsub : sub ∈ s.pipe.submitted) : sub.req.now ∈ s.pipe.seconds :=
  List.mem_map_of_mem hsub

theorem isolated_init {files : Files Str UInt8} (hfiles : files.Sound) :
    Isolated d n (Ingest.init files : Ingest P) where
  view := rfl
  sound := hfiles
  handles _ _ _ _ h := by cases h
  fits _ _ h := by cases h
  jobsFit _ h := by cases h
  atWork _ _ h := by cases h
  alone _ _ _ _ h := by cases h
  once _ h := by cases h
  kept _ h := by cases h

/-! ## Handlers -/

/-- Any handler takes a step with its files. -/
theorem Isolated.work {pe : Publish.Event Nat UploadRequest Str} (h : Isolated d n s)
    (hk : pe.writer = some k) (hw : Publish.step (draft d.config) s.writers pe = some w)
    (hstart : ∀ req, pe = .start k req → FitsPath (spoolPath d.config req.now) ∧
      (req.now = n → req.io.Succeeds ∧ n ∉ s.pipe.seconds ∧ NoneIn n s)) :
    Isolated d n (s.withWriters w) := by
  have hunlink : ∀ q, pe ≠ .unlink q := by
    rintro q rfl
    cases hk
  -- a handler of another second leaves the files of this one alone
  have hframe : (∀ task, s.writers.tasks k = some task → task.req.now ≠ n) →
      ∀ req : UploadRequest, req.now = n → ∀ q, (draft d.config req).Owns q →
        Files.Same s.writers.files w.files q := by
    intro hother req hreq q hq
    refine Publish.same_step h.sound h.handles hw (fun k' task hk' htask howns => ?_) (hunlink q)
    obtain rfl := Option.some.inj (hk.symm.trans hk')
    exact draft_apart (hreq.trans_ne (hother task htask).symm) q hq howns
  refine
    { view := rfl
      sound := Publish.sound_step h.sound hw
      handles := Publish.handles_step (paired_draft _) h.sound h.handles hw
      fits := fun k' task hk' => ?_
      jobsFit := h.jobsFit
      atWork := fun k' task hk' hnow => ?_
      alone := fun k₁ k₂ task₁ task₂ h₁ h₂ hn₁ hn₂ => ?_
      once := h.once
      kept := fun sub hsub hnow hdone => ?_ }
  · rcases Publish.tasks_step hw hk' with ⟨before, hbefore, hreq⟩ | rfl
    · rw [hreq]
      exact h.fits k' before hbefore
    · obtain rfl := Option.some.inj hk
      exact (hstart _ rfl).1
  · by_cases hkk : k' = k
    · subst hkk
      rcases Publish.tasks_step hw hk' with ⟨before, hbefore, hreq⟩ | rfl
      · obtain ⟨hio, hnew, v, hstands⟩ := h.atWork k' before hbefore (hreq ▸ hnow)
        exact ⟨hreq ▸ hio, hnew, v, Publish.stands_step h.sound hk hbefore hstands hw hk'⟩
      · obtain ⟨hio, hnew, -⟩ := (hstart _ rfl).2 hnow
        refine ⟨hio, hnew, w.files.read, ?_⟩
        have hstage : task.stage = .opening := by
          cases Publish.step_spec hw with
          | started hidle =>
            rcases Publish.setTask_cases hk' with ⟨-, hself⟩ | ⟨hne, -⟩
            · exact congrArg Publish.Task.stage (Option.some.inj hself).symm
            · exact absurd rfl hne
        rw [hstage]
        exact ⟨rfl, rfl⟩
    · have hwas : s.writers.tasks k' = some task := (Publish.tasks_other hw hk hkk).symm.trans hk'
      obtain ⟨hio, hnew, v, hstands⟩ := h.atWork k' task hwas hnow
      refine ⟨hio, hnew, v, hstands.congr fun q hq => ⟨hframe (fun task' htask' hn => ?_)
        task.req hnow q hq, rfl⟩⟩
      exact hkk (h.alone k' k task task' hwas htask' hnow hn)
  · rcases Publish.tasks_step hw h₁ with ⟨before₁, hbefore₁, hreq₁⟩ | rfl
    · rcases Publish.tasks_step hw h₂ with ⟨before₂, hbefore₂, hreq₂⟩ | rfl
      · exact h.alone k₁ k₂ _ _ hbefore₁ hbefore₂ (hreq₁ ▸ hn₁) (hreq₂ ▸ hn₂)
      · obtain rfl := Option.some.inj hk
        exact absurd (hreq₁ ▸ hn₁) (((hstart _ rfl).2 hn₂).2.2 k₁ before₁ hbefore₁)
    · obtain rfl := Option.some.inj hk
      rcases Publish.tasks_step hw h₂ with ⟨before₂, hbefore₂, hreq₂⟩ | hsame
      · exact absurd (hreq₂ ▸ hn₂) (((hstart _ rfl).2 hn₁).2.2 k₂ before₂ hbefore₂)
      · exact (Publish.Event.start.inj hsame).1
  · rw [← h.kept sub hsub hnow hdone]
    refine (hframe (fun task htask hn => ?_) sub.req hnow _ (.inr ?_)).read
    · exact (h.atWork k task htask hn).2.1 (hnow ▸ now_mem_seconds hsub)
    · show spoolPath d.config n = spoolPath d.config sub.req.now
      rw [hnow]

/-- A handler sends its job. -/
theorem Isolated.sendJob {req : UploadRequest} (h : Isolated d n s)
    (hfit : FitsPath (spoolPath d.config req.now))
    (hreq : req.now = n → n ∉ s.pipe.seconds ∧ NoneIn n s ∧
      s.writers.files.read (spoolPath d.config n) = some req.body) :
    Isolated d n (s.sendJob d.config req) := by
  refine
    { view := h.view
      sound := h.sound
      handles := h.handles
      fits := h.fits
      jobsFit := fun sub hsub => ?_
      atWork := fun k task hk hnow => ?_
      alone := h.alone
      once := fun sub hsub sub' hsub' hn hn' => ?_
      kept := fun sub hsub hnow hdone => ?_ }
  · rcases List.mem_cons.mp hsub with rfl | hsub
    · exact hfit
    · exact h.jobsFit sub hsub
  · obtain ⟨hio, hnew, hstands⟩ := h.atWork k task hk hnow
    refine ⟨hio, fun hmem => ?_, hstands⟩
    rcases List.mem_cons.mp hmem with heq | hmem
    · exact (hreq heq.symm).2.1 k task hk hnow
    · exact hnew hmem
  · rcases List.mem_cons.mp hsub with rfl | hsub
    · rcases List.mem_cons.mp hsub' with rfl | hsub'
      · rfl
      · exact absurd (hn' ▸ now_mem_seconds hsub') (hreq hn).1
    · rcases List.mem_cons.mp hsub' with rfl | hsub'
      · exact absurd (hn ▸ now_mem_seconds hsub) (hreq hn').1
      · exact h.once sub hsub sub' hsub' hn hn'
  · rcases List.mem_cons.mp hsub with rfl | hsub
    · exact (hreq hnow).2.2
    · exact h.kept sub hsub hnow hdone

theorem Isolated.answer {req : UploadRequest} {res : Response} (h : Isolated d n s) :
    Isolated d n (s.answer req res) :=
  ⟨h.view, h.sound, h.handles, h.fits, h.jobsFit, h.atWork, h.alone, h.once, h.kept⟩

/-! ## The services -/

/-- A job names the spool file of its upload. -/
theorem job_path (hr : Pipeline.Reachable d (fun _ => True) t) (hsame : SameJobs d s t)
    (hsub : sub ∈ s.pipe.submitted) (hfit : FitsPath (spoolPath d.config sub.req.now)) :
    sub.msg.path.str = spoolPath d.config sub.req.now := by
  have hmem : flawless sub ∈ t.submitted := by
    rw [← hsame.pipe]
    exact List.mem_map_of_mem hsub
  have hfrom : Pipeline.FromUpload d (flawless sub) := hr.fromUpload _ hmem
  have hmsg : sub.msg = uploadJob d.config sub.req := hfrom
  rw [hmsg]
  exact newJob_path_str_iff.mpr hfit

/-- What qm handles is the job of an upload. -/
theorem job_origin {i : Nat} {m : FileJobShm} (hr : Pipeline.Reachable d (fun _ => True) t)
    (hsame : SameJobs d s t) (hpool : (s.pipe.service .qm).pool[i]? = some m) :
    ∃ sub ∈ s.pipe.submitted, Pipeline.Carries m sub := by
  have hpool' : (t.service .qm).pool[i]? = some m := by
    rw [← hsame.pipe]
    exact hpool
  obtain ⟨sub', hmem, ht⟩ := (hr.payload.held (.inr (List.mem_of_getElem? hpool'))).origin
  have hmem' : sub' ∈ s.pipe.submitted.map flawless := by
    rw [← hsame.pipe] at hmem
    exact hmem
  obtain ⟨sub, hsub, rfl⟩ := List.mem_map.mp hmem'
  exact ⟨sub, hsub, ht.carries.key, ht.carries.path⟩

theorem handled_mono (hs : Pipeline.step d p a = some p') : p.handled ⊆ p'.handled := by
  rcases Pipeline.handled_step hs with ⟨h, -⟩ | ⟨m, -, h, -⟩
  · rw [h]
    exact List.Subset.refl _
  · rw [h]
    exact List.subset_cons_self _ _

theorem Isolated.other (h : Isolated d n s) (hr : Pipeline.Reachable d (fun _ => True) t)
    (hsame : SameJobs d s t) (ha : isUpload a = false)
    (hp : Pipeline.step d s.pipe a = some p) :
    Isolated d n ({ s with pipe := p }.withWriters <| s.writers.setFiles <|
      match removal s.pipe a with
      | none => s.writers.files
      | some file => s.writers.files.unlink file) := by
  have hsub : p.submitted = s.pipe.submitted := submitted_other ha hp
  have hsec : p.seconds = s.pipe.seconds := congrArg (List.map _) hsub
  have hold : ∀ sub, ¬ p.HandledDone sub → ¬ s.pipe.HandledDone sub := fun sub hnot ⟨m, hm, hrest⟩ =>
    hnot ⟨m, handled_mono hp hm, hrest⟩
  cases hremoval : removal s.pipe a with
  | none =>
    exact
      { view := rfl
        sound := h.sound
        handles := h.handles
        fits := h.fits
        jobsFit := fun sub hmem => h.jobsFit sub (hsub ▸ hmem)
        atWork := fun k task hk hnow => hsec.symm ▸ h.atWork k task hk hnow
        alone := h.alone
        once := fun sub hmem sub' hmem' => h.once sub (hsub ▸ hmem) sub' (hsub ▸ hmem')
        kept := fun sub hmem hnow hdone => h.kept sub (hsub ▸ hmem) hnow (hold sub hdone) }
  | some file =>
    obtain ⟨i, m, rfl, hpool, hstatus, rfl⟩ := removal_cases hremoval
    obtain ⟨origin, horigin, hcarries⟩ := job_origin hr hsame hpool
    have hpath : m.path.str = spoolPath d.config origin.req.now :=
      hcarries.path.trans (job_path hr hsame horigin (h.jobsFit origin horigin))
    have hunlink : Publish.step (draft d.config) s.writers (.unlink m.path.str)
        = some (s.writers.setFiles (s.writers.files.unlink m.path.str)) := rfl
    exact
      { view := rfl
        sound := Publish.sound_step h.sound hunlink
        handles := Publish.handles_step (paired_draft _) h.sound h.handles hunlink
        fits := h.fits
        jobsFit := fun sub hmem => h.jobsFit sub (hsub ▸ hmem)
        atWork := fun k task hk hnow => by
          obtain ⟨hio, hnew, v, hstands⟩ := h.atWork k task hk hnow
          refine ⟨hio, fun hmem => hnew (hsec ▸ hmem), v, hstands.congr fun q hq =>
            ⟨Files.same_unlink ?_, rfl⟩⟩
          -- the file is that of a job of another second
          rw [hpath]
          rintro rfl
          rcases hq with hq | hq
          · exact incommingPath_ne_spoolPath d.config _ _ hq.symm
          · refine hnew ?_
            rw [← hnow, ← spoolPath_injective hq]
            exact now_mem_seconds horigin
        alone := h.alone
        once := fun sub hmem sub' hmem' => h.once sub (hsub ▸ hmem) sub' (hsub ▸ hmem')
        kept := fun sub hmem hnow hdone => by
          rw [← h.kept sub (hsub ▸ hmem) hnow (hold sub hdone)]
          refine (Files.same_unlink ?_).read
          rw [hpath]
          intro heq
          -- the job at hand would be that of `sub`
          have hsame : sub = origin :=
            h.once sub (hsub ▸ hmem) origin horigin hnow (spoolPath_injective heq).symm
          refine hdone ⟨m, ?_, hstatus, hsame ▸ hcarries⟩
          cases Pipeline.step_spec hp with
          | ranQm hpool' =>
            obtain rfl := Option.some.inj (hpool.symm.trans hpool')
            show m ∈ ((s.pipe.unpost .qm i).handleQm m).handled
            rw [Pipeline.handleQm, Pipeline.sendAll_handled]
            exact List.mem_cons_self }

/-! ## Runs -/

theorem isolated_step {e : Event} (h : Isolated d n s)
    (hjobs : ∃ t, Pipeline.Reachable d (fun _ => True) t ∧ SameJobs d s t)
    (he : OnceIn d n s e) (hs : step d s e = some s') : Isolated d n s' := by
  cases step_spec hs with
  | refused hbody => exact h.answer
  | accepted hbody hw =>
    refine h.work rfl hw fun req hreq => ?_
    obtain ⟨-, rfl⟩ := Publish.Event.start.inj hreq
    exact he
  | worked hpe hk hw hgoes =>
    refine h.work hk hw ?_
    rintro req rfl
    cases e <;> cases hpe
  | gaveUp htask hw hends =>
    exact (h.work rfl hw fun req hreq => by cases hreq).answer
  | @submitted k req w htask hw =>
    have hafter := h.work rfl hw fun req hreq => by cases hreq
    refine (hafter.sendJob (h.fits k _ htask) fun hnow => ?_).answer
    obtain ⟨hio, hnew, v, hr, -, hread, -⟩ := h.atWork k _ htask hnow
    cases Publish.step_spec hw with
    | finished htask' =>
      refine ⟨hnew, fun k' task hk' hn => ?_, ?_⟩
      · rcases Publish.setTask_cases hk' with ⟨-, hnone⟩ | ⟨hne, hold⟩
        · cases hnone
        · exact hne (h.alone k' k task ⟨req, .moved⟩ hold htask hn hnow)
      · -- the temporary file was written to its end
        have htext : (draft d.config req).written v (draft d.config req).tmp = some req.body := by
          have ho : (draft d.config req).opened = true := hio.opened
          rw [Publish.Draft.written, if_pos ho, Function.update_self,
            draft_text_of_written hio.written]
        rw [← htext, ← hread, ← hnow]
        rfl
  | other ha hp =>
    obtain ⟨t, hr, hsame⟩ := hjobs
    exact h.other hr hsame ha hp

/-- **An upload that shares its second with no other one is safe**, when its own file
operations succeed and the spool paths of all uploads fit the array of the message: however
many uploads of other seconds run at the same time, mix their bodies, fail or are removed,
whatever the services do and wherever the upload's own handler stands, once its job is
submitted the spool file of the job holds its whole body, until qm handles the job as
DONE. -/
theorem upload_isolated (d : Deployment P) (n : Int) (files : Files Str UInt8)
    (hfiles : files.Sound) (s : Ingest P)
    (h : Reaches (step d) (OnceIn d n) (Ingest.init files) s) :
    ∀ sub ∈ s.pipe.submitted, sub.req.now = n → ¬ s.pipe.HandledDone sub →
      s.pipe.fs sub.msg.path.str = some sub.req.body := by
  have hjobs : ∀ {s : Ingest P}, Reaches (step d) (OnceIn d n) (Ingest.init files) s →
      ∃ t, Pipeline.Reachable d (fun _ => True) t ∧ SameJobs d s t := fun hr =>
    sameJobs_of_reaches (hr.mono fun {_ e} _ => by
      cases e with
      | other a => cases a <;> trivial
      | _ => trivial)
  have hisolated : Isolated d n s := h.invariant_with hjobs (isolated_init hfiles)
    fun hq hi he hs => isolated_step hi hq he hs
  intro sub hsub hnow hdone
  obtain ⟨t, hr, hsame⟩ := hjobs h
  rw [job_path hr hsame hsub (hisolated.jobsFit sub hsub), hisolated.view, hnow]
  exact hisolated.kept sub hsub hnow hdone

/-- Two uploads of one second spoil each other, one of the next second is among them. -/
def crowded : List Event := [
  .accept 2 nextRequest, .accept 0 Pipeline.sampleRequest, .accept 1 Pipeline.secondRequest,
  .openTmp 0, .openTmp 2, .write 0 2, .openTmp 1, .write 2 1, .write 1 1, .write 0 2, .write 2 2,
  .close 0, .moveFile 0, .write 1 2, .close 2, .moveFile 2, .submit 0, .submit 2]

theorem onceIn_crowded : runOk (step Pipeline.sampleDeployment)
    (OnceIn Pipeline.sampleDeployment nextRequest.now) (Ingest.init {}) crowded := by
  refine ⟨⟨⟨by decide, by decide⟩, fun _ => ⟨⟨rfl, rfl, rfl⟩, List.not_mem_nil, fun k task hk => ?_⟩⟩,
    fun _ _ => runOk_of_forall fun e he s => ?_⟩
  · cases hk
  · simp only [List.mem_cons, List.not_mem_nil, or_false] at he
    rcases he with rfl | rfl | he
    · exact ⟨⟨by decide, by decide⟩, fun h => absurd h (by decide)⟩
    · exact ⟨⟨by decide, by decide⟩, fun h => absurd h (by decide)⟩
    · rcases he with rfl | rfl | rfl | rfl | rfl | rfl | rfl | rfl | rfl | rfl | rfl | rfl | rfl |
        rfl | rfl
      all_goals trivial

/-- The handler of the second upload has written into the file of the first one's job. -/
theorem upload_isolated_crowded : ∃ s : Ingest Unit,
    run (step Pipeline.sampleDeployment) (Ingest.init {}) crowded = some s ∧
    s.pipe.fs (spoolPath Pipeline.sampleDeployment.config Pipeline.sampleRequest.now)
      = some (lit "PNGF") ∧
    s.pipe.fs (uploadJob Pipeline.sampleDeployment.config nextRequest).path.str
      = some nextRequest.body := by
  have hval : (run (step Pipeline.sampleDeployment) (Ingest.init {}) crowded).map
      (fun s : Ingest Unit => (s.pipe.submitted.head?, s.pipe.handled.length,
        s.pipe.fs (spoolPath Pipeline.sampleDeployment.config Pipeline.sampleRequest.now))) =
      some (some ⟨nextRequest, uploadJob Pipeline.sampleDeployment.config nextRequest⟩, 0,
        some (lit "PNGF")) := by rfl
  obtain ⟨s, hs, htriple⟩ := Option.map_eq_some_iff.mp hval
  rw [Prod.mk.injEq, Prod.mk.injEq] at htriple
  obtain ⟨hsub, hhandled, hfile⟩ := htriple
  refine ⟨s, hs, hfile, upload_isolated Pipeline.sampleDeployment nextRequest.now {}
    Files.sound_empty s (reaches_of_run onceIn_crowded hs) _ (List.mem_of_mem_head? hsub) rfl ?_⟩
  rintro ⟨m, hm, -⟩
  rw [List.length_eq_zero_iff.mp hhandled] at hm
  cases hm

end Concurrent

end Fika
