import Fika.Pipeline.Payload

/-!
# Uploads and their files

An upload's file is named after the second it arrives in. Uploads of different
seconds have different spool paths, and then nothing touches a file before its
own job is DONE: neither the rename of another upload nor the removal for another
job. Uploads of one second share a path, and the later body replaces the earlier.

- `Kept`: distinct spool paths, and every unfinished job's file holds its body.
- `kept_iff`: in every reached state, `Kept` holds exactly when the accepted
  uploads arrived in different seconds.
- `upload_overwritten`: two uploads in the same second.
-/

namespace Fika

open Lib

universe u

namespace Pipeline

variable {P : Type u} {d : Deployment P} {s s' : Pipeline P} {b : Binary} {m : FileJobShm}

/-- The uploads of a run: the file operations succeed. -/
def Uploads (_ : Pipeline P) : Action → Prop
  | .upload req => req.io.Succeeds
  | _ => True

/-- No earlier accepted upload has read a later clock. -/
def ClockForward (s : Pipeline P) : Action → Prop
  | .upload req => ∀ sub ∈ s.submitted, sub.req.now ≤ req.now ∧ sub.req.millis ≤ req.millis
  | _ => True

/-- The spool path of every accepted upload fits the path array of a job message. -/
def PathsFit (d : Deployment P) (s : Pipeline P) : Prop :=
  ∀ sub ∈ s.submitted, FitsPath (spoolPath d.config sub.req.now)

/-- The seconds in which the accepted uploads arrived. -/
def seconds (s : Pipeline P) : List Int := s.submitted.map fun sub => sub.req.now

/-- qm has handled the job of `sub` as DONE. -/
def HandledDone (s : Pipeline P) (sub : Submission) : Prop :=
  ∃ m ∈ s.handled, m.status = .done ∧ Carries m sub

/-- The file of every job that is not DONE holds the body of its upload. -/
def FilesKept (s : Pipeline P) : Prop :=
  ∀ sub ∈ s.submitted, ¬ s.HandledDone sub → s.fs sub.msg.path.str = some sub.req.body

/-- Uploads do not destroy each other. -/
structure Kept (d : Deployment P) (s : Pipeline P) : Prop where
  paths : (s.submitted.map fun sub => spoolPath d.config sub.req.now).Nodup
  files : s.FilesKept

/-! ## Runs of uploads -/

/-- A run of uploads is a run of the pipeline. -/
theorem reachable_of_uploads {fs : FileSystem}
    (h : Reaches (step d) Uploads (init fs) s) : Reachable d (fun _ => True) s := by
  refine ⟨fs, h.mono fun {_ a} _ => ?_⟩
  cases a <;> trivial

/-- A job message names the spool path of its upload exactly when the path fits. -/
theorem path_eq_iff {chains : List FileDetector → Prop} (h : Reachable d chains s)
    {sub : Submission} (hsub : sub ∈ s.submitted) :
    sub.msg.path.str = spoolPath d.config sub.req.now ↔
      FitsPath (spoolPath d.config sub.req.now) := by
  rw [show sub.msg = newJob _ _ from h.fromUpload sub hsub]
  exact newJob_path_str_iff

/-- With uploads of different seconds, submissions with one path are the same. -/
theorem eq_of_path {chains : List FileDetector → Prop} (h : Reachable d chains s)
    (hfit : PathsFit d s) (hsec : s.seconds.Nodup) {sub sub' : Submission}
    (hsub : sub ∈ s.submitted) (hsub' : sub' ∈ s.submitted)
    (hpath : sub.msg.path.str = sub'.msg.path.str) : sub = sub' := by
  rw [(path_eq_iff h hsub).mpr (hfit sub hsub), (path_eq_iff h hsub').mpr (hfit sub' hsub')]
    at hpath
  exact List.inj_on_of_nodup_map hsec hsub hsub' (spoolPath_injective hpath)

/-! ## What an upload and a removal leave alone -/

/-- A step that changes neither the files nor what is known of the jobs. -/
theorem FilesKept.congr (h : s.FilesKept) (hfs : s'.fs = s.fs)
    (hsub : s'.submitted = s.submitted) (hhandled : s'.handled = s.handled) : s'.FilesKept := by
  intro sub hmem hdone
  rw [hfs]
  refine h sub (hsub ▸ hmem) fun hd => hdone ?_
  rw [HandledDone, hhandled]
  exact hd

/-- An accepted upload stores its body and keeps the files of earlier seconds. -/
theorem FilesKept.accepted {chains : List FileDetector → Prop} (h : Reachable d chains s)
    (hkept : s.FilesKept) {req : UploadRequest} (hio : req.io.Succeeds) (hbody : req.body ≠ [])
    (hsent : (Fika.upload d.config req s.fs).sent = some m)
    (hfit : FitsPath (spoolPath d.config req.now)) (hfits : PathsFit d s)
    (hnew : req.now ∉ s.seconds) :
    ({ s with
      fs := (Fika.upload d.config req s.fs).fs
      submitted := ⟨req, m⟩ :: s.submitted }.send .qm (.fileJobShm m)).FilesKept := by
  obtain ⟨hself, hother, -⟩ := upload_succeeds s.fs hio hbody
  intro sub hmem hdone
  rcases List.mem_cons.mp hmem with rfl | hmem
  · show (Fika.upload d.config req s.fs).fs m.path.str = some req.body
    rw [upload_sent hsent, newJob_path_str_iff.mpr hfit]
    exact hself
  · show (Fika.upload d.config req s.fs).fs sub.msg.path.str = some sub.req.body
    have hpath := (path_eq_iff h hmem).mpr (hfits sub hmem)
    -- the earlier file is neither the new one nor its temporary file
    rw [hother]
    · exact hkept sub hmem hdone
    · rw [hpath]
      intro heq
      exact hnew (List.mem_map.mpr ⟨sub, hmem, spoolPath_injective heq⟩)
    · rw [hpath]
      exact (incommingPath_ne_spoolPath d.config req.now sub.req.now).symm

/-- qm removes the file of the job it handles as DONE, and of no other. -/
theorem FilesKept.ranQm {chains : List FileDetector → Prop} (h : Reachable d chains s)
    (hkept : s.FilesKept) (hfit : PathsFit d s) (hsec : s.seconds.Nodup) {i : Nat}
    (hpool : (s.service .qm).pool[i]? = some m) :
    ((s.unpost .qm i).handleQm m).FilesKept := by
  have hsub : ((s.unpost .qm i).handleQm m).submitted = s.submitted := sendAll_submitted _
  have hhandled : ((s.unpost .qm i).handleQm m).handled = m :: s.handled := sendAll_handled _
  have hfs : ((s.unpost .qm i).handleQm m).fs
      = if m.status = .done then removeFile m.path.str s.fs else s.fs := handleQm_fs _ m
  intro sub hmem hdone
  rw [hsub] at hmem
  have hold : ¬ s.HandledDone sub := fun ⟨r, hr, hrest⟩ =>
    hdone ⟨r, by rw [hhandled]; exact List.mem_cons_of_mem _ hr, hrest⟩
  rw [hfs]
  by_cases hm : m.status = .done
  · rw [if_pos hm]
    -- the removed path is that of the job at hand, which is not the job of `sub`
    obtain ⟨origin, horigin, ht⟩ := (h.payload.held (.inr (List.mem_of_getElem? hpool))).origin
    have hne : sub.msg.path.str ≠ m.path.str := by
      intro heq
      have hsame := eq_of_path h hfit hsec hmem horigin (heq.trans ht.carries.path)
      refine hdone ⟨m, ?_, hm, hsame ▸ ht.carries⟩
      rw [hhandled]
      exact List.mem_cons_self
    show (if sub.msg.path.str = m.path.str then none else s.fs sub.msg.path.str) = _
    rw [if_neg hne]
    exact hkept sub hmem hold
  · rw [if_neg hm]
    exact hkept sub hmem hold

theorem filesKept_step {chains : List FileDetector → Prop} {a : Action}
    (h : Reachable d chains s) (hkept : s.FilesKept) (hfit : PathsFit d s')
    (hsec : s'.seconds.Nodup) (hok : Uploads s a) (hs : step d s a = some s') :
    s'.FilesKept := by
  cases step_spec hs with
  | @accepted req m hsent =>
    -- an empty upload is answered with 400 and sends nothing
    have hbody : req.body ≠ [] := fun hb => by
      rw [(upload_empty s.fs hb).2] at hsent
      cases hsent
    exact hkept.accepted h hok hbody hsent (hfit _ List.mem_cons_self)
      (fun sub hsub => hfit sub (List.mem_cons_of_mem _ hsub)) (List.nodup_cons.mp hsec).1
  | @refused req hsent =>
    have hbody : req.body = [] := by
      by_contra hne
      rw [(upload_succeeds s.fs hok hne).2.2] at hsent
      cases hsent
    exact hkept.congr (upload_empty s.fs hbody).1 rfl rfl
  | pill b => exact hkept.congr rfl rfl rfl
  | received hphase hqueue => exact hkept.congr rfl rfl rfl
  | ranQm hpool =>
    have hsub : ∀ {i m}, ((s.unpost .qm i).handleQm m).submitted = s.submitted :=
      sendAll_submitted _
    rw [seconds, hsub] at hsec
    rw [PathsFit, hsub] at hfit
    exact hkept.ranQm h hfit hsec hpool
  | ranDetect hpool =>
    exact hkept.congr (sendAll_fs _) (sendAll_submitted _) (sendAll_handled _)
  | ranParse hpool =>
    exact hkept.congr (sendAll_fs _) (sendAll_submitted _) (sendAll_handled _)
  | joined hphase hpool => exact hkept.congr rfl rfl rfl
  | @restarted b hphase => cases b <;> exact hkept.congr rfl rfl rfl

theorem filesKept_of_uploads {fs : FileSystem} (h : Reaches (step d) Uploads (init fs) s)
    (hfit : PathsFit d s) (hsec : s.seconds.Nodup) : s.FilesKept := by
  revert hfit hsec
  refine h.invariant_with (P := fun s => PathsFit d s → s.seconds.Nodup → s.FilesKept)
    reachable_of_uploads (fun _ _ _ hsub => nomatch hsub) fun hr ih hok hs hfit hsec => ?_
  have hsub := submitted_step hs
  exact filesKept_step hr
    (ih (fun sub hmem => hfit sub (hsub.subset hmem)) (hsec.sublist (hsub.map _))) hfit hsec hok hs

/-- **Uploads destroy each other exactly when two of them arrive in the same
second**: in every state reached by successful uploads, under any interleaving with
the services, the spool paths are distinct and every file of an unfinished job holds
its body if the accepted uploads have read different clock seconds and their paths
fit the array of a job message; the paths are distinct only if the seconds are, and
a message names the file of its upload only if the path fits. -/
theorem kept_iff (d : Deployment P) (fs : FileSystem) (s : Pipeline P)
    (h : Reaches (step d) Uploads (init fs) s) :
    (PathsFit d s → s.seconds.Nodup → Kept d s) ∧ (Kept d s → s.seconds.Nodup) ∧
    ∀ sub ∈ s.submitted, sub.msg.path.str = spoolPath d.config sub.req.now ↔
      FitsPath (spoolPath d.config sub.req.now) := by
  have hmap : (s.submitted.map fun sub => spoolPath d.config sub.req.now)
      = s.seconds.map (spoolPath d.config) := by
    rw [seconds, List.map_map]
    rfl
  refine ⟨fun hfit hsec => ⟨?_, filesKept_of_uploads h hfit hsec⟩, fun hkept => ?_,
    fun sub hsub => path_eq_iff (reachable_of_uploads h) hsub⟩
  · rw [hmap]
    exact hsec.map fun _ _ => spoolPath_injective
  · have hpaths := hkept.paths
    rw [hmap] at hpaths
    exact hpaths.of_map _

/-! ## One upload, and two in one second -/

theorem uploads_sampleRequest (s : Pipeline Unit) : Uploads s (.upload sampleRequest) :=
  ⟨rfl, rfl, rfl⟩

theorem uploads_crossedRun : ∀ a ∈ crossedRun, ∀ s : Pipeline Unit, Uploads s a := by
  intro a ha s
  simp only [crossedRun, List.mem_cons, List.not_mem_nil, or_false] at ha
  rcases ha with rfl | rfl | rfl | rfl | rfl | rfl | rfl | rfl | rfl | rfl | rfl | rfl | rfl | rfl |
    rfl | rfl | rfl | rfl | rfl | rfl | rfl | rfl
  all_goals first | trivial | exact ⟨rfl, rfl, rfl⟩

/-- Two uploads of different seconds, the first of which is DONE: nothing has happened to
the file of the other one. -/
theorem kept_sample :
    ∃ s : Pipeline Unit, crossedState 15 = some s ∧
      s.submitted.map Submission.req = [laterRequest, sampleRequest] ∧ s.removed.length = 1 ∧
      Kept sampleDeployment s := by
  obtain ⟨s, hs⟩ := Option.isSome_iff_exists.mp (show (crossedState 15).isSome = true by rfl)
  have hview : (crossedState 15).map (fun s => (s.submitted.map Submission.req,
      s.removed.length)) = some ([laterRequest, sampleRequest], 1) := by rfl
  rw [hs, Option.map_some, Option.some.injEq, Prod.mk.injEq] at hview
  obtain ⟨hreq, hremoved⟩ := hview
  have hr : Reaches (step sampleDeployment) Uploads (init fun _ => none) s :=
    reaches_of_run (runOk_of_forall fun a ha t =>
      uploads_crossedRun a (List.mem_of_mem_take ha) t) hs
  refine ⟨s, hs, hreq, hremoved, (kept_iff sampleDeployment _ s hr).1 ?_ ?_⟩
  · intro sub hsub
    have hmem := List.mem_map_of_mem (f := Submission.req) hsub
    rw [hreq, List.mem_pair] at hmem
    rcases hmem with hnow | hnow
    · rw [hnow]
      exact ⟨by decide, by decide⟩
    · rw [hnow]
      exact ⟨by decide, by decide⟩
  · have hsec : s.seconds = (s.submitted.map Submission.req).map UploadRequest.now := by
      rw [List.map_map]
      rfl
    rw [hsec, hreq]
    decide

/-- A second upload, half a second later. -/
def secondRequest : UploadRequest :=
  { sampleRequest with body := lit "PNG", millis := sampleRequest.millis + 500, rand := 8 }

/-- Two uploads in one second, with the clock going forward: they share a path,
and the second body replaces the first. -/
theorem upload_overwritten :
    ∃ s : Pipeline Unit,
      Reaches (step sampleDeployment)
        (fun s a => Uploads s a ∧ ClockForward s a) (init fun _ => none) s ∧
      PathsFit sampleDeployment s ∧
      ¬ (s.submitted.map fun sub => spoolPath sampleDeployment.config sub.req.now).Nodup ∧
      ¬ s.FilesKept := by
  let first : Pipeline Unit :=
    (init fun _ => none).ingest sampleRequest
      (Fika.upload sampleDeployment.config sampleRequest fun _ => none)
  let second : Pipeline Unit :=
    first.ingest secondRequest (Fika.upload sampleDeployment.config secondRequest first.fs)
  have hclock : ClockForward first (.upload secondRequest) := by
    intro sub hsub
    obtain rfl := List.mem_singleton.mp hsub
    decide
  refine ⟨second, Reaches.tail (t := first) (e := .upload secondRequest)
    (Reaches.single (e := .upload sampleRequest) ?_ rfl) ⟨⟨rfl, rfl, rfl⟩, hclock⟩ rfl, ?_,
    by decide, fun hkept => ?_⟩
  · exact ⟨uploads_sampleRequest _, fun _ hsub => nomatch hsub⟩
  · intro sub hsub
    have hnow : sub.req.now = sampleRequest.now := by
      rcases List.mem_cons.mp hsub with rfl | hsub
      · rfl
      · rw [List.mem_singleton.mp hsub]
    rw [hnow]
    exact ⟨by decide, by decide⟩
  · -- the older of the two submissions
    have hold := hkept ⟨sampleRequest, newJob _ _⟩ (List.mem_cons_of_mem _ List.mem_cons_self)
      fun ⟨_, hmem, _⟩ => nomatch hmem
    exact absurd hold (by decide)

end Pipeline

end Fika
