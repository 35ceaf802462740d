import Fika.Pipeline.Payload

/-!
# Refinement of a sequential reference

What the pipeline is for, as a function of one job: ask the detectors for the
type of its file, look for a parser, and the job is DONE or FAILED. Three
services, their queues and their pools compute this function for all jobs at
once, in any order.

- `reference`: the sequential reference; `Judged`: what a message already knows
  of it, a local invariant of the pipeline.
- `lastStatus_finished`: qm's last word on a finished job is its final status.
- `removed_eq`: qm removes the file of each job it handles as DONE, and no other.
- `schedule_independence`: every complete run ends with the reference, so any
  two of them agree.
-/

namespace Fika

open Lib

universe u

/-- The final status of a job with the given path, for the verdict the detectors
give on each path and the parsers there are. -/
def reference {P : Type u} (v : Str → Option Str) (create : MimeType → Option P)
    (path : Str) : Status :=
  match v path with
  | none => .failed
  | some mime => if (create (mapType mime)).isSome then .done else .failed

namespace Pipeline

variable {P : Type u} {d : Deployment P} {s s' : Pipeline P} {b : Binary} {m : FileJobShm}
  {v : Str → Option Str}

/-- Chains of detectors that do not throw and whose verdict on a path is `v`. -/
structure Decide (v : Str → Option Str) (detectors : List FileDetector) : Prop where
  nonThrowing : NonThrowing detectors
  verdict : ∀ path, Fika.verdict detectors path = v path

/-! ## What a message knows of its final status -/

/-- A message on its way to parse has a verdict and carries its type; a finished
one has the status of the reference. -/
structure Judged (d : Deployment P) (v : Str → Option Str) (b : Binary) (m : FileJobShm) :
    Prop where
  wellFormed : WellFormed b m
  detected : b = .parse ∨ (b = .qm ∧ m.status = .detecting) →
    ∃ mime, v m.path.str = some mime ∧ m.mime = mapType mime
  finished : m.Finished → m.status = reference v d.create m.path.str

/-- What the detect service answers. -/
theorem judged_detectReply {detectors : List FileDetector} (hD : Decide v detectors)
    (h : WellFormed .qm (detectReply detectors m)) :
    Judged d v .qm (detectReply detectors m) := by
  have hpath : (detectReply detectors m).path.str = m.path.str := rfl
  have hstatus : (detectReply detectors m).status
      = if (verdict detectors m.path.str).isSome then .detecting else .failed := rfl
  have hmime : (detectReply detectors m).mime
      = mapType ((verdict detectors m.path.str).getD octetStream) := rfl
  rw [hD.verdict] at hstatus hmime
  cases hv : v m.path.str with
  | none =>
    rw [hv] at hstatus
    refine ⟨h, fun hd => ?_, fun _ => ?_⟩
    · rcases hd with hd | ⟨-, hd⟩
      · cases hd
      · rw [hstatus] at hd
        cases hd
    · rw [hstatus, hpath, reference, hv]
      rfl
  | some mime =>
    rw [hv] at hstatus hmime
    refine ⟨h, fun _ => ⟨mime, hpath ▸ hv, hmime⟩, fun hfin => ?_⟩
    rcases hfin with hfin | hfin <;> rw [hstatus] at hfin <;> cases hfin

/-- What the parse service answers. -/
theorem judged_parseReply (h : Judged d v .parse m)
    (hwf : WellFormed .qm (parseReply d.create m)) : Judged d v .qm (parseReply d.create m) := by
  obtain ⟨mime, hv, hmime⟩ := h.detected (.inl rfl)
  have hstatus : (parseReply d.create m).status
      = if (d.create m.mime).isSome then .done else .failed := rfl
  refine ⟨hwf, fun hd => ?_, fun _ => ?_⟩
  · rcases hd with hd | ⟨-, hd⟩
    · cases hd
    · rw [hstatus] at hd
      split at hd <;> cases hd
  · show _ = reference v d.create m.path.str
    rw [hstatus, reference, hv, hmime]

theorem localInvariant_judged (d : Deployment P) (v : Str → Option Str) :
    LocalInvariant d (Decide v) fun _ b m => Judged d v b m where
  mono _ h := h
  ingest hsent hsub := by
    refine ⟨(localInvariant_wellFormed d (Decide v)).ingest hsent hsub, fun hd => ?_,
      fun hfin => ?_⟩
    · rcases hd with hd | ⟨-, hd⟩
      · cases hd
      · rw [upload_sent hsent] at hd
        cases hd
    · rw [upload_sent hsent] at hfin
      rcases hfin with hfin | hfin <;> cases hfin
  qm {hist _ m _ _} h hr := by
    have hwf := (localInvariant_wellFormed d (Decide v)).qm (h := hist) h.wellFormed hr
    rcases mem_qm_sent h.wellFormed.discipline hr with ⟨hs, rfl, rfl⟩ | ⟨hs, rfl, rfl⟩
    · refine ⟨hwf, fun hd => ?_, fun hfin => ?_⟩
      · rcases hd with hd | ⟨hd, -⟩ <;> cases hd
      · rcases hfin with hfin | hfin <;> cases hfin
    · have hpath : (forwarded m .parsing .parser).path.str = m.path.str :=
        FileJobShm.reencode_path_str h.wellFormed.terminated
      refine ⟨hwf, fun _ => ?_, fun hfin => ?_⟩
      · rw [hpath]
        exact h.detected (.inr ⟨rfl, hs⟩)
      · rcases hfin with hfin | hfin <;> cases hfin
  detect hD hdet h hr := by
    have hwf := (localInvariant_wellFormed d (Decide v)).detect hD hdet h.wellFormed hr
    obtain ⟨rfl, -, rfl⟩ := mem_detectReplies hr
    exact judged_detectReply hD hwf
  parse {hist _} h :=
    judged_parseReply h ((localInvariant_wellFormed d (Decide v)).parse (h := hist) h.wellFormed)

/-! ## The last status qm handles -/

/-- The status of the last message qm has handled for the job `id`. -/
def lastStatus (s : Pipeline P) (id : Str) : Option Status :=
  (s.handled.find? fun m => m.key = id).map FileJobShm.status

/-- Only a handler of qm adds to what qm has handled and removed. -/
theorem handled_step {a : Action} (hs : step d s a = some s') :
    (s'.handled = s.handled ∧ s'.removed = s.removed) ∨
      ∃ m ∈ (s.service .qm).pool, s'.handled = m :: s.handled ∧
        s'.removed = (if m.status = .done then [m.path.str] else []) ++ s.removed := by
  cases step_spec hs with
  | @ranQm i m hpool =>
    refine .inr ⟨m, List.mem_of_getElem? hpool, ?_, ?_⟩
    · rw [handleQm, sendAll_handled]
      rfl
    · rw [handleQm, sendAll_removed]
      show (processResults _ m).removeFile.toList ++ s.removed = _
      rw [processResults_removeFile]
      split <;> rfl
  | ranDetect hpool =>
    refine .inl ⟨?_, ?_⟩
    · rw [handleDetect, sendAll_handled]
      rfl
    · rw [handleDetect, sendAll_removed]
      rfl
  | ranParse hpool =>
    refine .inl ⟨?_, ?_⟩
    · rw [handleParse, sendAll_handled]
      rfl
    · rw [handleParse, sendAll_removed]
      rfl
  | @restarted b hphase => cases b <;> exact .inl ⟨rfl, rfl⟩
  | _ => exact .inl ⟨rfl, rfl⟩

theorem mem_carriers_of_pool (hm : m ∈ (s.service .qm).pool) :
    (Place.pool .qm, m) ∈ s.carriers m.key := by
  refine List.mem_filter.mpr ⟨?_, decide_eq_true rfl⟩
  refine List.mem_flatMap.mpr ⟨.pool .qm, by decide, List.mem_map.mpr ⟨m, hm, rfl⟩⟩

/-- The last message qm has handled for a finished job is the one it finished
with: nothing carries the job any more. -/
theorem lastStatus_finished (h : Reachable d NonThrowing s) (hids : s.submittedKeys.Nodup) :
    ∀ id ∈ s.finishedKeys,
      ∃ m, s.handled.find? (fun m => m.key = id) = some m ∧ m.Finished := by
  obtain ⟨fs, hr⟩ := h
  revert hids
  refine hr.invariant_with (P := fun s => s.submittedKeys.Nodup → ∀ id ∈ s.finishedKeys,
    ∃ m, s.handled.find? (fun m => m.key = id) = some m ∧ m.Finished)
    (fun hra => show Reachable d NonThrowing _ from ⟨fs, hra⟩) (fun _ _ h => nomatch h) ?_
  intro a b e hreach ih hok hs hids id hid
  have hids' := hids.sublist ((submitted_step hs).map _)
  rcases handled_step hs with ⟨hhandled, -⟩ | ⟨m, hm, hhandled, -⟩
  · rw [finishedKeys, hhandled] at hid
    rw [hhandled]
    exact ih hids' id hid
  · rw [hhandled, List.find?_cons]
    by_cases hkey : m.key = id
    · -- the job just handled: had it been finished before, nothing would carry it
      rw [decide_eq_true hkey]
      refine ⟨m, rfl, ?_⟩
      by_contra hfin
      rw [finishedKeys, hhandled, List.filter_cons_of_neg (by simpa using hfin)] at hid
      have hnone := ((job_conservation d a hreach hids') id).2.1 hid
      have hmem := mem_carriers_of_pool hm
      rw [hkey, hnone] at hmem
      cases hmem
    · rw [decide_eq_false hkey]
      refine ih hids' id ?_
      rw [finishedKeys, hhandled, List.filter_cons] at hid
      split at hid
      · exact (List.mem_cons.mp hid).resolve_left fun heq => hkey heq.symm
      · exact hid

/-! ## The removed files -/

/-- qm removes the files of the jobs it handles as DONE. -/
theorem removed_eq {chains : List FileDetector → Prop} (h : Reachable d chains s) :
    s.removed = (s.handled.filter fun m => m.status = .done).map fun m => m.path.str := by
  obtain ⟨fs, hr⟩ := h
  refine hr.invariant (P := fun s => s.removed =
    (s.handled.filter fun m => m.status = .done).map fun m => m.path.str) rfl ?_
  intro a b e ih _ hs
  rcases handled_step hs with ⟨hhandled, hremoved⟩ | ⟨m, -, hhandled, hremoved⟩
  · rw [hremoved, hhandled]
    exact ih
  · rw [hremoved, hhandled, List.filter_cons, ih]
    by_cases hm : m.status = .done
    · rw [if_pos hm, if_pos (decide_eq_true hm)]
      rfl
    · rw [if_neg hm, if_neg (by simpa using hm)]
      rfl

/-! ## Complete runs -/

/-- All queues and pools are empty of jobs. -/
def Complete (s : Pipeline P) : Prop := s.located = []

/-- What a complete run has computed. -/
structure Computed (d : Deployment P) (v : Str → Option Str) (s : Pipeline P) : Prop where
  lastStatus : ∀ sub ∈ s.submitted,
    s.lastStatus sub.msg.key = some (reference v d.create sub.msg.path.str)
  removed : ∀ path, path ∈ s.removed ↔
    ∃ sub ∈ s.submitted, sub.msg.path.str = path ∧ reference v d.create path = .done

/-- A job that qm is done with has the status of the reference. -/
theorem reference_of_handled {sub : Submission} (h : Reachable d (Decide v) s)
    (hids : s.submittedKeys.Nodup) (hsub : sub ∈ s.submitted) (hm : m ∈ s.handled)
    (hkey : m.key = sub.msg.key) (hfin : m.Finished) :
    m.path.str = sub.msg.path.str ∧ m.status = reference v d.create sub.msg.path.str := by
  have hcar := (h.payload.handled hm).carries_of_key hids hsub hkey
  -- what qm has handled satisfied the invariant when it was handled
  have hjudged := ((localInvariant_judged d v).reachable h).handled hm
  exact ⟨hcar.path, hcar.path ▸ hjudged.finished hfin⟩

theorem Reachable.computed (h : Reachable d (Decide v) s) (hids : s.submittedKeys.Nodup)
    (hcomplete : s.Complete) : Computed d v s := by
  have hnt : Reachable d NonThrowing s := by
    obtain ⟨fs, hr⟩ := h
    refine ⟨fs, hr.mono fun {_ a} hok => ?_⟩
    cases a with
    | runDetect i detectors => exact Decide.nonThrowing hok
    | _ => trivial
  -- with nothing in flight every minted id is retired
  have hcustody : s.ledger.custody = 0 := by
    show (s.located.map Prod.snd : Multiset FileJobShm).map FileJobShm.key = 0
    rw [show s.located = [] from hcomplete]
    rfl
  have hlast : ∀ sub ∈ s.submitted, ∃ m ∈ s.handled, m.key = sub.msg.key ∧ m.Finished ∧
      s.lastStatus sub.msg.key = some m.status := by
    intro sub hsub
    have hmint : sub.msg.key ∈ s.ledger.minted :=
      Multiset.mem_coe.mpr (List.mem_map.mpr ⟨sub, hsub, rfl⟩)
    have hret := hnt.balanced.retired_of_custody_eq_zero hcustody hmint
    obtain ⟨m, hfind, hfin⟩ := lastStatus_finished hnt hids _ (Multiset.mem_coe.mp hret)
    have hkey : m.key = sub.msg.key := by simpa using List.find?_some hfind
    exact ⟨m, List.mem_of_find?_eq_some hfind, hkey, hfin, by rw [lastStatus, hfind]; rfl⟩
  refine ⟨fun sub hsub => ?_, fun path => ?_⟩
  · obtain ⟨m, hm, hkey, hfin, hst⟩ := hlast sub hsub
    rw [hst, (reference_of_handled h hids hsub hm hkey hfin).2]
  · rw [removed_eq h]
    constructor
    · intro hpath
      obtain ⟨m, hm, rfl⟩ := List.mem_map.mp hpath
      obtain ⟨hm, hdone⟩ := List.mem_filter.mp hm
      have hdone' : m.status = .done := of_decide_eq_true hdone
      -- a removed path belongs to a job that qm handled as DONE
      obtain ⟨sub, hsub, ht⟩ := (h.payload.handled hm).origin
      have href := reference_of_handled h hids hsub hm ht.carries.key (.inl hdone')
      refine ⟨sub, hsub, href.1.symm, ?_⟩
      rw [href.1, ← href.2, hdone']
    · rintro ⟨sub, hsub, rfl, hdone⟩
      obtain ⟨m, hm, hkey, hfin, -⟩ := hlast sub hsub
      have href := reference_of_handled h hids hsub hm hkey hfin
      refine List.mem_map.mpr ⟨m, List.mem_filter.mpr ⟨hm, decide_eq_true ?_⟩, href.1⟩
      rw [href.2, hdone]

/-- **Schedule independence**: when the detectors' verdict is a function of the
path, every complete run over jobs with distinct ids has ended each job with the
status of the sequential reference and removed exactly the files of the DONE
ones; so any two complete runs over the same jobs agree. -/
theorem schedule_independence (d : Deployment P) (v : Str → Option Str) (s : Pipeline P)
    (h : Reachable d (Decide v) s) (hids : s.submittedKeys.Nodup) (hcomplete : s.Complete) :
    Computed d v s ∧
    ∀ s', Reachable d (Decide v) s' → s'.Complete →
      (s'.submitted.map Submission.msg).Perm (s.submitted.map Submission.msg) →
      (∀ sub ∈ s.submitted, s'.lastStatus sub.msg.key = s.lastStatus sub.msg.key) ∧
      (∀ path, path ∈ s'.removed ↔ path ∈ s.removed) := by
  have hcomp := h.computed hids hcomplete
  refine ⟨hcomp, fun s' h' hcomplete' hperm => ?_⟩
  have hids' : s'.submittedKeys.Nodup := by
    have hkeys := (hperm.map FileJobShm.key).nodup_iff
    rw [List.map_map, List.map_map] at hkeys
    exact hkeys.mpr hids
  have hcomp' := h'.computed hids' hcomplete'
  -- the same messages were submitted, whatever requests they came from
  have match_msg : ∀ {t t' : Pipeline P},
      (t.submitted.map Submission.msg).Perm (t'.submitted.map Submission.msg) →
      ∀ sub ∈ t.submitted, ∃ sub' ∈ t'.submitted, sub'.msg = sub.msg := by
    intro t t' hp sub hsub
    exact List.mem_map.mp (hp.subset (List.mem_map.mpr ⟨sub, hsub, rfl⟩))
  refine ⟨fun sub hsub => ?_, fun path => ?_⟩
  · obtain ⟨sub', hsub', hmsg⟩ := match_msg hperm.symm sub hsub
    rw [hcomp.lastStatus sub hsub, ← hmsg, hcomp'.lastStatus sub' hsub']
  · rw [hcomp.removed, hcomp'.removed]
    constructor
    · rintro ⟨sub, hsub, hpath, hdone⟩
      obtain ⟨sub', hsub', hmsg⟩ := match_msg hperm sub hsub
      exact ⟨sub', hsub', hmsg ▸ hpath, hdone⟩
    · rintro ⟨sub, hsub, hpath, hdone⟩
      obtain ⟨sub', hsub', hmsg⟩ := match_msg hperm.symm sub hsub
      exact ⟨sub', hsub', hmsg ▸ hpath, hdone⟩

/-- The same two jobs, one after the other. -/
def successiveState : Option (Pipeline Unit) :=
  run (step sampleDeployment) (init fun _ => none)
    (sampleRun ++ .upload laterRequest :: sampleRun.tail)

theorem successiveState_reachable {chains : List FileDetector → Prop}
    (hchains : chains sampleDetectors) {s : Pipeline Unit} (h : successiveState = some s) :
    Reachable sampleDeployment chains s := by
  refine ⟨fun _ => none, reaches_of_run (runOk_of_forall fun a ha t => ?_) h⟩
  rcases List.mem_append.mp ha with ha | ha
  · exact chains_sampleRun hchains a ha t
  · rcases List.mem_cons.mp ha with rfl | ha
    · trivial
    · exact chains_sampleRun hchains a (List.mem_of_mem_tail ha) t

/-- Runs that accepted the same uploads have submitted the same messages. -/
theorem submitted_msg_congr {P : Type u} {d : Deployment P} {chains : List FileDetector → Prop}
    {s s' : Pipeline P} (h : Reachable d chains s) (h' : Reachable d chains s')
    (hreq : s.submitted.map Submission.req = s'.submitted.map Submission.req) :
    s.submitted.map Submission.msg = s'.submitted.map Submission.msg := by
  have hmsg : ∀ {t : Pipeline P}, Reachable d chains t → t.submitted.map Submission.msg
      = (t.submitted.map Submission.req).map fun req =>
        newJob (generateUniqueId req.millis req.rand) (spoolPath d.config req.now) := by
    intro t ht
    rw [List.map_map]
    exact List.map_congr_left fun sub hsub => ht.fromUpload sub hsub
  rw [hmsg h, hmsg h', hreq]

/-- Two jobs in each other's way end as they do one after the other. -/
theorem schedule_independence_done :
    ∃ s s' : Pipeline Unit, crossedState 22 = some s ∧ successiveState = some s' ∧
      s.Complete ∧ s'.Complete ∧ s.submittedKeys.length = 2 ∧
      Computed sampleDeployment (fun _ => some (lit "application/pdf")) s ∧
      (∀ sub ∈ s.submitted, s'.lastStatus sub.msg.key = s.lastStatus sub.msg.key) ∧
      ∀ path, path ∈ s'.removed ↔ path ∈ s.removed := by
  obtain ⟨s, hs⟩ := Option.isSome_iff_exists.mp (show (crossedState 22).isSome = true by rfl)
  obtain ⟨s', hs'⟩ := Option.isSome_iff_exists.mp (show successiveState.isSome = true by rfl)
  have hview : (crossedState 22).map (fun s => (s.located, s.submitted.map Submission.req,
      s.submittedKeys.length, decide s.submittedKeys.Nodup))
      = some ([], [laterRequest, sampleRequest], 2, true) := by rfl
  have hview' : successiveState.map (fun s => (s.located, s.submitted.map Submission.req))
      = some ([], [laterRequest, sampleRequest]) := by rfl
  simp only [hs, hs', Option.map_some, Option.some.injEq, Prod.mk.injEq, decide_eq_true_eq]
    at hview hview'
  obtain ⟨hcomplete, hreq, hlength, hids⟩ := hview
  obtain ⟨hlocated, hreq'⟩ := hview'
  have hdecide : Decide (fun _ => some (lit "application/pdf")) sampleDetectors :=
    ⟨nonThrowing_sampleDetectors, fun _ => by rfl⟩
  have hr := crossedState_reachable hdecide hs
  have hr' := successiveState_reachable hdecide hs'
  have hsame : s'.submitted.map Submission.msg = s.submitted.map Submission.msg :=
    submitted_msg_congr hr' hr (hreq'.trans hreq.symm)
  obtain ⟨hcomputed, hagree⟩ := schedule_independence sampleDeployment _ s hr hids hcomplete
  obtain ⟨hstatus, hremoved⟩ := hagree s' hr' hlocated (.of_eq hsame)
  exact ⟨s, s', hs, hs', hcomplete, hlocated, hlength, hcomputed, hstatus, hremoved⟩

end Pipeline

end Fika
