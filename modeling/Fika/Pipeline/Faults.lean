import Fika.Pipeline.Bounded
import Fika.Pipeline.Spool

/-!
# What a fault costs
(`service.cpp`, `detect_service.cpp`, `qm.cpp`, `ingestd.cpp`)

The bounded pipeline with everything that can go wrong in it: a process or a waiting
client is killed, a detector throws, a service is launched again with fresh objects.

- `Recorded`: what qm and ingestd have noted of the history of the queues.
- `fault_accounting`: every submission is carried by a message, or it was handled as
  DONE or FAILED, or a throwing detector swallowed it, or a kill lost it. Nothing keeps
  two uploads from having the same id and path, so what is counted is how many have
  them; with an id and path of its own each job has exactly one of the four fates.
- `faults_keep_files`: the file of a job is removed by the job's own DONE and by
  nothing else, so a lost job still has its file.
-/

namespace Fika

open Lib Network Pipeline

universe u

namespace Bounded

variable {P : Type u} {d : Deployment P} {l : Limits} {t t' : State P} {m : FileJobShm}

/-- Runs in which detect calls use a chain from `chains` and something is killed only
if `kills` holds. -/
def Faults (kills : Prop) (chains : List FileDetector → Prop) : Event → Prop
  | .abandon _ | .crash _ => kills
  | .invoke .detect _ detectors => chains detectors
  | _ => True

/-- What a job is known by everywhere: its id and its path. -/
def jobKey (m : FileJobShm) : Str × Str := (m.key, m.path.str)

/-! ## The records -/

/-- What the objects have noted of the history of the queues. -/
structure Recorded (chains : List FileDetector → Prop)
    (entered : List (Binary × Mail FileJobShm)) (retired : List FileJobShm) (o : Objects P) :
    Prop where
  entered : (entered.map fun p => mailKeys jobKey p.2).sum
    = (o.submitted.map fun sub => jobKey sub.msg : List (Str × Str))
  handled : ∀ m ∈ o.handled, m.Finished → m ∈ retired
  retired : ∀ m ∈ retired, m ∈ o.handled ∧ m.Finished ∨
    ¬ m.Finished ∧ ∃ detectors, chains detectors ∧ ¬ QuietChain detectors m.path.str
  removed : ∀ file ∈ o.removed, ∃ m ∈ o.handled, m.status = .done ∧ m.path.str = file

variable {chains : List FileDetector → Prop} {kills : Prop}
  {entered : List (Binary × Mail FileJobShm)} {retired : List FileJobShm} {o : Objects P}

theorem Recorded.ingest (h : Recorded chains entered retired o) (req : UploadRequest)
    (r : UploadResult) :
    Recorded chains ((ingest o req r).2 ++ entered) retired (ingest o req r).1 := by
  cases hsent : r.sent with
  | none =>
    simp only [Bounded.ingest, hsent]
    exact ⟨h.entered, h.handled, h.retired, h.removed⟩
  | some m =>
    simp only [Bounded.ingest, hsent]
    refine ⟨?_, h.handled, h.retired, h.removed⟩
    rw [List.singleton_append, List.map_cons, List.sum_cons, h.entered]
    rfl

/-- qm handles a job that is not finished by sending a message, and a finished one by
sending none. -/
theorem handleQm_sent (o : Objects P) (h : WellFormed .qm m) :
    (handleQm o m).2 = [] ↔ m.Finished := by
  show jobs (processResults o.qm m).sent = [] ↔ _
  have hjobs : (processResults o.qm m).sent = [] ∧ m.Finished ∨
      (∃ b r, (processResults o.qm m).sent = [(b, .fileJobShm r)]) ∧ ¬ m.Finished := by
    unfold FileJobShm.Finished
    cases h.discipline with
    | submitted hs =>
      rw [hs]
      exact .inr ⟨⟨_, _, (processResults_new hs).1⟩, by decide⟩
    | detected hs ht =>
      rw [hs]
      exact .inr ⟨⟨_, _, (processResults_detecting hs).1⟩, by decide⟩
    | parsed hs ht => exact .inl ⟨(processResults_done hs).1, .inl hs⟩
    | failed hs => exact .inl ⟨(processResults_failed hs).1, .inr hs⟩
  rcases hjobs with ⟨hnone, hfin⟩ | ⟨⟨b, r, hone⟩, hfin⟩
  · rw [hnone]
    exact ⟨fun _ => hfin, fun _ => rfl⟩
  · rw [hone]
    exact ⟨fun hnil => (nomatch hnil), fun hdone => absurd hdone hfin⟩

theorem Recorded.handleQm (h : Recorded chains entered retired o) (hm : WellFormed .qm m) :
    Recorded chains entered
      (if (handleQm o m).2 = [] then m :: retired else retired) (handleQm o m).1 := by
  have hretired : ∀ r, r ∈ (if (Bounded.handleQm o m).2 = [] then m :: retired else retired) ↔
      (m.Finished ∧ r = m) ∨ r ∈ retired := by
    intro r
    by_cases hfin : m.Finished
    · rw [if_pos ((handleQm_sent o hm).mpr hfin), List.mem_cons]
      exact or_congr_left ⟨fun heq => ⟨hfin, heq⟩, And.right⟩
    · rw [if_neg (mt (handleQm_sent o hm).mp hfin)]
      exact ⟨.inr, fun hr => hr.resolve_left fun hnow => hfin hnow.1⟩
  refine ⟨h.entered, fun r hr hfin => ?_, fun r hr => ?_, fun file hfile => ?_⟩
  · rcases List.mem_cons.mp hr with rfl | hr
    · exact (hretired r).mpr (.inl ⟨hfin, rfl⟩)
    · exact (hretired r).mpr (.inr (h.handled r hr hfin))
  · rcases (hretired r).mp hr with ⟨hfin, rfl⟩ | hr
    · exact .inl ⟨List.mem_cons_self, hfin⟩
    · exact (h.retired r hr).imp_left fun hh => ⟨List.mem_cons_of_mem _ hh.1, hh.2⟩
  · have hfile' : file ∈ (processResults o.qm m).removeFile.toList ++ o.removed := hfile
    rw [processResults_removeFile] at hfile'
    rcases List.mem_append.mp hfile' with hnow | hold
    · split at hnow
      · next hdone => exact ⟨m, List.mem_cons_self, hdone, (List.mem_singleton.mp hnow).symm⟩
      · cases hnow
    · obtain ⟨r, hr, hrest⟩ := h.removed file hold
      exact ⟨r, List.mem_cons_of_mem _ hr, hrest⟩

/-- A detect handler sends nothing only when a detector throws. -/
theorem Recorded.handleDetect {detectors : List FileDetector}
    (h : Recorded chains entered retired o) (hchain : chains detectors)
    (hm : WellFormed .detect m) :
    Recorded chains entered
      (if (handleDetect detectors o m).2 = [] then m :: retired else retired)
      (handleDetect detectors o m).1 := by
  rw [handleDetect_sent]
  by_cases hquiet : QuietChain detectors m.path.str
  · rw [if_pos hquiet, if_neg (List.cons_ne_nil _ _)]
    exact ⟨h.entered, h.handled, h.retired, h.removed⟩
  · rw [if_neg hquiet, if_pos rfl]
    refine ⟨h.entered, fun r hr hfin => List.mem_cons_of_mem _ (h.handled r hr hfin),
      fun r hr => ?_, h.removed⟩
    rcases List.mem_cons.mp hr with rfl | hr
    · cases hm.discipline with
      | detecting hs ht =>
        refine .inr ⟨?_, detectors, hchain, hquiet⟩
        unfold FileJobShm.Finished
        rw [hs]
        decide
    · exact h.retired r hr

theorem records_recorded : (network d l).Records (Faults kills chains) WellFormed
    (Recorded (P := P) chains) where
  client op entered retired o _ h := by
    cases op with
    | upload req => exact h.ingest req _
    | pill b =>
      refine ⟨?_, h.handled, h.retired, h.removed⟩
      show (((b, Mail.halt) :: entered).map fun p => mailKeys jobKey p.2).sum = _
      rw [List.map_cons, List.sum_cons, h.entered]
      exact Multiset.zero_add _
  handle b i c entered retired o m hg hm h := by
    cases b with
    | qm => exact h.handleQm hm
    | detect => exact h.handleDetect hg hm
    | parse =>
      show Recorded chains entered (if (handleParse d.create o m).2 = [] then _ else _) _
      rw [handleParse_sent, if_neg (List.cons_ne_nil _ _)]
      exact ⟨h.entered, h.handled, h.retired, h.removed⟩
  fresh b entered retired o h := by
    cases b <;> exact ⟨h.entered, h.handled, h.retired, h.removed⟩

/-! ## The books -/

/-- What holds in every state, whatever goes wrong. -/
structure Audited (d : Deployment P) (l : Limits) (kills : Prop)
    (chains : List FileDetector → Prop) (t : State P) : Prop where
  sound : Sound d l t
  recorded : Recorded chains t.entered t.retired t.shared
  balanced : (Network.ledger jobKey t).Balanced
  lost : t.lost ≠ [] → kills

theorem audited_of_reaches {fs : FileSystem} (h : Reaches (network d l).step
    (fun _ => Faults kills chains) (init fs) t) : Audited d l kills chains t := by
  refine h.invariant ⟨sound_init fs, ?_, rfl, fun hne => absurd rfl hne⟩ fun {a b e} ha hok hs =>
    ⟨ha.sound.step hs, records_step records_recorded ha.sound.wellFormed ha.recorded hok hs,
      ledger_step passes_key ha.sound.wellFormed ha.sound.within ha.balanced hs, fun hne => ?_⟩
  · exact ⟨rfl, fun _ hm => (nomatch hm), fun _ hm => (nomatch hm), fun _ hm => (nomatch hm)⟩
  · by_cases hsame : b.lost = a.lost
    · exact ha.lost (hsame ▸ hne)
    · rcases lost_step hs hsame with ⟨i, rfl⟩ | ⟨n, rfl⟩ <;> exact hok

theorem Audited.minted (h : Audited d l kills chains t) :
    (Network.ledger jobKey t).minted
      = (t.shared.submitted.map fun sub => jobKey sub.msg : List (Str × Str)) :=
  h.recorded.entered

/-- A job that was retired or lost was submitted. -/
theorem Audited.submitted_of_gone (h : Audited d l kills chains t)
    (hm : m ∈ t.retired ∨ m ∈ t.lost) :
    ∃ sub ∈ t.shared.submitted, jobKey sub.msg = jobKey m := by
  have hgone : jobKey m ∈ (Network.ledger jobKey t).retired := by
    rcases hm with hm | hm
    · exact Multiset.mem_add.mpr (.inl (List.mem_map_of_mem hm))
    · exact Multiset.mem_add.mpr (.inr (List.mem_map_of_mem hm))
  have hminted : jobKey m ∈ (Network.ledger jobKey t).minted := by
    rw [← show (Network.ledger jobKey t).custody + _ = _ from h.balanced]
    exact Multiset.mem_add.mpr (.inr hgone)
  rw [h.minted] at hminted
  exact List.mem_map.mp hminted

/-! ## What becomes of a job -/

/-- How many messages on their way carry the job. -/
def carried (t : State P) (sub : Submission) : Nat :=
  ((custody jobKey).total t).count (jobKey sub.msg)

/-- How often qm was done with the job. -/
def settled (t : State P) (sub : Submission) : Nat :=
  t.retired.countP fun m => m.Finished ∧ jobKey m = jobKey sub.msg

/-- How often a handler gave the job up. -/
def swallowed (t : State P) (sub : Submission) : Nat :=
  t.retired.countP fun m => ¬ m.Finished ∧ jobKey m = jobKey sub.msg

/-- How many messages that carried the job were killed with their process. -/
def killed (t : State P) (sub : Submission) : Nat :=
  t.lost.countP fun m => jobKey m = jobKey sub.msg

theorem count_map {α β : Type} [DecidableEq β] (f : α → β) (l : List α) (k : β) :
    (l.map f : Multiset β).count k = l.countP fun a => f a = k := by
  rw [← Multiset.map_coe, Multiset.count_map, ← Multiset.countP_eq_card_filter,
    Multiset.coe_countP]
  exact List.countP_congr fun a _ => by simp [eq_comm]

/-- How many uploads were submitted with the id and path of this one. -/
def namesakes (t : State P) (sub : Submission) : Nat :=
  t.shared.submitted.countP fun sub' => jobKey sub'.msg = jobKey sub.msg

/-- The four fates account for every upload with the id and path. -/
theorem Audited.fates (h : Audited d l kills chains t) (sub : Submission) :
    carried t sub + settled t sub + swallowed t sub + killed t sub = namesakes t sub := by
  have hcount := h.balanced.count_add (jobKey sub.msg)
  have hminted : (Network.ledger jobKey t).minted.count (jobKey sub.msg) = namesakes t sub := by
    rw [h.minted, count_map]
    rfl
  have hgone : (Network.ledger jobKey t).retired.count (jobKey sub.msg)
      = settled t sub + swallowed t sub + killed t sub := by
    show ((t.retired.map jobKey : List _) + (t.lost.map jobKey : List _) :
      Multiset (Str × Str)).count _ = _
    rw [Multiset.count_add, count_map, count_map, settled, swallowed, killed]
    refine congrArg (· + _) ?_
    rw [List.countP_eq_countP_filter_add _ _ fun m => decide m.Finished, List.countP_filter,
      List.countP_filter]
    exact congrArg₂ (· + ·) (List.countP_congr fun m _ => by simp [and_comm])
      (List.countP_congr fun m _ => by simp [and_comm])
  rw [hminted, hgone] at hcount
  show ((Network.ledger jobKey t).custody).count _ + _ + _ + _ = _
  omega

theorem namesakes_eq_one (hnd : (t.shared.submitted.map fun sub => jobKey sub.msg).Nodup)
    {sub : Submission} (hsub : sub ∈ t.shared.submitted) : namesakes t sub = 1 := by
  have hone := Multiset.count_eq_one_of_mem (Multiset.coe_nodup.mpr hnd)
    (List.mem_map.mpr ⟨sub, hsub, rfl⟩)
  rw [count_map] at hone
  exact hone

theorem settled_pos {sub : Submission} (h : Audited d l kills chains t) :
    0 < settled t sub ↔ ∃ m ∈ t.shared.handled, m.Finished ∧ jobKey m = jobKey sub.msg := by
  constructor
  · intro hpos
    obtain ⟨m, hm, hp⟩ := List.countP_pos_iff.mp hpos
    obtain ⟨hfin, hkey⟩ := of_decide_eq_true hp
    rcases h.recorded.retired m hm with ⟨hhandled, -⟩ | ⟨hnot, -⟩
    · exact ⟨m, hhandled, hfin, hkey⟩
    · exact absurd hfin hnot
  · rintro ⟨m, hm, hfin, hkey⟩
    exact List.countP_pos_iff.mpr ⟨m, h.recorded.handled m hm hfin, decide_eq_true ⟨hfin, hkey⟩⟩

/-- **Nothing happens to a job twice, and nothing happens to it unseen**: in every
state that the bounded pipeline can reach, with full queues, kills of any process and
of any waiting client, throwing detectors and launches, the uploads with the id and path
of a submitted job are as many as the messages that carry them, the times qm handled
them as DONE or FAILED, the times a detector that threw swallowed one, and the messages
a kill has lost, together. When no other upload has its id and path, the job has had
exactly one of these four fates. -/
theorem fault_accounting (d : Deployment P) (l : Limits) (kills : Prop)
    (chains : List FileDetector → Prop) (fs : FileSystem) (t : State P)
    (h : Reaches (network d l).step (fun _ => Faults kills chains) (init fs) t) :
    ∀ sub ∈ t.shared.submitted,
      carried t sub + settled t sub + swallowed t sub + killed t sub = namesakes t sub ∧
      ((t.shared.submitted.map fun sub => jobKey sub.msg).Nodup → namesakes t sub = 1) ∧
      (0 < settled t sub ↔
        ∃ m ∈ t.shared.handled, m.Finished ∧ jobKey m = jobKey sub.msg) ∧
      (0 < swallowed t sub →
        ∃ detectors, chains detectors ∧ ¬ QuietChain detectors sub.msg.path.str) ∧
      (0 < killed t sub → kills) := by
  have ha := audited_of_reaches h
  intro sub hsub
  refine ⟨ha.fates sub, fun hnd => namesakes_eq_one hnd hsub, settled_pos ha, fun hpos => ?_,
    fun hpos => ?_⟩
  · obtain ⟨m, hm, hp⟩ := List.countP_pos_iff.mp hpos
    obtain ⟨hnot, hkey⟩ := of_decide_eq_true hp
    rcases ha.recorded.retired m hm with ⟨-, hfin⟩ | ⟨-, detectors, hchain, hloud⟩
    · exact absurd hfin hnot
    · have hpath : m.path.str = sub.msg.path.str := congrArg Prod.snd hkey
      exact ⟨detectors, hchain, hpath ▸ hloud⟩
  · obtain ⟨m, hm, -⟩ := List.countP_pos_iff.mp hpos
    exact ha.lost fun hnil => (nomatch hnil ▸ hm)

theorem faults_any (e : Event) : Faults True (fun _ => True) e := by
  rcases e with _ | _ | _ | _ | ⟨_ | _ | _, _, _⟩ | _ | _ | _ | _ | _ <;> trivial

/-- The sample upload, with the detect service killed while its handler has the reply
in its hands. -/
def killedEvents : List Event := [
  .client (.upload sampleRequest), .accept 0,
  .receive .qm, .invoke .qm 0 [], .send .qm 0, .finish .qm 0,
  .receive .detect, .invoke .detect 0 sampleDetectors, .crash .detect]

def killedState : Option (State Unit) :=
  run (network sampleDeployment (mainLimits 4)).step (init fun _ => none) killedEvents

/-- The one submission of the run. -/
theorem killedState_submitted {t : State Unit} (h : killedState = some t) :
    ∃ sub, t.shared.submitted = [sub] ∧ sub.req = sampleRequest := by
  have hreq : killedState.map (fun t => t.shared.submitted.map Submission.req)
      = some [sampleRequest] := by rfl
  rw [h, Option.map_some, Option.some.injEq] at hreq
  obtain ⟨sub, rest, hlist, hsub, hrest⟩ := List.map_eq_cons_iff.mp hreq
  rw [List.map_eq_nil_iff.mp hrest] at hlist
  exact ⟨sub, hlist, hsub⟩

/-- The same with two equal uploads a second later. -/
def twinState : Option (State Unit) :=
  run (network sampleDeployment (mainLimits 4)).step (init fun _ => none)
    (killedEvents ++ [.client (.upload laterRequest), .client (.upload laterRequest)])

/-- The killed job is accounted for, and so are the two that share their id and path. -/
theorem fault_accounting_killed :
    ∃ t, twinState = some t ∧ t.shared.submitted.map (namesakes t) = [2, 2, 1] ∧
      t.shared.submitted.map (killed t) = [0, 0, 1] ∧
      ∀ sub ∈ t.shared.submitted,
        carried t sub + settled t sub + swallowed t sub + killed t sub = namesakes t sub := by
  obtain ⟨t, ht⟩ := Option.isSome_iff_exists.mp (show twinState.isSome = true by rfl)
  have hcounts : twinState.map (fun t =>
      (t.shared.submitted.map (namesakes t), t.shared.submitted.map (killed t)))
      = some ([2, 2, 1], [0, 0, 1]) := by rfl
  rw [ht, Option.map_some, Option.some.injEq, Prod.mk.injEq] at hcounts
  have hr : Reaches (network sampleDeployment (mainLimits 4)).step
      (fun _ => Faults True fun _ => True) (init fun _ => none) t :=
    reaches_of_run (runOk_of_forall fun e _ _ => faults_any e) ht
  exact ⟨t, ht, hcounts.1, hcounts.2, fun sub hsub => (fault_accounting sampleDeployment
    (mainLimits 4) True (fun _ => True) (fun _ => none) t hr sub hsub).1⟩

/-! ## What becomes of a file -/

/-- The file of every job whose path was not removed holds the body of its upload. -/
def Objects.FilesKept (d : Deployment P) (o : Objects P) : Prop :=
  (∀ sub ∈ o.submitted, FitsPath (spoolPath d.config sub.req.now)) →
  (o.submitted.map fun sub => sub.req.now).Nodup →
  ∀ sub ∈ o.submitted, sub.msg.path.str = spoolPath d.config sub.req.now ∧
    (sub.msg.path.str ∉ o.removed → o.fs sub.msg.path.str = some sub.req.body)

/-- Uploads whose file operations succeed. -/
def GoodDisk : Event → Prop
  | .client (.upload req) => req.io.Succeeds
  | _ => True

theorem Objects.FilesKept.ingest (h : o.FilesKept d) {req : UploadRequest}
    (hio : req.io.Succeeds) :
    (Bounded.ingest o req (Fika.upload d.config req o.fs)).1.FilesKept d := by
  by_cases hbody : req.body = []
  · obtain ⟨hfs, hsent⟩ := upload_empty (c := d.config) o.fs hbody
    simp only [Bounded.ingest, hsent, hfs]
    exact h
  · obtain ⟨hself, hother, hsent⟩ := upload_succeeds (c := d.config) o.fs hio hbody
    simp only [Bounded.ingest, hsent]
    intro hfit hsec sub hsub
    rcases List.mem_cons.mp hsub with rfl | hsub
    · have hpath : (newJob (generateUniqueId req.millis req.rand)
          (spoolPath d.config req.now)).path.str = spoolPath d.config req.now :=
        newJob_path_str_iff.mpr (hfit _ List.mem_cons_self)
      refine ⟨hpath, fun _ => ?_⟩
      show (Fika.upload d.config req o.fs).fs (newJob _ _).path.str = some req.body
      rw [hpath]
      exact hself
    · obtain ⟨hpath, hfile⟩ := h (fun sub hsub => hfit sub (List.mem_cons_of_mem _ hsub))
        (List.nodup_cons.mp hsec).2 sub hsub
      refine ⟨hpath, fun hremoved => ?_⟩
      show (Fika.upload d.config req o.fs).fs sub.msg.path.str = _
      -- the older file is neither the new one nor its temporary file
      rw [hother]
      · exact hfile hremoved
      · rw [hpath]
        intro heq
        exact (List.nodup_cons.mp hsec).1 (List.mem_map.mpr ⟨sub, hsub, spoolPath_injective heq⟩)
      · rw [hpath]
        exact (incommingPath_ne_spoolPath d.config req.now sub.req.now).symm

theorem Objects.FilesKept.handleQm (h : o.FilesKept d) (m : FileJobShm) :
    (Bounded.handleQm o m).1.FilesKept d := by
  intro hfit hsec sub hsub
  obtain ⟨hpath, hfile⟩ := h hfit hsec sub hsub
  refine ⟨hpath, fun hremoved => ?_⟩
  have hnot : sub.msg.path.str ∉ (processResults o.qm m).removeFile.toList ++ o.removed := hremoved
  rw [List.mem_append, not_or] at hnot
  cases hfile' : (processResults o.qm m).removeFile with
  | none =>
    simp only [Bounded.handleQm, hfile']
    exact hfile hnot.2
  | some file =>
    have hne : sub.msg.path.str ≠ file := fun heq =>
      hnot.1 (by rw [hfile', heq]; exact List.mem_singleton_self _)
    simp only [Bounded.handleQm, hfile', removeFile, if_neg hne]
    exact hfile hnot.2

theorem records_filesKept : (network d l).Records GoodDisk WellFormed
    (fun _ _ (o : Objects P) => o.FilesKept d) where
  client op entered retired o hg h := by
    cases op with
    | upload req => exact h.ingest hg
    | pill b => exact h
  handle b i c entered retired o m _ _ h := by
    cases b with
    | qm => exact h.handleQm m
    | detect => exact h
    | parse => exact h
  fresh b entered retired o h := by
    cases b <;> exact h

/-- **A fault never costs a file**: with uploads of different seconds whose file
operations succeed and whose spool paths fit the array of the message, in every state
that the bounded pipeline can reach, under kills, full queues, throwing detectors and
launches, the file of a job is there with the body of its upload until qm handles a DONE
message of this very job; so every job that was lost in a kill still has its file. -/
theorem faults_keep_files (d : Deployment P) (l : Limits) (fs : FileSystem) (t : State P)
    (h : Reaches (network d l).step (fun _ => GoodDisk) (init fs) t)
    (hfit : ∀ sub ∈ t.shared.submitted, FitsPath (spoolPath d.config sub.req.now))
    (hsec : (t.shared.submitted.map fun sub => sub.req.now).Nodup) :
    (∀ sub ∈ t.shared.submitted, t.shared.fs sub.msg.path.str = some sub.req.body ∨
      ∃ m ∈ t.shared.handled, m.status = .done ∧ jobKey m = jobKey sub.msg) ∧
    ∀ m ∈ t.lost, ∃ sub ∈ t.shared.submitted, jobKey sub.msg = jobKey m ∧
      t.shared.fs m.path.str = some sub.req.body := by
  have ha : Audited d l True (fun _ => True) t :=
    audited_of_reaches (h.mono fun {_ e} _ => faults_any e)
  have hkept : t.shared.FilesKept d := by
    refine (h.invariant (P := fun t => Sound d l t ∧ t.shared.FilesKept d)
      ⟨sound_init fs, fun _ _ _ hsub => (nomatch hsub)⟩ fun {a b e} hab hg hs =>
      ⟨hab.1.step hs, ?_⟩).2
    exact records_step (R := fun _ _ o => o.FilesKept d) records_filesKept hab.1.wellFormed hab.2
      hg hs
  have hfiles := hkept hfit hsec
  -- different seconds are different paths, and so different jobs
  have hpaths : ∀ {sub sub'}, sub ∈ t.shared.submitted → sub' ∈ t.shared.submitted →
      sub.msg.path.str = sub'.msg.path.str → sub = sub' := by
    intro sub sub' hsub hsub' heq
    rw [(hfiles sub hsub).1, (hfiles sub' hsub').1] at heq
    exact List.inj_on_of_nodup_map hsec hsub hsub' (spoolPath_injective heq)
  have hdone : ∀ sub ∈ t.shared.submitted, sub.msg.path.str ∈ t.shared.removed →
      ∃ m ∈ t.shared.handled, m.status = .done ∧ jobKey m = jobKey sub.msg := by
    intro sub hsub hmem
    obtain ⟨m, hm, hstatus, hfile⟩ := ha.recorded.removed _ hmem
    obtain ⟨sub', hsub', hkey⟩ :=
      ha.submitted_of_gone (.inl (ha.recorded.handled m hm (.inl hstatus)))
    have hpath : sub'.msg.path.str = m.path.str := congrArg Prod.snd hkey
    obtain rfl := hpaths hsub' hsub (hpath.trans hfile)
    exact ⟨m, hm, hstatus, hkey.symm⟩
  refine ⟨fun sub hsub => ?_, fun m hm => ?_⟩
  · by_cases hmem : sub.msg.path.str ∈ t.shared.removed
    · exact .inr (hdone sub hsub hmem)
    · exact .inl ((hfiles sub hsub).2 hmem)
  · obtain ⟨sub, hsub, hkey⟩ := ha.submitted_of_gone (.inr hm)
    have hpath : sub.msg.path.str = m.path.str := congrArg Prod.snd hkey
    refine ⟨sub, hsub, hkey, ?_⟩
    rw [← hpath]
    refine (hfiles sub hsub).2 fun hmem => ?_
    -- a job that was lost was not handled as DONE as well
    obtain ⟨r, hr, hstatus, hrkey⟩ := hdone sub hsub hmem
    have hnd : (t.shared.submitted.map fun sub => jobKey sub.msg).Nodup :=
      (List.Nodup.of_map _ hsec).map_on fun a ha b hb heq => hpaths ha hb (congrArg Prod.snd heq)
    have hfates := (ha.fates sub).trans (namesakes_eq_one hnd hsub)
    have hsettled := (settled_pos ha).mpr ⟨r, hr, .inl hstatus, hrkey⟩
    have hkilled : 0 < killed t sub := List.countP_pos_iff.mpr ⟨m, hm, decide_eq_true hkey.symm⟩
    omega

/-- The file of the killed job is still there. -/
theorem faults_keep_files_killed :
    ∃ t, killedState = some t ∧ t.lost ≠ [] ∧
      ∀ m ∈ t.lost, t.shared.fs m.path.str = some sampleRequest.body := by
  obtain ⟨t, ht⟩ := Option.isSome_iff_exists.mp (show killedState.isSome = true by rfl)
  have hgood : ∀ e ∈ killedEvents, GoodDisk e := by
    intro e he
    simp only [killedEvents, List.mem_cons, List.not_mem_nil, or_false] at he
    rcases he with rfl | rfl | rfl | rfl | rfl | rfl | rfl | rfl | rfl
    · exact ⟨rfl, rfl, rfl⟩
    all_goals trivial
  have hr : Reaches (network sampleDeployment (mainLimits 4)).step (fun _ => GoodDisk)
      (init fun _ => none) t :=
    reaches_of_run (runOk_of_forall fun e he _ => hgood e he) ht
  have hlost : killedState.map (fun t => t.lost.length) = some 1 := by rfl
  rw [ht, Option.map_some, Option.some.injEq] at hlost
  obtain ⟨sub, hsub, hreq⟩ := killedState_submitted ht
  refine ⟨t, ht, ?_, fun m hm => ?_⟩
  · intro hnil
    rw [hnil] at hlost
    cases hlost
  have hkept := faults_keep_files sampleDeployment (mainLimits 4) (fun _ => none) t hr ?_ ?_
  · obtain ⟨sub', hsub', -, hfile⟩ := hkept.2 m hm
    rw [hsub] at hsub'
    rw [hfile, List.mem_singleton.mp hsub', hreq]
  · intro sub' hsub'
    rw [hsub] at hsub'
    rw [List.mem_singleton.mp hsub', hreq]
    exact ⟨by decide, by decide⟩
  · rw [hsub]
    exact List.nodup_singleton _

end Bounded

end Fika
