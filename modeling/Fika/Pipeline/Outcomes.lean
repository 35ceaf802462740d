import Fika.Pipeline.Refinement

/-!
# What kills leave of the reference
(`service.cpp`, `qm.cpp`, `detect_service.cpp`, `parse_service.cpp`, `ingestd.cpp`)

A kill takes messages away and changes none. So as long as the detectors do not throw and
give a verdict on each path, every message that is left knows what the sequential reference
says, whatever was killed, stopped and launched again before.

- `Emits.judged`: what a handler sends knows as much as the message it handles.
- `Logged`: qm's notes of what it finished and removed agree with the history of the queues.
- `Course`, `course_of_reaches`: what holds in every state.
- `fault_reference`: when nothing can go on any more, each job was finished once, as the
  reference says, or lost once in a kill.
-/

namespace Fika

open Lib Network Pipeline

universe u

namespace Bounded

variable {P : Type u} {d : Deployment P} {l : Limits} {t t' : State P} {m : FileJobShm}
  {b : Binary} {v : Str → Option Str} {kills : Prop} {fs : FileSystem}

/-! ## What a message knows -/

theorem Emits.judged {outs : List (Binary × FileJobShm)} (he : Emits d (Decide v) b m outs)
    (h : Judged d v b m) : ∀ p ∈ outs, Judged d v p.1 p.2 := by
  rintro ⟨b', r⟩ hp
  have hmem : (b', IpcMessage.fileJobShm r) ∈ ipcJobs outs := List.mem_map.mpr ⟨(b', r), hp, rfl⟩
  cases he with
  | qm hsent =>
    rw [← hsent {}] at hmem
    exact (localInvariant_judged d v).qm (h := ⟨[], []⟩) h hmem
  | detect detectors hdecide hsent =>
    rw [← hsent] at hmem
    exact (localInvariant_judged d v).detect (h := ⟨[], [⟨m, detectors⟩]⟩) hdecide
      List.mem_cons_self h hmem
  | parse m =>
    obtain ⟨rfl, rfl⟩ := Prod.mk.inj (List.mem_singleton.mp hp)
    exact (localInvariant_judged d v).parse (h := ⟨[], []⟩) h

/-- Every message keeps knowing what the reference says. -/
theorem judged_step {e : Event} (hp : Prepared d l (Decide v) t) (h : Everywhere (Judged d v) t)
    (hok : Faults kills (Decide v) e) (hs : (network d l).step t e = some t') :
    Everywhere (Judged d v) t' := by
  refine everywhere_step_of (fun op b m _ hm => ?_) (fun b i detectors m he hm => ?_) h hs
  · rcases client_sends hm with ⟨req, m', -, hsent, heq⟩ | ⟨b', -, heq⟩
    · obtain ⟨rfl, hmail⟩ := Prod.mk.inj heq
      obtain rfl := Mail.work.inj hmail
      exact (localInvariant_judged d v).ingest (h := ⟨[⟨req, m⟩], []⟩) hsent List.mem_cons_self
    · cases heq
  · refine (emits_handle hm.wellFormed hp.cached fun hb => ?_).judged hm
    subst hb he
    exact hok

/-! ## What qm has noted -/

/-- qm has finished what was retired as finished, and removed the files of what was
retired as DONE. -/
structure Logged (retired : List FileJobShm) (o : Objects P) : Prop where
  handled : o.handled.filter (fun r => r.Finished) = retired.filter fun r => r.Finished
  removed : o.removed = (retired.filter fun r => r.status = .done).map fun r => r.path.str

/-- Only qm retires a message that is finished. -/
theorem sent_of_finished (hm : WellFormed b m) (hfin : m.Finished) (detectors : List FileDetector)
    (o : Objects P) : ((network d l).handle b detectors o m).2 = [] ↔ b = .qm := by
  cases b with
  | qm => exact iff_of_true ((handleQm_sent o hm).mpr hfin) rfl
  | detect =>
    cases hm.discipline with
    | detecting hs ht =>
      rcases hfin with hfin | hfin <;> rw [hs] at hfin <;> cases hfin
  | parse =>
    cases hm.discipline with
    | parsing hs ht =>
      rcases hfin with hfin | hfin <;> rw [hs] at hfin <;> cases hfin

theorem filter_retired (hm : WellFormed b m) (detectors : List FileDetector) (o : Objects P)
    (retired : List FileJobShm) {p : FileJobShm → Prop} [DecidablePred p]
    (hp : p m → m.Finished) :
    (if ((network d l).handle b detectors o m).2 = [] then m :: retired else retired).filter
        (fun r => p r)
      = (if b = .qm ∧ p m then [m] else []) ++ retired.filter fun r => p r := by
  by_cases hpm : p m
  · have hsent := sent_of_finished (d := d) (l := l) hm (hp hpm) detectors o
    by_cases hb : b = .qm
    · rw [if_pos (hsent.mpr hb), if_pos ⟨hb, hpm⟩, List.filter_cons, if_pos (decide_eq_true hpm)]
      rfl
    · rw [if_neg (mt hsent.mp hb), if_neg fun h => hb h.1]
      rfl
  · rw [if_neg (fun h : b = .qm ∧ p m => hpm h.2)]
    split
    · rw [List.filter_cons, if_neg (by simpa using hpm)]
      rfl
    · rfl

theorem records_logged : (network d l).Records (fun _ => True) WellFormed
    fun _ retired (o : Objects P) => Logged retired o where
  client op entered retired o _ h := by
    cases op with
    | upload req =>
      show Logged retired (Bounded.ingest o req _).1
      unfold Bounded.ingest
      split <;> exact ⟨h.handled, h.removed⟩
    | pill b => exact h
  handle b i detectors entered retired o m _ hm h := by
    obtain ⟨-, hhandled, hremoved⟩ := handle_notes (d := d) (l := l) b detectors o m
    refine ⟨?_, ?_⟩
    · rw [hhandled, filter_retired hm detectors o retired id, h.handled]
    · rw [hremoved, filter_retired (p := fun r => r.status = .done) hm detectors o retired .inl,
        List.map_append, h.removed]
      split <;> rfl
  fresh b entered retired o h := by
    cases b <;> exact ⟨h.handled, h.removed⟩

theorem records_handled : (network d l).Records (fun _ => True) (Judged d v)
    fun _ _ (o : Objects P) => ∀ m ∈ o.handled, Judged d v .qm m where
  client op entered retired o _ h := by
    cases op with
    | upload req =>
      show ∀ m ∈ (Bounded.ingest o req _).1.handled, _
      unfold Bounded.ingest
      split <;> exact h
    | pill b => exact h
  handle b i detectors entered retired o m _ hm h := by
    cases b with
    | qm =>
      intro r hr
      rcases List.mem_cons.mp hr with rfl | hr
      · exact hm
      · exact h r hr
    | detect => exact h
    | parse => exact h
  fresh b entered retired o h := by
    cases b <;> exact h

/-! ## Every state -/

/-- What holds in every state when detectors decide, whatever is killed. -/
structure Course (d : Deployment P) (l : Limits) (v : Str → Option Str) (t : State P) : Prop where
  prepared : Prepared d l (Decide v) t
  judged : Everywhere (Judged d v) t
  handled : ∀ m ∈ t.shared.handled, Judged d v .qm m
  logged : Logged t.retired t.shared

theorem course_init (fs : FileSystem) : Course d l v (init fs : State P) where
  prepared := prepared_init fs
  judged := by
    refine ⟨?_, fun b => ⟨?_, ?_, ?_⟩⟩
    · intro b m hm
      cases hm
    · intro m hm
      cases hm
    · intro m hm
      cases hm
    · intro h hh
      cases hh
  handled m hm := by cases hm
  logged := ⟨rfl, rfl⟩

theorem Course.step {e : Event} (h : Course d l v t) (hok : Faults kills (Decide v) e)
    (hs : (network d l).step t e = some t') : Course d l v t' where
  prepared := h.prepared.step hok hs
  judged := judged_step h.prepared h.judged hok hs
  handled := records_step (R := fun _ _ o => ∀ m ∈ o.handled, Judged d v .qm m) records_handled
    h.judged h.handled trivial hs
  logged := records_step (R := fun _ retired o => Logged retired o) records_logged
    h.prepared.sound.wellFormed h.logged trivial hs

theorem course_of_reaches (h : Reaches (network d l).step (fun _ => Faults kills (Decide v))
    (init fs) t) : Course d l v t :=
  h.invariant (course_init fs) fun ha hok hs => ha.step hok hs

/-- qm has handled what was retired as finished, and finished nothing else. -/
theorem Course.mem_handled (h : Course d l v t) (hfin : m.Finished) :
    m ∈ t.shared.handled ↔ m ∈ t.retired := by
  have hmem : m ∈ t.shared.handled.filter (fun r => r.Finished) ↔
      m ∈ t.retired.filter fun r => r.Finished := by
    rw [h.logged.handled]
  simpa only [List.mem_filter, decide_eq_true hfin, and_true] using hmem

/-! ## When nothing can go on any more -/

/-- Jobs with different ids: a message under the id of a job carries this job. -/
theorem Audited.jobKey_eq {chains : List FileDetector → Prop} (h : Audited d l kills chains t)
    (hids : (t.shared.submitted.map fun sub => sub.msg.key).Nodup) {sub : Submission}
    (hsub : sub ∈ t.shared.submitted) (hm : m ∈ t.retired) (hkey : m.key = sub.msg.key) :
    jobKey m = jobKey sub.msg := by
  obtain ⟨sub', hsub', hjob⟩ := h.submitted_of_gone (.inl hm)
  have hsame : sub'.msg.key = sub.msg.key := (congrArg Prod.fst hjob).trans hkey
  obtain rfl := List.inj_on_of_nodup_map hids hsub' hsub hsame
  exact hjob.symm

theorem outcomes_eq (ha : Audited d l kills (Decide v) t) (hc : Course d l v t)
    (hids : (t.shared.submitted.map fun sub => sub.msg.key).Nodup) {sub : Submission}
    (hsub : sub ∈ t.shared.submitted) :
    outcomes t sub = List.replicate (settled t sub) (reference v d.create sub.msg.path.str) := by
  have hfilter : (t.shared.handled.filter fun m => m.Finished ∧ m.key = sub.msg.key)
      = t.retired.filter fun m => m.Finished ∧ jobKey m = jobKey sub.msg := by
    have hsplit : (t.shared.handled.filter fun m => m.Finished ∧ m.key = sub.msg.key)
        = (t.shared.handled.filter fun m => m.Finished).filter fun m => m.key = sub.msg.key := by
      rw [List.filter_filter]
      exact List.filter_congr fun m _ => by rw [Bool.decide_and, Bool.and_comm]
    rw [hsplit, hc.logged.handled, List.filter_filter]
    refine List.filter_congr fun m hm => ?_
    have hiff : m.key = sub.msg.key ↔ jobKey m = jobKey sub.msg :=
      ⟨ha.jobKey_eq hids hsub hm, congrArg Prod.fst⟩
    rw [decide_eq_decide.mpr hiff, Bool.decide_and, Bool.and_comm]
  refine List.eq_replicate_iff.mpr ⟨?_, fun status hstatus => ?_⟩
  · rw [outcomes, List.length_map, hfilter, ← List.countP_eq_length_filter, settled]
  · obtain ⟨m, hm, rfl⟩ := List.mem_map.mp hstatus
    have hm' := hm
    rw [hfilter] at hm'
    obtain ⟨hhandled, -⟩ := List.mem_filter.mp hm
    obtain ⟨-, hp⟩ := List.mem_filter.mp hm'
    obtain ⟨hfin, hjob⟩ := of_decide_eq_true hp
    have hpath : m.path.str = sub.msg.path.str := congrArg Prod.snd hjob
    rw [(hc.handled m hhandled).finished hfin, hpath]

/-- With nothing on its way, nothing carries a job. -/
theorem carried_of_quiet (h : Quiet t) (sub : Submission) : carried t sub = 0 := by
  have htotal : (custody jobKey).total t = 0 := by
    have hnode : ∀ b, (custody jobKey).node b (t.node b) = 0 := by
      intro b
      obtain ⟨hbox, hpool, hbusy⟩ := h.node b
      rw [Measure.node, hbox, hpool, hbusy]
      rfl
    rw [Measure.total, h.outside, Finset.sum_eq_zero fun b _ => hnode b]
    rfl
  rw [carried, htotal]
  rfl

/-- Deciding detectors swallow nothing. -/
theorem swallowed_of_decide (ha : Audited d l kills (Decide v) t) (sub : Submission) :
    swallowed t sub = 0 := by
  refine List.countP_eq_zero.mpr fun m hm hp => ?_
  obtain ⟨hnot, -⟩ := of_decide_eq_true hp
  rcases ha.recorded.retired m hm with ⟨-, hfin⟩ | ⟨-, detectors, hdecide, hloud⟩
  · exact hnot hfin
  · exact hloud (hdecide.nonThrowing.quiet m.path.str)

/-- **Kills lose jobs and change none**: when the detectors do not throw and give a verdict
`v` on each path, and no two uploads got the same id, then wherever all services take
messages and nothing can go on any more, whatever was killed, stopped and launched again on
the way, each submitted job was finished exactly once, with the status of the reference, or
it was lost in exactly one kill and not finished; and exactly the files of the jobs that
ended as DONE were removed. -/
theorem fault_reference (d : Deployment P) (l : Limits) (hl : l.Positive)
    (v : Str → Option Str) (fs : FileSystem) (t : State P)
    (h : Reaches (network d l).step (fun _ => Faults True (Decide v)) (init fs) t)
    (hids : (t.shared.submitted.map fun sub => sub.msg.key).Nodup)
    (hall : ∀ b, (t.node b).stage = .receiving) (hstuck : (network d l).Stuck t) :
    (∀ sub ∈ t.shared.submitted,
      outcomes t sub = [reference v d.create sub.msg.path.str] ∧ killed t sub = 0 ∨
        outcomes t sub = [] ∧ killed t sub = 1) ∧
    ∀ path, path ∈ t.shared.removed ↔
      ∃ sub ∈ t.shared.submitted, sub.msg.path.str = path ∧ outcomes t sub = [.done] := by
  have ha := audited_of_reaches h
  have hc := course_of_reaches h
  have hquiet := hstuck.quiet hl.capacity hl.threads hall
  have hnd : (t.shared.submitted.map fun sub => jobKey sub.msg).Nodup := by
    refine List.Nodup.of_map Prod.fst ?_
    rw [List.map_map]
    exact hids
  have hone : ∀ sub ∈ t.shared.submitted, settled t sub + killed t sub = 1 := by
    intro sub hsub
    have hfates := (ha.fates sub).trans (namesakes_eq_one hnd hsub)
    rw [carried_of_quiet hquiet, swallowed_of_decide ha] at hfates
    omega
  refine ⟨fun sub hsub => ?_, fun path => ?_⟩
  · have hsum := hone sub hsub
    rw [outcomes_eq ha hc hids hsub]
    rcases Nat.eq_zero_or_pos (settled t sub) with hzero | hpos
    · refine .inr ⟨?_, by omega⟩
      rw [hzero]
      rfl
    · have hsettled : settled t sub = 1 := by omega
      refine .inl ⟨?_, by omega⟩
      rw [hsettled]
      rfl
  · rw [hc.logged.removed]
    constructor
    · intro hpath
      obtain ⟨m, hm, rfl⟩ := List.mem_map.mp hpath
      obtain ⟨hretired, hp⟩ := List.mem_filter.mp hm
      have hdone : m.status = .done := of_decide_eq_true hp
      obtain ⟨sub, hsub, hjob⟩ := ha.submitted_of_gone (.inl hretired)
      have hsettled : 0 < settled t sub :=
        List.countP_pos_iff.mpr ⟨m, hretired, decide_eq_true ⟨.inl hdone, hjob.symm⟩⟩
      have hsum := hone sub hsub
      have hsettled' : settled t sub = 1 := by omega
      have hpath : sub.msg.path.str = m.path.str := congrArg Prod.snd hjob
      -- what qm finished as DONE it finished as the reference says
      have hhandled := (hc.mem_handled (.inl hdone)).mpr hretired
      have href := (hc.handled m hhandled).finished (.inl hdone)
      refine ⟨sub, hsub, hpath, ?_⟩
      rw [outcomes_eq ha hc hids hsub, hsettled', hpath, ← href, hdone]
      rfl
    · rintro ⟨sub, hsub, rfl, hdone⟩
      have hmem : Status.done ∈ outcomes t sub := by
        rw [hdone]
        exact List.mem_singleton_self _
      obtain ⟨m, hm, hstatus⟩ := List.mem_map.mp hmem
      obtain ⟨hhandled, hp⟩ := List.mem_filter.mp hm
      obtain ⟨hfin, hkey⟩ := of_decide_eq_true hp
      have hretired := (hc.mem_handled hfin).mp hhandled
      refine List.mem_map.mpr ⟨m, List.mem_filter.mpr ⟨hretired, decide_eq_true hstatus⟩, ?_⟩
      exact congrArg Prod.snd (ha.jobKey_eq hids hsub hretired hkey)

/-- Detect is killed with the job of the first upload in its hands, and launched again. -/
def replacedEvents : List Event :=
  killedEvents ++ [.relaunch .detect, .client (.upload laterRequest)] ++ sampleEvents.tail

def replacedState : Option (State Unit) :=
  run (network sampleDeployment (mainLimits 4)).step (init fun _ => none) replacedEvents

theorem faults_replacedEvents :
    ∀ e ∈ replacedEvents, Faults True (Decide fun _ => some (lit "application/pdf")) e := by
  intro e he
  simp only [replacedEvents, killedEvents, sampleEvents, List.tail_cons, List.cons_append,
    List.nil_append, List.mem_cons, List.not_mem_nil, or_false] at he
  rcases he with rfl | rfl | rfl | rfl | rfl | rfl | rfl | rfl | rfl | rfl | rfl | rfl | rfl | rfl |
    rfl | rfl | rfl | rfl | rfl | rfl | rfl | rfl | rfl | rfl | rfl | rfl | rfl | rfl | rfl | rfl |
    rfl
  all_goals first | trivial | exact decide_sampleDetectors

/-- The first job is lost, the second one has come through. -/
theorem fault_reference_replaced :
    ∃ t, replacedState = some t ∧ t.shared.submitted.map (outcomes t) = [[.done], []] ∧
      ∀ sub ∈ t.shared.submitted,
        outcomes t sub = [.done] ∧ killed t sub = 0 ∨ outcomes t sub = [] ∧ killed t sub = 1 := by
  obtain ⟨t, ht⟩ := Option.isSome_iff_exists.mp (show replacedState.isSome = true by rfl)
  have hview : replacedState.map (fun t => (t.shared.submitted.map (outcomes t), t.outside,
      decide (t.shared.submitted.map fun sub => sub.msg.key).Nodup))
      = some ([[.done], []], [], true) := by rfl
  have hnode : ∀ b, replacedState.map (fun t => ((t.node b).stage, (t.node b).box,
      (t.node b).pool, (t.node b).busy)) = some (.receiving, [], [], []) := by
    intro b
    cases b <;> rfl
  simp only [ht, Option.map_some, Option.some.injEq, Prod.mk.injEq, decide_eq_true_eq]
    at hview hnode
  have hquiet : Quiet t := ⟨hview.2.1, fun b => (hnode b).2⟩
  exact ⟨t, ht, hview.1, (fault_reference sampleDeployment (mainLimits 4)
    (positive_mainLimits (by decide)) (fun _ => some (lit "application/pdf")) (fun _ => none) t
    (reaches_of_run (runOk_of_forall fun e he _ => faults_replacedEvents e he) ht) hview.2.2
    (fun b => (hnode b).1) (hquiet.stuck fun b => (hnode b).1)).1⟩

end Bounded

end Fika
