import Fika.Pipeline.Model

/-!
# Invariants of every message in flight

Nearly everything the pipeline guarantees is a property of single messages: what
a job message may look like depends only on the binary that holds it and on what
was submitted. `LocalInvariant` says what each of the five writers has to respect
for such a property, and `LocalInvariant.reachable` concludes that it holds of
every message anywhere, in every reachable state.

- `Discipline`: the status and type a message has in each binary's hands.
- `queue_discipline`: it holds in every reachable state, so the state machine
  accepts every event qm feeds it and no blank or finished job is dispatched.
- `WellFormed`: the discipline together with terminated arrays, used by the
  later developments.
-/

namespace Fika

open Lib

universe u

namespace Pipeline

variable {P : Type u} {d : Deployment P} {s s' : Pipeline P} {b b' : Binary} {m : FileJobShm}

/-! ## Where a message is -/

/-- `b` holds the job message `m`: in its queue or in its pool. -/
def Holds (s : Pipeline P) (b : Binary) (m : FileJobShm) : Prop :=
  .fileJobShm m ∈ s.queue b ∨ m ∈ (s.service b).pool

theorem holds_send {msg : IpcMessage} (h : (s.send b msg).Holds b' m) :
    s.Holds b' m ∨ (b', IpcMessage.fileJobShm m) = (b, msg) := by
  rcases h with hq | hp
  · by_cases hb : b' = b
    · subst hb
      rw [send_queue_self] at hq
      rcases List.mem_append.mp hq with hq | hq
      · exact .inl (.inl hq)
      · exact .inr (by rw [List.mem_singleton.mp hq])
    · rw [send_queue_other _ hb] at hq
      exact .inl (.inl hq)
  · exact .inl (.inr hp)

theorem holds_sendAll {msgs : List (Binary × IpcMessage)} (h : (s.sendAll msgs).Holds b m) :
    s.Holds b m ∨ (b, .fileJobShm m) ∈ msgs := by
  induction msgs generalizing s with
  | nil => exact .inl h
  | cons p msgs ih =>
    rcases ih (s := s.send p.1 p.2) h with hs | hmem
    · rcases holds_send hs with hs | heq
      · exact .inl hs
      · exact .inr (heq ▸ List.mem_cons_self)
    · exact .inr (List.mem_cons_of_mem _ hmem)

theorem holds_setService {sv : ServiceState} (hsub : ∀ x ∈ sv.pool, x ∈ (s.service b).pool)
    (h : (s.setService b sv).Holds b' m) : s.Holds b' m := by
  rcases h with hq | hp
  · exact .inl hq
  · by_cases hb : b' = b
    · subst hb
      rw [setService_service_self] at hp
      exact .inr (hsub m hp)
    · rw [setService_service_other _ hb] at hp
      exact .inr hp

theorem holds_unpost {i : Nat} (h : (s.unpost b i).Holds b' m) : s.Holds b' m :=
  holds_setService (fun _ hx => List.mem_of_mem_eraseIdx hx) h

theorem holds_receive {msg : IpcMessage} {rest : List IpcMessage} (hq : s.queue b = msg :: rest)
    (h : (s.receive b msg rest).Holds b' m) : s.Holds b' m := by
  rcases h with hmem | hp
  · by_cases hb : b' = b
    · subst hb
      rw [receive_queue_self] at hmem
      exact .inl (hq ▸ List.mem_cons_of_mem _ hmem)
    · rw [receive_queue_other _ _ hb] at hmem
      exact .inl hmem
  · by_cases hb : b' = b
    · subst hb
      rw [receive_service_self] at hp
      cases msg with
      | poisonPill => exact .inr hp
      | fileJobShm job =>
        rcases List.mem_append.mp hp with hp | hp
        · exact .inr hp
        · rw [List.mem_singleton.mp hp]
          exact .inl (hq ▸ List.mem_cons_self)
    · rw [receive_service_other _ _ hb] at hp
      exact .inr hp

theorem holds_relaunch (h : (s.relaunch b).Holds b' m) : s.Holds b' m := by
  cases b <;> exact holds_setService (fun _ hx => absurd hx List.not_mem_nil) h

/-- Sending touches the queues only. -/
theorem sendAll_eq (s : Pipeline P) (msgs : List (Binary × IpcMessage)) :
    s.sendAll msgs = { s with queue := (s.sendAll msgs).queue } := by
  induction msgs generalizing s with
  | nil => rfl
  | cons p msgs ih => exact ih (s.send p.1 p.2)

@[simp] theorem sendAll_submitted (msgs : List (Binary × IpcMessage)) :
    (s.sendAll msgs).submitted = s.submitted := by rw [sendAll_eq]

@[simp] theorem sendAll_detections (msgs : List (Binary × IpcMessage)) :
    (s.sendAll msgs).detections = s.detections := by rw [sendAll_eq]

@[simp] theorem sendAll_handled (msgs : List (Binary × IpcMessage)) :
    (s.sendAll msgs).handled = s.handled := by rw [sendAll_eq]

@[simp] theorem sendAll_parsers (msgs : List (Binary × IpcMessage)) :
    (s.sendAll msgs).parsers = s.parsers := by rw [sendAll_eq]

@[simp] theorem sendAll_removed (msgs : List (Binary × IpcMessage)) :
    (s.sendAll msgs).removed = s.removed := by rw [sendAll_eq]

@[simp] theorem sendAll_fs (msgs : List (Binary × IpcMessage)) :
    (s.sendAll msgs).fs = s.fs := by rw [sendAll_eq]

@[simp] theorem sendAll_service (msgs : List (Binary × IpcMessage)) :
    (s.sendAll msgs).service = s.service := by rw [sendAll_eq]

/-- qm touches no file but that of a finished job. -/
theorem handleQm_fs (s : Pipeline P) (m : FileJobShm) :
    (s.handleQm m).fs = if m.status = .done then removeFile m.path.str s.fs else s.fs := by
  simp only [handleQm, sendAll_fs, processResults_removeFile]
  by_cases hm : m.status = .done
  · simp only [if_pos hm]
  · simp only [if_neg hm]

/-- Only an accepted upload adds a submission. -/
theorem submitted_cases {a : Action} (hs : step d s a = some s') :
    s'.submitted = s.submitted ∨
      ∃ req m, a = .upload req ∧ (Fika.upload d.config req s.fs).sent = some m ∧
        s'.submitted = ⟨req, m⟩ :: s.submitted := by
  cases step_spec hs with
  | accepted hsent => exact .inr ⟨_, _, rfl, hsent, rfl⟩
  | ranQm hpool => exact .inl (sendAll_submitted _)
  | ranDetect hpool => exact .inl (sendAll_submitted _)
  | ranParse hpool => exact .inl (sendAll_submitted _)
  | @restarted b hphase => cases b <;> exact .inl rfl
  | _ => exact .inl rfl

/-- The submissions of a state are among those of the next one. -/
theorem submitted_step {a : Action} (hs : step d s a = some s') :
    s.submitted.Sublist s'.submitted := by
  rcases submitted_cases hs with heq | ⟨req, m, -, -, heq⟩
  · exact heq ▸ List.Sublist.refl _
  · exact heq ▸ List.sublist_cons_self _ _

/-! ## The parser cache -/

theorem cached_step {a : Action} (h : s.parsers.Cached d.create) (hs : step d s a = some s') :
    s'.parsers.Cached d.create := by
  cases step_spec hs with
  | ranQm hpool =>
    rw [handleQm, sendAll_parsers]
    exact h
  | ranDetect hpool =>
    rw [handleDetect, sendAll_parsers]
    exact h
  | ranParse hpool =>
    rw [handleParse, sendAll_parsers]
    exact cached_parseHandle h _
  | @restarted b hphase =>
    cases b with
    | qm => exact h
    | detect => exact h
    | parse => exact cached_empty d.create
  | _ => exact h

/-- The registry of a reachable state holds only what `create` makes. -/
theorem Reachable.cached {chains : List FileDetector → Prop} (h : Reachable d chains s) :
    s.parsers.Cached d.create := by
  obtain ⟨fs, hr⟩ := h
  exact hr.invariant (cached_empty d.create) fun hc _ hs => cached_step hc hs

/-! ## Local invariants -/

/-- What has happened so far, as far as a property of messages may refer to it. -/
structure History where
  submitted : List Submission
  detections : List Detection

/-- `h'` is a later history. -/
structure History.Le (h h' : History) : Prop where
  submitted : h.submitted ⊆ h'.submitted
  detections : h.detections ⊆ h'.detections

def history (s : Pipeline P) : History := ⟨s.submitted, s.detections⟩

/-- `Φ` holds of every job message in flight, and held of every message qm has
handled. -/
structure EveryMessage (Φ : History → Binary → FileJobShm → Prop) (s : Pipeline P) : Prop where
  held : ∀ {b : Binary} {m : FileJobShm}, s.Holds b m → Φ s.history b m
  handled : ∀ {m : FileJobShm}, m ∈ s.handled → Φ s.history .qm m

/-- What every writer of the pipeline owes to a property `Φ` of single messages:
ingestd establishes it, each handler carries it from the message it handles to
the messages it sends, and what happens later does not spoil it. -/
structure LocalInvariant (d : Deployment P) (chains : List FileDetector → Prop)
    (Φ : History → Binary → FileJobShm → Prop) : Prop where
  mono : ∀ {h h' : History} {b : Binary} {m : FileJobShm}, h.Le h' → Φ h b m → Φ h' b m
  ingest : ∀ {h : History} {req : UploadRequest} {fs : FileSystem} {m : FileJobShm},
    (Fika.upload d.config req fs).sent = some m → ⟨req, m⟩ ∈ h.submitted → Φ h .qm m
  qm : ∀ {h : History} {q : Qm} {m r : FileJobShm} {b : Binary},
    Φ h .qm m → (b, .fileJobShm r) ∈ (processResults q m).sent → Φ h b r
  detect : ∀ {h : History} {detectors : List FileDetector} {m r : FileJobShm} {b : Binary},
    chains detectors → ⟨m, detectors⟩ ∈ h.detections → Φ h .detect m →
      (b, .fileJobShm r) ∈ detectReplies detectors m → Φ h b r
  parse : ∀ {h : History} {m : FileJobShm},
    Φ h .parse m → Φ h .qm (parseReply d.create m)

/-- Carry `EveryMessage` over a step, given what the step can have added. -/
theorem EveryMessage.extend {Φ : History → Binary → FileJobShm → Prop} (h : EveryMessage Φ s)
    (hmono : ∀ {b : Binary} {m : FileJobShm}, Φ s.history b m → Φ s'.history b m)
    (hheld : ∀ {b : Binary} {m : FileJobShm}, s'.Holds b m → s.Holds b m ∨ Φ s'.history b m)
    (hhandled : ∀ {m : FileJobShm}, m ∈ s'.handled → m ∈ s.handled ∨ Φ s'.history .qm m) :
    EveryMessage Φ s' where
  held hm := (hheld hm).elim (fun hold => hmono (h.held hold)) id
  handled hm := (hhandled hm).elim (fun hold => hmono (h.handled hold)) id

theorem LocalInvariant.step {chains : List FileDetector → Prop}
    {Φ : History → Binary → FileJobShm → Prop} (hΦ : LocalInvariant d chains Φ)
    {a : Action} (hcached : s.parsers.Cached d.create) (h : EveryMessage Φ s)
    (hok : Chains chains s a) (hs : step d s a = some s') : EveryMessage Φ s' := by
  cases step_spec hs with
  | @accepted req m hsent =>
    refine h.extend (hΦ.mono ⟨List.subset_cons_self _ _, List.Subset.refl _⟩) (fun hm => ?_) .inl
    rcases holds_send hm with hold | heq
    · exact .inl hold
    · cases heq
      exact .inr (hΦ.ingest hsent List.mem_cons_self)
  | refused hsent => exact h.extend id .inl .inl
  | pill b =>
    refine h.extend id (fun hm => ?_) .inl
    rcases holds_send hm with hold | heq
    · exact .inl hold
    · cases heq
  | received hphase hqueue =>
    exact h.extend id (fun hm => .inl (holds_receive hqueue hm)) .inl
  | @ranQm i m hpool =>
    -- the handled message came from the pool, so `Φ` holds of it
    have hin := h.held (.inr (List.mem_of_getElem? hpool))
    have hhist : ((s.unpost .qm i).handleQm m).history = s.history := by
      rw [history, handleQm, sendAll_submitted, sendAll_detections]
      rfl
    refine h.extend (fun hm => hhist ▸ hm) (fun hm => ?_) (fun hm => ?_)
    · rcases holds_sendAll hm with hold | hmem
      · exact .inl (holds_unpost hold)
      · exact .inr (hhist ▸ hΦ.qm hin hmem)
    · rw [handleQm, sendAll_handled] at hm
      rcases List.mem_cons.mp hm with rfl | hm
      · exact .inr (hhist ▸ hin)
      · exact .inl hm
  | @ranDetect i detectors m hpool =>
    have hin := h.held (.inr (List.mem_of_getElem? hpool))
    -- this step records its detect call, so the history grows
    have hhist : ((s.unpost .detect i).handleDetect detectors m).history
        = ⟨s.submitted, ⟨m, detectors⟩ :: s.detections⟩ := by
      rw [history, handleDetect, sendAll_submitted, sendAll_detections]
      rfl
    have hle : s.history.Le ⟨s.submitted, ⟨m, detectors⟩ :: s.detections⟩ :=
      ⟨List.Subset.refl _, List.subset_cons_self _ _⟩
    refine h.extend (fun hm => hhist ▸ hΦ.mono hle hm) (fun hm => ?_) (fun hm => ?_)
    · rcases holds_sendAll hm with hold | hmem
      · exact .inl (holds_unpost hold)
      · exact .inr (hhist ▸ hΦ.detect hok List.mem_cons_self (hΦ.mono hle hin) hmem)
    · rw [handleDetect, sendAll_handled] at hm
      exact .inl hm
  | @ranParse i m hpool =>
    have hin := h.held (.inr (List.mem_of_getElem? hpool))
    have hhist : ((s.unpost .parse i).handleParse d.create m).history = s.history := by
      rw [history, handleParse, sendAll_submitted, sendAll_detections]
      rfl
    refine h.extend (fun hm => hhist ▸ hm) (fun hm => ?_) (fun hm => ?_)
    · rcases holds_sendAll hm with hold | hmem
      · exact .inl (holds_unpost hold)
      · -- the cache is faithful, so the reply is that of `create`
        have hsent : (s.unpost .parse i).parsers.Cached d.create := hcached
        rw [parseHandle_sent hsent] at hmem
        cases List.mem_singleton.mp hmem
        exact .inr (hhist ▸ hΦ.parse hin)
    · rw [handleParse, sendAll_handled] at hm
      exact .inl hm
  | joined hphase hpool =>
    refine h.extend id (fun hm => .inl (holds_setService (fun _ hx => ?_) hm)) .inl
    exact absurd hx List.not_mem_nil
  | @restarted b hphase =>
    cases b <;> exact h.extend id (fun hm => .inl (holds_relaunch hm)) .inl

/-- **A local invariant holds of every message in every reachable state.** -/
theorem LocalInvariant.reachable {chains : List FileDetector → Prop}
    {Φ : History → Binary → FileJobShm → Prop} (hΦ : LocalInvariant d chains Φ)
    (h : Reachable d chains s) : EveryMessage Φ s := by
  obtain ⟨fs, hr⟩ := h
  have hinit : EveryMessage Φ (init fs : Pipeline P) := by
    refine ⟨fun hm => ?_, fun hm => nomatch hm⟩
    rcases hm with hm | hm <;> cases hm
  exact hr.invariant_with (fun hra => Reachable.cached ⟨fs, hra⟩) hinit
    fun hc hE hok hs => hΦ.step hc hE hok hs

/-! ## The discipline of the queues -/

/-- The status and type of a message in the hands of each binary. -/
inductive Discipline : Binary → FileJobShm → Prop where
  | submitted {m : FileJobShm} (hs : m.status = .new) : Discipline .qm m
  | detected {m : FileJobShm} (hs : m.status = .detecting) (ht : m.type = .detector) :
      Discipline .qm m
  | parsed {m : FileJobShm} (hs : m.status = .done) (ht : m.type = .parser) : Discipline .qm m
  | failed {m : FileJobShm} (hs : m.status = .failed) : Discipline .qm m
  | detecting {m : FileJobShm} (hs : m.status = .detecting) (ht : m.type = .detector) :
      Discipline .detect m
  | parsing {m : FileJobShm} (hs : m.status = .parsing) (ht : m.type = .parser) :
      Discipline .parse m

/-- What qm sends for a message that keeps the discipline. -/
theorem mem_qm_sent {q : Qm} {r : FileJobShm} (h : Discipline .qm m)
    (hr : (b, .fileJobShm r) ∈ (processResults q m).sent) :
    (m.status = .new ∧ b = .detect ∧ r = forwarded m .detecting .detector) ∨
      (m.status = .detecting ∧ b = .parse ∧ r = forwarded m .parsing .parser) := by
  cases h with
  | submitted hs =>
    rw [(processResults_new hs).1] at hr
    cases List.mem_singleton.mp hr
    exact .inl ⟨hs, rfl, rfl⟩
  | detected hs ht =>
    rw [(processResults_detecting hs).1] at hr
    cases List.mem_singleton.mp hr
    exact .inr ⟨hs, rfl, rfl⟩
  | parsed hs ht =>
    rw [(processResults_done hs).1] at hr
    cases hr
  | failed hs =>
    rw [(processResults_failed hs).1] at hr
    cases hr

/-- The state machine accepts whatever event qm derives from such a message. -/
theorem accepted_of_discipline (q : Qm) (h : Discipline .qm m) :
    (processResults q m).accepted ≠ some false := by
  cases h with
  | submitted hs =>
    rw [(processResults_new hs).2.1]
    decide
  | detected hs ht =>
    rw [(processResults_detecting hs).2.1]
    decide
  | parsed hs ht =>
    rw [(processResults_done hs).2.1]
    decide
  | failed hs =>
    rw [(processResults_failed hs).2.1]
    decide

/-- What detect sends, whether or not a detector throws. -/
theorem mem_detectReplies {detectors : List FileDetector} {r : FileJobShm}
    (hr : (b, .fileJobShm r) ∈ detectReplies detectors m) :
    b = .qm ∧ QuietChain detectors m.path.str ∧ r = detectReply detectors m := by
  by_cases hquiet : QuietChain detectors m.path.str
  · rw [detectReplies_quiet hquiet] at hr
    cases List.mem_singleton.mp hr
    exact ⟨rfl, hquiet, rfl⟩
  · rw [detectReplies_loud hquiet] at hr
    cases hr

theorem discipline_detectReply {detectors : List FileDetector} (h : Discipline .detect m) :
    Discipline .qm (detectReply detectors m) := by
  cases h with
  | detecting hs ht =>
    cases hv : (verdict detectors m.path.str).isSome with
    | true => exact .detected (by rw [detectReply, hv]; rfl) ht
    | false => exact .failed (by rw [detectReply, hv]; rfl)

theorem discipline_parseReply (h : Discipline .parse m) :
    Discipline .qm (parseReply d.create m) := by
  cases h with
  | parsing hs ht =>
    cases hc : (d.create m.mime).isSome with
    | true => exact .parsed (by rw [parseReply, hc]; rfl) ht
    | false => exact .failed (by rw [parseReply, hc]; rfl)

/-- Four writers in four processes keep the discipline, however detectors
behave. -/
theorem localInvariant_discipline (d : Deployment P) (chains : List FileDetector → Prop) :
    LocalInvariant d chains fun _ b m => Discipline b m where
  mono _ h := h
  ingest hsent _ := by
    rw [upload_sent hsent]
    exact .submitted rfl
  qm h hr := by
    rcases mem_qm_sent h hr with ⟨-, rfl, rfl⟩ | ⟨-, rfl, rfl⟩
    · exact .detecting rfl rfl
    · exact .parsing rfl rfl
  detect _ _ h hr := by
    obtain ⟨rfl, -, rfl⟩ := mem_detectReplies hr
    exact discipline_detectReply h
  parse h := discipline_parseReply h

theorem Reachable.discipline {chains : List FileDetector → Prop} (h : Reachable d chains s)
    (hm : s.Holds b m) : Discipline b m :=
  ((localInvariant_discipline d chains).reachable h).held hm

/-- A message as every process may rely on it: the discipline, and arrays whose
C strings end inside them. -/
structure WellFormed (b : Binary) (m : FileJobShm) : Prop where
  discipline : Discipline b m
  terminated : m.Terminated

/-- What qm forwards was written by `from_file_job`. -/
theorem terminated_forwarded (m : FileJobShm) (status : Status) (type : JobType) :
    (forwarded m status type).Terminated where
  jobId := (terminated_fromFileJob (toFileJob m)).jobId
  path := (terminated_fromFileJob (toFileJob m)).path

theorem localInvariant_wellFormed (d : Deployment P) (chains : List FileDetector → Prop) :
    LocalInvariant d chains fun _ b m => WellFormed b m where
  mono _ h := h
  ingest hsent hsub := by
    refine ⟨(localInvariant_discipline d chains).ingest hsent hsub, ?_⟩
    rw [upload_sent hsent]
    exact terminated_newJob _ _
  qm {hist _ _ _ _} h hr := by
    refine ⟨(localInvariant_discipline d chains).qm (h := hist) h.discipline hr, ?_⟩
    rcases mem_qm_sent h.discipline hr with ⟨-, -, rfl⟩ | ⟨-, -, rfl⟩
    · exact terminated_forwarded _ _ _
    · exact terminated_forwarded _ _ _
  detect hD hdet h hr := by
    refine ⟨(localInvariant_discipline d chains).detect hD hdet h.discipline hr, ?_⟩
    obtain ⟨-, -, rfl⟩ := mem_detectReplies hr
    exact ⟨h.terminated.jobId, h.terminated.path⟩
  parse h := ⟨discipline_parseReply h.discipline, h.terminated.jobId, h.terminated.path⟩

theorem Reachable.wellFormed {chains : List FileDetector → Prop} (h : Reachable d chains s) :
    EveryMessage (fun _ b m => WellFormed b m) s :=
  (localInvariant_wellFormed d chains).reachable h

/-- **Queue discipline**: in every reachable state of the closed pipeline,
whatever the detectors return or throw, the three queues keep their statuses and
types; so every event qm derives from a message it has taken is accepted, and no
blank, finished or failed job is on a worker queue. -/
theorem queue_discipline (d : Deployment P) (s : Pipeline P)
    (h : Reachable d (fun _ => True) s) :
    (∀ m, .fileJobShm m ∈ s.queue .detect → m.status = .detecting ∧ m.type = .detector) ∧
    (∀ m, .fileJobShm m ∈ s.queue .parse → m.status = .parsing ∧ m.type = .parser) ∧
    (∀ m, .fileJobShm m ∈ s.queue .qm →
      (m.status = .new ∨ (m.status = .detecting ∧ m.type = .detector) ∨
        (m.status = .done ∧ m.type = .parser) ∨ m.status = .failed) ∧ m.status ≠ .parsing) ∧
    (∀ m ∈ (s.service .qm).pool, (processResults s.qm m).accepted ≠ some false) ∧
    (∀ b m, b ≠ .qm → .fileJobShm m ∈ s.queue b →
      m ≠ {} ∧ m.status ≠ .done ∧ m.status ≠ .failed) := by
  refine ⟨fun m hm => ?_, fun m hm => ?_, fun m hm => ?_, fun m hm => ?_, fun b m hb hm => ?_⟩
  · cases h.discipline (.inl hm) with
    | detecting hs ht => exact ⟨hs, ht⟩
  · cases h.discipline (.inl hm) with
    | parsing hs ht => exact ⟨hs, ht⟩
  · cases h.discipline (.inl hm) with
    | submitted hs => exact ⟨.inl hs, by rw [hs]; decide⟩
    | detected hs ht => exact ⟨.inr (.inl ⟨hs, ht⟩), by rw [hs]; decide⟩
    | parsed hs ht => exact ⟨.inr (.inr (.inl ⟨hs, ht⟩)), by rw [hs]; decide⟩
    | failed hs => exact ⟨.inr (.inr (.inr hs)), by rw [hs]; decide⟩
  · exact accepted_of_discipline s.qm (h.discipline (.inr hm))
  · -- a blank message has status NEW
    have hstatus : m.status = .detecting ∨ m.status = .parsing := by
      cases h.discipline (.inl hm) with
      | detecting hs ht => exact .inl hs
      | parsing hs ht => exact .inr hs
      | _ => exact absurd rfl hb
    refine ⟨?_, ?_, ?_⟩
    · rintro rfl
      rcases hstatus with hs | hs <;> cases hs
    · rcases hstatus with hs | hs <;> rw [hs] <;> decide
    · rcases hstatus with hs | hs <;> rw [hs] <;> decide

/-- The discipline at the first dispatch: the one job on its way to detect. -/
theorem queue_discipline_dispatched :
    ∃ s, sampleState 3 = some s ∧ (s.queue .detect).length = 1 ∧
      ∀ m, .fileJobShm m ∈ s.queue .detect → m.status = .detecting ∧ m.type = .detector := by
  obtain ⟨s, hs⟩ := Option.isSome_iff_exists.mp (show (sampleState 3).isSome = true by rfl)
  have hlen : (sampleState 3).map (fun s => (s.queue .detect).length) = some 1 := by rfl
  rw [hs] at hlen
  exact ⟨s, hs, Option.some.inj hlen,
    (queue_discipline sampleDeployment s (sampleState_reachable trivial hs)).1⟩

end Pipeline

end Fika
