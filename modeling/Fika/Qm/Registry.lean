import Mathlib.Data.List.Induction
import Fika.Qm.Qm

/-!
# qm's registry (`qm::jobs_in_memory`)

`add_job` stores the job before it submits it to the state machine, which works
on the local copy; no other operation of `qm` touches the registry, the two
terminal branches included. What the registry is for is read off a ghost record
that runs beside it: which jobs are in flight, and what qm said last about each.

- `Tracked`: a qm with that record; `track`: the one of a history of messages.
- `Mirrors`: the registry has an entry exactly for the jobs in flight, with the
  status and type of the last message about the job.
- `jobsInMemory_track`: what the registry really holds, every job ever accepted
  as it was before its first event.
- `registry_mirrors_iff`: so it mirrors the jobs in flight exactly as long as
  there has never been one.
-/

namespace Fika

open Lib

/-! ## Messages and what is kept of them -/

/-- A qm, the jobs in flight (a NEW message puts a job in flight, a DONE or
FAILED one takes it out), and the last message qm emitted about each job. -/
structure Tracked where
  qm : Qm := {}
  inFlight : Str → Bool := fun _ => false
  emitted : Str → Option FileJobShm := fun _ => none

namespace Tracked

/-- Whether a job is in flight after a message about it. -/
def flying (before : Bool) : Status → Bool
  | .new => true
  | .detecting => before
  | .parsing => before
  | .done => false
  | .failed => false

/-- One call of `qm::process_results`. -/
def handle (t : Tracked) (m : FileJobShm) : Tracked :=
  let r := processResults t.qm m
  { qm := r.qm
    inFlight := fun id => if id = m.jobId.str then flying (t.inFlight id) m.status else t.inFlight id
    emitted := fun id => if id = m.jobId.str then some r.msg else t.emitted id }

/-- The registry mirrors the jobs in flight. -/
structure Mirrors (t : Tracked) : Prop where
  entry_iff : ∀ id, (t.qm.jobsInMemory id).isSome = true ↔ t.inFlight id = true
  current : ∀ id job, t.qm.jobsInMemory id = some job →
    ∃ msg, t.emitted id = some msg ∧ job.status = msg.status ∧ job.type = msg.type

end Tracked

/-- The state after a history of messages, from an empty qm. -/
def track (ms : List FileJobShm) : Tracked := ms.foldl Tracked.handle {}

theorem track_concat (ms : List FileJobShm) (m : FileJobShm) :
    track (ms ++ [m]) = (track ms).handle m := by
  rw [track, List.foldl_append]
  rfl

/-! ## What one message does -/

variable {q : Qm} {m : FileJobShm}

/-- Only a NEW message is written to the registry, with the status NEW. -/
theorem jobsInMemory_processResults (q : Qm) (m : FileJobShm) (id : Str) :
    (processResults q m).qm.jobsInMemory id =
      if m.status = .new ∧ id = m.jobId.str then some (toFileJob m) else q.jobsInMemory id := by
  have hst : (toFileJob m).status = m.status := rfl
  rw [processResults, hst]
  cases hm : m.status with
  | new =>
    have hjob : ({ toFileJob m with status := .new } : FileJob) = toFileJob m := by
      rw [← hm, ← hst]
    show (if id = m.jobId.str then some { toFileJob m with status := .new }
      else q.jobsInMemory id) = _
    rw [hjob]
    simp only [true_and]
  | detecting => rfl
  | parsing => rfl
  | done => rfl
  | failed => rfl

/-- What qm says about a job that stays in flight never has the status NEW: the
state machine has moved it on. -/
theorem msg_status_ne_new (h : m.status = .new ∨ m.status = .detecting ∨ m.status = .parsing) :
    (processResults q m).msg.status ≠ .new := by
  rcases h with hs | hs | hs
  · have hst : (toFileJob m).status = .new := hs
    rw [processResults, hst]
    show (handleEvent { toFileJob m with status := .new } .submit).msg.status ≠ .new
    rw [handleEvent, apply_submit rfl]
    exact fun hn => Status.noConfusion hn
  · have hst : (toFileJob m).status = .detecting := hs
    rw [processResults, hst]
    show (handleEvent (toFileJob m) .detectionOk).msg.status ≠ .new
    rw [handleEvent, apply_detectionOk hst]
    exact fun hn => Status.noConfusion hn
  · have hst : (toFileJob m).status = .parsing := hs
    rw [processResults, hst]
    show (handleEvent (toFileJob m) .parseOk).msg.status ≠ .new
    rw [handleEvent, apply_parseOk hst]
    exact fun hn => Status.noConfusion hn

/-! ## What a history leaves in the registry -/

/-- The registry holds the jobs of the NEW messages, each as it was before it
was submitted, and nothing is ever taken out. -/
theorem jobsInMemory_track (ms : List FileJobShm) (id : Str) :
    ((track ms).qm.jobsInMemory id).isSome = true ↔
      ∃ m ∈ ms, m.status = .new ∧ id = m.jobId.str := by
  induction ms using List.reverseRecOn with
  | nil => exact ⟨fun h => (nomatch h), fun ⟨m, hm, _⟩ => nomatch hm⟩
  | append_singleton ms m ih =>
    rw [track_concat, Tracked.handle, jobsInMemory_processResults]
    constructor
    · intro h
      split at h
      · rename_i hnew
        exact ⟨m, List.mem_append_right _ List.mem_cons_self, hnew⟩
      · obtain ⟨m', hm', hnew⟩ := ih.mp h
        exact ⟨m', List.mem_append_left _ hm', hnew⟩
    · rintro ⟨m', hm', hnew⟩
      split
      · rfl
      · rename_i hnot
        rcases List.mem_append.mp hm' with hold | hlast
        · exact ih.mpr ⟨m', hold, hnew⟩
        · rw [List.mem_singleton.mp hlast] at hnew
          exact absurd hnew hnot

/-- Every entry has the status the job had before its first event. -/
theorem status_of_jobsInMemory {ms : List FileJobShm} {id : Str} {job : FileJob}
    (h : (track ms).qm.jobsInMemory id = some job) : job.status = .new := by
  induction ms using List.reverseRecOn with
  | nil => cases h
  | append_singleton ms m ih =>
    rw [track_concat, Tracked.handle, jobsInMemory_processResults] at h
    split at h
    · rename_i hnew
      rw [← Option.some.inj h]
      exact hnew.1
    · exact ih h

/-- A job in flight was accepted as NEW, and what qm said last about it is not. -/
theorem emitted_of_inFlight {ms : List FileJobShm} {id : Str}
    (h : (track ms).inFlight id = true) :
    (∃ m ∈ ms, m.status = .new) ∧
      ∀ msg, (track ms).emitted id = some msg → msg.status ≠ .new := by
  induction ms using List.reverseRecOn with
  | nil => cases h
  | append_singleton ms m ih =>
    rw [track_concat, Tracked.handle] at h
    by_cases hid : id = m.jobId.str
    · simp only [if_pos hid] at h
      have hnew : ∃ m' ∈ ms ++ [m], m'.status = .new := by
        cases hst : m.status with
        | new => exact ⟨m, List.mem_append_right _ List.mem_cons_self, hst⟩
        | detecting | parsing =>
          rw [hst] at h
          obtain ⟨m', hm', hnew⟩ := (ih h).1
          exact ⟨m', List.mem_append_left _ hm', hnew⟩
        | done | failed =>
          rw [hst] at h
          cases h
      -- the two terminal branches have taken the job out of flight
      have hopen : m.status = .new ∨ m.status = .detecting ∨ m.status = .parsing := by
        cases hst : m.status with
        | new => exact .inl rfl
        | detecting => exact .inr (.inl rfl)
        | parsing => exact .inr (.inr rfl)
        | done | failed =>
          rw [hst] at h
          cases h
      refine ⟨hnew, fun msg hmsg => ?_⟩
      rw [track_concat, Tracked.handle] at hmsg
      simp only [if_pos hid] at hmsg
      rw [← Option.some.inj hmsg]
      exact msg_status_ne_new hopen
    · simp only [if_neg hid] at h
      obtain ⟨⟨m', hm', hnew⟩, hemit⟩ := ih h
      refine ⟨⟨m', List.mem_append_left _ hm', hnew⟩, fun msg hmsg => ?_⟩
      rw [track_concat, Tracked.handle] at hmsg
      simp only [if_neg hid] at hmsg
      exact hemit msg hmsg

/-- **The registry and the jobs in flight**: after a history of messages, the
registry mirrors the jobs in flight exactly when no message of the history was
NEW, that is, as long as qm has not been given a job. -/
theorem registry_mirrors_iff (ms : List FileJobShm) :
    (track ms).Mirrors ↔ ∀ m ∈ ms, m.status ≠ .new := by
  constructor
  · intro h m hm hnew
    have hentry : ((track ms).qm.jobsInMemory m.jobId.str).isSome = true :=
      (jobsInMemory_track ms _).mpr ⟨m, hm, hnew, rfl⟩
    obtain ⟨job, hjob⟩ := Option.isSome_iff_exists.mp hentry
    obtain ⟨msg, hmsg, hstatus, -⟩ := h.current _ job hjob
    -- the entry says NEW, the last message about the job does not
    refine (emitted_of_inFlight ((h.entry_iff _).mp hentry)).2 msg hmsg ?_
    rw [← hstatus]
    exact status_of_jobsInMemory hjob
  · intro h
    have hempty : ∀ id, ¬ ((track ms).qm.jobsInMemory id).isSome = true := by
      intro id hentry
      obtain ⟨m, hm, hnew, -⟩ := (jobsInMemory_track ms id).mp hentry
      exact h m hm hnew
    refine ⟨fun id => ⟨fun hentry => absurd hentry (hempty id), fun hfly => ?_⟩,
      fun id job hjob => ?_⟩
    · obtain ⟨m, hm, hnew⟩ := (emitted_of_inFlight hfly).1
      exact absurd hnew (h m hm)
    · exact absurd (Option.isSome_of_eq_some hjob) (hempty id)

/-- The message of a new job. -/
def newMessage : FileJobShm where
  jobId := CharArray.assign maxIdSize (lit "job_1")
  path := CharArray.assign maxPathSize (lit "/spool/new/upload_1")

/-- One accepted job, and the registry is behind what qm has said about it. -/
theorem registry_behind : ¬ ∀ ms, (track ms).Mirrors := by
  intro h
  have hfly : (track [newMessage]).inFlight (lit "job_1") = true := by decide
  obtain ⟨job, hjob⟩ := Option.isSome_iff_exists.mp (((h [newMessage]).entry_iff _).mpr hfly)
  obtain ⟨msg, hmsg, hstatus, -⟩ := (h [newMessage]).current _ job hjob
  refine (emitted_of_inFlight hfly).2 msg hmsg ?_
  rw [← hstatus]
  exact status_of_jobsInMemory hjob

end Fika
