import Fika.Qm.History
import Fika.Qm.Qm

/-!
# Where `handle_event` sends a job (`qm.cpp`)

`handle_event` computes the destination from the type the job has after the
event, without asking whether the event was accepted or what the status is now.

- `EventResult.Addresses`: the queue behind the returned name; it is a function
  of the type alone (`addresses_iff`).
- `DispatchAgrees`: what one step promises: a worker gets a job that has just
  entered its stage, and nobody gets anything else.
- `Dispatchable`: the jobs and events for which the step keeps the promise
  (`dispatchAgrees_iff`): a rejected event, a failure and a completion are all
  sent to the worker the type still names.
- `dispatch_agrees_iff`: the same for whole event histories.
-/

namespace Fika

open Lib

/-- The returned name is that of the queue of `b`. -/
def EventResult.Addresses (r : EventResult) (b : Binary) : Prop :=
  getSender qmSenders r.qname = some (.msgQueueSender b)

/-- The returned message is the job, with the status it has now. -/
structure EventResult.Carries (r : EventResult) (job : FileJob) : Prop where
  jobId : r.msg.jobId.str = (cStr job.jobId).take (maxIdSize - 1)
  path : r.msg.path.str = (cStr job.path).take (maxPathSize - 1)
  status : r.msg.status = r.job.status

/-- One step of `handle_event` agrees with the state machine. -/
structure DispatchAgrees (job : FileJob) (ev : Event) : Prop where
  detect : (handleEvent job ev).Addresses .detect →
    (handleEvent job ev).accepted = true ∧ (handleEvent job ev).job.status = .detecting ∧
      (handleEvent job ev).Carries job
  parse : (handleEvent job ev).Addresses .parse →
    (handleEvent job ev).accepted = true ∧ (handleEvent job ev).job.status = .parsing ∧
      (handleEvent job ev).Carries job
  silent : (handleEvent job ev).accepted = false ∨ (handleEvent job ev).job.status = .done ∨
    (handleEvent job ev).job.status = .failed → ∀ b, ¬ (handleEvent job ev).Addresses b

/-- The job has no type, or the event moves it on to a worker. -/
def Dispatchable (job : FileJob) (ev : Event) : Prop :=
  job.type = .none ∨ (job.status = .new ∧ ev = .submit) ∨
    (job.status = .detecting ∧ ev = .detectionOk)

/-! ## The destination -/

/-- The queue a type stands for. -/
def workerOf : JobType → Option Binary
  | .detector => some .detect
  | .parser => some .parse
  | .none => none

/-- The destination follows the type the job has after the event. -/
theorem addresses_iff (job : FileJob) (ev : Event) (b : Binary) :
    (handleEvent job ev).Addresses b ↔ workerOf (apply job ev).2.type = some b := by
  have hdetect : getSender qmSenders (lit "detect") = some (.msgQueueSender .detect) := by decide
  have hparse : getSender qmSenders (lit "parse") = some (.msgQueueSender .parse) := by decide
  have hnone : getSender qmSenders [] = none := by decide
  unfold EventResult.Addresses handleEvent workerOf
  cases hty : (apply job ev).2.type with
  | detector => simp [hty, hdetect]
  | parser => simp [hty, hparse]
  | none => simp [hty, hnone]

theorem type_eq_none_of_silent {job : FileJob} {ev : Event}
    (h : ∀ b, ¬ (handleEvent job ev).Addresses b) : (apply job ev).2.type = .none := by
  cases hty : (apply job ev).2.type with
  | none => rfl
  | detector => exact absurd ((addresses_iff job ev .detect).mpr (by rw [hty]; rfl)) (h .detect)
  | parser => exact absurd ((addresses_iff job ev .parse).mpr (by rw [hty]; rfl)) (h .parse)

theorem not_addresses_of_type {job : FileJob} {ev : Event} (h : (apply job ev).2.type = .none)
    (b : Binary) : ¬ (handleEvent job ev).Addresses b := by
  rw [addresses_iff, h]
  exact fun hb => by cases hb

/-- What `handle_event` returns for an accepted event. -/
theorem handleEvent_accepted {job job' : FileJob} {ev : Event} (h : apply job ev = (true, job')) :
    (handleEvent job ev).accepted = true ∧ (handleEvent job ev).job = job' ∧
      (handleEvent job ev).msg = fromFileJob job' := by
  unfold handleEvent
  rw [h]
  exact ⟨rfl, rfl, rfl⟩

/-- An accepted event returns the job itself. -/
theorem carries_of_accepted {job job' : FileJob} {ev : Event} (h : apply job ev = (true, job')) :
    (handleEvent job ev).Carries job := by
  obtain ⟨-, hjob, hmsg⟩ := handleEvent_accepted h
  have hframe : job' = { job with status := job'.status, type := job'.type } := by
    have := apply_frame job ev
    rwa [h] at this
  constructor
  · rw [hmsg, hframe]
    exact CharArray.str_strncpy_zero (by decide) job.jobId
  · rw [hmsg, hframe]
    exact CharArray.str_strncpy_zero (by decide) job.path
  · rw [hmsg, hjob]
    rfl

/-! ## The exact condition -/

/-- A step that addresses nobody keeps every promise. -/
theorem dispatchAgrees_of_silent {job : FileJob} {ev : Event}
    (h : ∀ b, ¬ (handleEvent job ev).Addresses b) : DispatchAgrees job ev where
  detect hb := absurd hb (h .detect)
  parse hb := absurd hb (h .parse)
  silent _ := h

theorem dispatchAgrees_submit {job : FileJob} (h : job.status = .new) :
    DispatchAgrees job .submit := by
  have happ := apply_submit h
  obtain ⟨hacc, hjob, -⟩ := handleEvent_accepted happ
  refine ⟨fun _ => ⟨hacc, by rw [hjob], carries_of_accepted happ⟩, fun hb => ?_, fun hs => ?_⟩
  · rw [addresses_iff, happ] at hb
    cases hb
  · rw [hacc, hjob] at hs
    simp at hs

theorem dispatchAgrees_detectionOk {job : FileJob} (h : job.status = .detecting) :
    DispatchAgrees job .detectionOk := by
  have happ := apply_detectionOk h
  obtain ⟨hacc, hjob, -⟩ := handleEvent_accepted happ
  refine ⟨fun hb => ?_, fun _ => ⟨hacc, by rw [hjob], carries_of_accepted happ⟩, fun hs => ?_⟩
  · rw [addresses_iff, happ] at hb
    cases hb
  · rw [hacc, hjob] at hs
    simp at hs

/-- Any other event leaves the type as it was, and is rejected or ends the job. -/
theorem apply_not_moving {job : FileJob} {ev : Event}
    (hsubmit : ¬ (job.status = .new ∧ ev = .submit))
    (hdetected : ¬ (job.status = .detecting ∧ ev = .detectionOk)) :
    (apply job ev).2.type = job.type ∧
      ((apply job ev).1 = false ∨ (apply job ev).2.status = .done ∨
        (apply job ev).2.status = .failed) := by
  cases hacc : (apply job ev).1 with
  | false => exact ⟨by rw [apply_rejected hacc], Or.inl rfl⟩
  | true =>
    rcases apply_cases (Prod.ext hacc rfl : apply job ev = (true, (apply job ev).2)) with
      ⟨hst, hev, -⟩ | ⟨hst, hev, -⟩ | ⟨-, -, h⟩ | ⟨-, -, h⟩ | ⟨-, -, h⟩
    · exact absurd ⟨hst, hev⟩ hsubmit
    · exact absurd ⟨hst, hev⟩ hdetected
    all_goals
      rw [h]
      simp

/-- A step agrees with the state machine exactly when it is dispatchable. -/
theorem dispatchAgrees_iff (job : FileJob) (ev : Event) :
    DispatchAgrees job ev ↔ Dispatchable job ev := by
  by_cases hsubmit : job.status = .new ∧ ev = .submit
  · obtain ⟨hst, rfl⟩ := hsubmit
    exact iff_of_true (dispatchAgrees_submit hst) (Or.inr (Or.inl ⟨hst, rfl⟩))
  by_cases hdetected : job.status = .detecting ∧ ev = .detectionOk
  · obtain ⟨hst, rfl⟩ := hdetected
    exact iff_of_true (dispatchAgrees_detectionOk hst) (Or.inr (Or.inr ⟨hst, rfl⟩))
  -- what is left moves no job on, so it must not be sent at all
  obtain ⟨htype, hend⟩ := apply_not_moving hsubmit hdetected
  constructor
  · intro h
    have hnone := type_eq_none_of_silent (h.silent hend)
    exact Or.inl (htype ▸ hnone)
  · rintro (hnone | hmove | hmove)
    · exact dispatchAgrees_of_silent (not_addresses_of_type (htype.trans hnone))
    · exact absurd hmove hsubmit
    · exact absurd hmove hdetected

/-- `handle_event` as a step on the job it is given. -/
def handleStep (job : FileJob) (ev : Event) : Option FileJob := some (handleEvent job ev).job

/-- **Dispatch agrees with the state machine** in every step of an event history
exactly when every step is dispatchable. -/
theorem dispatch_agrees_iff (job : FileJob) (evs : List Event) :
    runOk handleStep DispatchAgrees job evs ↔ runOk handleStep Dispatchable job evs :=
  runOk_congr dispatchAgrees_iff

/-- The third event of an undisturbed job is sent to the parse queue again, with
the status DONE. -/
theorem done_sent_to_parse :
    ¬ runOk handleStep DispatchAgrees {} [.submit, .detectionOk, .parseOk] := by
  rintro ⟨-, hsecond⟩
  obtain ⟨-, hthird⟩ := hsecond _ rfl
  obtain ⟨hdone, -⟩ := hthird _ rfl
  exact hdone.silent (Or.inr (Or.inl rfl)) .parse ((addresses_iff _ _ _).mpr rfl)

end Fika
