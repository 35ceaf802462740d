import Fika.Global.FileJob

/-!
# The job state machine (`state_machine.h`, `state_machine.cpp`)

The transition table of a job: which event is accepted in which status, what it
does to the job's type, and the status it leads to. `apply` is the lookup: an
event without an entry is rejected and changes nothing (`apply_rejected`).
-/

namespace Fika

/-- `state_machine::transitions`: the action mutates the job and returns the
next status. -/
def transitions : Status → Event → Option (FileJob → FileJob × Status)
  | .new, .submit => some fun job => ({ job with type := .detector }, .detecting)
  | .detecting, .detectionOk => some fun job => ({ job with type := .parser }, .parsing)
  | .detecting, .detectionFail => some fun job => (job, .failed)
  | .parsing, .parseOk => some fun job => (job, .done)
  | .parsing, .parseFail => some fun job => (job, .failed)
  | _, _ => none

/-- `state_machine::apply`: whether the event was accepted, and the job after
it. -/
def apply (job : FileJob) (ev : Event) : Bool × FileJob :=
  match transitions job.status ev with
  | none => (false, job)
  | some action => (true, { (action job).1 with status := (action job).2 })

/-- A rejected event leaves the job as it was. -/
theorem apply_rejected {job : FileJob} {ev : Event} (h : (apply job ev).1 = false) :
    (apply job ev).2 = job := by
  unfold apply at h ⊢
  cases htr : transitions job.status ev with
  | none => rfl
  | some action =>
    rw [htr] at h
    cases h

theorem apply_submit {job : FileJob} (h : job.status = .new) :
    apply job .submit = (true, { job with type := .detector, status := .detecting }) := by
  rw [apply, h]
  rfl

theorem apply_detectionOk {job : FileJob} (h : job.status = .detecting) :
    apply job .detectionOk = (true, { job with type := .parser, status := .parsing }) := by
  rw [apply, h]
  rfl

theorem apply_parseOk {job : FileJob} (h : job.status = .parsing) :
    apply job .parseOk = (true, { job with status := .done }) := by
  rw [apply, h]
  rfl

end Fika
