import Fika.Lib.Run
import Fika.Qm.StateMachine

/-!
# Job histories (`state_machine.cpp`)

The state machine is fed events in any order; what it accepts of them is the
job's history.

- `applyAll`, `acceptedEvents`: the job after the events, and the events for
  which `apply` returned true.
- `takes`: `apply` as a partial step; the total reading above is this one with
  the rejected events passed over (`applyAll_eq_settle`,
  `acceptedEvents_eq_taken`), so the accepted word replays on its own
  (`run_acceptedEvents`).
- `apply_cases`: the five things `apply` can do when it accepts.
- `JobHistory`: the six histories of a job, with the status and the type each
  leads to; `jobHistory_applyAll` says that there are no others.
-/

namespace Fika

open Lib

/-! ## Feeding events to a job -/

/-- The job after the events, one after another. -/
def applyAll (job : FileJob) (evs : List Event) : FileJob :=
  evs.foldl (fun j ev => (apply j ev).2) job

/-- The events for which `apply` returned true, in order. -/
def acceptedEvents : FileJob → List Event → List Event
  | _, [] => []
  | job, ev :: evs =>
    if (apply job ev).1 then ev :: acceptedEvents (apply job ev).2 evs
    else acceptedEvents (apply job ev).2 evs

/-- `apply` as a step that only accepted events can take. -/
def takes (job : FileJob) (ev : Event) : Option FileJob :=
  if (apply job ev).1 then some (apply job ev).2 else none

theorem takes_of_accepted {job : FileJob} {ev : Event} (h : (apply job ev).1 = true) :
    takes job ev = some (apply job ev).2 := if_pos h

theorem takes_of_rejected {job : FileJob} {ev : Event} (h : (apply job ev).1 = false) :
    takes job ev = none := by
  unfold takes
  rw [h]
  rfl

theorem takes_getD (job : FileJob) (ev : Event) : (takes job ev).getD job = (apply job ev).2 := by
  cases hacc : (apply job ev).1 with
  | true => rw [takes_of_accepted hacc, Option.getD_some]
  | false => rw [takes_of_rejected hacc, Option.getD_none, apply_rejected hacc]

theorem applyAll_eq_settle (job : FileJob) (evs : List Event) :
    applyAll job evs = settle takes job evs := by
  induction evs generalizing job with
  | nil => rfl
  | cons ev evs ih =>
    rw [settle, takes_getD]
    exact ih (apply job ev).2

theorem acceptedEvents_eq_taken (job : FileJob) (evs : List Event) :
    acceptedEvents job evs = taken takes job evs := by
  induction evs generalizing job with
  | nil => rfl
  | cons ev evs ih =>
    unfold acceptedEvents taken
    cases hacc : (apply job ev).1 with
    | true =>
      rw [takes_of_accepted hacc, ih]
      rfl
    | false =>
      rw [takes_of_rejected hacc, ih, apply_rejected hacc]
      rfl

/-- Feeding the accepted events alone leads to the same job. -/
theorem run_acceptedEvents (job : FileJob) (evs : List Event) :
    run takes job (acceptedEvents job evs) = some (applyAll job evs) := by
  rw [acceptedEvents_eq_taken, applyAll_eq_settle]
  exact run_taken evs job

/-! ## What an accepted event does -/

/-- Everything `apply` can do when it accepts. -/
theorem apply_cases {job job' : FileJob} {ev : Event} (h : apply job ev = (true, job')) :
    (job.status = .new ∧ ev = .submit ∧
      job' = { job with type := .detector, status := .detecting }) ∨
    (job.status = .detecting ∧ ev = .detectionOk ∧
      job' = { job with type := .parser, status := .parsing }) ∨
    (job.status = .detecting ∧ ev = .detectionFail ∧ job' = { job with status := .failed }) ∨
    (job.status = .parsing ∧ ev = .parseOk ∧ job' = { job with status := .done }) ∨
    (job.status = .parsing ∧ ev = .parseFail ∧ job' = { job with status := .failed }) := by
  unfold apply at h
  cases hst : job.status <;> cases ev <;> rw [hst] at h <;> cases h <;> simp

/-- A finished job rejects every event. -/
theorem apply_finished {job : FileJob} (h : job.status = .done ∨ job.status = .failed)
    (ev : Event) : (apply job ev).1 = false := by
  rcases h with h | h
  · rw [apply, h]
    rfl
  · rw [apply, h]
    rfl

/-- No event, accepted or not, touches anything but the status and the type. -/
theorem apply_frame (job : FileJob) (ev : Event) :
    (apply job ev).2 =
      { job with status := (apply job ev).2.status, type := (apply job ev).2.type } := by
  cases hacc : (apply job ev).1 with
  | false => rw [apply_rejected hacc]
  | true =>
    rcases apply_cases (Prod.ext hacc rfl : apply job ev = (true, (apply job ev).2)) with
      ⟨-, -, h⟩ | ⟨-, -, h⟩ | ⟨-, -, h⟩ | ⟨-, -, h⟩ | ⟨-, -, h⟩ <;> rw [h]

/-- The frame of a whole history. -/
theorem applyAll_frame (job : FileJob) (evs : List Event) :
    applyAll job evs =
      { job with status := (applyAll job evs).status, type := (applyAll job evs).type } := by
  induction evs generalizing job with
  | nil => rfl
  | cons ev evs ih =>
    have hstep := apply_frame job ev
    have hrest := ih (apply job ev).2
    rw [hstep] at hrest
    rw [show applyAll job (ev :: evs) = applyAll (apply job ev).2 evs from rfl, hstep]
    exact hrest

/-- A finished job stays as it is, whatever it is fed. -/
theorem finished_absorbs {job : FileJob} (h : job.status = .done ∨ job.status = .failed)
    (evs : List Event) : acceptedEvents job evs = [] ∧ applyAll job evs = job := by
  have hnone : ∀ ev, takes job ev = none := fun ev => takes_of_rejected (apply_finished h ev)
  rw [acceptedEvents_eq_taken, applyAll_eq_settle]
  exact taken_eq_nil hnone evs

/-! ## The histories of a new job -/

/-- The histories of a job that began with type `t`, each with the status and the
type it leads to. -/
inductive JobHistory (t : JobType) : List Event → Status → JobType → Prop where
  | fresh : JobHistory t [] .new t
  | submitted : JobHistory t [.submit] .detecting .detector
  | detected : JobHistory t [.submit, .detectionOk] .parsing .parser
  | undetected : JobHistory t [.submit, .detectionFail] .failed .detector
  | parsed : JobHistory t [.submit, .detectionOk, .parseOk] .done .parser
  | unparsed : JobHistory t [.submit, .detectionOk, .parseFail] .failed .parser

/-- An accepted event continues a history to another one. -/
theorem JobHistory.step {t : JobType} {w : List Event} {job job' : FileJob} {ev : Event}
    (h : JobHistory t w job.status job.type) (ht : takes job ev = some job') :
    JobHistory t (w ++ [ev]) job'.status job'.type := by
  have hacc : apply job ev = (true, job') := by
    cases hb : (apply job ev).1 with
    | true =>
      rw [takes_of_accepted hb] at ht
      exact Prod.ext hb (Option.some.inj ht)
    | false =>
      rw [takes_of_rejected hb] at ht
      cases ht
  rcases apply_cases hacc with ⟨hst, rfl, rfl⟩ | ⟨hst, rfl, rfl⟩ | ⟨hst, rfl, rfl⟩ |
    ⟨hst, rfl, rfl⟩ | ⟨hst, rfl, rfl⟩ <;> rw [hst] at h
  · cases h with
    | fresh => exact .submitted
  · generalize job.type = ty at h
    cases h with
    | submitted => exact .detected
  · generalize job.type = ty at h ⊢
    cases h with
    | submitted => exact .undetected
  · generalize job.type = ty at h ⊢
    cases h with
    | detected => exact .parsed
  · generalize job.type = ty at h ⊢
    cases h with
    | detected => exact .unparsed

/-- Whatever a new job is fed, what it accepts is one of the six histories. -/
theorem jobHistory_applyAll {job : FileJob} (h : job.status = .new) (evs : List Event) :
    JobHistory job.type (acceptedEvents job evs) (applyAll job evs).status
      (applyAll job evs).type := by
  rw [acceptedEvents_eq_taken, applyAll_eq_settle]
  have hfresh : JobHistory job.type [] job.status job.type := h ▸ .fresh
  exact taken_invariant (P := fun w (j : FileJob) => JobHistory job.type w j.status j.type)
    JobHistory.step evs hfresh

/-- The three words that end a job. -/
def completeWords : List (List Event) :=
  [[.submit, .detectionOk, .parseOk], [.submit, .detectionOk, .parseFail],
    [.submit, .detectionFail]]

namespace JobHistory

variable {t ty : JobType} {w : List Event} {st : Status}

theorem isPrefix (h : JobHistory t w st ty) : ∃ full ∈ completeWords, w <+: full := by
  cases h <;> decide

theorem done_iff (h : JobHistory t w st ty) :
    st = .done ↔ w = [.submit, .detectionOk, .parseOk] := by
  cases h <;> decide

theorem failed_iff (h : JobHistory t w st ty) :
    st = .failed ↔ w = [.submit, .detectionOk, .parseFail] ∨ w = [.submit, .detectionFail] := by
  cases h <;> decide

theorem type_eq (h : JobHistory t w st ty) :
    ty = if .detectionOk ∈ w then .parser else if .submit ∈ w then .detector else t := by
  cases h <;> rfl

end JobHistory

/-- **Job histories**: the events a new job accepts are a prefix of a complete word;
the status says which complete word it is, the type how far the job has come;
rejected events change nothing, finished jobs accept nothing more, and the other
fields never change. -/
theorem job_histories (job : FileJob) (hnew : job.status = .new) (evs : List Event) :
    (∃ full ∈ completeWords, acceptedEvents job evs <+: full) ∧
    ((applyAll job evs).status = .done ↔
      acceptedEvents job evs = [.submit, .detectionOk, .parseOk]) ∧
    ((applyAll job evs).status = .failed ↔
      acceptedEvents job evs = [.submit, .detectionOk, .parseFail] ∨
        acceptedEvents job evs = [.submit, .detectionFail]) ∧
    (applyAll job evs).type =
      (if .detectionOk ∈ acceptedEvents job evs then .parser
        else if .submit ∈ acceptedEvents job evs then .detector
        else job.type) ∧
    (∀ ev, (apply (applyAll job evs) ev).1 = false →
      (apply (applyAll job evs) ev).2 = applyAll job evs) ∧
    ((applyAll job evs).status = .done ∨ (applyAll job evs).status = .failed →
      ∀ more, acceptedEvents (applyAll job evs) more = [] ∧
        applyAll (applyAll job evs) more = applyAll job evs) ∧
    (applyAll job evs).jobId = job.jobId ∧ (applyAll job evs).path = job.path ∧
    (applyAll job evs).attempts = job.attempts ∧ (applyAll job evs).mime = job.mime ∧
    (applyAll job evs).stop = job.stop := by
  have hhist := jobHistory_applyAll hnew evs
  have hframe := applyAll_frame job evs
  refine ⟨hhist.isPrefix, hhist.done_iff, hhist.failed_iff, hhist.type_eq,
    fun ev => apply_rejected, fun hfin => finished_absorbs hfin, ?_, ?_, ?_, ?_, ?_⟩ <;>
  rw [hframe]

/-- A job that is fed a parse reply too early, and then fails detection. -/
theorem job_histories_early :
    acceptedEvents {} [.submit, .parseOk, .detectionFail, .submit]
      = [.submit, .detectionFail] ∧
    (applyAll {} [.submit, .parseOk, .detectionFail, .submit]).status = .failed := by
  have hword : acceptedEvents {} [.submit, .parseOk, .detectionFail, .submit]
      = [.submit, .detectionFail] := rfl
  have hlaws := job_histories {} rfl [.submit, .parseOk, .detectionFail, .submit]
  exact ⟨hword, hlaws.2.2.1.mpr (Or.inr hword)⟩

end Fika
