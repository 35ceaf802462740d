import Fika.Pipeline.Messages

/-!
# Where qm hands an outcome (`qm_service::handle`, `main` of qm)

`process_results` names a destination and `get_sender` looks it up among the
senders `main` has registered. The two lists were written apart: a finished job
goes to the registered `null_sender`, a failed one to `fail`, which nobody
registers.

- `Routed`: the lookup finds a sender.
- `routed_iff`: which messages are routed, over all statuses and types; the
  types matter only for a status that the queue discipline keeps out of the
  inbox.
- `outcomes_routed`: of the messages qm takes in any run, exactly those that are
  not FAILED are routed.
-/

namespace Fika

open Lib

universe u

/-- `get_sender` finds a sender for the destination that qm names. -/
def Routed (q : Qm) (m : FileJobShm) : Prop :=
  ∃ sender, getSender qmSenders (processResults q m).qname = some sender

/-! ## Destinations -/

variable {q : Qm} {m : FileJobShm}

theorem getSender_detect : getSender qmSenders (lit "detect") = some (.msgQueueSender .detect) := by
  decide

theorem getSender_parse : getSender qmSenders (lit "parse") = some (.msgQueueSender .parse) := by
  decide

theorem getSender_null_sender : getSender qmSenders (lit "null_sender") = some .nullSender := by
  decide

theorem getSender_fail : getSender qmSenders (lit "fail") = none := by
  decide

theorem getSender_nil : getSender qmSenders [] = none := by
  decide

theorem qname_new (h : m.status = .new) : (processResults q m).qname = lit "detect" := by
  have hst : (toFileJob m).status = .new := h
  rw [processResults, hst]
  show (handleEvent { toFileJob m with status := .new } .submit).qname = _
  rw [handleEvent, apply_submit rfl]

theorem qname_detecting (h : m.status = .detecting) :
    (processResults q m).qname = lit "parse" := by
  have hst : (toFileJob m).status = .detecting := h
  rw [processResults, hst]
  show (handleEvent (toFileJob m) .detectionOk).qname = _
  rw [handleEvent, apply_detectionOk hst]

theorem qname_done (h : m.status = .done) : (processResults q m).qname = lit "null_sender" := by
  have hst : (toFileJob m).status = .done := h
  rw [processResults, hst]

theorem qname_failed (h : m.status = .failed) : (processResults q m).qname = lit "fail" := by
  have hst : (toFileJob m).status = .failed := h
  rw [processResults, hst]

/-- A job that is still parsing goes wherever its type says. -/
theorem qname_parsing (h : m.status = .parsing) :
    (processResults q m).qname = match m.type with
      | .detector => lit "detect"
      | .parser => lit "parse"
      | .none => [] := by
  have hst : (toFileJob m).status = .parsing := h
  rw [processResults, hst]
  show (handleEvent (toFileJob m) .parseOk).qname = _
  rw [handleEvent, apply_parseOk hst]
  rfl

/-- The messages qm has a sender for. -/
theorem routed_iff :
    Routed q m ↔ m.status ≠ .failed ∧ (m.status = .parsing → m.type ≠ .none) := by
  rw [Routed]
  cases hst : m.status with
  | new =>
    rw [qname_new hst]
    exact ⟨fun _ => ⟨nofun, nofun⟩, fun _ => ⟨_, getSender_detect⟩⟩
  | detecting =>
    rw [qname_detecting hst]
    exact ⟨fun _ => ⟨nofun, nofun⟩, fun _ => ⟨_, getSender_parse⟩⟩
  | done =>
    rw [qname_done hst]
    exact ⟨fun _ => ⟨nofun, nofun⟩, fun _ => ⟨_, getSender_null_sender⟩⟩
  | failed =>
    rw [qname_failed hst, getSender_fail]
    constructor
    · rintro ⟨_, hs⟩
      cases hs
    · rintro ⟨hne, -⟩
      exact absurd rfl hne
  | parsing =>
    rw [qname_parsing hst]
    cases htype : m.type with
    | detector => exact ⟨fun _ => ⟨nofun, nofun⟩, fun _ => ⟨_, getSender_detect⟩⟩
    | parser => exact ⟨fun _ => ⟨nofun, nofun⟩, fun _ => ⟨_, getSender_parse⟩⟩
    | none =>
      constructor
      · rintro ⟨_, hs⟩
        rw [getSender_nil] at hs
        cases hs
      · rintro ⟨-, htyped⟩
        exact absurd rfl (htyped rfl)

/-- In qm's hands the type never matters: nothing that is still parsing is there. -/
theorem routed_iff_of_discipline (h : Pipeline.Discipline .qm m) : Routed q m ↔ m.status ≠ .failed := by
  rw [routed_iff]
  refine and_iff_left_of_imp fun _ hparsing => ?_
  cases h with
  | submitted hs => rw [hs] at hparsing; cases hparsing
  | detected hs ht => rw [hs] at hparsing; cases hparsing
  | parsed hs ht => rw [hs] at hparsing; cases hparsing
  | failed hs => rw [hs] at hparsing; cases hparsing

namespace Pipeline

variable {P : Type u} {d : Deployment P} {s s' : Pipeline P}

/-! ## The outcomes of a run -/

/-- qm takes no FAILED message from its inbox. -/
def NoFailure (s : Pipeline P) : Action → Prop
  | .receive .qm => ∀ m rest, s.queue .qm = .fileJobShm m :: rest → m.status ≠ .failed
  | _ => True

/-- No FAILED message is among those that qm has taken. -/
def NoneFailed (s : Pipeline P) : Prop := ∀ m ∈ (s.service .qm).pool, m.status ≠ .failed

theorem noneFailed_setService {b : Binary} {sv : ServiceState} (h : s.NoneFailed)
    (hsub : ∀ m ∈ sv.pool, m ∈ (s.service b).pool) : (s.setService b sv).NoneFailed := by
  intro m hm
  by_cases hb : b = .qm
  · subst hb
    rw [setService_service_self] at hm
    exact h m (hsub m hm)
  · rw [setService_service_other _ (Ne.symm hb)] at hm
    exact h m hm

theorem noneFailed_step {a : Action} (h : s.NoneFailed) (hok : NoFailure s a)
    (hs : step d s a = some s') : s'.NoneFailed := by
  cases step_spec hs with
  | accepted hsent => exact h
  | refused hsent => exact h
  | pill b => exact h
  | @received b msg rest hphase hqueue =>
    intro m hm
    by_cases hb : b = .qm
    · subst hb
      rw [receive_service_self] at hm
      cases msg with
      | poisonPill => exact h m hm
      | fileJobShm job =>
        rcases List.mem_append.mp hm with hold | hnew
        · exact h m hold
        · rw [List.mem_singleton.mp hnew]
          exact hok job rest hqueue
    · rw [receive_service_other _ _ (Ne.symm hb)] at hm
      exact h m hm
  | ranQm hpool =>
    rw [NoneFailed, handleQm, sendAll_service]
    exact noneFailed_setService h fun _ hm => List.mem_of_mem_eraseIdx hm
  | ranDetect hpool =>
    rw [NoneFailed, handleDetect, sendAll_service]
    exact noneFailed_setService h fun _ hm => List.mem_of_mem_eraseIdx hm
  | ranParse hpool =>
    rw [NoneFailed, handleParse, sendAll_service]
    exact noneFailed_setService h fun _ hm => List.mem_of_mem_eraseIdx hm
  | joined hphase hpool => exact noneFailed_setService h fun _ hm => absurd hm List.not_mem_nil
  | @restarted b hphase =>
    cases b <;> exact noneFailed_setService h fun _ hm => absurd hm List.not_mem_nil

/-- **Outcomes are handed on, except failures**: in every reachable state, a
message that qm has taken from its inbox has a registered destination exactly
when it is not FAILED; so in a run in which qm takes no FAILED message, every
outcome is handed to a sender. -/
theorem outcomes_routed (d : Deployment P) :
    (∀ s, Reachable d (fun _ => True) s → ∀ m ∈ (s.service .qm).pool,
      (Routed s.qm m ↔ m.status ≠ .failed)) ∧
    (∀ fs s, Reaches (step d) NoFailure (init fs) s → ∀ m ∈ (s.service .qm).pool,
      Routed s.qm m) := by
  have hevery : ∀ s, Reachable d (fun _ => True) s → ∀ m ∈ (s.service .qm).pool,
      (Routed s.qm m ↔ m.status ≠ .failed) :=
    fun s hr m hm => routed_iff_of_discipline (hr.discipline (.inr hm))
  refine ⟨hevery, fun fs s hr m hm => ?_⟩
  have hnone : s.NoneFailed := by
    refine hr.invariant (P := NoneFailed) (fun m hm => nomatch hm) fun h hok hs => ?_
    exact noneFailed_step h hok hs
  have hreach : Reachable d (fun _ => True) s := by
    refine ⟨fs, hr.mono fun {t a} _ => ?_⟩
    cases a <;> trivial
  exact (hevery s hreach m hm).mpr (hnone m hm)

/-- An upload, up to qm's receive. -/
def receivedRun : List Action := [.upload sampleRequest, .receive .qm]

theorem receivedRun_ok :
    runOk (step sampleDeployment) NoFailure (init fun _ => none) receivedRun := by
  refine ⟨trivial, fun s hs => ⟨fun m rest hq => ?_, fun _ _ => trivial⟩⟩
  obtain ⟨id, path, hqueue⟩ : ∃ id path, s.queue .qm = [.fileJobShm (newJob id path)] := by
    obtain rfl := Option.some.inj hs
    exact ⟨_, _, rfl⟩
  rw [hq] at hqueue
  obtain rfl := IpcMessage.fileJobShm.inj (List.cons.inj hqueue).1
  have hst : (newJob id path).status = .new := rfl
  rw [hst]
  decide

/-- A new job is handed on. -/
theorem outcomes_routed_received :
    ∃ s m, sampleState 2 = some s ∧ m ∈ (s.service .qm).pool ∧ Routed s.qm m ∧
      m.status ≠ .failed := by
  obtain ⟨s, hs⟩ := Option.isSome_iff_exists.mp (show (sampleState 2).isSome = true by rfl)
  have hlen : (sampleState 2).map (fun s => (s.service .qm).pool.length) = some 1 := by rfl
  rw [hs] at hlen
  have hone : (s.service .qm).pool.length = 1 := Option.some.inj hlen
  obtain ⟨m, hm⟩ := List.exists_mem_of_length_pos (hone ▸ Nat.one_pos)
  have hrouted := (outcomes_routed sampleDeployment).2 _ s (reaches_of_run receivedRun_ok hs) m hm
  have hiff := (outcomes_routed sampleDeployment).1 s (sampleState_reachable trivial hs) m hm
  exact ⟨s, m, hs, hm, hrouted, hiff.mp hrouted⟩

/-- A job whose file no detector recognises, up to qm's receive of the reply. -/
def failedRun : List Action := [
  .upload sampleRequest,
  .receive .qm, .runQm 0,
  .receive .detect, .runDetect 0 [],
  .receive .qm]

/-- A failed job reaches qm, and no sender is found for it. -/
theorem failed_not_routed :
    ¬ ∀ s : Pipeline Unit, Reachable sampleDeployment (fun _ => True) s →
      ∀ m ∈ (s.service .qm).pool, Routed s.qm m := by
  intro h
  obtain ⟨s, hs⟩ := Option.isSome_iff_exists.mp
    (show (run (step sampleDeployment) (init fun _ => none) failedRun).isSome = true by rfl)
  have hpool : (run (step sampleDeployment) (init fun _ => none) failedRun).map
      (fun s => (s.service .qm).pool.map FileJobShm.status) = some [.failed] := by rfl
  rw [hs] at hpool
  have hfailed : (s.service .qm).pool.map FileJobShm.status = [.failed] := Option.some.inj hpool
  obtain ⟨m, hm, hst⟩ := List.exists_of_mem_map (hfailed ▸ List.mem_cons_self)
  have hreach : Reachable sampleDeployment (fun _ => True) s :=
    ⟨_, reaches_of_run (runOk_of_forall fun a _ _ => by cases a <;> trivial) hs⟩
  exact (routed_iff.mp (h s hreach m hm)).1 hst

end Pipeline

end Fika
