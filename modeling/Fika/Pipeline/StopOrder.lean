import Fika.Lib.Shutdown
import Fika.Pipeline.Bounded

/-!
# Stopping the services one after the other
(`supervisor.cpp`, `service.cpp`)

The supervisor stops its workers in the order of its configuration, qm first: it sends a
pill, waits without a timeout until the process has exited, and goes on to the next.
When detect and parse are told to stop, nobody empties the qm inbox any more, and they
still have an answer to send for every job they have begun; ingestd goes on to fill the
inbox.

- `feeds_qm`: detect and parse send to qm only, at most one answer for each job, and
  one when no detector throws.
- `stop_exits_iff`: they can exit exactly if the answers they owe fit into the qm inbox.
- `stop_completes`: they do exit, in every run, if the uploads that wait for the inbox
  fit as well.
-/

namespace Fika

open Lib Network Pipeline

universe u

namespace Bounded

variable {P : Type u} {d : Deployment P} {l : Limits} {t : State P} {ok : State P → Event → Prop}

/-- A detect call whose detectors do not throw. -/
def Calm (b : Binary) (detectors : List FileDetector) : Prop :=
  b = .detect → NonThrowing detectors

theorem feeds_qm (d : Deployment P) (l : Limits) : (network d l).Feeds Calm WellFormed .qm where
  directed b detectors o m hb p hp := by
    cases b with
    | qm => exact absurd rfl hb
    | detect =>
      change p ∈ (handleDetect detectors o m).2 at hp
      rw [handleDetect_sent] at hp
      split at hp
      · rw [List.mem_singleton.mp hp]
      · cases hp
    | parse =>
      change p ∈ (handleParse d.create o m).2 at hp
      rw [handleParse_sent] at hp
      rw [List.mem_singleton.mp hp]
  atMost b detectors o m hb := by
    cases b with
    | qm => exact absurd rfl hb
    | detect =>
      show (handleDetect detectors o m).2.length ≤ 1
      rw [handleDetect_sent]
      split
      · exact Nat.le_refl 1
      · exact Nat.zero_le 1
    | parse =>
      show (handleParse d.create o m).2.length ≤ 1
      rw [handleParse_sent, List.length_singleton]
  answers b detectors o m hb hcalm hm := by
    cases b with
    | qm => exact absurd rfl hb
    | detect =>
      refine ⟨detectReply detectors m, ?_⟩
      show (handleDetect detectors o m).2 = _
      rw [handleDetect_sent, if_pos ((hcalm rfl).quiet _)]
    | parse => exact ⟨_, handleParse_sent d.create o m⟩

/-- What detect and parse have still to send is for qm. -/
theorem Reachable.directed (h : Reachable d l ok t) : Directed Binary.qm t := by
  obtain ⟨fs, hr⟩ := h
  exact hr.invariant (fun _ _ hh => (nomatch hh)) fun ha _ hs => directed_step (feeds_qm d l) ha hs

/-- qm has exited and the services of `B` have been told to stop. -/
theorem Reachable.halting (h : Reachable d l ok t) {B : Finset Binary}
    (hqm : (t.node .qm).stage = .exited) (htold : ∀ b ∈ B, (t.node b).Told) :
    Halting (network d l) WellFormed .qm B t :=
  ⟨h.sound.within, h.sound.wellFormed, h.directed, fun b => ⟨fun hb => hb ▸ hqm, htold b⟩⟩

theorem calm_nil (b : Binary) : Calm b [] := fun _ _ hdet => (nomatch hdet)

/-- **Whether services that are stopped after qm can exit**: some run lets them exit, as
long as no detector throws and nobody kills them or launches one of them or qm again,
exactly if the answers they owe fit into the qm inbox. -/
theorem stop_exits_iff (d : Deployment P) (l : Limits) (hl : l.Positive) (t : State P)
    (h : Reachable d l anyEvent t) (hqm : (t.node .qm).stage = .exited) (B : Finset Binary)
    (hB : .qm ∉ B) (htold : ∀ b ∈ B, (t.node b).Told) :
    (∃ es u, (∀ e ∈ es, Undisturbed Calm .qm B e) ∧ run (network d l).step t es = some u ∧
      ∀ b ∈ B, (u.node b).stage = .exited) ↔
    backlog B t ≤ l.capacity .qm - (t.node .qm).box.length :=
  (h.halting hqm htold).exits_iff hB keeps_wellFormed pays_weight (feeds_qm d l) hl.threads calm_nil

/-- One thread for each service, and room for one message in each queue. -/
def narrow : Limits where
  capacity _ := 1
  threads _ := 1

/-- qm is stopped while detect has an answer in its hands; ingestd submits another job,
and then detect is stopped. -/
def hangEvents : List Event := [
  .client (.upload sampleRequest), .accept 0,
  .receive .qm, .invoke .qm 0 [], .send .qm 0, .finish .qm 0,
  .receive .detect, .invoke .detect 0 sampleDetectors,
  .client (.pill .qm), .accept 0, .receive .qm, .join .qm,
  .client (.upload { sampleRequest with now := sampleRequest.now + 1 }), .accept 0,
  .client (.pill .detect), .accept 0, .receive .detect]

/-- The supervisor waits for this detect for ever. -/
theorem stop_exits_iff_hang :
    ∃ t : State Unit,
      run (network sampleDeployment narrow).step (init fun _ => none) hangEvents = some t ∧
      ¬ ∃ es u, (∀ e ∈ es, Undisturbed Calm .qm {.detect} e) ∧
        run (network sampleDeployment narrow).step t es = some u ∧
        ∀ b ∈ ({.detect} : Finset Binary), (u.node b).stage = .exited := by
  obtain ⟨t, ht⟩ := Option.isSome_iff_exists.mp (show (run (network sampleDeployment narrow).step
    (init fun _ => none) hangEvents).isSome = true by rfl)
  have hview : (run (network sampleDeployment narrow).step (init fun _ => none) hangEvents).map
      (fun t => ((t.node .qm).stage, (t.node .qm).box.length, (t.node .detect).stage,
        backlog {.detect} t)) = some (.exited, 1, .draining, 1) := by rfl
  rw [ht, Option.map_some, Option.some.injEq, Prod.mk.injEq, Prod.mk.injEq, Prod.mk.injEq] at hview
  obtain ⟨hqm, hbox, hdetect, hback⟩ := hview
  have hreach : Reachable sampleDeployment narrow anyEvent t :=
    ⟨fun _ => none, reaches_of_run (runOk_of_forall fun _ _ _ => trivial) ht⟩
  have htold : ∀ b ∈ ({.detect} : Finset Binary), (t.node b).Told := by
    intro b hb hstage
    rw [Finset.mem_singleton.mp hb, hdetect] at hstage
    cases hstage
  refine ⟨t, ht, fun hexits => ?_⟩
  have hfit := (stop_exits_iff sampleDeployment narrow ⟨fun _ => Nat.one_pos, fun _ => Nat.one_pos⟩
    t hreach hqm {.detect} (by decide) htold).mp hexits
  rw [hback, hbox] at hfit
  exact absurd hfit (by decide)

/-- **When services that are stopped after qm do exit**: if the answers that detect and
parse owe and the uploads and pills that wait for the qm inbox fit into it together, then
no run that is left alone stops before both have exited, and every such run stops. A
detector that throws meanwhile leaves an answer less to send. -/
theorem stop_completes (d : Deployment P) (l : Limits) (hl : l.Positive) (t : State P)
    (h : Reachable d l anyEvent t) (hqm : (t.node .qm).stage = .exited)
    (htold : ∀ b, (t.node b).Told)
    (hfit : backlog {.detect, .parse} t + waiting t .qm
      ≤ l.capacity .qm - (t.node .qm).box.length)
    (es : List Event) (u : State P)
    (hes : ∀ e ∈ es, e.internal = true)
    (hrun : run (network d l).step t es = some u) :
    ((network d l).Stuck u → ∀ b, (u.node b).stage = .exited) ∧
    es.length ≤ (price fun b (m : FileJobShm) => weight b m.status).total t := by
  have hothers : Finset.univ.erase Binary.qm = {.detect, .parse} := by decide
  have hhalting : Halting (network d l) WellFormed .qm (Finset.univ.erase .qm) t :=
    h.halting hqm fun b _ => htold b
  refine ⟨hhalting.stuck_exited keeps_wellFormed (feeds_qm d l) hl.threads calm_nil
    (by rw [hothers]; exact hfit) hes hrun, ?_⟩
  have hpaid := (h.sound.wellFormed.rests keeps_wellFormed pays_weight
    hes hrun).1
  omega

/-- qm is stopped while detect has an answer in its hands, and then detect and parse. -/
def stopEvents : List Event := [
  .client (.upload sampleRequest), .accept 0,
  .receive .qm, .invoke .qm 0 [], .send .qm 0, .finish .qm 0,
  .receive .detect, .invoke .detect 0 sampleDetectors,
  .client (.pill .qm), .accept 0, .receive .qm, .join .qm,
  .client (.pill .detect), .accept 0, .client (.pill .parse), .accept 0]

/-- What the two services still do. -/
def exitEvents : List Event := [
  .receive .parse, .join .parse, .receive .detect, .send .detect 0, .finish .detect 0,
  .join .detect]

/-- Here the answer fits. -/
theorem stop_completes_sample :
    ∃ t u : State Unit,
      run (network sampleDeployment (mainLimits 4)).step (init fun _ => none) stopEvents = some t ∧
      run (network sampleDeployment (mainLimits 4)).step t exitEvents = some u ∧
      ((network sampleDeployment (mainLimits 4)).Stuck u → ∀ b, (u.node b).stage = .exited) := by
  obtain ⟨t, ht⟩ := Option.isSome_iff_exists.mp (show (run
    (network sampleDeployment (mainLimits 4)).step (init fun _ => none) stopEvents).isSome = true
    by rfl)
  have hview : (run (network sampleDeployment (mainLimits 4)).step (init fun _ => none)
      stopEvents).map (fun t => ((t.node .qm).stage, (t.node .qm).box.length,
        (t.node .detect).box, (t.node .parse).box, backlog {.detect, .parse} t, waiting t .qm))
      = some (.exited, 0, [.halt], [.halt], 1, 0) := by rfl
  simp only [ht, Option.map_some, Option.some.injEq, Prod.mk.injEq] at hview
  obtain ⟨hqm, hbox, hdetect, hparse, hback, hwait⟩ := hview
  obtain ⟨u, hu⟩ := Option.isSome_iff_exists.mp (show ((run
    (network sampleDeployment (mainLimits 4)).step (init fun _ => none) stopEvents).bind fun t =>
      run (network sampleDeployment (mainLimits 4)).step t exitEvents).isSome = true by rfl)
  rw [ht, Option.bind_some] at hu
  have hreach : Reachable sampleDeployment (mainLimits 4) anyEvent t :=
    ⟨fun _ => none, reaches_of_run (runOk_of_forall fun _ _ _ => trivial) ht⟩
  have htold : ∀ b, (t.node b).Told := by
    intro b hstage
    cases b with
    | qm =>
      rw [hqm] at hstage
      cases hstage
    | detect =>
      rw [hdetect]
      exact List.mem_singleton_self _
    | parse =>
      rw [hparse]
      exact List.mem_singleton_self _
  refine ⟨t, u, ht, hu, (stop_completes sampleDeployment (mainLimits 4)
    (positive_mainLimits (by decide)) t hreach hqm htold ?_ exitEvents u ?_ hu).1⟩
  · rw [hback, hwait, hbox, mainLimits_capacity]
    decide
  · decide

end Bounded

end Fika
