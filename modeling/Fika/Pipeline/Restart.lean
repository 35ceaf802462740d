import Fika.Pipeline.Outcomes
import Fika.Pipeline.StopWorkers
import Fika.Supervisor.Stop

/-!
# Restarting all services (`restart_command`)
(`cmd_def.h`, `supervisor.cpp`, `service.cpp`)

`restart` stops the services one by one and starts them again. What was on its way stays
in the queues meanwhile. Nobody may be left with a second pill, or he would exit again as
soon as he was launched. `ingestd` receives from no queue: the stop passes over it, and the
start puts a new child in the place of the one that runs, which is killed with the uploads
that wait in it for room. Here such an upload is abandoned, one by one; the child itself is
no part of the network.

- `Stopping`, `Starting`: what may happen during the two halves.
- `restart_reference`: after a restart all services receive again, and in the end each
  job that was not lost in a kill has the status of the sequential reference, as if there
  had been no restart.
- `Mirrors.start`, `restart_refines`: the command of the supervisor does this to the queues
  and to the children of the services.
-/

namespace Fika

open Lib Network Pipeline

universe u

namespace Bounded

variable {P : Type u} {d : Deployment P} {l : Limits} {t t' : State P} {kills : Prop}
  {v : Str → Option Str}

/-- While the services are stopped nobody launches one, nobody else sends a pill, and none
is killed before it has taken its own. -/
structure Stopping (d : Deployment P) (l : Limits) (kills : Prop) (v : Str → Option Str)
    (p : StopState P) (ev : StopAction) : Prop where
  peaceful : Peaceful (network d l) p ev
  faults : ∀ e, ev = .net e → Faults kills (Decide v) e

/-- While they are started, and afterwards, nobody sends a pill. -/
structure Starting (d : Deployment P) (l : Limits) (kills : Prop) (v : Str → Option Str)
    (t : State P) (e : Event) : Prop where
  silent : Silent (network d l) t e
  faults : Faults kills (Decide v) e

theorem Faults.any {chains : List FileDetector → Prop} {e : Event} (h : Faults kills chains e) :
    Faults True chains e := by
  cases e with
  | abandon i => trivial
  | crash b => trivial
  | invoke b i detectors => cases b <;> exact h
  | _ => trivial

/-- Nothing is lost where nothing is killed. -/
theorem lost_of_reaches {chains : List FileDetector → Prop}
    (h : Reaches (network d l).step (fun _ => Faults kills chains) t t') (hkills : ¬ kills) :
    t'.lost = t.lost := by
  refine h.invariant (P := fun s => s.lost = t.lost) rfl ?_
  intro a b e ha hok hs
  by_contra hne
  have hlost : b.lost ≠ a.lost := by
    rw [ha]
    exact hne
  rcases lost_step hs hlost with ⟨i, rfl⟩ | ⟨n, rfl⟩
  · exact hkills hok
  · exact hkills hok

/-- **A restart of the services loses no job and changes none**: from a state in which all
receive and no pill is on its way, all services are stopped in turn, with uploads, full
queues and blocked handlers on the way, and launched again, with or without jobs coming in
meanwhile. Nobody else sends a pill, and none is killed before it has taken its own. All
along, before the restart too, the detectors do not throw and give a verdict `v` on each
path, and no two uploads get the same id. Then all services receive again, no pill is left
for any, and wherever nothing can go on any more each job submitted before, during or after
the restart was finished exactly once, with the status of the reference, or lost in exactly
one kill; and a restart in which nothing is killed loses nothing. (The deployed one kills
the `ingestd` that runs, and so the uploads that wait there for room.) -/
theorem restart_reference (d : Deployment P) (l : Limits) (hl : l.Positive)
    (v : Str → Option Str) (kills : Prop) (fs : FileSystem) (t : State P)
    (h : Reaches (network d l).step (fun _ => Faults True (Decide v)) (init fs) t)
    (hclean : Clean t) (hup : ∀ b, (t.node b).stage = .receiving)
    (order : List Binary) (hnodup : order.Nodup) (hall : ∀ b, b ∈ order) (q : StopState P)
    (hstop : Reaches (stopStep (network d l)) (Stopping d l kills v)
      { net := t, todo := order } q) (hdone : q.todo = []) (s : State P)
    (hstart : Reaches (network d l).step (Starting d l kills v) q.net s)
    (hlaunched : ∀ b, (s.node b).stage ≠ .exited)
    (hids : (s.shared.submitted.map fun sub => sub.msg.key).Nodup) :
    (∀ b, (q.net.node b).stage = .exited) ∧
    (∀ b, (s.node b).stage = .receiving ∧ .halt ∉ (s.node b).box) ∧
    (¬ kills → s.lost = t.lost) ∧
    ((network d l).Stuck s → ∀ sub ∈ s.shared.submitted,
      outcomes s sub = [reference v d.create sub.msg.path.str] ∧ killed s sub = 0 ∨
        outcomes s sub = [] ∧ killed s sub = 1) := by
  have hnoticed : Noticed order q := by
    refine hstop.invariant (noticed_init hclean hup hnodup hall) ?_
    intro a b ev ha hok hs
    exact noticed_step ha hok.peaceful hs
  have hclean' : Clean s := by
    refine hstart.invariant (hnoticed.clean hall hdone) ?_
    intro a b e ha hok hs
    exact clean_step ha hok.silent hs
  have hreceiving : ∀ b, (s.node b).stage = .receiving := by
    intro b
    cases hstage : (s.node b).stage with
    | receiving => rfl
    | draining => exact absurd hstage (hclean'.stage b)
    | exited => exact absurd hstage (hlaunched b)
  -- both halves are runs of the bounded pipeline
  have hfirst : Reaches (network d l).step (fun _ => Faults kills (Decide v)) t q.net :=
    reaches_stop (fun hok => hok.faults _ rfl) (fun _ => trivial) (fun _ => trivial) hstop
  have hboth : Reaches (network d l).step (fun _ => Faults kills (Decide v)) t s :=
    hfirst.trans (hstart.mono fun hok => hok.faults)
  refine ⟨?_, ?_, ?_, ?_⟩
  · intro b
    exact hnoticed.done b (hall b) (hdone ▸ List.not_mem_nil)
  · intro b
    exact ⟨hreceiving b, hclean'.box b⟩
  · intro hkills
    exact lost_of_reaches hboth hkills
  · intro hstuck
    exact (fault_reference d l hl v fs s (h.trans (hboth.mono Faults.any)) hids hreceiving
      hstuck).1

/-- The services are launched again, and the job of the sample goes on to its end. -/
def startAgainEvents : List Event := [
  .relaunch .qm, .relaunch .detect, .relaunch .parse,
  .receive .qm, .invoke .qm 0 [], .send .qm 0, .finish .qm 0,
  .receive .parse, .invoke .parse 0 [], .send .parse 0, .finish .parse 0,
  .receive .qm, .invoke .qm 0 [], .finish .qm 0]

/-- A restart while detect has the sample job in its hands. -/
def restarted : Option (State Unit × StopState Unit × State Unit) :=
  (sampleBounded 8).bind fun t =>
    (run (stopStep (network sampleDeployment (mainLimits 4)))
      { net := t, todo := serviceOrder } stopAllEvents).bind fun q =>
        (run (network sampleDeployment (mainLimits 4)).step q.net startAgainEvents).map fun s =>
          (t, q, s)

theorem stopping_stopAllEvents :
    ∀ ev ∈ stopAllEvents, ∀ p : StopState Unit, Stopping sampleDeployment (mainLimits 4) False
      (fun _ => some (lit "application/pdf")) p ev := by
  intro ev hev p
  simp only [stopAllEvents, List.mem_cons, List.not_mem_nil, or_false] at hev
  rcases hev with rfl | rfl | rfl | rfl | rfl | rfl | rfl | rfl | rfl | rfl | rfl | rfl | rfl | rfl
  all_goals
    refine ⟨trivial, ?_⟩
    intro e he
    cases he <;> trivial

theorem starting_startAgainEvents :
    ∀ e ∈ startAgainEvents, ∀ t : State Unit, Starting sampleDeployment (mainLimits 4) False
      (fun _ => some (lit "application/pdf")) t e := by
  intro e he t
  simp only [startAgainEvents, List.mem_cons, List.not_mem_nil, or_false] at he
  rcases he with rfl | rfl | rfl | rfl | rfl | rfl | rfl | rfl | rfl | rfl | rfl | rfl | rfl | rfl
  all_goals exact ⟨trivial, trivial⟩

/-- The job comes through the restart. -/
theorem restart_reference_detecting :
    ∃ t q s, restarted = some (t, q, s) ∧ s.shared.submitted.map (outcomes s) = [[.done]] ∧
      s.lost = t.lost ∧ ∀ sub ∈ s.shared.submitted,
        outcomes s sub = [.done] ∧ killed s sub = 0 ∨ outcomes s sub = [] ∧ killed s sub = 1 := by
  obtain ⟨⟨t, q, s⟩, hall⟩ := Option.isSome_iff_exists.mp (show restarted.isSome = true by rfl)
  have hview : restarted.map (fun r => (r.2.1.todo, r.2.2.outside,
      r.2.2.shared.submitted.map (outcomes r.2.2),
      decide (r.2.2.shared.submitted.map fun sub => sub.msg.key).Nodup))
      = some ([], [], [[.done]], true) := by rfl
  have hnode : ∀ b, restarted.map (fun r => ((r.2.2.node b).stage, (r.2.2.node b).box,
      (r.2.2.node b).pool, (r.2.2.node b).busy)) = some (.receiving, [], [], []) := by
    intro b
    cases b <;> rfl
  simp only [hall, Option.map_some, Option.some.injEq, Prod.mk.injEq, decide_eq_true_eq]
    at hview hnode
  obtain ⟨hdone, houtside, houtcomes, hids⟩ := hview
  obtain ⟨t', ht, hrest⟩ := Option.bind_eq_some_iff.mp hall
  obtain ⟨q', hq, hrest'⟩ := Option.bind_eq_some_iff.mp hrest
  obtain ⟨s', hs, hsame⟩ := Option.map_eq_some_iff.mp hrest'
  obtain ⟨rfl, hsame'⟩ := Prod.mk.inj hsame
  obtain ⟨rfl, rfl⟩ := Prod.mk.inj hsame'
  have hidle := sampleBounded_idle ht
  have hclean : Clean t' := by
    refine ⟨?_, ?_, ?_⟩
    · intro p hp
      rw [hidle.outside] at hp
      cases hp
    · intro b hmem
      rw [hidle.box] at hmem
      cases hmem
    · intro b
      rw [hidle.stage]
      exact Stage.noConfusion
  have hquiet : Quiet s' := ⟨houtside, fun b => (hnode b).2⟩
  have href := restart_reference sampleDeployment (mainLimits 4) (positive_mainLimits (by decide))
    (fun _ => some (lit "application/pdf")) False (fun _ => none) t'
    ((reaches_sampleBounded ht).mono Faults.any) hclean hidle.stage serviceOrder (by decide)
    (fun b => by cases b <;> decide) q'
    (reaches_of_run (runOk_of_forall stopping_stopAllEvents) hq) hdone s'
    (reaches_of_run (runOk_of_forall starting_startAgainEvents) hs)
    (fun b => by rw [(hnode b).1]; exact Stage.noConfusion) hids
  exact ⟨t', q', s', hall, houtcomes, href.2.2.1 id,
    href.2.2.2 (hquiet.stuck fun b => (hnode b).1)⟩

/-! ## The command -/

variable {names : List Str} {s s' : Supervisor} {o : Outlook}

/-- The factories of the workers start a process each time, under the same name. -/
def Reliable (names : List Str) (s : Supervisor) : Prop :=
  ∀ {i : Nat} {name : Str} {e : WorkerEntity}, names[i]? = some name → s.workers[i]? = some e →
    ∀ n, e.w.factory n = .ok (some { name := name })

theorem Reliable.sameChild (h : Reliable names s)
    (hsame : Supervisor.Entrywise SameChild s s') : Reliable names s' := by
  intro i name e' hi he' n
  obtain ⟨e, he, hchild⟩ := forall₂_getElem?' hsame he'
  rw [hchild.factory]
  exact h hi he n

/-- The factory has been called for a new child. -/
def Replaced (e e' : WorkerEntity) : Prop := e.w.factory e.w.spawned = .ok e'.w.process

/-- `start_workers` with the empty name: all services take messages again. -/
theorem Mirrors.start (h : Mirrors l names s o) (hr : Reliable names s) :
    ∃ s', s.startWorkers [] = .ok s' ∧ Mirrors l names s' { o with up := fun _ => true } := by
  have hturns : ∀ e ∈ s.workers, ∃ e', Supervisor.startTurn [] e = .ok e' ∧ Replaced e e' := by
    intro e he
    obtain ⟨i, hi⟩ := List.mem_iff_getElem?.mp he
    obtain ⟨hlt, -⟩ := List.getElem?_eq_some_iff.mp hi
    obtain ⟨name, hname⟩ : ∃ name, names[i]? = some name :=
      ⟨_, List.getElem?_eq_getElem (h.length ▸ hlt)⟩
    have hfactory := hr hname hi e.w.spawned
    refine ⟨{ w := { e.w with process := some { name := name }, spawned := e.w.spawned + 1 },
              state := .running }, ?_, hfactory⟩
    rw [Supervisor.startTurn, if_pos rfl, Supervisor.startEntity, Worker.start]
    simp only [hfactory]
    rfl
  obtain ⟨workers, hworkers, hall⟩ := mapM_total hturns
  refine ⟨{ s with workers := workers }, ?_, h.queue, hall.length_eq.symm.trans h.length, ?_⟩
  · rw [Supervisor.startWorkers, hworkers]
    rfl
  · intro i name e' hi he'
    obtain ⟨e, he, hreplaced⟩ := forall₂_getElem?' hall he'
    have hprocess : some { name := name } = e'.w.process :=
      Except.ok.inj ((hr hi he _).symm.trans hreplaced)
    exact ⟨{ name := name }, hprocess.symm, rfl, fun _ _ => rfl⟩

/-- **Refinement of the restart**: when the last wait of a stop of all services of the
bounded pipeline ends, with uploads, full queues, kills and throwing detectors before it, the
command `restart` of a supervisor that holds these services and queues, and can start
processes, returns. The events during its waits are those of the run, all services can be
launched in the pipeline, and then the supervisor's queues and the children of the services
are those of the pipeline again. The child of `ingestd`, which is no service of the pipeline,
and the uploads that wait in it are not compared: the command replaces it while it runs. -/
theorem restart_refines (d : Deployment P) (l : Limits) (names : List Str) (hn : Staffed names)
    (s : Supervisor) (hreliable : Reliable names s) (hcommand : .restart ∈ s.commands)
    (t : State P) (hm : Mirrors l names s (outlook t)) (hpills : Unannounced t)
    (es : List StopAction) (hes : ∀ ev ∈ es, Alone ev) (q : StopState P)
    (hrun : run (stopStep (network d l)) { net := t, todo := stopOrder names } (es ++ [.reap])
      = some q) (hdone : q.todo = []) :
    ∃ (waits : Nat → Waits) (s' : Supervisor) (u : State P),
      s.handleCommand .restart [] waits = .ok s' ∧
      (List.range names.length).flatMap (fun i => (waits i).all)
        = seenAll d l names { net := t, todo := stopOrder names } (es ++ [.reap]) ∧
      run (network d l).step q.net ((stopOrder names).map .relaunch) = some u ∧
      Mirrors l names s' (outlook u) := by
  have hall : ∀ ev ∈ es ++ [.reap], Alone ev := by
    intro ev hev
    rcases List.mem_append.mp hev with hev | hev
    · exact hes ev hev
    · rw [List.mem_singleton.mp hev]
      trivial
  obtain ⟨waits, later, s₁, hstop, hseen, hnone, hm₁⟩ := stop_returns hn hm hpills hall hrun hdone
  obtain rfl : later = [] := by
    refine hnone ?_
    intro ev hev
    rw [List.getLast?_concat] at hev
    exact (Option.some.inj hev).symm
  obtain ⟨s', hstart, hm'⟩ :=
    hm₁.start (hreliable.sameChild (Supervisor.stopWorkers_inv hstop).sameChild)
  -- every service has exited, so that it can be launched
  have hended : Stopper.Done (stopOrder names) q := by
    have hreaches : Reaches (stopStep (network d l)) (fun _ => Alone)
        { net := t, todo := stopOrder names } q :=
      reaches_of_run (runOk_of_forall fun ev hev _ => hall ev hev) hrun
    refine hreaches.invariant (fun b hb hnot => absurd hb hnot) ?_
    intro a b ev ha halone hs
    refine done_step ha ?_ hs
    rintro n rfl
    exact halone
  obtain ⟨u, hu, hnode⟩ := run_relaunch (network d l) hn.nodup_stopOrder
    fun b hb => hended b hb (hdone ▸ List.not_mem_nil)
  have hlaunched : ∀ b, u.node b = { box := (q.net.node b).box } := by
    intro b
    rw [hnode, if_pos (hn.mem_stopOrder b)]
  have houtlook : outlook u = { outlook q.net with up := fun _ => true } := by
    refine Outlook.ext ?_ ?_
    · funext b
      show (u.node b).box.map ipcMail = (q.net.node b).box.map ipcMail
      rw [hlaunched]
    · funext b
      show decide ((u.node b).stage = .receiving) = true
      rw [hlaunched]
      rfl
  refine ⟨waits, s', u, ?_, ?_, hu, houtlook ▸ hm'⟩
  · rw [Supervisor.handleCommand, if_pos hcommand]
    show (s.stopWorkers [] waits >>= fun s => s.startWorkers []) = .ok s'
    rw [hstop]
    exact hstart
  · rw [← hseen, List.append_nil]

/-- What `main` and `fika start` make can be restarted. -/
theorem reliable_deployed (hs : Supervisor.deployedAfter [Supervisor.startAll] = some s) :
    Reliable Supervisor.configuredWorkers s := by
  intro i name e hi he n
  have hfactories : s.workers.map (fun e => e.w.factory)
      = Supervisor.configuredWorkers.map fun name _ => .ok (some { name := name }) :=
    Supervisor.deployed_eval (f := fun s => s.workers.map fun e => e.w.factory) hs rfl
  have hfactory := congrArg (fun l => l[i]?) hfactories
  simp only [List.getElem?_map, he, hi, Option.map_some, Option.some.injEq] at hfactory
  rw [hfactory]

/-- The deployed supervisor restarts all services while detect has the sample job in its
hands. -/
theorem restart_refines_detecting :
    ∃ s t q, Supervisor.deployedAfter [Supervisor.startAll] = some s ∧ sampleBounded 8 = some t ∧
      run (stopStep (network sampleDeployment (mainLimits 4)))
        { net := t, todo := stopOrder Supervisor.configuredWorkers } stopAllEvents = some q ∧
      ∃ (waits : Nat → Waits) (s' : Supervisor) (u : State Unit),
        s.handleCommand .restart [] waits = .ok s' ∧
        run (network sampleDeployment (mainLimits 4)).step q.net
          ((stopOrder Supervisor.configuredWorkers).map .relaunch) = some u ∧
        Mirrors (mainLimits 4) Supervisor.configuredWorkers s' (outlook u) := by
  obtain ⟨s, hs⟩ := Option.isSome_iff_exists.mp
    (show (Supervisor.deployedAfter [Supervisor.startAll]).isSome = true by rfl)
  obtain ⟨t, ht⟩ := Option.isSome_iff_exists.mp (show (sampleBounded 8).isSome = true by rfl)
  have hidle := sampleBounded_idle ht
  have hend : ((sampleBounded 8).bind fun t =>
      run (stopStep (network sampleDeployment (mainLimits 4)))
        { net := t, todo := stopOrder Supervisor.configuredWorkers } stopAllEvents).map
      (fun q => q.todo) = some [] := by rfl
  rw [ht, Option.bind_some] at hend
  obtain ⟨q, hq, hdone⟩ := Option.map_eq_some_iff.mp hend
  have hcommands : s.commands = [.start, .stop, .restart, .ping] :=
    Supervisor.deployed_eval (f := fun s => s.commands) hs rfl
  obtain ⟨waits, s', u, hrestart, -, hu, hm⟩ := restart_refines sampleDeployment (mainLimits 4)
    Supervisor.configuredWorkers staffed_configuredWorkers s (reliable_deployed hs)
    (by rw [hcommands]; decide) t (mirrors_deployed hs hidle.box hidle.stage)
    (fun p hp => by rw [hidle.outside] at hp; cases hp) stopAllEvents.dropLast
    (fun ev hev => alone_stopAllEvents ev (List.mem_of_mem_dropLast hev)) q hq hdone
  exact ⟨s, t, q, hs, ht, hq, waits, s', u, hrestart, hu, hm⟩

end Bounded

end Fika
