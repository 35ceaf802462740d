import Fika.Supervisor.Stop

/-!
# What monitoring restores (`supervisor::monitor_once`)

The supervisor keeps for each worker the state it should be in. Commands set it;
`monitor_once` compares it with the child and starts what should run and does
not. When every factory call returns a running child, the two never drift apart
in any other way.

- `EntryKept`: a Running entry holds a child, a Stopped one holds none that runs;
  `step_kept`: every operation and event keeps this of every entry.
- `Monitored`: what a monitor step may do to an entry; `monitorOnce_spec`: it
  always returns, and does exactly that to each of them.
- `monitor_restores`: in every state the supervisor can reach.
-/

namespace Fika

open Lib

/-- Every call of the factory returns a running child. -/
def ProcessFactory.Runs (factory : ProcessFactory) : Prop :=
  ∀ n, ∃ child, factory n = .ok (some child) ∧ child.running = true

/-- The worker starts what it should, and holds what its state says. -/
structure EntryKept (e : WorkerEntity) : Prop where
  runs : e.w.factory.Runs
  holds : e.state = .running → e.w.Holds
  dead : e.state = .stopped → e.w.isAlive = false

/-- What a monitor step does to an entry: a Running one with a dead child gets the
next child of its factory, any other is left as it is. -/
structure Monitored (e e' : WorkerEntity) : Prop where
  state : e'.state = e.state
  factory : e'.w.factory = e.w.factory
  spawned : e'.w.spawned
    = e.w.spawned + if e.state = .running ∧ e.w.isAlive = false then 1 else 0
  revived : e.state = .running → e.w.isAlive = false → ∃ child,
    e.w.factory e.w.spawned = .ok (some child) ∧ e'.w.process = some child
  unchanged : ¬ (e.state = .running ∧ e.w.isAlive = false) → e' = e
  alive : e'.state = .running → e'.w.isAlive = true

/-! ## One entry -/

/-- Starting a worker whose factory works returns, with a running child. -/
theorem Worker.start_runs {w : Worker} (h : w.factory.Runs) :
    ∃ child, w.factory w.spawned = .ok (some child) ∧ child.running = true ∧
      w.start = .ok { w with process := some child, spawned := w.spawned + 1 } := by
  obtain ⟨child, hchild, hrunning⟩ := h w.spawned
  refine ⟨child, hchild, hrunning, ?_⟩
  rw [start, hchild]

section

variable {e e' : WorkerEntity}

theorem Monitored.kept (hm : Monitored e e') (h : EntryKept e) : EntryKept e' where
  runs := hm.factory ▸ h.runs
  holds hstate := Worker.holds_of_isAlive (hm.alive hstate)
  dead hstate := by
    have hnot : ¬ (e.state = .running ∧ e.w.isAlive = false) := by
      rintro ⟨hr, -⟩
      rw [hm.state, hr] at hstate
      cases hstate
    rw [hm.unchanged hnot] at hstate ⊢
    exact h.dead hstate

/-- A child that only may have exited, in an entry that only may have been stopped
when it had. -/
theorem EntryKept.of_sameChild (h : EntryKept e) (hsame : SameChild e e')
    (hstate : e'.state = e.state ∨ e'.state = .stopped ∧ e'.w.isAlive = false) :
    EntryKept e' := by
  refine ⟨hsame.factory ▸ h.runs, fun hr => ?_, fun hst => ?_⟩
  · rcases hstate with heq | ⟨hst, -⟩
    · exact hsame.holds.mpr (h.holds (heq ▸ hr))
    · rw [hr] at hst
      cases hst
  · rcases hstate with heq | ⟨-, hdead⟩
    · by_contra halive
      have hbefore := hsame.alive (by simpa using halive)
      rw [h.dead (heq ▸ hst)] at hbefore
      cases hbefore
    · exact hdead

end

namespace Supervisor

variable {s s' : Supervisor} {e e' : WorkerEntity} {serviceName : Str}

/-- Every entry is kept. -/
def Kept (s : Supervisor) : Prop := ∀ e ∈ s.workers, EntryKept e

/-! ## One turn -/

theorem startEntity_kept (h : e.w.factory.Runs) (hs : startEntity e = .ok e') : EntryKept e' := by
  obtain ⟨child, -, -, hstart⟩ := Worker.start_runs h
  rw [startEntity, hstart] at hs
  cases hs
  exact ⟨h, fun _ => rfl, fun hstate => nomatch hstate⟩

theorem startTurn_kept (h : EntryKept e) (hs : startTurn serviceName e = .ok e') :
    EntryKept e' := by
  unfold startTurn at hs
  split at hs
  · exact startEntity_kept h.runs hs
  · obtain ⟨name, -, hs⟩ := bind_eq_ok.mp hs
    split at hs
    · exact startEntity_kept h.runs hs
    · cases hs
      exact h

/-- A turn of the monitor always returns. -/
theorem monitorTurn_spec (h : EntryKept e) :
    ∃ e', monitorTurn e = .ok e' ∧ Monitored e e' := by
  by_cases hdead : e.w.isAlive = false ∧ e.state = .running
  · obtain ⟨child, hchild, hrunning, hstart⟩ := Worker.start_runs h.runs
    -- the child is dead, so `restart` only starts
    have hrestart : e.w.restart = e.w.start := by
      rw [Worker.restart, hdead.1]
      rfl
    refine ⟨{ e with w := { e.w with process := some child, spawned := e.w.spawned + 1 } }, ?_, ?_⟩
    · rw [monitorTurn, if_pos hdead, hrestart, hstart]
      rfl
    · refine ⟨rfl, rfl, ?_, fun _ _ => ⟨child, hchild, rfl⟩, fun hn => ?_, fun _ => hrunning⟩
      · rw [if_pos hdead.symm]
      · exact absurd hdead.symm hn
  · refine ⟨e, ?_, ?_⟩
    · rw [monitorTurn, if_neg hdead]
      rfl
    · refine ⟨rfl, rfl, ?_, fun hr hd => absurd ⟨hd, hr⟩ hdead, fun _ => rfl, fun hr => ?_⟩
      · rw [if_neg fun hb => hdead hb.symm, Nat.add_zero]
      · -- Running and passed over: the child is alive
        by_contra halive
        exact hdead ⟨by simpa using halive, hr⟩

/-! ## The operations -/

/-- `monitor_once` always returns, and goes over the entries one by one. -/
theorem monitorOnce_spec (h : s.Kept) :
    ∃ s', s.monitorOnce = .ok s' ∧ s' = { s with workers := s'.workers } ∧
      Entrywise Monitored s s' := by
  obtain ⟨l, hl, hmon⟩ := mapM_total fun e he => monitorTurn_spec (h e he)
  refine ⟨{ s with workers := l }, ?_, rfl, hmon⟩
  rw [monitorOnce, hl]
  rfl

/-- Nothing that should run is down, so a second look changes nothing. -/
theorem monitorOnce_again (hmon : Entrywise Monitored s s') : s'.monitorOnce = .ok s' := by
  have hself : s'.workers.mapM monitorTurn = .ok s'.workers := by
    refine mapM_eq_self fun e' he' => ?_
    obtain ⟨i, hi⟩ := List.mem_iff_getElem?.mp he'
    obtain ⟨e, -, hm⟩ := forall₂_getElem?' hmon hi
    rw [monitorTurn, if_neg]
    · rfl
    · rintro ⟨hdead, hr⟩
      rw [hm.alive hr] at hdead
      cases hdead
  rw [monitorOnce, hself]
  rfl

theorem Kept.of_entrywise {R : WorkerEntity → WorkerEntity → Prop} (h : s.Kept)
    (hR : Entrywise R s s')
    (hkept : ∀ {e e' : WorkerEntity}, EntryKept e → R e e' → EntryKept e') : s'.Kept := by
  intro e' he'
  obtain ⟨i, hi⟩ := List.mem_iff_getElem?.mp he'
  obtain ⟨e, he, hrel⟩ := forall₂_getElem?' hR hi
  exact hkept (h e (List.mem_of_getElem? he)) hrel

theorem startWorkers_kept (h : s.Kept) (hs : s.startWorkers serviceName = .ok s') : s'.Kept := by
  obtain ⟨l, hl, hs⟩ := bind_eq_ok.mp hs
  cases hs
  have hentries : Entrywise (fun e e' => startTurn serviceName e = .ok e') s
      { s with workers := l } := mapM_ok hl
  exact h.of_entrywise hentries startTurn_kept

theorem stopWorkers_kept {waits : Nat → Waits} (h : s.Kept)
    (hs : s.stopWorkers serviceName waits = .ok s') : s'.Kept := by
  have hinv := stopWorkers_inv hs
  intro e' he'
  obtain ⟨i, hi⟩ := List.mem_iff_getElem?.mp he'
  obtain ⟨e, he, hsame⟩ := forall₂_getElem?' hinv.sameChild hi
  have hlt : i < s.workers.length := (List.getElem?_eq_some_iff.mp he).1
  refine (h e (List.mem_of_getElem? he)).of_sameChild hsame ?_
  by_cases hchosen : Chosen serviceName e
  · exact .inr (hinv.stopped hlt he hchosen hi)
  · exact .inl (hinv.other he (.inr hchosen) hi)

theorem events_kept (h : s.Kept) (evs : List ExternalEvent) : (s.events evs).Kept :=
  h.of_entrywise (events_untouched s evs) fun he hu => he.of_sameChild hu.1 (.inl hu.2)

/-- **Every operation keeps every entry.** -/
theorem step_kept {op : Op} (h : s.Kept) (hs : s.step op = .ok s') : s'.Kept := by
  cases op with
  | monitor =>
    obtain ⟨t, ht, -, hmon⟩ := monitorOnce_spec h
    obtain rfl : t = s' := Except.ok.inj (ht.symm.trans hs)
    exact h.of_entrywise hmon fun he hm => hm.kept he
  | event ev =>
    cases hs
    exact events_kept h [ev]
  | command cmdType serviceName waits =>
    change s.handleCommand cmdType serviceName waits = .ok s' at hs
    unfold handleCommand at hs
    split at hs
    · cases cmdType with
      | start => exact startWorkers_kept h hs
      | stop => exact stopWorkers_kept h hs
      | restart =>
        obtain ⟨t, ht, hs⟩ := bind_eq_ok.mp hs
        exact startWorkers_kept (stopWorkers_kept h ht) hs
      | ping =>
        change s.sendPong pong (waits 0) = .ok s' at hs
        unfold sendPong at hs
        dsimp only at hs
        split at hs
        · cases hs
        · cases hs
          exact events_kept h (waits 0).sending
      | _ =>
        cases hs
        exact h
    · cases hs
      exact h

theorem runOps_kept {ops : List Op} (h : s.Kept) (hs : s.runOps ops = .ok s') : s'.Kept := by
  refine Ensures.of_ok (A := fun _ => True) (P := Kept) (Ensures.foldlM h fun t ht op _ => ?_) hs
  cases hstep : t.step op with
  | error f => trivial
  | ok u => exact step_kept ht hstep

theorem launch_kept {factories : List ProcessFactory} {queues : List QueueDescriptor}
    (hruns : ∀ f ∈ factories, f.Runs) (hs : launch factories queues = .ok s) : s.Kept := by
  intro e he
  obtain ⟨hnone, hstate, hfac⟩ := (launch_idle hruns hs).1.workers e he
  refine ⟨hfac, fun hr => ?_, fun _ => ?_⟩
  · rw [hstate] at hr
    cases hr
  · rw [Worker.isAlive, hnone]

/-- Between commands everything returns. -/
theorem runOps_background {ops : List Op} (h : s.Kept) (hops : ∀ op ∈ ops, op.Background) :
    ∃ s', s.runOps ops = .ok s' := by
  induction ops generalizing s with
  | nil => exact ⟨s, rfl⟩
  | cons op ops ih =>
    obtain ⟨t, ht⟩ : ∃ t, s.step op = .ok t := by
      cases op with
      | command cmdType serviceName waits => exact absurd (hops _ List.mem_cons_self) id
      | monitor =>
        obtain ⟨t, ht, -⟩ := monitorOnce_spec h
        exact ⟨t, ht⟩
      | event ev => exact ⟨_, rfl⟩
    obtain ⟨s', hs'⟩ := ih (step_kept h ht) fun op' hop' => hops op' (List.mem_cons_of_mem _ hop')
    exact ⟨s', by rw [runOps_cons, ht]; exact hs'⟩

end Supervisor

/-- **Monitoring restores exactly what should run**: when the factories return
running children, then in every state the supervisor can reach every Running
entry holds a child; `monitor_once` returns and gives each Running entry with a
dead child its next child and touches nothing else, so that every Running entry
is alive; doing it again changes nothing; and whatever deaths and monitor steps
follow, a Stopped entry stays Stopped and spawns nothing. -/
theorem monitor_restores (factories : List ProcessFactory) (queues : List QueueDescriptor)
    (s₀ s : Supervisor) (ops : List Op) (hruns : ∀ f ∈ factories, f.Runs)
    (hlaunch : Supervisor.launch factories queues = .ok s₀) (hs : s₀.runOps ops = .ok s) :
    (∀ e ∈ s.workers, e.state = .running → e.w.Holds) ∧
    (∃ s', s.monitorOnce = .ok s' ∧ s' = { s with workers := s'.workers } ∧
      s.Entrywise Monitored s' ∧ s'.monitorOnce = .ok s') ∧
    (∀ (i : Nat) (e : WorkerEntity), s.workers[i]? = some e → e.state = .stopped →
      ∀ later : List Op, (∀ op ∈ later, op.Background) →
        ∃ s', s.runOps later = .ok s' ∧ s'.StoppedAt i e.w.spawned) := by
  have hkept : s.Kept := Supervisor.runOps_kept (Supervisor.launch_kept hruns hlaunch) hs
  refine ⟨fun e he => (hkept e he).holds, ?_, fun i e he hstate later hlater => ?_⟩
  · obtain ⟨s', hmon, hsame, hentries⟩ := Supervisor.monitorOnce_spec hkept
    exact ⟨s', hmon, hsame, hentries, Supervisor.monitorOnce_again hentries⟩
  · obtain ⟨s', hs'⟩ := Supervisor.runOps_background hkept hlater
    have hdead := (hkept e (List.mem_of_getElem? he)).dead hstate
    exact ⟨s', hs', Supervisor.stoppedAt_runOps ⟨e, he, hstate, hdead, rfl⟩ hlater hs'⟩

/-! ## The deployed supervisor -/

theorem runs_mainFactories : ∀ f ∈ Supervisor.mainFactories, f.Runs := by
  intro f hf n
  obtain ⟨name, -, rfl⟩ := List.mem_map.mp hf
  exact ⟨_, rfl, rfl⟩

/-- The child of `detect` dies, and monitoring starts another one. -/
theorem monitor_restores_detect :
    ∃ s s', Supervisor.deployedAfter [Supervisor.startAll, .event (.die 2)] = some s ∧
      s.monitorOnce = .ok s' ∧ s.workers[2]?.map (fun e => e.w.isAlive) = some false ∧
      ∃ e', s'.workers[2]? = some e' ∧ e'.w.isAlive = true ∧ e'.w.spawned = 2 := by
  obtain ⟨s, hs⟩ := Option.isSome_iff_exists.mp
    (show (Supervisor.deployedAfter [Supervisor.startAll, .event (.die 2)]).isSome = true by rfl)
  have hentry : (s.workers[2]?.map fun e => (e.state, e.w.isAlive, e.w.spawned))
      = some (.running, false, 1) :=
    Supervisor.deployed_eval
      (f := fun s => s.workers[2]?.map fun e => (e.state, e.w.isAlive, e.w.spawned)) hs (by rfl)
  obtain ⟨s₀, hlaunch, hrun⟩ := Supervisor.deployedAfter_eq_some hs
  obtain ⟨-, ⟨s', hmon, -, hentries, -⟩, -⟩ :=
    monitor_restores _ _ s₀ s _ runs_mainFactories hlaunch hrun
  obtain ⟨e, he, hval⟩ := Option.map_eq_some_iff.mp hentry
  obtain ⟨hstate, hrest⟩ := Prod.mk.inj hval
  obtain ⟨hdead, hspawned⟩ := Prod.mk.inj hrest
  obtain ⟨e', he', hm⟩ := forall₂_getElem? hentries he
  refine ⟨s, s', hs, hmon, ?_, e', he', hm.alive (hm.state.trans hstate), ?_⟩
  · rw [he, Option.map_some, hdead]
  · rw [hm.spawned, hspawned, if_pos ⟨hstate, hdead⟩]

end Fika
