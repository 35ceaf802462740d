import Fika.Supervisor.Supervisor

/-!
# Null children

`worker::name` dereferences the child without a check, and both loops that
filter by name evaluate it for every worker: `start_workers` unless the service
name is empty, `stop_workers` always, because there the name comes first in the
disjunction. A worker that was never started has no child.

- `Ready`: every worker holds a child; `step_ready`: no operation spoils it, and
  none dereferences null under it.
- `Idle`: no worker has been started; `step_idle_needsNames`, `step_idle_startsAll`,
  `step_idle_other`: what each operation does then.
- `null_child_safe`: a sequence of operations is safe exactly when an untargeted
  start comes before the first command that needs names. It ends at the first operation
  that throws, as `supervisor::run` does.
-/

namespace Fika

open Lib

/-! ## Commands that evaluate names -/

namespace Op

/-- The command that starts every worker. -/
def StartsAll : Op → Prop
  | .command .start serviceName _ => serviceName = []
  | _ => False

/-- The commands that evaluate the name of a worker. -/
def NeedsNames : Op → Prop
  | .command .start serviceName _ => serviceName ≠ []
  | .command .stop _ _ => True
  | .command .restart _ _ => True
  | _ => False

end Op

/-- An untargeted start comes before the first command that needs names. -/
def StartedFirst : List Op → Prop
  | [] => True
  | op :: ops => op.StartsAll ∨ (¬ op.NeedsNames ∧ StartedFirst ops)

/-- The factory returns a child or throws. -/
def ProcessFactory.NonNull (factory : ProcessFactory) : Prop := ∀ n, factory n ≠ .ok none

namespace Supervisor

variable {s s' : Supervisor} {e : WorkerEntity}

/-- No null child is dereferenced, and what is returned meets `P`. -/
abbrev Safe {α : Type} (P : α → Prop) (x : Except Fault α) : Prop :=
  Ensures (· ≠ .nullChild) P x

/-! ## When every worker holds a child -/

/-- The worker holds a child, and so will any child that replaces it. -/
structure WorkerReady (e : WorkerEntity) : Prop where
  holds : e.w.Holds
  nonNull : e.w.factory.NonNull

/-- Every worker holds a child. -/
def Ready (s : Supervisor) : Prop := ∀ e ∈ s.workers, WorkerReady e

/-- A started worker holds the child its factory made. -/
theorem start_ready {w : Worker} (h : w.factory.NonNull) (state : WorkerState) :
    Safe (fun w' => WorkerReady { w := w', state := state }) w.start := by
  refine (w.start_ensures.weaken ?_).mono ?_
  · rintro f ⟨what, rfl⟩ hf
    cases hf
  · rintro w' ⟨hp, hf, -⟩
    refine ⟨?_, hf ▸ h⟩
    cases hc : w'.process with
    | none => exact absurd (hc ▸ hp) (h w.spawned)
    | some child => exact Option.isSome_iff_exists.mpr ⟨child, hc⟩

theorem startEntity_ready (h : e.w.factory.NonNull) : Safe WorkerReady (startEntity e) :=
  (start_ready h .running).bind fun _ hw => hw

/-- A worker that holds a child can be asked for its name. -/
theorem startTurn_ready (serviceName : Str) (h : WorkerReady e) :
    Safe WorkerReady (startTurn serviceName e) := by
  unfold startTurn
  split
  · exact startEntity_ready h.nonNull
  · obtain ⟨child, -, hname⟩ := Worker.name_of_holds h.holds
    rw [hname]
    show Safe WorkerReady (if child.name = serviceName then startEntity e else .ok e)
    split
    · exact startEntity_ready h.nonNull
    · exact h

theorem monitorTurn_ready (h : WorkerReady e) : Safe WorkerReady (monitorTurn e) := by
  unfold monitorTurn
  split
  · next hdead =>
    -- the child is dead, so `restart` only starts
    have hrestart : e.w.restart = e.w.start := by
      rw [Worker.restart, hdead.1]
      rfl
    rw [hrestart]
    exact (start_ready h.nonNull e.state).bind fun _ hw => hw
  · exact h

theorem Ready.of_sameChild (h : s.Ready) (hs : Entrywise SameChild s s') : s'.Ready := by
  intro e he
  obtain ⟨i, hi⟩ := List.mem_iff_getElem?.mp he
  obtain ⟨a, ha, hsame⟩ := forall₂_getElem?' hs hi
  have hready := h a (List.mem_of_getElem? ha)
  exact ⟨hsame.holds.mpr hready.holds, hsame.factory ▸ hready.nonNull⟩

theorem startWorkers_ready (h : s.Ready) (serviceName : Str) :
    Safe Ready (s.startWorkers serviceName) :=
  (Ensures.mapM fun e he => startTurn_ready serviceName (h e he)).bind fun _ hl => hl

theorem monitorOnce_ready (h : s.Ready) : Safe Ready s.monitorOnce :=
  (Ensures.mapM fun e he => monitorTurn_ready (h e he)).bind fun _ hl => hl

theorem stopWorkers_ready (h : s.Ready) (serviceName : Str) (waits : Nat → Waits) :
    Safe Ready (s.stopWorkers serviceName waits) := by
  refine Ensures.foldlM_range (I := fun _ => Ready) h fun i t _ ht => ?_
  refine (stopTurn_ensures serviceName waits (fun _ hf => hf) fun e he => ?_).mono
    fun u hu => ht.of_sameChild hu
  -- the name is evaluated first, and the worker has one
  obtain ⟨child, -, hname⟩ := Worker.name_of_holds (ht e (List.mem_of_getElem? he)).holds
  rw [hname]
  trivial

theorem sendPong_ready (h : s.Ready) (msg : CommandResponse) (w : Waits) :
    Safe Ready (s.sendPong msg w) := by
  have hevents : (s.events w.sending).Ready :=
    h.of_sameChild ((events_untouched s w.sending).mono And.left)
  unfold sendPong
  dsimp only
  split
  · exact fun hf => nomatch hf
  · exact hevents

/-- **Ready is stable and safe**: under it no operation dereferences null, and
every operation that returns keeps it. -/
theorem step_ready (h : s.Ready) (op : Op) : Safe Ready (s.step op) := by
  cases op with
  | monitor => exact monitorOnce_ready h
  | event ev => exact h.of_sameChild ((event_untouched s ev).mono And.left)
  | command cmdType serviceName waits =>
    show Safe Ready (s.handleCommand cmdType serviceName waits)
    unfold handleCommand
    split
    · cases cmdType with
      | start => exact startWorkers_ready h serviceName
      | stop => exact stopWorkers_ready h serviceName waits
      | restart =>
        exact (stopWorkers_ready h serviceName waits).bind fun t ht =>
          startWorkers_ready ht serviceName
      | ping => exact sendPong_ready h pong (waits 0)
      | _ => exact h
    · exact h

theorem runOps_ready (h : s.Ready) (ops : List Op) : Safe Ready (s.runOps ops) :=
  Ensures.foldlM h fun _ ht op _ => step_ready ht op

/-! ## Before the first start -/

/-- No worker has been started, the factories are as `good` says, and the commands
are registered. -/
structure Idle (good : ProcessFactory → Prop) (s : Supervisor) : Prop where
  workers : ∀ e ∈ s.workers, e.w.process = none ∧ e.state = .stopped ∧ good e.w.factory
  commands : s.commands = [.start, .stop, .restart, .ping]

variable {good : ProcessFactory → Prop}

/-- A freshly launched supervisor is idle, with one worker for each factory. -/
theorem launch_idle {factories : List ProcessFactory} {queues : List QueueDescriptor}
    (hgood : ∀ f ∈ factories, good f) (h : launch factories queues = .ok s) :
    s.Idle good ∧ s.workers.length = factories.length := by
  obtain ⟨t, ht, h⟩ := bind_eq_ok.mp h
  obtain ⟨mgr, -, ht⟩ := bind_eq_ok.mp ht
  cases ht
  cases h
  refine ⟨⟨fun e he => ?_, rfl⟩, List.length_map _⟩
  obtain ⟨factory, hf, rfl⟩ := List.mem_map.mp he
  exact ⟨rfl, rfl, hgood factory hf⟩

theorem Idle.of_untouched (h : s.Idle good) (hs : Entrywise Untouched s s')
    (hc : s'.commands = s.commands) : s'.Idle good := by
  refine ⟨fun e he => ?_, hc.trans h.commands⟩
  obtain ⟨i, hi⟩ := List.mem_iff_getElem?.mp he
  obtain ⟨a, ha, hsame, hstate⟩ := forall₂_getElem?' hs hi
  obtain ⟨hp, hst, hgood⟩ := h.workers a (List.mem_of_getElem? ha)
  refine ⟨?_, hstate.trans hst, hsame.factory ▸ hgood⟩
  have hnot : ¬ e.w.Holds := fun hh => by
    have hah := hsame.holds.mp hh
    rw [Worker.Holds, hp] at hah
    cases hah
  exact Option.not_isSome_iff_eq_none.mp hnot

theorem event_commands (s : Supervisor) (ev : ExternalEvent) :
    (s.event ev).commands = s.commands := by
  cases ev with
  | die i => rfl
  | receive i =>
    show (s.receive i).commands = _
    unfold receive
    split
    · rfl
    · split <;> rfl
  | put queue job =>
    show (s.put queue job).commands = _
    unfold put
    split
    · rfl
    · split <;> rfl
  | readResponse => rfl

theorem events_commands (s : Supervisor) (evs : List ExternalEvent) :
    (s.events evs).commands = s.commands :=
  events_invariant (I := fun t => t.commands = s.commands) rfl fun t ht ev _ =>
    (event_commands t ev).trans ht

/-- A worker that was never started has no child to ask for a name. -/
theorem Idle.name_eq (h : s.Idle good) (he : e ∈ s.workers) : e.w.name = .error .nullChild := by
  refine Worker.name_of_not_holds fun hh => ?_
  rw [Worker.Holds, (h.workers e he).1] at hh
  cases hh

/-- The first worker is asked for its name and has no child. -/
theorem startWorkers_idle (h : s.Idle good) (hne : s.workers ≠ []) {serviceName : Str}
    (hname : serviceName ≠ []) : s.startWorkers serviceName = .error .nullChild := by
  cases hw : s.workers with
  | nil => exact absurd hw hne
  | cons e l =>
    -- `start_workers` asks for the name because the service name is not empty
    have hnull := h.name_eq (e := e) (hw ▸ List.mem_cons_self)
    rw [startWorkers, hw, List.mapM_cons, startTurn, if_neg hname, hnull]
    rfl

theorem stopWorkers_idle (h : s.Idle good) (hne : s.workers ≠ []) (serviceName : Str)
    (waits : Nat → Waits) : s.stopWorkers serviceName waits = .error .nullChild := by
  cases hw : s.workers with
  | nil => exact absurd hw hne
  | cons e l =>
    -- `stop_workers` asks for the name first, even if the service name is empty
    have hnull := h.name_eq (e := e) (hw ▸ List.mem_cons_self)
    have hturn : stopTurn serviceName waits s 0 = .error .nullChild := by
      simp only [stopTurn, hw, List.getElem?_cons_zero, hnull]
      rfl
    rw [stopWorkers, hw, List.length_cons, List.range_succ_eq_map, List.foldlM_cons, hturn]
    rfl

/-- A command that needs names dereferences the null child of the first worker. -/
theorem step_idle_needsNames (h : s.Idle good) (hne : s.workers ≠ []) {op : Op}
    (hop : op.NeedsNames) : s.step op = .error .nullChild := by
  cases op with
  | monitor => exact absurd hop id
  | event ev => exact absurd hop id
  | command cmdType serviceName waits =>
    show s.handleCommand cmdType serviceName waits = _
    rw [handleCommand, h.commands]
    cases cmdType with
    | start => exact startWorkers_idle h hne hop
    | stop => exact stopWorkers_idle h hne serviceName waits
    | restart =>
      show (s.stopWorkers serviceName waits >>= fun t => t.startWorkers serviceName) = _
      rw [stopWorkers_idle h hne]
      rfl
    | _ => exact absurd hop id

/-- The untargeted start asks no worker for its name. -/
theorem step_idle_startsAll (h : s.Idle ProcessFactory.NonNull) {op : Op} (hop : op.StartsAll) :
    Safe Ready (s.step op) := by
  cases op with
  | monitor => exact absurd hop id
  | event ev => exact absurd hop id
  | command cmdType serviceName waits =>
    cases cmdType with
    | start =>
      have hname : serviceName = [] := hop
      show Safe Ready (s.handleCommand .start serviceName waits)
      rw [handleCommand, h.commands, hname]
      refine Ensures.bind (Ensures.mapM fun e he => ?_) fun _ hl => hl
      exact startEntity_ready (h.workers e he).2.2
    | _ => exact absurd hop id

/-- Anything else leaves an idle supervisor idle; it can wait for ever for room
for a pong. -/
theorem step_idle_other (h : s.Idle good) {op : Op} (hall : ¬ op.StartsAll)
    (hnames : ¬ op.NeedsNames) :
    Ensures (· = .blocked) (fun t => t.Idle good ∧ t.workers.length = s.workers.length)
      (s.step op) := by
  cases op with
  | monitor =>
    -- `monitor_once` looks only at Running entries, and there are none
    have hloop : s.workers.mapM monitorTurn = .ok s.workers := by
      refine mapM_eq_self fun e he => ?_
      rw [monitorTurn, if_neg]
      · rfl
      · rintro ⟨-, hst⟩
        rw [(h.workers e he).2.1] at hst
        cases hst
    show Ensures _ _ s.monitorOnce
    rw [monitorOnce, hloop]
    exact ⟨h, rfl⟩
  | event ev =>
    have hev := event_untouched s ev
    exact ⟨h.of_untouched hev (event_commands s ev), (List.Forall₂.length_eq hev).symm⟩
  | command cmdType serviceName waits =>
    show Ensures _ _ (s.handleCommand cmdType serviceName waits)
    rw [handleCommand, h.commands]
    cases cmdType with
    | start =>
      by_cases hname : serviceName = []
      · exact absurd hname hall
      · exact absurd hname hnames
    | stop => exact absurd trivial hnames
    | restart => exact absurd trivial hnames
    | ping =>
      have hev := events_untouched s (waits 0).sending
      show Ensures _ _ (s.sendPong pong (waits 0))
      unfold sendPong
      dsimp only
      split
      · exact (rfl : Fault.blocked = .blocked)
      · exact ⟨⟨(h.of_untouched hev (events_commands s _)).workers,
          (events_commands s _).trans h.commands⟩, (List.Forall₂.length_eq hev).symm⟩
    | _ => exact ⟨h, rfl⟩

/-- The factories of the deployed supervisor return children. -/
theorem nonNull_mainFactories : ∀ f ∈ mainFactories, f.NonNull := by
  intro f hf n
  obtain ⟨name, -, rfl⟩ := List.mem_map.mp hf
  exact fun h => nomatch h

/-! ## Sequences of operations -/

/-- After the first untargeted start every command is safe. -/
theorem runOps_startedFirst (h : s.Idle ProcessFactory.NonNull) (ops : List Op) (hops : StartedFirst ops) :
    Safe (fun _ => True) (s.runOps ops) := by
  induction ops generalizing s with
  | nil => trivial
  | cons op ops ih =>
    rw [runOps_cons]
    by_cases hall : op.StartsAll
    · refine (step_idle_startsAll h hall).bind fun t ht => ?_
      exact (runOps_ready ht ops).mono fun _ _ => trivial
    · obtain ⟨hnames, hrest⟩ := hops.resolve_left hall
      refine ((step_idle_other h hall hnames).weaken ?_).bind fun t ht => ih ht.1 hrest
      rintro f rfl hf
      cases hf

/-- Without it the first command that needs names dereferences null. -/
theorem runOps_not_startedFirst (h : s.Idle good) (hne : s.workers ≠ []) (ops : List Op)
    (hops : ¬ StartedFirst ops) :
    Ensures (fun f => f = .nullChild ∨ f = .blocked) (fun _ => False) (s.runOps ops) := by
  induction ops generalizing s with
  | nil => exact absurd trivial hops
  | cons op ops ih =>
    rw [runOps_cons]
    by_cases hnames : op.NeedsNames
    · rw [step_idle_needsNames h hne hnames]
      exact .inl rfl
    · have hall : ¬ op.StartsAll := fun hall => hops (.inl hall)
      have hrest : ¬ StartedFirst ops := fun hrest => hops (.inr ⟨hnames, hrest⟩)
      refine ((step_idle_other h hall hnames).weaken fun _ => .inr).bind fun t ht => ?_
      refine ih ht.1 (fun hnil => hne ?_) hrest
      rw [← List.length_eq_zero_iff, ← ht.2, hnil]
      rfl

end Supervisor

/-- **Commands are null-safe exactly after an untargeted start**: a sequence of
commands, monitor steps, deaths and other events on a launched supervisor
dereferences no null child when the factories return children or throw and an
untargeted start comes before the first command that needs names; and when no such
start comes first, and there is a worker, the sequence ends in a null dereference
(unless a ping before it waits for ever). A sequence ends at the first operation that
throws, for neither `handle_command` nor `run` catches anything. -/
theorem null_child_safe (factories : List ProcessFactory) (queues : List QueueDescriptor)
    (s : Supervisor) (hs : Supervisor.launch factories queues = .ok s) (ops : List Op) :
    ((∀ f ∈ factories, f.NonNull) → StartedFirst ops → s.runOps ops ≠ .error .nullChild) ∧
    (factories ≠ [] → ¬ StartedFirst ops →
      s.runOps ops = .error .nullChild ∨ s.runOps ops = .error .blocked) := by
  refine ⟨fun hnn hops hn => ?_, fun hne hops => ?_⟩
  · have hidle := (Supervisor.launch_idle hnn hs).1
    exact (Supervisor.runOps_startedFirst hidle ops hops).of_error hn rfl
  · obtain ⟨hidle, hlen⟩ := Supervisor.launch_idle (fun _ _ => trivial) hs
    have hw : s.workers ≠ [] := fun hnil => hne (by
      rw [← List.length_eq_zero_iff, ← hlen, hnil]
      rfl)
    have hend := Supervisor.runOps_not_startedFirst hidle hw ops hops
    cases hrun : s.runOps ops with
    | ok t => exact absurd hrun (fun h => hend.of_ok h)
    | error f =>
      rcases hend.of_error hrun with rfl | rfl
      · exact .inl rfl
      · exact .inr rfl

/-- The deployed supervisor is safe when the first command starts everything. -/
theorem null_child_safe_deployed :
    ∃ s, Supervisor.launch Supervisor.mainFactories Supervisor.mainQueues = .ok s ∧
      s.runOps [.command .start [] fun _ => {}, .command .stop (lit "ingestd") fun _ => {}]
        ≠ .error .nullChild := by
  obtain ⟨s, hs⟩ := Supervisor.launch_main
  exact ⟨s, hs, (null_child_safe Supervisor.mainFactories Supervisor.mainQueues s hs _).1
    Supervisor.nonNull_mainFactories (.inl rfl)⟩

/-- Stopping the deployed supervisor before anything was started. -/
theorem null_child_stop_first :
    ¬ ∀ (factories : List ProcessFactory) (queues : List QueueDescriptor) (s : Supervisor),
      (∀ f ∈ factories, f.NonNull) → Supervisor.launch factories queues = .ok s →
        ∀ ops, s.runOps ops ≠ .error .nullChild := by
  intro hall
  obtain ⟨s, hs⟩ := Supervisor.launch_main
  have hnn := Supervisor.nonNull_mainFactories
  obtain ⟨hidle, hlen⟩ := Supervisor.launch_idle hnn hs
  have hne : s.workers ≠ [] := by
    intro hnil
    rw [hnil] at hlen
    cases hlen
  have hstop : s.step (.command .stop [] fun _ => {}) = .error .nullChild :=
    Supervisor.step_idle_needsNames hidle hne trivial
  refine hall _ _ s hnn hs [.command .stop [] fun _ => {}] ?_
  rw [Supervisor.runOps_cons, hstop]
  rfl

end Fika
