import Fika.Supervisor.Pills

/-!
# When a factory is called

Children are spawned from three places: `worker::start`, behind the command Start
and the second half of Restart, and `worker::restart`, behind `monitor_once`.
`restart` terminates a live child first and the monitor looks at the child before
it calls; `start` does neither, and its callers do not look.

- `calls`, `runCalls`: the factory calls an operation or a run makes, each by its
  worker as it is at the call, also when the operation faults later;
  `spawned_step`: no other call is made.
- `Spares`: the operation finds no running child in its way.
- `calls_down_iff`: that is when a returning operation calls no factory whose
  worker has a running child; `one_live_child`: and so in every run.
- `start_spawns`: Start spawns a child for every worker it selects.
-/

namespace Fika

open Lib

/-! ## Calls -/

/-- The calls of a loop over the entries, up to the turn that faults. -/
def loopCalls (turn : WorkerEntity → Except Fault WorkerEntity)
    (calls : WorkerEntity → List Worker) : List WorkerEntity → List Worker
  | [] => []
  | e :: l => calls e ++ match turn e with
    | .ok _ => loopCalls turn calls l
    | .error _ => []

/-- The call of `worker::restart`: a live child is terminated before it. -/
def Worker.restartCalls (w : Worker) : List Worker := if w.isAlive then [w.stop] else [w]

/-- `start_workers(serviceName)` starts the entry. -/
def Picked (serviceName : Str) (e : WorkerEntity) : Prop :=
  serviceName = [] ∨ e.w.name = .ok serviceName

instance (serviceName : Str) (e : WorkerEntity) : Decidable (Picked serviceName e) :=
  inferInstanceAs (Decidable (_ ∨ _))

namespace Supervisor

/-- The call of a turn of `start_workers`. -/
def startTurnCalls (serviceName : Str) (e : WorkerEntity) : List Worker :=
  if Picked serviceName e then [e.w] else []

/-- The call of a turn of `monitor_once`. -/
def monitorTurnCalls (e : WorkerEntity) : List Worker :=
  if e.w.isAlive = false ∧ e.state = .running then e.w.restartCalls else []

def startCalls (s : Supervisor) (serviceName : Str) : List Worker :=
  loopCalls (startTurn serviceName) (startTurnCalls serviceName) s.workers

/-- The calls of `execute`: a Restart starts once its stop has returned. -/
def executeCalls (s : Supervisor) (serviceName : Str) (waits : Nat → Waits) :
    CommandType → List Worker
  | .start => s.startCalls serviceName
  | .restart => match s.stopWorkers serviceName waits with
    | .ok t => t.startCalls serviceName
    | .error _ => []
  | _ => []

/-- The calls of an operation. -/
def calls (s : Supervisor) : Op → List Worker
  | .command cmdType serviceName waits =>
    if cmdType ∈ s.commands then s.executeCalls serviceName waits cmdType else []
  | .monitor => loopCalls monitorTurn monitorTurnCalls s.workers
  | .event _ => []

/-- The calls of a run, up to the operation that faults. -/
def runCalls (s : Supervisor) : List Op → List Worker
  | [] => []
  | op :: ops => s.calls op ++ match s.step op with
    | .ok t => t.runCalls ops
    | .error _ => []

/-- How many children have been spawned. -/
def spawned (s : Supervisor) : Nat := (s.workers.map fun e => e.w.spawned).sum

end Supervisor

/-! ## Loops -/

section

variable {turn : WorkerEntity → Except Fault WorkerEntity} {calls : WorkerEntity → List Worker}
  {l r : List WorkerEntity}

theorem mem_loopCalls {w : Worker} (h : w ∈ loopCalls turn calls l) : ∃ e ∈ l, w ∈ calls e := by
  induction l with
  | nil => cases h
  | cons e l ih =>
    rw [loopCalls] at h
    rcases List.mem_append.mp h with hhere | hrest
    · exact ⟨e, List.mem_cons_self, hhere⟩
    · split at hrest
      · obtain ⟨e', he', hw⟩ := ih hrest
        exact ⟨e', List.mem_cons_of_mem _ he', hw⟩
      · cases hrest

/-- A loop that returns has made the calls of all its turns. -/
theorem loopCalls_of_ok (h : l.mapM turn = .ok r) : loopCalls turn calls l = l.flatMap calls := by
  have hturns := mapM_ok h
  clear h
  induction hturns with
  | nil => rfl
  | cons hturn _ ih => rw [loopCalls, List.flatMap_cons, hturn, ih]

theorem mem_loopCalls_of_ok (h : l.mapM turn = .ok r) {w : Worker} :
    w ∈ loopCalls turn calls l ↔ ∃ e ∈ l, w ∈ calls e := by
  rw [loopCalls_of_ok h, List.mem_flatMap]

/-- When a turn spawns one child for each of its calls, so does the loop. -/
theorem spawned_loop (h : l.mapM turn = .ok r)
    (hturn : ∀ {e e' : WorkerEntity}, turn e = .ok e' →
      e'.w.spawned = e.w.spawned + (calls e).length) :
    (r.map fun e => e.w.spawned).sum
      = (l.map fun e => e.w.spawned).sum + (loopCalls turn calls l).length := by
  rw [loopCalls_of_ok h]
  have hturns := mapM_ok h
  clear h
  induction hturns with
  | nil => rfl
  | cons hhere _ ih =>
    simp only [List.map_cons, List.sum_cons, List.flatMap_cons, List.length_append, ih,
      hturn hhere]
    omega

end

namespace Supervisor

variable {s s' t : Supervisor} {e e' : WorkerEntity} {serviceName : Str} {waits : Nat → Waits}
  {i j : Nat}

/-! ## The log is complete -/

theorem startEntity_spawned (h : startEntity e = .ok e') :
    e'.w.spawned = e.w.spawned + 1 := by
  obtain ⟨w, hw, h⟩ := bind_eq_ok.mp h
  cases h
  exact (e.w.start_ensures.of_ok hw).2.2

/-- A turn of `start_workers` starts the entries it picks and no other. -/
theorem startTurn_ok (h : startTurn serviceName e = .ok e') :
    (Picked serviceName e ∧ startEntity e = .ok e') ∨ (¬ Picked serviceName e ∧ e' = e) := by
  unfold startTurn at h
  split at h
  · rename_i hall
    exact .inl ⟨.inl hall, h⟩
  · rename_i hsome
    obtain ⟨name, hname, h⟩ := bind_eq_ok.mp h
    split at h
    · rename_i heq
      exact .inl ⟨.inr (heq ▸ hname), h⟩
    · rename_i hne
      refine .inr ⟨?_, (Except.ok.inj h).symm⟩
      rintro (hall | hn)
      · exact hsome hall
      · exact hne (Except.ok.inj (hname.symm.trans hn))

theorem startTurn_spawned (h : startTurn serviceName e = .ok e') :
    e'.w.spawned = e.w.spawned + (startTurnCalls serviceName e).length := by
  rcases startTurn_ok h with ⟨hpicked, hstart⟩ | ⟨hnot, rfl⟩
  · rw [startTurnCalls, if_pos hpicked, startEntity_spawned hstart]
    rfl
  · rw [startTurnCalls, if_neg hnot]
    rfl

theorem monitorTurn_spawned (h : monitorTurn e = .ok e') :
    e'.w.spawned = e.w.spawned + (monitorTurnCalls e).length := by
  unfold monitorTurn at h
  unfold monitorTurnCalls
  split at h
  · rename_i hdead
    obtain ⟨w, hw, h⟩ := bind_eq_ok.mp h
    cases h
    have hstart : e.w.start = .ok w := by
      rw [Worker.restart, hdead.1] at hw
      exact hw
    rw [if_pos hdead, Worker.restartCalls, hdead.1]
    exact (e.w.start_ensures.of_ok hstart).2.2
  · rename_i hnot
    cases h
    rw [if_neg hnot]
    rfl

theorem startWorkers_spawned (h : s.startWorkers serviceName = .ok s') :
    s'.spawned = s.spawned + (s.startCalls serviceName).length := by
  obtain ⟨l, hl, h⟩ := bind_eq_ok.mp h
  cases h
  exact spawned_loop hl startTurn_spawned

/-- Where children are only left to exit, none is spawned. -/
theorem spawned_of_sameChild (h : Entrywise SameChild s s') : s'.spawned = s.spawned := by
  unfold Entrywise at h
  unfold spawned
  generalize s.workers = l, s'.workers = l' at h
  induction h with
  | nil => rfl
  | cons hsame _ ih => rw [List.map_cons, List.map_cons, List.sum_cons, List.sum_cons, ih,
      hsame.spawned]

theorem calls_command {cmdType : CommandType} (h : cmdType ∈ s.commands) :
    s.calls (.command cmdType serviceName waits) = s.executeCalls serviceName waits cmdType :=
  if_pos h

/-- **The log is complete**: an operation that returns has spawned one child for
each call. -/
theorem spawned_step {op : Op} (h : s.step op = .ok s') :
    s'.spawned = s.spawned + (s.calls op).length := by
  cases op with
  | monitor =>
    obtain ⟨l, hl, h⟩ := bind_eq_ok.mp h
    cases h
    exact spawned_loop hl monitorTurn_spawned
  | event ev =>
    cases h
    exact spawned_of_sameChild ((event_untouched s ev).mono And.left)
  | command cmdType serviceName waits =>
    change s.handleCommand cmdType serviceName waits = .ok s' at h
    unfold handleCommand at h
    split at h
    · rename_i hreg
      rw [calls_command hreg]
      cases cmdType with
      | start => exact startWorkers_spawned h
      | stop => exact spawned_of_sameChild (stopWorkers_inv h).sameChild
      | restart =>
        obtain ⟨t, ht, h⟩ := bind_eq_ok.mp h
        rw [startWorkers_spawned h, spawned_of_sameChild (stopWorkers_inv ht).sameChild,
          executeCalls, ht]
      | ping =>
        change s.sendPong pong (waits 0) = .ok s' at h
        unfold sendPong at h
        dsimp only at h
        split at h
        · cases h
        · cases h
          exact spawned_of_sameChild (events_sameChild s (waits 0).sending)
      | _ =>
        cases h
        rfl
    · rename_i hreg
      cases h
      have hnone : s.calls (.command cmdType serviceName waits) = [] := if_neg hreg
      rw [hnone]
      rfl

/-! ## What is in the way of an operation -/

/-- The child of entry `i` dies while `stop_workers(serviceName)` stops another. -/
def DiesDuring (s : Supervisor) (serviceName : Str) (waits : Nat → Waits) (i : Nat) : Prop :=
  ∃ j, ChosenAt serviceName s j ∧ (.die i ∈ (waits j).sending ∨ .die i ∈ (waits j).waiting)

/-- The operation finds no running child in its way: a Start selects no worker
with one, and a Restart none that its stop passes over and that outlives it. -/
def Spares (s : Supervisor) : Op → Prop
  | .command .start serviceName _ =>
    .start ∈ s.commands → ∀ e ∈ s.workers, Picked serviceName e → e.w.isAlive = false
  | .command .restart serviceName waits =>
    .restart ∈ s.commands → ∀ i e, s.workers[i]? = some e → Picked serviceName e →
      ¬ Chosen serviceName e → e.w.isAlive = true → s.DiesDuring serviceName waits i
  | _ => True

/-! ### Who survives a stop -/

theorem events_die {evs : List ExternalEvent} (h : .die i ∈ evs) :
    ¬ (s.events evs).AliveAt i := by
  obtain ⟨before, after, rfl⟩ := List.append_of_mem h
  have hsplit : s.events (before ++ .die i :: after)
      = ((s.events before).exit i).events after := by
    rw [events, List.foldl_append]
    rfl
  rw [hsplit]
  -- nobody brings the child back
  intro halive
  exact not_aliveAt_exit _ i (aliveAt_of_sameChild (events_sameChild _ after) halive)

theorem stopTurn_sameChild (h : stopTurn serviceName waits t j = .ok s')
    (he : t.workers[j]? = some e) : Entrywise SameChild t s' := by
  rcases stopTurn_ok h he with ⟨-, rfl⟩ | ⟨queue, -, hstop⟩
  · exact .refl SameChild.refl s'
  · exact (stopEntity_ensures t _ queue j).of_ok hstop

/-- The workers along a turn that stops an entry: what comes before the pill, what
comes before the child is reaped, and the book-keeping. -/
theorem stopEntity_waited {w : Waits} {queue : Str} (h : t.stopEntity w queue j = .ok s')
    (he : t.workers[j]? = some e) :
    ∃ u : Supervisor, u.workers = (t.events w.sending).workers ∧
      s'.workers = (u.events w.waiting).workers.modify j fun e => { e with state := .stopped } := by
  obtain ⟨u, hsend, -, rfl⟩ := stopEntity_ok h he
  exact ⟨u, (trySendStopJob_ensures _ queue).of_ok hsend, rfl⟩

/-- A child that dies during the stop is not alive after it. -/
theorem stopWorkers_dies (h : s.stopWorkers serviceName waits = .ok t)
    (hdies : s.DiesDuring serviceName waits i) : ¬ t.AliveAt i := by
  obtain ⟨j, ⟨e, he, hchosen⟩, hdie⟩ := hdies
  have hj : j < s.workers.length := (List.getElem?_eq_some_iff.mp he).1
  -- once the loop has passed position `j`, the child is gone
  refine (Ensures.of_ok (A := fun _ => True)
    (P := fun t => Entrywise SameChild s t ∧ (j < s.workers.length → ¬ t.AliveAt i))
    (Ensures.foldlM_range (I := fun k t => Entrywise SameChild s t ∧ (j < k → ¬ t.AliveAt i))
      ⟨.refl SameChild.refl s, fun hlt => absurd hlt (Nat.not_lt_zero j)⟩
      fun k u hk hI => ?_) h).2 hj
  cases hturn : stopTurn serviceName waits u k with
  | error f => trivial
  | ok v =>
    obtain ⟨f, hf⟩ : ∃ f, u.workers[k]? = some f := by
      obtain ⟨f, hf, -⟩ := forall₂_getElem? hI.1 (List.getElem?_eq_getElem hk)
      exact ⟨f, hf⟩
    have hsame := stopTurn_sameChild hturn hf
    refine ⟨hI.1.trans SameChild.trans hsame, fun hjk => ?_⟩
    rcases Nat.lt_succ_iff_lt_or_eq.mp hjk with hlt | rfl
    · exact fun halive => hI.2 hlt (aliveAt_of_sameChild hsame halive)
    · obtain ⟨f', hf', hsame'⟩ := forall₂_getElem? hI.1 he
      obtain rfl : f' = f := Option.some.inj (hf'.symm.trans hf)
      rcases stopTurn_ok hturn hf with ⟨hnot, -⟩ | ⟨queue, -, hstop⟩
      · exact absurd (hsame'.chosen_iff.mpr hchosen) hnot
      · obtain ⟨w, hsent, hreaped⟩ := stopEntity_waited hstop hf
        intro halive
        have hwaited : (w.events (waits j).waiting).AliveAt i := by
          refine aliveAt_of_sameChild ?_ halive
          unfold Entrywise
          rw [hreaped]
          exact forall₂_modify SameChild.refl (fun e => .setState e .stopped) _ j
        rcases hdie with hdie | hdie
        · have hw := aliveAt_of_sameChild (events_sameChild w _) hwaited
          unfold AliveAt at hw
          rw [hsent] at hw
          exact events_die hdie hw
        · exact events_die hdie hwaited

/-- A child without a queue takes no message. -/
theorem receivesFrom_eq_none {name : Str} (he : s.workers[i]? = some e)
    (hname : e.w.name = .ok name) (hq : queueOf name = none) : s.receivesFrom i = none := by
  unfold receivesFrom
  rw [he]
  unfold Worker.name at hname
  cases hp : e.w.process with
  | none =>
    rw [hp] at hname
    cases hname
  | some child =>
    rw [hp] at hname
    have hchild : child.name = name := Except.ok.inj hname
    show ((e.w.process).bind fun child => if child.running then queueOf child.name else none) = none
    rw [hp, Option.bind_some, hchild, hq]
    split <;> rfl

/-- Entry `i` holds a live child whose binary has no queue. -/
def Apart (s : Supervisor) (i : Nat) : Prop :=
  ∃ e name, s.workers[i]? = some e ∧ e.w.name = .ok name ∧ queueOf name = none ∧
    e.w.isAlive = true

theorem event_apart {ev : ExternalEvent} (h : s.Apart i) (hdie : ev ≠ .die i) :
    (s.event ev).Apart i := by
  obtain ⟨e, name, he, hname, hq, halive⟩ := h
  have hspec := event_spec s ev
  obtain ⟨e', he', hsame, -⟩ := forall₂_getElem? (event_untouched s ev) he
  have hkept : (s.event ev).AliveAt i := by
    generalize s.event ev = s' at hspec he'
    cases hspec with
    | nothing hw hm =>
      unfold AliveAt
      rw [hw]
      exact ⟨e, he, halive⟩
    | died k => exact (aliveAt_exit_other fun hik => hdie (by rw [hik])).mpr ⟨e, he, halive⟩
    | tookJob hr hm => exact ⟨e, he, halive⟩
    | @tookPill k queue rest hr hm =>
      refine (aliveAt_exit_other fun hik => ?_).mpr ⟨e, he, halive⟩
      rw [← hik, receivesFrom_eq_none he hname hq] at hr
      cases hr
    | arrived hq => exact ⟨e, he, halive⟩
  obtain ⟨e'', he'', halive'⟩ := hkept
  obtain rfl : e'' = e' := Option.some.inj (he''.symm.trans he')
  exact ⟨e'', name, he', hsame.name.trans hname, hq, halive'⟩

theorem events_apart {evs : List ExternalEvent} (h : s.Apart i) (hdie : .die i ∉ evs) :
    (s.events evs).Apart i :=
  events_invariant (I := fun t => t.Apart i) h fun _ ht _ hev =>
    event_apart ht fun heq => hdie (heq ▸ hev)

theorem Apart.of_workers (h : s.Apart i) (hw : s'.workers = s.workers) : s'.Apart i := by
  unfold Apart
  rw [hw]
  exact h

/-- A child without a queue that does not die by itself outlives the stop. -/
theorem stopWorkers_apart (h : s.stopWorkers serviceName waits = .ok t) (ha : s.Apart i)
    (hdies : ¬ s.DiesDuring serviceName waits i) : t.Apart i := by
  refine (Ensures.of_ok (A := fun _ => True) (P := fun t => Entrywise SameChild s t ∧ t.Apart i)
    (Ensures.foldlM_range (I := fun _ t => Entrywise SameChild s t ∧ t.Apart i)
      ⟨.refl SameChild.refl s, ha⟩ fun k u hk hI => ?_) h).2
  cases hturn : stopTurn serviceName waits u k with
  | error f => trivial
  | ok v =>
    obtain ⟨f, hf, hsame⟩ := forall₂_getElem? hI.1 (List.getElem?_eq_getElem hk)
    refine ⟨hI.1.trans SameChild.trans (stopTurn_sameChild hturn hf), ?_⟩
    rcases stopTurn_ok hturn hf with ⟨-, rfl⟩ | ⟨queue, hchosen, hstop⟩
    · exact hI.2
    · -- the turn stops another entry, and its events spare this one
      have hnodie : .die i ∉ (waits k).sending ∧ .die i ∉ (waits k).waiting := by
        rw [← not_or]
        intro hdie
        exact hdies ⟨k, ⟨_, List.getElem?_eq_getElem hk,
          hsame.chosen_iff.mp ⟨queue, hchosen⟩⟩, hdie⟩
      obtain ⟨w, hsent, hreaped⟩ := stopEntity_waited hstop hf
      have hwaited : (w.events (waits k).waiting).Apart i :=
        events_apart ((events_apart hI.2 hnodie.1).of_workers hsent) hnodie.2
      obtain ⟨e, name, he, hname, hq, halive⟩ := hwaited
      refine ⟨if k = i then { e with state := .stopped } else e, name, ?_, ?_, hq, ?_⟩
      · rw [hreaped, List.getElem?_modify, he]
        split <;> rfl
      · split <;> exact hname
      · split <;> exact halive

/-! ## Calls and running children -/

theorem mem_startTurnCalls {w : Worker} :
    w ∈ startTurnCalls serviceName e ↔ Picked serviceName e ∧ w = e.w := by
  unfold startTurnCalls
  split
  · rename_i hpicked
    rw [List.mem_singleton]
    exact ⟨fun hw => ⟨hpicked, hw⟩, fun hw => hw.2⟩
  · rename_i hnot
    exact ⟨fun hw => (nomatch hw), fun hw => absurd hw.1 hnot⟩

theorem startCalls_down
    (h : ∀ e ∈ s.workers, Picked serviceName e → e.w.isAlive = false) :
    ∀ w ∈ s.startCalls serviceName, w.isAlive = false := by
  intro w hw
  obtain ⟨e, he, hcall⟩ := mem_loopCalls hw
  obtain ⟨hpicked, rfl⟩ := mem_startTurnCalls.mp hcall
  exact h e he hpicked

/-- A start that returns has called the factory of every worker it picks. -/
theorem mem_startCalls (h : s.startWorkers serviceName = .ok s') (he : e ∈ s.workers)
    (hpicked : Picked serviceName e) : e.w ∈ s.startCalls serviceName := by
  obtain ⟨l, hl, -⟩ := bind_eq_ok.mp h
  exact (mem_loopCalls_of_ok hl).mpr ⟨e, he, mem_startTurnCalls.mpr ⟨hpicked, rfl⟩⟩

/-- The monitor looks before it calls. -/
theorem monitorCalls_down : ∀ w ∈ s.calls .monitor, w.isAlive = false := by
  intro w hw
  obtain ⟨e, -, hcall⟩ := mem_loopCalls hw
  unfold monitorTurnCalls at hcall
  split at hcall
  · rename_i hdead
    rw [Worker.restartCalls, hdead.1] at hcall
    rw [List.mem_singleton.mp hcall]
    exact hdead.1
  · cases hcall

theorem SameChild.picked_iff (h : SameChild e e') :
    Picked serviceName e' ↔ Picked serviceName e := by
  unfold Picked
  rw [h.name]

/-- Nothing is in the way of a start after a stop, when nothing was in the way of
the restart. -/
theorem restart_down (hstop : s.stopWorkers serviceName waits = .ok t)
    (hspares : ∀ i e, s.workers[i]? = some e → Picked serviceName e → ¬ Chosen serviceName e →
      e.w.isAlive = true → s.DiesDuring serviceName waits i) :
    ∀ e' ∈ t.workers, Picked serviceName e' → e'.w.isAlive = false := by
  intro e' he' hpicked
  have hinv := stopWorkers_inv hstop
  obtain ⟨i, hi⟩ := List.mem_iff_getElem?.mp he'
  obtain ⟨e, he, hsame⟩ := forall₂_getElem?' hinv.sameChild hi
  by_cases hchosen : Chosen serviceName e
  · exact (hinv.stopped (List.getElem?_eq_some_iff.mp he).1 he hchosen hi).2
  · by_contra halive
    have halive' : e'.w.isAlive = true := by simpa using halive
    have hdies := hspares i e he ((SameChild.picked_iff hsame).mp hpicked) hchosen
      (hsame.alive halive')
    exact stopWorkers_dies hstop hdies ⟨e', hi, halive'⟩

/-- An operation that finds no running child in its way calls no factory of a
worker with one. -/
theorem calls_down {op : Op} (h : s.Spares op) : ∀ w ∈ s.calls op, w.isAlive = false := by
  cases op with
  | monitor => exact monitorCalls_down
  | event ev => exact fun w hw => nomatch hw
  | command cmdType serviceName waits =>
    by_cases hreg : cmdType ∈ s.commands
    · rw [calls_command hreg]
      cases cmdType with
      | start => exact startCalls_down (h hreg)
      | restart =>
        rw [executeCalls]
        cases hstop : s.stopWorkers serviceName waits with
        | ok t => exact startCalls_down (restart_down hstop (h hreg))
        | error f => exact fun w hw => nomatch hw
      | _ => exact fun w hw => nomatch hw
    · have hnone : s.calls (.command cmdType serviceName waits) = [] := if_neg hreg
      rw [hnone]
      exact fun w hw => nomatch hw

/-- A live picked child that the stop passes over has no queue. -/
theorem apart_of_picked (he : s.workers[i]? = some e) (hpicked : Picked serviceName e)
    (hnot : ¬ Chosen serviceName e) (halive : e.w.isAlive = true) : s.Apart i := by
  obtain ⟨child, -, hname⟩ := Worker.name_of_holds (Worker.holds_of_isAlive halive)
  refine ⟨e, child.name, he, hname, ?_, halive⟩
  have hsel : Selected serviceName child.name := by
    rcases hpicked with hall | hn
    · exact .inr hall
    · exact .inl (Except.ok.inj (hname.symm.trans hn))
  cases hq : queueOf child.name with
  | none => rfl
  | some queue => exact absurd ⟨queue, child.name, hname, hsel, hq⟩ hnot

/-- **The exact condition**: an operation that returns has called no factory of a
worker with a running child exactly when it found none in its way. -/
theorem calls_down_iff {op : Op} (h : s.step op = .ok s') :
    (∀ w ∈ s.calls op, w.isAlive = false) ↔ s.Spares op := by
  refine ⟨fun hdown => ?_, calls_down⟩
  cases op with
  | monitor => trivial
  | event ev => trivial
  | command cmdType serviceName waits =>
    cases cmdType with
    | start =>
      intro hreg e he hpicked
      have hstart : s.startWorkers serviceName = .ok s' := by
        change s.handleCommand .start serviceName waits = .ok s' at h
        rwa [handleCommand, if_pos hreg] at h
      rw [calls_command hreg] at hdown
      exact hdown e.w (mem_startCalls hstart he hpicked)
    | restart =>
      intro hreg i e he hpicked hnot halive
      have hrestart : s.execute serviceName waits .restart = .ok s' := by
        change s.handleCommand .restart serviceName waits = .ok s' at h
        rwa [handleCommand, if_pos hreg] at h
      obtain ⟨t, hstop, hstart⟩ := bind_eq_ok.mp hrestart
      rw [calls_command hreg, executeCalls, hstop] at hdown
      by_contra hdies
      -- the child outlives the stop, so the start finds it running
      obtain ⟨e', name, he', hname, -, halive'⟩ :=
        stopWorkers_apart hstop (apart_of_picked he hpicked hnot halive) hdies
      obtain ⟨e₁, he₁, hsame⟩ := forall₂_getElem? (stopWorkers_inv hstop).sameChild he
      obtain rfl : e₁ = e' := Option.some.inj (he₁.symm.trans he')
      have hcall := mem_startCalls hstart (List.mem_of_getElem? he')
        ((SameChild.picked_iff hsame).mpr hpicked)
      rw [hdown e₁.w hcall] at halive'
      cases halive'
    | _ => trivial

/-- Start spawns a child for each worker it selects, whether or not that worker's
child runs: repeating it spawns them again. -/
theorem start_spawns (h : s.startWorkers serviceName = .ok s') :
    Entrywise (fun e e' => e'.w.spawned
      = e.w.spawned + if Picked serviceName e then 1 else 0) s s' := by
  obtain ⟨l, hl, h⟩ := bind_eq_ok.mp h
  cases h
  refine (mapM_ok hl).imp fun e e' hturn => ?_
  rw [startTurn_spawned hturn, startTurnCalls]
  split <;> rfl

/-- **At most one live child**: in a run whose operations find no running child in
their way, no factory is called while the child of its worker runs; and for an
operation that returns, in whatever state, this condition is exact. -/
theorem one_live_child (s : Supervisor) :
    (∀ ops : List Op, runOk stepOp Spares s ops → ∀ w ∈ s.runCalls ops, w.isAlive = false) ∧
    (∀ (op : Op) (s' : Supervisor), s.step op = .ok s' →
      ((∀ w ∈ s.calls op, w.isAlive = false) ↔ s.Spares op)) := by
  refine ⟨fun ops hok => ?_, fun op s' h => calls_down_iff h⟩
  induction ops generalizing s with
  | nil => exact fun w hw => nomatch hw
  | cons op ops ih =>
    intro w hw
    rcases List.mem_append.mp hw with hhere | hrest
    · exact calls_down hok.1 w hhere
    · split at hrest
      · rename_i t hstep
        have hstep' : s.stepOp op = some t := by rw [stepOp, hstep]; rfl
        exact ih t (hok.2 t hstep') w hrest
      · cases hrest

/-! ## The deployed supervisor -/

/-- Starting everything, a death, and the monitor: five calls, none of them beside a
running child. -/
theorem one_live_child_deployed :
    ∃ s₀ s, launch mainFactories mainQueues = .ok s₀ ∧ s₀.step startAll = .ok s ∧
      (∀ w ∈ s₀.runCalls [startAll, .event (.die 2), .monitor], w.isAlive = false) ∧
      ((∀ w ∈ s₀.calls startAll, w.isAlive = false) ↔ s₀.Spares startAll) := by
  obtain ⟨s₀, h₀⟩ := launch_main
  have hidle := (launch_idle nonNull_mainFactories h₀).1
  have hspares : s₀.Spares startAll := by
    intro _ e he _
    rw [Worker.isAlive, (hidle.workers e he).1]
  have hok : runOk stepOp Spares s₀ [startAll, .event (.die 2), .monitor] :=
    ⟨hspares, fun _ _ => ⟨trivial, fun _ _ => ⟨trivial, fun _ _ => trivial⟩⟩⟩
  obtain ⟨s, hs⟩ : ∃ s, s₀.step startAll = .ok s := by
    have hsome : (launch mainFactories mainQueues >>= fun s => s.step startAll).isOk = true := by
      rfl
    rw [h₀] at hsome
    change (s₀.step startAll).isOk = true at hsome
    cases hstep : s₀.step startAll with
    | ok s => exact ⟨s, rfl⟩
    | error f =>
      rw [hstep] at hsome
      cases hsome
  exact ⟨s₀, s, h₀, hs, (one_live_child s₀).1 _ hok, (one_live_child s₀).2 startAll s hs⟩

/-- The command Start, given twice, calls every factory beside its running child. -/
theorem start_twice_spawns_twice :
    ¬ ∀ s₀, launch mainFactories mainQueues = .ok s₀ →
      ∀ ops, ∀ w ∈ s₀.runCalls ops, w.isAlive = false := by
  intro hall
  obtain ⟨s₀, h₀⟩ := launch_main
  have hany : ((launch mainFactories mainQueues).toOption.map fun s =>
      (s.runCalls [startAll, startAll]).any fun w => w.isAlive) = some true := by rfl
  rw [h₀] at hany
  have hrunning : ((s₀.runCalls [startAll, startAll]).any fun w => w.isAlive) = true :=
    Option.some.inj hany
  obtain ⟨w, hw, halive⟩ := List.any_eq_true.mp hrunning
  rw [hall s₀ h₀ _ w hw] at halive
  cases halive

end Supervisor

end Fika
