import Fika.Supervisor.NullSafety

/-!
# What `stop_workers` stops

For each worker the service name selects, `stop_workers` looks up the queue of
its binary, enqueues a poison pill and waits. A worker whose binary has no entry
in `binary_to_queue` (as `ingestd`) is skipped with a warning.

- `Chosen`: the entries the loop acts on.
- `StopInv`: how far the loop is; `stopTurn_inv`: one turn.
- `stop_stops`: an entry that was chosen is Stopped, its child has exited, and no
  monitor step brings it back; an entry without a queue is left as it was.
-/

namespace Fika

open Lib

/-! ## The entries `stop_workers` acts on -/

/-- The worker's name is the service name, or the service name is empty. -/
def Selected (serviceName name : Str) : Prop := name = serviceName ∨ serviceName = []

/-- `stop_workers(serviceName)` sends a pill to `queue` for the entry. -/
def ChosenFor (serviceName : Str) (e : WorkerEntity) (queue : Str) : Prop :=
  ∃ name, e.w.name = .ok name ∧ Selected serviceName name ∧ queueOf name = some queue

/-- `stop_workers(serviceName)` stops the entry. -/
def Chosen (serviceName : Str) (e : WorkerEntity) : Prop := ∃ queue, ChosenFor serviceName e queue

theorem SameChild.chosenFor_iff {e e' : WorkerEntity} (h : SameChild e e') {serviceName queue : Str} :
    ChosenFor serviceName e' queue ↔ ChosenFor serviceName e queue := by
  unfold ChosenFor
  rw [h.name]

theorem SameChild.chosen_iff {e e' : WorkerEntity} (h : SameChild e e') {serviceName : Str} :
    Chosen serviceName e' ↔ Chosen serviceName e :=
  exists_congr fun _ => h.chosenFor_iff

namespace Supervisor

variable {s s' t u : Supervisor} {serviceName queue : Str} {waits : Nat → Waits} {i j : Nat}
  {e e' : WorkerEntity}

/-! ## One turn -/

/-- The states `stop_workers` goes through for a chosen entry: `t` once the pill is
sent, and the events of the wait, after which the child has exited. -/
theorem stopEntity_ok {w : Waits} (h : s.stopEntity w queue i = .ok s')
    (he : s.workers[i]? = some e) :
    ∃ t, (s.events w.sending).trySendStopJob queue = .ok t ∧
      (∃ e', (t.events w.waiting).workers[i]? = some e' ∧ e'.w.isAlive = false) ∧
      s' = { t.events w.waiting with
        workers := (t.events w.waiting).workers.modify i fun e => { e with state := .stopped } } := by
  obtain ⟨t, hsend, hreap⟩ := bind_eq_ok.mp h
  have hsent := (trySendStopJob_ensures _ queue).of_ok hsend
  obtain ⟨e₁, he₁, -⟩ := forall₂_getElem? (events_sameChild s w.sending) he
  obtain ⟨e₂, he₂, -⟩ := forall₂_getElem? (events_sameChild t w.waiting) (hsent ▸ he₁)
  obtain ⟨hdead, heq⟩ := reap_ok he₂ hreap
  exact ⟨t, hsend, ⟨e₂, he₂, hdead⟩, heq⟩

/-- A turn passes over its entry, or stops it. -/
theorem stopTurn_ok (h : stopTurn serviceName waits s i = .ok s') (he : s.workers[i]? = some e) :
    (¬ Chosen serviceName e ∧ s' = s) ∨
      ∃ queue, ChosenFor serviceName e queue ∧ s.stopEntity (waits i) queue i = .ok s' := by
  unfold stopTurn at h
  simp only [he] at h
  obtain ⟨name, hname, h⟩ := bind_eq_ok.mp h
  -- a worker has one name, so the two lookups agree
  have hunique : ∀ {name' : Str}, e.w.name = .ok name' → name' = name := fun hn =>
    (Except.ok.inj (hname.symm.trans hn)).symm
  split at h
  · next hsel =>
    split at h
    · next queue hq => exact .inr ⟨queue, ⟨name, hname, hsel, hq⟩, h⟩
    · next hq =>
      refine .inl ⟨?_, (Except.ok.inj h).symm⟩
      rintro ⟨queue, name', hn, -, hq'⟩
      rw [hunique hn, hq] at hq'
      cases hq'
  · next hsel =>
    refine .inl ⟨?_, (Except.ok.inj h).symm⟩
    rintro ⟨queue, name', hn, hsel', -⟩
    exact hsel (hunique hn ▸ hsel')

/-- A turn touches no entry but its own. -/
theorem stopEntity_other {w : Waits} (h : s.stopEntity w queue i = .ok s')
    (he : s.workers[i]? = some e) (hj : j ≠ i) (hej : s.workers[j]? = some e') :
    ∃ e'', s'.workers[j]? = some e'' ∧ Untouched e' e'' := by
  obtain ⟨t, hsend, -, rfl⟩ := stopEntity_ok h he
  have hsent := (trySendStopJob_ensures _ queue).of_ok hsend
  obtain ⟨e₁, he₁, hu₁⟩ := forall₂_getElem? (events_untouched s w.sending) hej
  obtain ⟨e₂, he₂, hu₂⟩ := forall₂_getElem? (events_untouched t w.waiting) (hsent ▸ he₁)
  refine ⟨e₂, ?_, hu₁.trans hu₂⟩
  show ((t.events w.waiting).workers.modify i _)[j]? = _
  simp [hj.symm, he₂]

/-- The entry of a turn that stops it. -/
theorem stopEntity_self {w : Waits} (h : s.stopEntity w queue i = .ok s')
    (he : s.workers[i]? = some e) :
    ∃ e', s'.workers[i]? = some e' ∧ e'.state = .stopped ∧ e'.w.isAlive = false := by
  obtain ⟨t, -, ⟨e₂, he₂, hdead⟩, rfl⟩ := stopEntity_ok h he
  refine ⟨{ e₂ with state := .stopped }, ?_, rfl, hdead⟩
  show ((t.events w.waiting).workers.modify i _)[i]? = _
  simp [he₂]

/-! ## The loop -/

/-- The loop of `stop_workers(serviceName)` on `s` has come to position `k` in the
state `t`: the chosen entries before `k` are stopped, and the book-keeping of all
others is as it was. -/
structure StopInv (serviceName : Str) (s : Supervisor) (k : Nat) (t : Supervisor) : Prop where
  sameChild : Entrywise SameChild s t
  stopped : ∀ {i : Nat} {e e' : WorkerEntity}, i < k → s.workers[i]? = some e →
    Chosen serviceName e → t.workers[i]? = some e' → e'.state = .stopped ∧ e'.w.isAlive = false
  other : ∀ {i : Nat} {e e' : WorkerEntity}, s.workers[i]? = some e →
    k ≤ i ∨ ¬ Chosen serviceName e → t.workers[i]? = some e' → e'.state = e.state

theorem stopInv_start (serviceName : Str) (s : Supervisor) : StopInv serviceName s 0 s where
  sameChild := .refl SameChild.refl s
  stopped hi := absurd hi (Nat.not_lt_zero _)
  other he _ he' := by
    rw [he] at he'
    rw [Option.some.inj he']

theorem stopTurn_inv {k : Nat} (hI : StopInv serviceName s k t) (hk : k < s.workers.length)
    (h : stopTurn serviceName waits t k = .ok u) : StopInv serviceName s (k + 1) u := by
  obtain ⟨e, he⟩ : ∃ e, s.workers[k]? = some e := ⟨_, List.getElem?_eq_getElem hk⟩
  obtain ⟨f, hf, hsame⟩ := forall₂_getElem? hI.sameChild he
  rcases stopTurn_ok h hf with ⟨hnot, rfl⟩ | ⟨queue, hchosen, hstop⟩
  · -- the turn passes over the entry: position `k` has nothing to show
    have hnot' : ¬ Chosen serviceName e := fun hc => hnot (hsame.chosen_iff.mpr hc)
    refine ⟨hI.sameChild, fun {i e₁ e₂} hi he₁ hc he₂ => ?_, fun {i e₁ e₂} he₁ hor he₂ => ?_⟩
    · rcases Nat.lt_succ_iff_lt_or_eq.mp hi with hi | rfl
      · exact hI.stopped hi he₁ hc he₂
      · rw [he] at he₁
        exact absurd (Option.some.inj he₁ ▸ hc) hnot'
    · exact hI.other he₁ (hor.imp Nat.le_of_succ_le id) he₂
  · -- the turn stops the entry and leaves the book-keeping of the others
    have hsame' : Entrywise SameChild s u :=
      hI.sameChild.trans SameChild.trans ((stopEntity_ensures t _ queue k).of_ok hstop)
    refine ⟨hsame', fun {i e₁ e₂} hi he₁ hc he₂ => ?_, fun {i e₁ e₂} he₁ hor he₂ => ?_⟩
    · by_cases hik : i = k
      · obtain ⟨e₃, he₃, hdone⟩ := stopEntity_self hstop hf
        rw [hik, he₃] at he₂
        exact Option.some.inj he₂ ▸ hdone
      · obtain ⟨f₁, hf₁, -⟩ := forall₂_getElem? hI.sameChild he₁
        obtain ⟨e₃, he₃, hun⟩ := stopEntity_other hstop hf hik hf₁
        rw [he₃] at he₂
        obtain rfl := Option.some.inj he₂
        -- a turn at `k` leaves the earlier entry Stopped, and no child comes back
        have hold := hI.stopped (by omega) he₁ hc hf₁
        refine ⟨hun.2.trans hold.1, ?_⟩
        by_contra halive
        rw [hun.1.alive (by simpa using halive)] at hold
        exact absurd hold.2 (by decide)
    · have hik : i ≠ k := by
        rintro rfl
        rcases hor with hlt | hnc
        · omega
        · rw [he] at he₁
          obtain rfl := Option.some.inj he₁
          exact hnc (hsame.chosen_iff.mp ⟨queue, hchosen⟩)
      obtain ⟨f₁, hf₁, -⟩ := forall₂_getElem? hI.sameChild he₁
      obtain ⟨e₃, he₃, hun⟩ := stopEntity_other hstop hf hik hf₁
      rw [he₃] at he₂
      obtain rfl := Option.some.inj he₂
      exact hun.2.trans (hI.other he₁ (hor.imp Nat.le_of_succ_le id) hf₁)

/-- What holds of the entries when `stop_workers` returns. -/
theorem stopWorkers_inv (h : s.stopWorkers serviceName waits = .ok s') :
    StopInv serviceName s s.workers.length s' := by
  refine Ensures.of_ok (A := fun _ => True) (P := StopInv serviceName s s.workers.length)
    (Ensures.foldlM_range (stopInv_start serviceName s) fun k t hk hI => ?_) h
  cases hturn : stopTurn serviceName waits t k with
  | error f => trivial
  | ok u => exact stopTurn_inv hI hk hturn

/-! ## Afterwards -/

end Supervisor

/-- What happens to a supervisor between commands. -/
def Op.Background : Op → Prop
  | .command _ _ _ => False
  | .monitor => True
  | .event _ => True

namespace Supervisor

variable {s s' : Supervisor} {serviceName : Str} {waits : Nat → Waits} {i n : Nat}

/-- Entry `i` is Stopped, its child has exited, and it has spawned `n` of them. -/
def StoppedAt (s : Supervisor) (i n : Nat) : Prop :=
  ∃ e, s.workers[i]? = some e ∧ e.state = .stopped ∧ e.w.isAlive = false ∧ e.w.spawned = n

/-- Monitoring and events leave a stopped entry stopped. -/
theorem stoppedAt_step (h : s.StoppedAt i n) {op : Op} (hop : op.Background)
    (hs : s.step op = .ok s') : s'.StoppedAt i n := by
  obtain ⟨e, he, hstate, hdead, hspawned⟩ := h
  cases op with
  | command cmdType serviceName waits => exact absurd hop id
  | monitor =>
    obtain ⟨l, hl, hs⟩ := bind_eq_ok.mp hs
    cases hs
    obtain ⟨e', he', hturn⟩ := forall₂_getElem? (mapM_ok hl) he
    -- the entry is not Running, so monitoring passes over it
    have hself : monitorTurn e = .ok e := by
      rw [monitorTurn, if_neg]
      · rfl
      · rintro ⟨-, hrunning⟩
        rw [hstate] at hrunning
        cases hrunning
    rw [hself] at hturn
    exact ⟨e, Except.ok.inj hturn ▸ he', hstate, hdead, hspawned⟩
  | event ev =>
    cases hs
    obtain ⟨e', he', hsame, hst⟩ := forall₂_getElem? (event_untouched s ev) he
    refine ⟨e', he', hst.trans hstate, ?_, hsame.spawned.trans hspawned⟩
    by_contra halive
    rw [hsame.alive (by simpa using halive)] at hdead
    cases hdead

theorem stoppedAt_runOps (h : s.StoppedAt i n) {ops : List Op} (hops : ∀ op ∈ ops, op.Background)
    (hs : s.runOps ops = .ok s') : s'.StoppedAt i n := by
  refine Ensures.of_ok (A := fun _ => True) (P := fun t => t.StoppedAt i n)
    (Ensures.foldlM h fun t ht op hop => ?_) hs
  cases hstep : t.step op with
  | error f => trivial
  | ok u => exact stoppedAt_step ht (hops op hop) hstep

end Supervisor

/-- **Stop stops what it has a queue for**: when `stop_workers` returns, each entry
the service name selects and whose binary has a queue is Stopped with its child
exited, and neither monitor steps nor anything else short of a command starts it
again; a selected entry whose binary has no queue is passed over and keeps its
state and its child. -/
theorem stop_stops (s s' : Supervisor) (serviceName : Str) (waits : Nat → Waits)
    (h : s.stopWorkers serviceName waits = .ok s') :
    ∀ (i : Nat) (e : WorkerEntity) (name : Str),
      s.workers[i]? = some e → e.w.name = .ok name → Selected serviceName name →
      ((queueOf name).isSome →
        ∀ ops s'', (∀ op ∈ ops, op.Background) → s'.runOps ops = .ok s'' →
          s''.StoppedAt i e.w.spawned) ∧
      (queueOf name = none →
        ∃ e', s'.workers[i]? = some e' ∧ e'.state = e.state ∧ SameChild e e') := by
  intro i e name he hname hsel
  have hinv := Supervisor.stopWorkers_inv h
  obtain ⟨e', he', hsame⟩ := forall₂_getElem? hinv.sameChild he
  constructor
  · intro hq ops s'' hops hrun
    obtain ⟨queue, hq⟩ := Option.isSome_iff_exists.mp hq
    have hi : i < s.workers.length := (List.getElem?_eq_some_iff.mp he).1
    obtain ⟨hstate, hdead⟩ := hinv.stopped hi he ⟨queue, name, hname, hsel, hq⟩ he'
    exact Supervisor.stoppedAt_runOps ⟨e', he', hstate, hdead, hsame.spawned⟩ hops hrun
  · intro hq
    refine ⟨e', he', hinv.other he (.inr ?_) he', hsame⟩
    rintro ⟨queue, name', hname', -, hq'⟩
    rw [hname] at hname'
    rw [← Except.ok.inj hname', hq] at hq'
    cases hq'

/-! ## The deployed supervisor -/

/-- Stopping `detect`, whose child takes the pill. -/
theorem stop_stops_detect :
    ∃ s s', Supervisor.deployedAfter [Supervisor.startAll] = some s ∧
      s.stopWorkers (lit "detect") (fun _ => { waiting := [.receive 2] }) = .ok s' ∧
      s'.StoppedAt 2 1 := by
  obtain ⟨s, hs⟩ := Option.isSome_iff_exists.mp
    (show (Supervisor.deployedAfter [Supervisor.startAll]).isSome = true by rfl)
  have hok : (s.stopWorkers (lit "detect") fun _ => { waiting := [.receive 2] }).isOk = true :=
    Supervisor.deployed_eval (f := fun s =>
      (s.stopWorkers (lit "detect") fun _ => { waiting := [.receive 2] }).isOk) hs (by rfl)
  have hentry : (s.workers[2]?.map fun e => (e.w.name, e.w.spawned))
      = some (.ok (lit "detect"), 1) :=
    Supervisor.deployed_eval (f := fun s => s.workers[2]?.map fun e => (e.w.name, e.w.spawned))
      hs (by rfl)
  obtain ⟨e, he, hpair⟩ := Option.map_eq_some_iff.mp hentry
  obtain ⟨hname, hspawned⟩ := Prod.mk.inj hpair
  cases hstop : s.stopWorkers (lit "detect") fun _ => { waiting := [.receive 2] } with
  | error f =>
    rw [hstop] at hok
    cases hok
  | ok s' =>
    have hdone := (stop_stops s s' _ _ hstop 2 e _ he hname (.inl rfl)).1 (by decide) [] s'
      (fun _ hmem => nomatch hmem) rfl
    exact ⟨s, s', hs, hstop, hspawned ▸ hdone⟩

/-- Stopping `ingestd` returns with its entry Running and its child alive. -/
theorem stop_passes_over_ingestd :
    ¬ ∀ (s s' : Supervisor) (serviceName : Str) (waits : Nat → Waits),
      (∀ e ∈ s.workers, e.w.Holds) → s.stopWorkers serviceName waits = .ok s' →
      ∀ (i : Nat) (e : WorkerEntity) (name : Str),
        s.workers[i]? = some e → e.w.name = .ok name → Selected serviceName name →
        ∃ e', s'.workers[i]? = some e' ∧ e'.state = .stopped ∧ e'.w.isAlive = false := by
  intro hall
  obtain ⟨s, hs⟩ := Option.isSome_iff_exists.mp
    (show (Supervisor.deployedAfter [Supervisor.startAll]).isSome = true by rfl)
  have hentry : (s.workers[1]?.map fun e => e.w.name) = some (.ok (lit "ingestd")) :=
    Supervisor.deployed_eval (f := fun s => s.workers[1]?.map fun e => e.w.name) hs (by rfl)
  have hafter : ((s.stopWorkers (lit "ingestd") fun _ => {}).toOption.map fun s' =>
      s'.workers[1]?.map fun e => e.w.isAlive) = some (some true) :=
    Supervisor.deployed_eval (f := fun s =>
      (s.stopWorkers (lit "ingestd") fun _ => {}).toOption.map fun s' =>
        s'.workers[1]?.map fun e => e.w.isAlive) hs (by rfl)
  obtain ⟨e, he, hname⟩ := Option.map_eq_some_iff.mp hentry
  obtain ⟨s', hs', halive⟩ := Option.map_eq_some_iff.mp hafter
  have hstop : s.stopWorkers (lit "ingestd") (fun _ => {}) = .ok s' := by
    cases hw : s.stopWorkers (lit "ingestd") fun _ => {} with
    | error f =>
      rw [hw] at hs'
      cases hs'
    | ok t =>
      rw [hw] at hs'
      exact congrArg Except.ok (Option.some.inj hs')
  obtain ⟨e', he', -, hdead⟩ :=
    hall s s' _ _ (Supervisor.deployed_holds hs) hstop 1 e _ he hname (.inl rfl)
  rw [he', Option.map_some, hdead] at halive
  cases halive

end Fika
