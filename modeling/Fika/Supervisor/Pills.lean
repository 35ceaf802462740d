import Fika.Lib.Run
import Fika.Supervisor.Stop

/-!
# Poison pills

`stop_workers` enqueues a pill whatever the state of the worker, and its wait
returns once the child is gone, whether or not the pill was taken. A pill that
nobody takes stays in the queue for the next child.

- `Waiting`: the stages of the wait for a child that was alive: the pill is pending,
  the child has taken it, or another one has.
- `PillsConsumed`: every child a stop waits for is alive when the stop begins and
  does not die by itself meanwhile.
- `stopEntity_leaves_pill`: a stop of a worker whose queue nobody receives from
  leaves its pill.
- `no_stale_pill`: in a run whose stops consume their pills, no queue ever holds a
  pill between two operations; `stale_pill_after_second_stop`: stopping a stopped
  worker leaves one.
-/

namespace Fika

open Lib

namespace QueueManager

variable {mgr : QueueManager} {name name' : Str}

/-- The number of pills in a queue. -/
def pills (mgr : QueueManager) (name : Str) : Nat := (mgr.messages name).count .poisonPill

theorem noPill_iff : mgr.NoPill ↔ ∀ name, mgr.pills name = 0 :=
  forall_congr' fun _ => List.count_eq_zero.symm

theorem pills_setMessages_self {mq : MessageQueue} (h : mgr.queues name = some mq)
    (msgs : List IpcMessage) :
    (mgr.setMessages name msgs).pills name = msgs.count .poisonPill := by
  rw [pills, messages_setMessages_self h]

theorem pills_setMessages_other (msgs : List IpcMessage) (h : name' ≠ name) :
    (mgr.setMessages name msgs).pills name' = mgr.pills name' := by
  rw [pills, messages_setMessages_other msgs h, pills]

/-- Exactly one pill, in the queue called `name`. -/
def OnePill (mgr : QueueManager) (name : Str) : Prop :=
  mgr.pills name = 1 ∧ ∀ name', name' ≠ name → mgr.pills name' = 0

end QueueManager

namespace Supervisor

variable {s s' t : Supervisor} {queue : Str} {i j : Nat}

/-! ## Who is alive -/

/-- The child of entry `j` is alive. -/
def AliveAt (s : Supervisor) (j : Nat) : Prop :=
  ∃ e, s.workers[j]? = some e ∧ e.w.isAlive = true

theorem aliveAt_exit_other (h : j ≠ i) : (s.exit i).AliveAt j ↔ s.AliveAt j := by
  unfold AliveAt exit
  simp [h.symm]

theorem not_aliveAt_exit (s : Supervisor) (i : Nat) : ¬ (s.exit i).AliveAt i := by
  rintro ⟨e, he, halive⟩
  simp only [exit, List.getElem?_modify_eq] at he
  obtain ⟨e', -, rfl⟩ := Option.map_eq_some_iff.mp he
  simp at halive

theorem aliveAt_of_sameChild (h : Entrywise SameChild s s') (ha : s'.AliveAt j) : s.AliveAt j := by
  obtain ⟨e', he', halive⟩ := ha
  obtain ⟨e, he, hsame⟩ := forall₂_getElem?' h he'
  exact ⟨e, he, hsame.alive halive⟩

/-! ## What an event does to the queues -/

/-- The effect of one event: at most one queue changes, and at most one child
exits. -/
inductive EventSpec (s : Supervisor) : ExternalEvent → Supervisor → Prop where
  | nothing {ev : ExternalEvent} {s' : Supervisor} (hw : s'.workers = s.workers)
      (hm : s'.queueMgr = s.queueMgr) : EventSpec s ev s'
  | died (i : Nat) : EventSpec s (.die i) (s.exit i)
  | tookJob {i : Nat} {queue : Str} {job : FileJobShm} {rest : List IpcMessage}
      (hr : s.receivesFrom i = some queue)
      (hm : s.queueMgr.messages queue = .fileJobShm job :: rest) :
      EventSpec s (.receive i) (s.setMessages queue rest)
  | tookPill {i : Nat} {queue : Str} {rest : List IpcMessage}
      (hr : s.receivesFrom i = some queue)
      (hm : s.queueMgr.messages queue = .poisonPill :: rest) :
      EventSpec s (.receive i) ((s.setMessages queue rest).exit i)
  | arrived {queue : Str} {job : FileJobShm} {mq : MessageQueue}
      (hq : s.queueMgr.queues queue = some mq) :
      EventSpec s (.put queue job) (s.setMessages queue (mq.messages ++ [.fileJobShm job]))

theorem event_spec (s : Supervisor) (ev : ExternalEvent) : EventSpec s ev (s.event ev) := by
  cases ev with
  | die i => exact .died i
  | receive i =>
    show EventSpec s _ (s.receive i)
    unfold receive
    split
    · exact .nothing rfl rfl
    · next hr =>
      split
      · exact .nothing rfl rfl
      · next hm => exact .tookPill hr hm
      · next hm => exact .tookJob hr hm
  | put queue job =>
    show EventSpec s _ (s.put queue job)
    unfold put
    split
    · exact .nothing rfl rfl
    · next mq hq =>
      split
      · exact .arrived hq
      · exact .nothing rfl rfl
  | readResponse => exact .nothing rfl rfl

/-- The pills after a queue's messages were replaced. -/
theorem pills_of_messages {msg : IpcMessage} {rest : List IpcMessage}
    (hm : s.queueMgr.messages queue = msg :: rest) (name : Str) :
    (s.queueMgr.setMessages queue rest).pills name
      = s.queueMgr.pills name - if name = queue ∧ msg = .poisonPill then 1 else 0 := by
  obtain ⟨mq, hq⟩ := QueueManager.exists_of_messages hm
  by_cases hname : name = queue
  · subst hname
    rw [QueueManager.pills_setMessages_self hq, QueueManager.pills, hm, List.count_cons]
    by_cases hpill : msg = .poisonPill
    · simp [hpill]
    · simp [hpill]
  · rw [QueueManager.pills_setMessages_other _ hname]
    simp [hname]

theorem pills_arrived {mq : MessageQueue} (hq : s.queueMgr.queues queue = some mq)
    (job : FileJobShm) (name : Str) :
    (s.queueMgr.setMessages queue (mq.messages ++ [.fileJobShm job])).pills name
      = s.queueMgr.pills name := by
  by_cases hname : name = queue
  · subst hname
    rw [QueueManager.pills_setMessages_self hq, QueueManager.pills,
      QueueManager.messages_of_queue hq, List.count_append]
    simp
  · exact QueueManager.pills_setMessages_other _ hname

/-! ## Events while there is no pill -/

theorem event_noPill (h : s.queueMgr.NoPill) (ev : ExternalEvent) :
    (s.event ev).queueMgr.NoPill := by
  rw [QueueManager.noPill_iff] at h ⊢
  intro name
  generalize hs' : s.event ev = s'
  have hspec := hs' ▸ event_spec s ev
  cases hspec with
  | nothing hw hm => rw [hm, h name]
  | died i => exact h name
  | tookJob hr hm => exact (pills_of_messages hm name).trans (by rw [h name, Nat.zero_sub])
  | tookPill hr hm => exact (pills_of_messages hm name).trans (by rw [h name, Nat.zero_sub])
  | arrived hq => exact (pills_arrived hq _ name).trans (h name)

/-- Without a pill a child only ends by dying. -/
theorem event_aliveAt (h : s.queueMgr.NoPill) {ev : ExternalEvent} (hdie : ev ≠ .die j)
    (ha : s.AliveAt j) : (s.event ev).AliveAt j := by
  generalize hs' : s.event ev = s'
  have hspec := hs' ▸ event_spec s ev
  cases hspec with
  | nothing hw hm =>
    unfold AliveAt
    rw [hw]
    exact ha
  | died i => exact (aliveAt_exit_other fun hij => hdie (by rw [hij])).mpr ha
  | tookJob hr hm => exact ha
  | @tookPill i queue rest hr hm =>
    -- there is no pill to take
    have hmem := h queue
    rw [hm] at hmem
    exact absurd List.mem_cons_self hmem
  | arrived hq => exact ha

theorem events_noPill (h : s.queueMgr.NoPill) (evs : List ExternalEvent) :
    (s.events evs).queueMgr.NoPill :=
  events_invariant (I := fun t => t.queueMgr.NoPill) h fun _ ht ev _ => event_noPill ht ev

theorem events_aliveAt (h : s.queueMgr.NoPill) {evs : List ExternalEvent} (hdie : .die j ∉ evs)
    (ha : s.AliveAt j) : (s.events evs).AliveAt j := by
  refine (events_invariant (I := fun t => t.queueMgr.NoPill ∧ t.AliveAt j) ⟨h, ha⟩
    fun t ht ev hev => ?_).2
  have hne : ev ≠ .die j := fun heq => hdie (heq ▸ hev)
  exact ⟨event_noPill ht.1 ev, event_aliveAt ht.1 hne ht.2⟩

/-! ## The wait for one child -/

/-- The wait for the child of entry `i`, while the children of the entries in `T`
do not die by themselves: the pill is pending, or child `i` has taken it, or
another child has, or there never was one. -/
inductive Waiting (queue : Str) (i : Nat) (T : Nat → Prop) (t : Supervisor) : Prop where
  | pending (hp : t.queueMgr.OnePill queue) (ha : ∀ j, T j → t.AliveAt j)
  | taken (hp : t.queueMgr.NoPill) (hd : ¬ t.AliveAt i) (ha : ∀ j, T j → j ≠ i → t.AliveAt j)
  | elsewhere (hp : t.queueMgr.NoPill) (ha : t.AliveAt i)

theorem waiting_event {T : Nat → Prop} (hi : T i) (h : Waiting queue i T t) {ev : ExternalEvent}
    (hdie : ∀ j, T j → ev ≠ .die j) : Waiting queue i T (t.event ev) := by
  cases h with
  | taken hp hd ha =>
    refine .taken (event_noPill hp ev) (fun halive => hd ?_)
      fun j hj hne => event_aliveAt hp (hdie j hj) (ha j hj hne)
    exact aliveAt_of_sameChild ((event_untouched t ev).mono And.left) halive
  | elsewhere hp ha =>
    exact .elsewhere (event_noPill hp ev) (event_aliveAt hp (hdie i hi) ha)
  | pending hp ha =>
    generalize hs' : t.event ev = t'
    have hspec := hs' ▸ event_spec t ev
    cases hspec with
    | nothing hw hm =>
      refine .pending (hm ▸ hp) fun j hj => ?_
      unfold AliveAt
      rw [hw]
      exact ha j hj
    | died k =>
      refine .pending hp fun j hj => ?_
      exact (aliveAt_exit_other fun hjk => hdie j hj (by rw [hjk])).mpr (ha j hj)
    | tookJob hr hm =>
      refine .pending ⟨?_, fun name hname => ?_⟩ ha
      · exact (pills_of_messages hm _).trans (by simp [hp.1])
      · exact (pills_of_messages hm _).trans (by rw [hp.2 name hname, Nat.zero_sub])
    | arrived hq =>
      refine .pending ⟨?_, fun name hname => ?_⟩ ha
      · exact (pills_arrived hq _ _).trans hp.1
      · exact (pills_arrived hq _ _).trans (hp.2 name hname)
    | @tookPill k queue' rest hr hm =>
      -- the only pill is in `queue`, and it is gone now
      have hqueue : queue' = queue := by
        by_contra hne
        have hzero := hp.2 queue' hne
        rw [QueueManager.pills, hm, List.count_cons_self] at hzero
        omega
      subst hqueue
      -- so no pill is left anywhere
      have hgone : ((t.setMessages queue' rest).exit k).queueMgr.NoPill := by
        rw [QueueManager.noPill_iff]
        intro name
        refine (pills_of_messages hm name).trans ?_
        by_cases hname : name = queue'
        · simp [hname, hp.1]
        · rw [hp.2 name hname, Nat.zero_sub]
      have hrest : ∀ j, T j → j ≠ k → ((t.setMessages queue' rest).exit k).AliveAt j :=
        fun j hj hne => (aliveAt_exit_other hne).mpr (ha j hj)
      by_cases hk : k = i
      · subst hk
        exact .taken hgone (not_aliveAt_exit _ k) hrest
      · exact .elsewhere hgone (hrest i hi fun h => hk h.symm)

theorem waiting_events {T : Nat → Prop} (hi : T i) (h : Waiting queue i T t)
    {evs : List ExternalEvent} (hdie : ∀ j, T j → .die j ∉ evs) :
    Waiting queue i T (t.events evs) :=
  events_invariant (I := Waiting queue i T) h fun _ ht _ hev =>
    waiting_event hi ht fun j hj heq => hdie j hj (heq ▸ hev)

/-- A pill is sent to a queue that is wide enough; otherwise the exception is logged,
and nothing was sent. -/
theorem trySendStopJob_ok (h : s.trySendStopJob queue = .ok t) :
    ∃ mq, s.queueMgr.queues queue = some mq ∧
      ((mq.messageSize < ipcMessageSize ∧ t = s) ∨
        (ipcMessageSize ≤ mq.messageSize ∧
          t = s.setMessages queue (mq.messages ++ [.poisonPill]))) := by
  unfold trySendStopJob QueueManager.sendStopJob at h
  cases hq : s.queueMgr.queues queue with
  | none => simp [hq] at h
  | some mq =>
    refine ⟨mq, rfl, ?_⟩
    by_cases hsize : mq.messageSize < ipcMessageSize
    · simp only [hq, hsize, if_true] at h
      exact .inl ⟨hsize, (Except.ok.inj h).symm⟩
    · by_cases hfull : mq.maxMessages ≤ mq.messages.length
      · simp [hq, hsize, hfull] at h
      · have hset : s.queueMgr.setMessages queue (mq.messages ++ [.poisonPill])
            = { queues := Function.update s.queueMgr.queues queue
                  (some { mq with messages := mq.messages ++ [.poisonPill] }) } := by
          rw [QueueManager.setMessages, hq]
          rfl
        simp only [hq, hsize, hfull, if_false, ← hset] at h
        exact .inr ⟨Nat.le_of_not_lt hsize, (Except.ok.inj h).symm⟩

theorem pills_sent {mq : MessageQueue} (hq : s.queueMgr.queues queue = some mq) :
    (s.queueMgr.setMessages queue (mq.messages ++ [.poisonPill])).pills queue
      = s.queueMgr.pills queue + 1 := by
  rw [QueueManager.pills_setMessages_self hq, QueueManager.pills,
    QueueManager.messages_of_queue hq, List.count_append]
  rfl

/-- Sending the pill begins the wait. -/
theorem waiting_of_trySendStopJob {T : Nat → Prop} (hi : T i) (hp : s.queueMgr.NoPill)
    (ha : ∀ j, T j → s.AliveAt j) (h : s.trySendStopJob queue = .ok t) :
    Waiting queue i T t := by
  obtain ⟨mq, hq, ⟨-, rfl⟩ | ⟨-, rfl⟩⟩ := trySendStopJob_ok h
  · -- no pill was sent, and the wait is for a child that nothing will stop
    exact .elsewhere hp (ha i hi)
  · rw [QueueManager.noPill_iff] at hp
    refine .pending ⟨?_, fun name hname => ?_⟩ ha
    · exact (pills_sent hq).trans (by rw [hp queue])
    · exact (QueueManager.pills_setMessages_other _ hname).trans (hp name)

/-! ## The loop of `stop_workers` -/

/-- `stop_workers(serviceName)` stops entry `i`. -/
def ChosenAt (serviceName : Str) (s : Supervisor) (i : Nat) : Prop :=
  ∃ e, s.workers[i]? = some e ∧ Chosen serviceName e

/-- The children `stop_workers` waits for are alive when it begins, and none of them
dies by itself before its turn is over. -/
def PillsConsumed (s : Supervisor) (serviceName : Str) (waits : Nat → Waits) : Prop :=
  ∀ i, ChosenAt serviceName s i → s.AliveAt i ∧
    ∀ k, k ≤ i → ChosenAt serviceName s k →
      .die i ∉ (waits k).sending ∧ .die i ∉ (waits k).waiting

/-- The loop of `stop_workers(serviceName)` on `s` has come to position `k` in the
state `t`: there is no pill, and the children still to be stopped are alive. -/
structure PillInv (serviceName : Str) (s : Supervisor) (k : Nat) (t : Supervisor) : Prop where
  sameChild : Entrywise SameChild s t
  noPill : t.queueMgr.NoPill
  alive : ∀ {j : Nat}, k ≤ j → ChosenAt serviceName s j → t.AliveAt j

/-- A turn that stops an entry: the child it waits for is the one that takes the
pill, or the wait does not return. -/
theorem stopEntity_pillInv {serviceName : Str} {waits : Nat → Waits} {k : Nat} {e : WorkerEntity}
    {u : Supervisor} (hcond : PillsConsumed s serviceName waits) (hI : PillInv serviceName s k t)
    (hk : ChosenAt serviceName s k) (he : t.workers[k]? = some e)
    (h : t.stopEntity (waits k) queue k = .ok u) : PillInv serviceName s (k + 1) u := by
  let T : Nat → Prop := fun j => k ≤ j ∧ ChosenAt serviceName s j
  have hT : T k := ⟨Nat.le_refl k, hk⟩
  obtain ⟨v, hsend, ⟨e', he', hdead⟩, rfl⟩ := stopEntity_ok h he
  have hsending : ∀ j, T j → (t.events (waits k).sending).AliveAt j := fun j hj =>
    events_aliveAt hI.noPill ((hcond j hj.2).2 k hj.1 hk).1 (hI.alive hj.1 hj.2)
  have hbegin : Waiting queue k T v :=
    waiting_of_trySendStopJob hT (events_noPill hI.noPill _) hsending hsend
  have hend : Waiting queue k T (v.events (waits k).waiting) :=
    waiting_events hT hbegin fun j hj => ((hcond j hj.2).2 k hj.1 hk).2
  have hexited : ¬ (v.events (waits k).waiting).AliveAt k := by
    rintro ⟨e'', he'', halive⟩
    rw [he'] at he''
    rw [← Option.some.inj he'', hdead] at halive
    cases halive
  have hsame : Entrywise SameChild s _ :=
    hI.sameChild.trans SameChild.trans ((stopEntity_ensures t _ queue k).of_ok h)
  -- the wait returned, so child `k` is gone: only the stage `taken` is left
  cases hend with
  | pending hp ha => exact absurd (ha k hT) hexited
  | elsewhere hp ha => exact absurd ha hexited
  | taken hp hd ha =>
    refine ⟨hsame, hp, fun {j} hj hc => ?_⟩
    obtain ⟨f, hf, halive⟩ := ha j ⟨Nat.le_of_succ_le hj, hc⟩ (by omega)
    refine ⟨f, ?_, halive⟩
    have hjk : k ≠ j := by omega
    simp [hjk, hf]

theorem stopTurn_pillInv {serviceName : Str} {waits : Nat → Waits} {k : Nat} {u : Supervisor}
    (hcond : PillsConsumed s serviceName waits) (hI : PillInv serviceName s k t)
    (hk : k < s.workers.length) (h : stopTurn serviceName waits t k = .ok u) :
    PillInv serviceName s (k + 1) u := by
  obtain ⟨e, he⟩ : ∃ e, s.workers[k]? = some e := ⟨_, List.getElem?_eq_getElem hk⟩
  obtain ⟨f, hf, hsame⟩ := forall₂_getElem? hI.sameChild he
  rcases stopTurn_ok h hf with ⟨-, rfl⟩ | ⟨queue, hchosen, hstop⟩
  · exact ⟨hI.sameChild, hI.noPill, fun hj => hI.alive (Nat.le_of_succ_le hj)⟩
  · have hc : ChosenAt serviceName s k := ⟨e, he, hsame.chosen_iff.mp ⟨queue, hchosen⟩⟩
    exact stopEntity_pillInv hcond hI hc hf hstop

theorem stopWorkers_noPill {serviceName : Str} {waits : Nat → Waits} (hp : s.queueMgr.NoPill)
    (hcond : PillsConsumed s serviceName waits) (h : s.stopWorkers serviceName waits = .ok s') :
    s'.queueMgr.NoPill := by
  have hinit : PillInv serviceName s 0 s :=
    ⟨.refl SameChild.refl s, hp, fun {j} _ hc => (hcond j hc).1⟩
  refine (Ensures.of_ok (A := fun _ => True) (P := PillInv serviceName s s.workers.length)
    (Ensures.foldlM_range hinit fun k t hk hI => ?_) h).noPill
  cases hturn : stopTurn serviceName waits t k with
  | error f => trivial
  | ok u => exact stopTurn_pillInv hcond hI hk hturn

/-! ## A stop that nobody answers -/

/-- No live child receives from the queue. -/
def Unattended (s : Supervisor) (queue : Str) : Prop := ∀ i, s.receivesFrom i ≠ some queue

theorem receivesFrom_iff : s.receivesFrom i = some queue ↔
    ∃ e, s.workers[i]? = some e ∧ e.w.isAlive = true ∧
      ∃ name, e.w.name = .ok name ∧ queueOf name = some queue := by
  unfold receivesFrom
  constructor
  · intro h
    obtain ⟨e, he, h⟩ := Option.bind_eq_some_iff.mp h
    obtain ⟨child, hc, h⟩ := Option.bind_eq_some_iff.mp h
    obtain ⟨hrun, hq⟩ := Option.ite_none_right_eq_some.mp h
    exact ⟨e, he, by rw [Worker.isAlive, hc]; exact hrun, child.name, by rw [Worker.name, hc], hq⟩
  · rintro ⟨e, he, halive, name, hname, hq⟩
    obtain ⟨child, hc, hchild⟩ := Worker.name_of_holds (Worker.holds_of_isAlive halive)
    rw [Worker.isAlive, hc] at halive
    obtain rfl := Except.ok.inj (hname.symm.trans hchild)
    simp only [he, hc, Option.bind_eq_bind, Option.bind_some]
    exact (if_pos halive).trans hq

/-- Children that exit do not come back. -/
theorem Unattended.of_sameChild (h : s.Unattended queue) (hs : Entrywise SameChild s s') :
    s'.Unattended queue := by
  intro i hr
  obtain ⟨e', he', halive, name, hname, hq⟩ := receivesFrom_iff.mp hr
  obtain ⟨e, he, hsame⟩ := forall₂_getElem?' hs he'
  exact h i (receivesFrom_iff.mpr ⟨e, he, hsame.alive halive, name, hsame.name ▸ hname, hq⟩)

/-- A pill in an unattended queue stays there. -/
theorem event_pills (h : s.Unattended queue) (ev : ExternalEvent) :
    (s.event ev).queueMgr.pills queue = s.queueMgr.pills queue := by
  generalize hs' : s.event ev = s'
  have hspec := hs' ▸ event_spec s ev
  cases hspec with
  | nothing hw hm => rw [hm]
  | died i => rfl
  | arrived hq => exact pills_arrived hq _ queue
  | @tookJob i queue' _ _ hr hm =>
    refine (pills_of_messages hm queue).trans ?_
    simp
  | @tookPill i queue' _ hr hm =>
    have hne : queue ≠ queue' := by
      rintro rfl
      exact h i hr
    refine (pills_of_messages hm queue).trans ?_
    simp [hne]

theorem events_pills (h : s.Unattended queue) (evs : List ExternalEvent) :
    (s.events evs).queueMgr.pills queue = s.queueMgr.pills queue := by
  refine (events_invariant (I := fun t => t.Unattended queue ∧
    t.queueMgr.pills queue = s.queueMgr.pills queue) ⟨h, rfl⟩ fun t ht ev _ => ?_).2
  have hnext := ht.1.of_sameChild ((event_untouched t ev).mono And.left)
  exact ⟨hnext, (event_pills ht.1 ev).trans ht.2⟩

/-- A pill that is sent is in its queue. -/
theorem trySendStopJob_sends (h : s.trySendStopJob queue = .ok t) {mq : MessageQueue}
    (hq : s.queueMgr.queues queue = some mq) (hsize : ipcMessageSize ≤ mq.messageSize) :
    t.queueMgr.pills queue = s.queueMgr.pills queue + 1 := by
  obtain ⟨mq', hq', ⟨hsmall, -⟩ | ⟨-, rfl⟩⟩ := trySendStopJob_ok h
  · rw [hq, Option.some.injEq] at hq'
    subst hq'
    omega
  · exact pills_sent hq'

/-- **A stop that nobody answers leaves its pill**: when no live child receives from
the queue, a stop that returns leaves one pill more in it than it found. -/
theorem stopEntity_leaves_pill {w : Waits} {mq : MessageQueue} (hun : s.Unattended queue)
    (hq : (s.events w.sending).queueMgr.queues queue = some mq)
    (hsize : ipcMessageSize ≤ mq.messageSize) {e : WorkerEntity}
    (he : s.workers[i]? = some e) (h : s.stopEntity w queue i = .ok s') :
    s'.queueMgr.pills queue = s.queueMgr.pills queue + 1 := by
  obtain ⟨t, hsend, -, rfl⟩ := stopEntity_ok h he
  have hworkers := (trySendStopJob_ensures _ queue).of_ok hsend
  have ht : t.Unattended queue := by
    refine hun.of_sameChild ?_
    unfold Entrywise
    rw [hworkers]
    exact events_sameChild s w.sending
  calc (t.events w.waiting).queueMgr.pills queue
      = t.queueMgr.pills queue := events_pills ht w.waiting
    _ = (s.events w.sending).queueMgr.pills queue + 1 := trySendStopJob_sends hsend hq hsize
    _ = s.queueMgr.pills queue + 1 := by rw [events_pills hun w.sending]

/-! ## Runs -/

/-- The stops of a run consume their pills. -/
def Consumed (s : Supervisor) : Op → Prop
  | .command .stop serviceName waits => PillsConsumed s serviceName waits
  | .command .restart serviceName waits => PillsConsumed s serviceName waits
  | _ => True

/-- One operation, as a step of a run. -/
def stepOp (s : Supervisor) (op : Op) : Option Supervisor := (s.step op).toOption

theorem step_of_stepOp {op : Op} (h : s.stepOp op = some s') : s.step op = .ok s' := by
  unfold stepOp at h
  cases hs : s.step op with
  | error f =>
    rw [hs] at h
    cases h
  | ok t =>
    rw [hs] at h
    exact congrArg Except.ok (Option.some.inj h)

theorem startWorkers_queueMgr {serviceName : Str} (h : s.startWorkers serviceName = .ok s') :
    s'.queueMgr = s.queueMgr := by
  obtain ⟨l, -, h⟩ := bind_eq_ok.mp h
  cases h
  rfl

theorem step_noPill {op : Op} (hp : s.queueMgr.NoPill) (hok : Consumed s op)
    (h : s.step op = .ok s') : s'.queueMgr.NoPill := by
  cases op with
  | monitor =>
    obtain ⟨l, -, h⟩ := bind_eq_ok.mp h
    cases h
    exact hp
  | event ev =>
    cases h
    exact event_noPill hp ev
  | command cmdType serviceName waits =>
    change s.handleCommand cmdType serviceName waits = .ok s' at h
    unfold handleCommand at h
    split at h
    · cases cmdType with
      | start => exact startWorkers_queueMgr h ▸ hp
      | stop => exact stopWorkers_noPill hp hok h
      | restart =>
        obtain ⟨t, ht, h⟩ := bind_eq_ok.mp h
        exact startWorkers_queueMgr h ▸ stopWorkers_noPill hp hok ht
      | ping =>
        change s.sendPong pong (waits 0) = .ok s' at h
        unfold sendPong at h
        dsimp only at h
        split at h
        · cases h
        · cases h
          exact events_noPill hp _
      | _ =>
        cases h
        exact hp
    · cases h
      exact hp

/-- The queues of a launched supervisor are empty. -/
theorem launch_noPill {factories : List ProcessFactory} {queues : List QueueDescriptor}
    (h : launch factories queues = .ok s) : s.queueMgr.NoPill := by
  obtain ⟨t, ht, h⟩ := bind_eq_ok.mp h
  obtain ⟨mgr, hmgr, ht⟩ := bind_eq_ok.mp ht
  cases ht
  cases h
  refine Ensures.of_ok (A := fun _ => True) (P := QueueManager.NoPill)
    (Ensures.foldlM (fun _ => List.not_mem_nil) fun m hm q _ => ?_) hmgr
  cases hc : m.create q with
  | error f => trivial
  | ok m' => exact QueueManager.noPill_create hm hc

/-- **No stale pill**: in every run of a launched supervisor in which each Stop and
Restart finds the children it waits for alive, and none of them dies by itself
meanwhile, no queue holds a pill between two operations; so no child is made to exit
by the pill of an earlier stop. -/
theorem no_stale_pill (factories : List ProcessFactory) (queues : List QueueDescriptor)
    (s₀ s : Supervisor) (h₀ : launch factories queues = .ok s₀)
    (h : Reaches stepOp Consumed s₀ s) :
    (∀ name, .poisonPill ∉ s.queueMgr.messages name) ∧
    (∀ i j, s.AliveAt j → (s.receive i).AliveAt j) := by
  have hp : s.queueMgr.NoPill := h.invariant (P := fun s => s.queueMgr.NoPill)
    (launch_noPill h₀) fun hp hok hs => step_noPill hp hok (step_of_stepOp hs)
  exact ⟨hp, fun i j ha => event_aliveAt hp
    (fun h => nomatch h : ExternalEvent.receive i ≠ .die j) ha⟩

/-! ## The deployed supervisor -/

/-- The command `fika stop detect`, while the child of entry 2 takes a message. -/
def stopDetect : Op := .command .stop (lit "detect") fun _ => { waiting := [.receive 2] }

/-- The second `fika stop detect`, with nothing happening meanwhile. -/
def stopDetectAgain : Op := .command .stop (lit "detect") fun _ => {}

/-- The command `fika start detect`. -/
def startDetect : Op := .command .start (lit "detect") fun _ => {}

/-- One operation more on the deployed supervisor. -/
theorem deployedAfter_snoc {ops : List Op} {op : Op} (hs : deployedAfter ops = some s) :
    deployedAfter (ops ++ [op]) = s.stepOp op := by
  obtain ⟨s₀, h₀, hops⟩ := deployedAfter_eq_some hs
  have hmore : s₀.runOps (ops ++ [op]) = s.step op := by
    unfold runOps at hops ⊢
    rw [List.foldlM_append, hops]
    exact bind_pure (s.step op)
  unfold deployedAfter stepOp
  rw [h₀]
  exact congrArg Except.toOption hmore

theorem deployed_aliveAt {ops : List Op} (hs : deployedAfter ops = some s)
    (h : ((deployedAfter ops).map fun s => s.workers[j]?.map fun e => e.w.isAlive) =
      some (some true)) : s.AliveAt j :=
  Option.map_eq_some_iff.mp
    (deployed_eval (f := fun s => s.workers[j]?.map fun e => e.w.isAlive) hs h)

/-- After `fika start` only entry 2 is a `detect`. -/
theorem chosenAt_detect {s : Supervisor} (hs : deployedAfter [startAll] = some s) {i : Nat}
    (h : ChosenAt (lit "detect") s i) : i = 2 := by
  have hnames : s.workers.map (fun e => e.w.name.toOption) = configuredWorkers.map some :=
    deployed_eval (f := fun s => s.workers.map fun e => e.w.name.toOption) hs (by rfl)
  obtain ⟨e, he, queue, name, hname, hselected, -⟩ := h
  have hdetect : name = lit "detect" := hselected.elim id fun hall => absurd hall (by decide)
  have hi : (configuredWorkers.map some)[i]? = some (some (lit "detect")) := by
    rw [← hnames, List.getElem?_map, he, Option.map_some, hname, hdetect]
    rfl
  have h2 : (configuredWorkers.map some)[2]? = some (some (lit "detect")) := by rfl
  exact (List.getElem?_inj (List.getElem?_eq_some_iff.mp hi).1 (by decide)).mp (hi.trans h2.symm)

/-- Everything is started, `detect` is stopped, its child takes the pill, and the child
that is started in its place is not met by one. -/
theorem no_stale_pill_deployed :
    ∃ s₀ s₁ s₂ s₃, launch mainFactories mainQueues = .ok s₀ ∧ s₀.step startAll = .ok s₁ ∧
      s₁.step stopDetect = .ok s₂ ∧ s₂.step startDetect = .ok s₃ ∧
      (s₂.workers[2]?.map fun e => (e.state, e.w.isAlive)) = some (.stopped, false) ∧
      (∀ name, .poisonPill ∉ s₂.queueMgr.messages name) ∧
      s₃.AliveAt 2 ∧ (s₃.receive 2).AliveAt 2 := by
  obtain ⟨s₀, h₀⟩ := launch_main
  have hlaunched : deployedAfter [] = some s₀ := by
    rw [deployedAfter, h₀]
    rfl
  obtain ⟨s₁, h₁⟩ := Option.isSome_iff_exists.mp
    (show (deployedAfter [startAll]).isSome = true by rfl)
  obtain ⟨s₂, h₂⟩ := Option.isSome_iff_exists.mp
    (show (deployedAfter [startAll, stopDetect]).isSome = true by rfl)
  obtain ⟨s₃, h₃⟩ := Option.isSome_iff_exists.mp
    (show (deployedAfter [startAll, stopDetect, startDetect]).isSome = true by rfl)
  have hstep₁ : s₀.stepOp startAll = some s₁ := (deployedAfter_snoc hlaunched).symm.trans h₁
  have hstep₂ : s₁.stepOp stopDetect = some s₂ := (deployedAfter_snoc h₁).symm.trans h₂
  have hstep₃ : s₂.stepOp startDetect = some s₃ := (deployedAfter_snoc h₂).symm.trans h₃
  have halive₁ : s₁.AliveAt 2 := deployed_aliveAt h₁ (by rfl)
  have hconsumed : Consumed s₁ stopDetect := by
    intro i hi
    obtain rfl := chosenAt_detect h₁ hi
    exact ⟨halive₁, fun k _ _ => ⟨List.not_mem_nil, by simp⟩⟩
  have hreach₁ : Reaches stepOp Consumed s₀ s₁ :=
    .single (e := startAll) trivial hstep₁
  have hreach₂ : Reaches stepOp Consumed s₀ s₂ :=
    .tail (e := stopDetect) hreach₁ hconsumed hstep₂
  have hreach₃ : Reaches stepOp Consumed s₀ s₃ :=
    .tail (e := startDetect) hreach₂ trivial hstep₃
  have hstopped : (s₂.workers[2]?.map fun e => (e.state, e.w.isAlive)) = some (.stopped, false) :=
    deployed_eval (f := fun s => s.workers[2]?.map fun e => (e.state, e.w.isAlive)) h₂ (by rfl)
  have halive₃ : s₃.AliveAt 2 := deployed_aliveAt h₃ (by rfl)
  refine ⟨s₀, s₁, s₂, s₃, h₀, step_of_stepOp hstep₁, step_of_stepOp hstep₂,
    step_of_stepOp hstep₃, hstopped, ?_, halive₃, ?_⟩
  · exact (no_stale_pill mainFactories mainQueues s₀ s₂ h₀ hreach₂).1
  · exact (no_stale_pill mainFactories mainQueues s₀ s₃ h₀ hreach₃).2 2 2 halive₃

/-- Stopping `detect` twice leaves a pill in the queue of a Stopped worker. -/
theorem stale_pill_after_second_stop :
    ¬ ∀ (ops : List Op) (s : Supervisor), deployedAfter ops = some s →
      ∀ (i : Nat) (e : WorkerEntity) (queue : Str), s.workers[i]? = some e →
        e.state = .stopped → ChosenFor [] e queue →
        .poisonPill ∉ s.queueMgr.messages queue := by
  intro hall
  obtain ⟨s, hs⟩ := Option.isSome_iff_exists.mp
    (show (deployedAfter [startAll, stopDetect, stopDetectAgain]).isSome = true by rfl)
  have hentry : (s.workers[2]?.map fun e => (e.state, e.w.name))
      = some (.stopped, .ok (lit "detect")) :=
    deployed_eval (f := fun s => s.workers[2]?.map fun e => (e.state, e.w.name)) hs (by rfl)
  have hpill : s.queueMgr.messages (Binary.queue .detect) = [.poisonPill] :=
    deployed_eval (f := fun s => s.queueMgr.messages (Binary.queue .detect)) hs (by rfl)
  obtain ⟨e, he, hpair⟩ := Option.map_eq_some_iff.mp hentry
  obtain ⟨hstate, hname⟩ := Prod.mk.inj hpair
  have hchosen : ChosenFor [] e (Binary.queue .detect) :=
    ⟨lit "detect", hname, .inr rfl, queueOf_name .detect⟩
  have hnone := hall _ s hs 2 e _ he hstate hchosen
  rw [hpill] at hnone
  exact hnone List.mem_cons_self

end Supervisor

end Fika
