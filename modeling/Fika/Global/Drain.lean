import Mathlib.Data.List.Perm.Basic
import Fika.Lib.Run
import Fika.Global.Service

/-!
# Draining a service (`service.cpp`)

`Service::start` posts a handler to the pool for each message it receives, until
it receives a poison pill; then it waits in `pool_.join()` for the handlers that
are still pending. The handlers run in any order and end in any way.

- `ServiceRun`: the queue, the service, the handlers that are running, and what
  `handle` has been invoked with; `DrainEvent`, `drainStep`: the receive loop, the
  pool with its threads, and what other processes send meanwhile.
- `jobsBefore`, `behindPill`: the two parts of a queue with a pill.
- `Advanced`: what any stretch of a run does to the account of the jobs, to what is
  behind the pill, and to the work left; `drainStep_advanced` for one event,
  `run_advanced` for a run.
- `drainStep_silent`: how a handler ends is visible in the log only.
- `graceful_drain`: every run of a queue with a pill comes to an end, and what has
  happened then.
-/

namespace Fika

open Lib

/-! ## The receive loop and the pool -/

/-- How an invocation of `handle` ends. -/
inductive HandlerEnd where
  | returned
  | exception (what : Str)
  | unknown
deriving DecidableEq

/-- What the posted lambda logs: it catches everything. -/
def HandlerEnd.logged : HandlerEnd → List Str
  | .returned => []
  | .exception what => [lit "Worker exception: " ++ what]
  | .unknown => [lit "Unknown worker exception"]

/-- `Service::start` at work: the queue it receives from, the service with the
posted handlers, the handlers that are running, all invocations of `handle` so
far, and the log. -/
structure ServiceRun where
  queue : List IpcMessage
  service : ServiceState := {}
  active : List FileJobShm := []
  invoked : List FileJobShm := []
  log : List Str := []

/-- What can happen next: the loop receives a message, a thread of the pool picks a
posted handler, a handler ends, `pool_.join()` returns, or another process sends a
message. -/
inductive DrainEvent where
  | receive
  | invoke (i : Nat)
  | finish (i : Nat) (ending : HandlerEnd)
  | join
  | arrive (msg : IpcMessage)
deriving DecidableEq

/-- One event, for a pool of `threads` threads. -/
def drainStep (threads : Nat) (s : ServiceRun) : DrainEvent → Option ServiceRun
  | .receive =>
    match s.service.phase, s.queue with
    | .receiving, msg :: rest =>
      some { s with queue := rest, service := s.service.onMessage msg }
    | _, _ => none
  | .invoke i =>
    if s.active.length < threads then
      (s.service.pool[i]?).map fun job =>
        { s with
          service := { s.service with pool := s.service.pool.eraseIdx i }
          active := s.active ++ [job]
          invoked := s.invoked ++ [job] }
    else none
  | .finish i ending =>
    if i < s.active.length then
      some { s with active := s.active.eraseIdx i, log := s.log ++ ending.logged }
    else none
  | .join =>
    -- `join` waits for the posted handlers and for those that are running
    if s.service.phase = .joining ∧ s.service.pool = [] ∧ s.active = [] then
      some { s with service := { s.service with phase := .exited } }
    else none
  | .arrive msg => some { s with queue := s.queue ++ [msg] }

/-- The events of the service itself. -/
def DrainEvent.internal : DrainEvent → Bool
  | .arrive _ => false
  | _ => true

/-- What the event puts on the queue. -/
def DrainEvent.arrival : DrainEvent → List IpcMessage
  | .arrive msg => [msg]
  | _ => []

/-! ## A queue with a pill -/

/-- The jobs before the first pill. -/
def jobsBefore : List IpcMessage → List FileJobShm
  | [] => []
  | .poisonPill :: _ => []
  | .fileJobShm job :: rest => job :: jobsBefore rest

/-- The messages behind the first pill. -/
def behindPill : List IpcMessage → List IpcMessage
  | [] => []
  | .poisonPill :: rest => rest
  | .fileJobShm _ :: rest => behindPill rest

/-- A job in front of the pill is not the pill. -/
theorem pill_mem_tail {job : FileJobShm} {rest : List IpcMessage}
    (h : .poisonPill ∈ IpcMessage.fileJobShm job :: rest) : .poisonPill ∈ rest :=
  (List.mem_cons.mp h).resolve_left fun hj => by cases hj

/-- The two parts and the pill are the queue. -/
theorem queue_split {q : List IpcMessage} (h : .poisonPill ∈ q) :
    q = (jobsBefore q).map .fileJobShm ++ .poisonPill :: behindPill q := by
  induction q with
  | nil => exact absurd h List.not_mem_nil
  | cons msg rest ih =>
    cases msg with
    | poisonPill => rfl
    | fileJobShm job =>
      exact congrArg (.fileJobShm job :: ·) (ih (pill_mem_tail h))

theorem jobsBefore_append {q : List IpcMessage} (h : .poisonPill ∈ q) (more : List IpcMessage) :
    jobsBefore (q ++ more) = jobsBefore q ∧ behindPill (q ++ more) = behindPill q ++ more := by
  induction q with
  | nil => exact absurd h List.not_mem_nil
  | cons msg rest ih =>
    cases msg with
    | poisonPill => exact ⟨rfl, rfl⟩
    | fileJobShm job =>
      obtain ⟨hjobs, hbehind⟩ := ih (pill_mem_tail h)
      exact ⟨congrArg (job :: ·) hjobs, hbehind⟩

/-! ## What a run accounts for -/

/-- How much of `Service::start` is still to come. -/
def Phase.left : Phase → Nat
  | .receiving => 2
  | .joining => 1
  | .exited => 0

namespace ServiceRun

variable {s s' t u : ServiceRun}

/-- The jobs the loop has still to receive. -/
def unread (s : ServiceRun) : List FileJobShm :=
  match s.service.phase with
  | .receiving => jobsBefore s.queue
  | _ => []

/-- The messages the loop will not receive. -/
def behind (s : ServiceRun) : List IpcMessage :=
  match s.service.phase with
  | .receiving => behindPill s.queue
  | _ => s.queue

/-- Every job before the pill: invoked, posted, or still to be received. -/
def account (s : ServiceRun) : List FileJobShm := s.invoked ++ s.service.pool ++ s.unread

/-- The number of events left: three for a job to be received, two for a posted one,
one for a running handler, the pill and the join. -/
def potential (s : ServiceRun) : Nat :=
  3 * s.unread.length + 2 * s.service.pool.length + s.active.length + s.service.phase.left

/-- The loop will meet a pill, and nothing is pending when `start` has returned. -/
structure Inv (s : ServiceRun) : Prop where
  pill : s.service.phase = .receiving → .poisonPill ∈ s.queue
  drained : s.service.phase = .exited → s.service.pool = [] ∧ s.active = []

/-- The run has come from `s` to `t` in `steps` events of the service, while
`arrived` was put on the queue. -/
structure Advanced (s : ServiceRun) (arrived : List IpcMessage) (steps : Nat) (t : ServiceRun) :
    Prop where
  inv : t.Inv
  account : t.account.Perm s.account
  behind : t.behind = s.behind ++ arrived
  potential : t.potential + steps = s.potential

theorem Advanced.refl (h : s.Inv) : Advanced s [] 0 s :=
  ⟨h, .refl _, (List.append_nil _).symm, rfl⟩

theorem Advanced.trans {arrived arrived' : List IpcMessage} {k k' : Nat}
    (h : Advanced s arrived k t) (h' : Advanced t arrived' k' u) :
    Advanced s (arrived ++ arrived') (k + k') u where
  inv := h'.inv
  account := h'.account.trans h.account
  behind := by rw [h'.behind, h.behind, List.append_assoc]
  potential := by
    have := h.potential
    have := h'.potential
    omega

/-! ## One event -/

theorem receive_advanced {threads : Nat} (h : s.Inv) (hs : drainStep threads s .receive = some s') :
    Advanced s [] 1 s' := by
  obtain ⟨queue, ⟨phase, pool⟩, active, invoked, log⟩ := s
  cases phase with
  | joining => cases hs
  | exited => cases hs
  | receiving =>
    have hpill : .poisonPill ∈ queue := h.pill rfl
    cases queue with
    | nil => cases hs
    | cons msg rest =>
      cases hs
      cases msg with
      | poisonPill =>
        refine ⟨⟨fun hp => (by cases hp), fun hp => (by cases hp)⟩, .refl _,
          (List.append_nil _).symm, ?_⟩
        simp [potential, unread, ServiceState.onMessage, jobsBefore, Phase.left]
      | fileJobShm job =>
        refine ⟨⟨fun _ => pill_mem_tail hpill, fun hp => (by cases hp)⟩, .of_eq ?_,
          (List.append_nil _).symm, ?_⟩
        · simp [ServiceRun.account, unread, ServiceState.onMessage, jobsBefore]
        · simp only [potential, unread, ServiceState.onMessage, jobsBefore, List.length_append,
            List.length_cons, List.length_nil]
          omega

theorem invoke_advanced {threads i : Nat} (h : s.Inv)
    (hs : drainStep threads s (.invoke i) = some s') : Advanced s [] 1 s' := by
  obtain ⟨hroom, hs⟩ := Option.ite_none_right_eq_some.mp hs
  obtain ⟨job, hjob, rfl⟩ := Option.map_eq_some_iff.mp hs
  obtain ⟨hi, rfl⟩ := List.getElem?_eq_some_iff.mp hjob
  have hlen := List.length_eraseIdx_add_one hi
  refine ⟨⟨h.pill, fun hp => ?_⟩, ?_, (List.append_nil _).symm, ?_⟩
  · -- nothing is posted any more when `start` has returned
    have hnone := hi
    rw [(h.drained hp).1] at hnone
    exact absurd hnone (Nat.not_lt_zero i)
  · have hperm := List.getElem_cons_eraseIdx_perm hi
    show (s.invoked ++ [s.service.pool[i]] ++ s.service.pool.eraseIdx i ++ s.unread).Perm
      (s.invoked ++ s.service.pool ++ s.unread)
    rw [List.append_assoc s.invoked]
    exact (hperm.append_left s.invoked).append_right s.unread
  · show 3 * s.unread.length + 2 * (s.service.pool.eraseIdx i).length
      + (s.active ++ [s.service.pool[i]]).length + s.service.phase.left + 1 = s.potential
    rw [potential, List.length_append, List.length_singleton]
    omega

theorem finish_advanced {threads i : Nat} {ending : HandlerEnd} (h : s.Inv)
    (hs : drainStep threads s (.finish i ending) = some s') : Advanced s [] 1 s' := by
  obtain ⟨hi, hs⟩ := Option.ite_none_right_eq_some.mp hs
  cases hs
  have hlen := List.length_eraseIdx_add_one hi
  refine ⟨⟨h.pill, fun hp => ?_⟩, .refl _, (List.append_nil _).symm, ?_⟩
  · have hnone := hi
    rw [(h.drained hp).2] at hnone
    exact absurd hnone (Nat.not_lt_zero i)
  · show 3 * s.unread.length + 2 * s.service.pool.length + (s.active.eraseIdx i).length
      + s.service.phase.left + 1 = s.potential
    rw [potential]
    omega

theorem join_advanced {threads : Nat} (hs : drainStep threads s .join = some s') :
    Advanced s [] 1 s' := by
  obtain ⟨⟨hphase, hpool, hactive⟩, hs⟩ := Option.ite_none_right_eq_some.mp hs
  cases hs
  refine ⟨⟨fun hp => (by cases hp), fun _ => ⟨hpool, hactive⟩⟩, .of_eq ?_, ?_, ?_⟩
  · simp [ServiceRun.account, unread, hphase]
  · simp [ServiceRun.behind, hphase]
  · simp [potential, unread, hphase, Phase.left]

theorem arrive_advanced {threads : Nat} {msg : IpcMessage} (h : s.Inv)
    (hs : drainStep threads s (.arrive msg) = some s') : Advanced s [msg] 0 s' := by
  cases hs
  have hunread : ({ s with queue := s.queue ++ [msg] } : ServiceRun).unread = s.unread := by
    unfold unread
    cases hphase : s.service.phase with
    | receiving => exact (jobsBefore_append (h.pill hphase) [msg]).1
    | joining => rfl
    | exited => rfl
  refine ⟨⟨fun hp => List.mem_append_left _ (h.pill hp), h.drained⟩, .of_eq ?_, ?_, ?_⟩
  · unfold ServiceRun.account
    rw [hunread]
  · unfold ServiceRun.behind
    cases hphase : s.service.phase with
    | receiving => exact (jobsBefore_append (h.pill hphase) [msg]).2
    | joining => rfl
    | exited => rfl
  · unfold potential
    rw [hunread]
    rfl

/-- What one event does. -/
theorem drainStep_advanced {threads : Nat} {e : DrainEvent} (h : s.Inv)
    (hs : drainStep threads s e = some s') :
    Advanced s e.arrival (if e.internal then 1 else 0) s' := by
  cases e with
  | receive => exact receive_advanced h hs
  | invoke i => exact invoke_advanced h hs
  | finish i ending => exact finish_advanced h hs
  | join => exact join_advanced hs
  | arrive msg => exact arrive_advanced h hs

/-- What a run does. -/
theorem run_advanced {threads : Nat} :
    ∀ {es : List DrainEvent} {s t : ServiceRun}, s.Inv → run (drainStep threads) s es = some t →
      Advanced s (es.flatMap DrainEvent.arrival) (es.countP DrainEvent.internal) t
  | [], s, t, h, hrun => by
    obtain rfl : s = t := Option.some.inj hrun
    exact .refl h
  | e :: es, s, t, h, hrun => by
    obtain ⟨s', hs, hrest⟩ := Option.bind_eq_some_iff.mp hrun
    have hfirst := drainStep_advanced h hs
    have hall := hfirst.trans (run_advanced hfirst.inv hrest)
    rw [List.flatMap_cons, List.countP_cons, Nat.add_comm]
    exact hall

/-! ## Until `start` returns -/

/-- The service can go on until `start` has returned. -/
theorem drainStep_progress {threads : Nat} (hthreads : 0 < threads) (h : s.Inv)
    (hphase : s.service.phase ≠ .exited) :
    ∃ e s', e.internal = true ∧ drainStep threads s e = some s' := by
  by_cases hactive : s.active = []
  · by_cases hpool : s.service.pool = []
    · cases hp : s.service.phase with
      | exited => exact absurd hp hphase
      | joining => exact ⟨.join, _, rfl, if_pos ⟨hp, hpool, hactive⟩⟩
      | receiving =>
        obtain ⟨msg, rest, hq⟩ := List.exists_cons_of_ne_nil (List.ne_nil_of_mem (h.pill hp))
        refine ⟨.receive, { s with queue := rest, service := s.service.onMessage msg }, rfl, ?_⟩
        simp [drainStep, hp, hq]
    · obtain ⟨job, rest, hcons⟩ := List.exists_cons_of_ne_nil hpool
      obtain ⟨s', hs'⟩ : ∃ s', drainStep threads s (.invoke 0) = some s' :=
        Option.isSome_iff_exists.mp (by simp [drainStep, hactive, hthreads, hcons])
      exact ⟨.invoke 0, s', rfl, hs'⟩
  · exact ⟨.finish 0 .returned, _, rfl, if_pos (List.length_pos_iff.mpr hactive)⟩

theorem drain_completes {threads : Nat} (hthreads : 0 < threads) (h : s.Inv) :
    ∃ es t, (∀ e ∈ es, e.internal = true) ∧ run (drainStep threads) s es = some t ∧
      t.service.phase = .exited := by
  refine run_completes (φ := potential) (fun {a} (ha : a.Inv) hdone => ?_) h
  obtain ⟨e, b, he, hb⟩ := drainStep_progress hthreads ha hdone
  have hadv := drainStep_advanced ha hb
  rw [he] at hadv
  have hpaid := hadv.potential
  exact ⟨e, b, he, hb, hadv.inv, by simp only [if_true] at hpaid; omega⟩

/-! ## How handlers end -/

/-- The run with its log forgotten. -/
def silent (s : ServiceRun) : ServiceRun := { s with log := [] }

end ServiceRun

/-- The event with the ending of the handler forgotten. -/
def DrainEvent.blind : DrainEvent → DrainEvent
  | .finish i _ => .finish i .returned
  | e => e

/-- How a handler ends is visible in the log only. -/
theorem drainStep_silent (threads : Nat) (s : ServiceRun) (e : DrainEvent) :
    (drainStep threads s e).map ServiceRun.silent = drainStep threads s.silent e.blind := by
  cases e with
  | receive =>
    obtain ⟨queue, ⟨phase, pool⟩, active, invoked, log⟩ := s
    cases phase <;> cases queue <;> rfl
  | invoke i =>
    show Option.map _ (ite _ _ _) = ite (s.active.length < threads) _ _
    by_cases hroom : s.active.length < threads
    · rw [if_pos hroom, if_pos hroom, Option.map_map]
      rfl
    · rw [if_neg hroom, if_neg hroom, Option.map_none]
  | finish i ending =>
    show Option.map _ (ite _ _ _) = ite (i < s.active.length) _ _
    by_cases hi : i < s.active.length
    · rw [if_pos hi, if_pos hi]
      rfl
    · rw [if_neg hi, if_neg hi, Option.map_none]
  | join =>
    show Option.map _ (ite _ _ _)
      = ite (s.service.phase = .joining ∧ s.service.pool = [] ∧ s.active = []) _ _
    by_cases hdone : s.service.phase = .joining ∧ s.service.pool = [] ∧ s.active = []
    · rw [if_pos hdone, if_pos hdone]
      rfl
    · rw [if_neg hdone, if_neg hdone, Option.map_none]
  | arrive msg => rfl

/-- **Graceful drain**: take any queue with a pill in it, and any run of the service
on it: any schedule of a pool that has threads, any endings of the handlers, any
messages arriving meanwhile. The run has at most so many events of the service as
there are jobs to be received, invoked and finished; until `start` has returned
there is a next one. When it has returned, the messages up to and including the
first pill are gone and the others are there in order, `handle` has been invoked
once for each job before that pill and for nothing else, and nothing is pending.
Other endings of the handlers lead to the same state up to the log. -/
theorem graceful_drain (threads : Nat) (hthreads : 0 < threads) (queue : List IpcMessage)
    (hpill : .poisonPill ∈ queue) (es : List DrainEvent) (t : ServiceRun)
    (hrun : run (drainStep threads) { queue := queue } es = some t) :
    queue = (jobsBefore queue).map .fileJobShm ++ .poisonPill :: behindPill queue ∧
    es.countP DrainEvent.internal ≤ 3 * (jobsBefore queue).length + 2 ∧
    (t.service.phase ≠ .exited →
      ∃ e t', e.internal = true ∧ drainStep threads t e = some t') ∧
    (∃ es' t', (∀ e ∈ es', e.internal = true) ∧ run (drainStep threads) t es' = some t' ∧
      t'.service.phase = .exited) ∧
    (∃ pending, (t.invoked ++ pending).Perm (jobsBefore queue)) ∧
    (t.service.phase = .exited →
      t.queue = behindPill queue ++ es.flatMap DrainEvent.arrival ∧
      t.invoked.Perm (jobsBefore queue) ∧ t.service.pool = [] ∧ t.active = []) ∧
    (∀ es', es'.map DrainEvent.blind = es.map DrainEvent.blind →
      ∃ t', run (drainStep threads) { queue := queue } es' = some t' ∧ t'.silent = t.silent) := by
  have hinv : ({ queue := queue } : ServiceRun).Inv := ⟨fun _ => hpill, fun hp => (by cases hp)⟩
  have hadv := ServiceRun.run_advanced hinv hrun
  have haccount : t.account.Perm (jobsBefore queue) := hadv.account
  refine ⟨queue_split hpill, ?_, ServiceRun.drainStep_progress hthreads hadv.inv,
    ServiceRun.drain_completes hthreads hadv.inv, ?_, fun hexited => ?_, fun es' hes' => ?_⟩
  · have hpaid : t.potential + es.countP DrainEvent.internal
        = 3 * (jobsBefore queue).length + 2 := hadv.potential
    omega
  · refine ⟨t.service.pool ++ t.unread, ?_⟩
    rw [← List.append_assoc]
    exact haccount
  · obtain ⟨hpool, hactive⟩ := hadv.inv.drained hexited
    have hqueue : t.behind = t.queue := by
      unfold ServiceRun.behind
      rw [hexited]
    have hunread : t.unread = [] := by
      unfold ServiceRun.unread
      rw [hexited]
    refine ⟨hqueue ▸ hadv.behind, ?_, hpool, hactive⟩
    rwa [ServiceRun.account, hpool, hunread, List.append_nil, List.append_nil] at haccount
  · have hmap := run_map (drainStep_silent threads)
    have hsame : (run (drainStep threads) { queue := queue } es').map ServiceRun.silent
        = some t.silent := by
      rw [hmap, hes', ← hmap, hrun]
      rfl
    obtain ⟨t', ht', hsilent⟩ := Option.map_eq_some_iff.mp hsame
    exact ⟨t', ht', hsilent⟩

/-- One thread, a job whose handler throws, and a job behind the pill. -/
theorem graceful_drain_throwing :
    ∃ t, run (drainStep 1)
        { queue := [.fileJobShm { attempts := 1 }, .poisonPill, .fileJobShm { attempts := 2 }] }
        [.receive, .receive, .invoke 0, .finish 0 (.exception (lit "bad file")), .join] = some t ∧
      t.queue = [.fileJobShm { attempts := 2 }] ∧
      t.invoked.Perm [{ attempts := 1 }] := by
  obtain ⟨t, ht⟩ := Option.isSome_iff_exists.mp
    (show (run (drainStep 1)
        { queue := [.fileJobShm { attempts := 1 }, .poisonPill, .fileJobShm { attempts := 2 }] }
        [.receive, .receive, .invoke 0, .finish 0 (.exception (lit "bad file")), .join]).isSome
      = true by rfl)
  have hexited : (run (drainStep 1)
        { queue := [.fileJobShm { attempts := 1 }, .poisonPill, .fileJobShm { attempts := 2 }] }
        [.receive, .receive, .invoke 0, .finish 0 (.exception (lit "bad file")), .join]).map
      (fun t => t.service.phase) = some .exited := by rfl
  rw [ht, Option.map_some, Option.some.injEq] at hexited
  obtain ⟨-, -, -, -, -, hend, -⟩ := graceful_drain 1 (by decide) _ (by simp) _ t ht
  obtain ⟨hqueue, hinvoked, -, -⟩ := hend hexited
  exact ⟨t, ht, hqueue, hinvoked⟩

end Fika
