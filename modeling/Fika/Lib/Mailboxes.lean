import Mathlib.Algebra.BigOperators.Group.Finset.Basic
import Mathlib.Algebra.Order.BigOperators.Group.List
import Mathlib.Data.Fintype.Basic
import Mathlib.Tactic.Abel
import Fika.Lib.Run

/-!
# Networks of bounded mailboxes

Every node takes mail from a mailbox of bounded size and posts it to its threads.
A handler computes on the data the nodes share and then sends, one message after
the other; a send waits until the mailbox has room. A node that takes a notice to
stop works off what it has posted and exits; it can be launched again, and it can
be killed at any time.

- `Network`, `Network.State`, `Network.Event`, `Network.step`: the networks and their
  steps, in any order; `StepSpec`, `step_spec`: what each step does.
- `Measure`, `total`: an additive measure of everything in flight; one lemma for what
  each step does to it (`total_accepted`, `total_posted`, ...).
- `Within`: no mailbox and no pool of threads is ever overfull.
- `Everywhere`: a property of every message on its way, kept by every step when
  clients and handlers only send messages that have it (`everywhere_step`); `Begun`: one
  of every handler that is under way (`begun_step`).
-/

namespace Lib

universe u v w x y z

/-- What a mailbox carries: work, or the notice to stop. -/
inductive Mail (μ : Type v) where
  | work (m : μ)
  | halt
deriving DecidableEq

/-- The message of a piece of work. -/
def Mail.message? {μ : Type v} : Mail μ → Option μ
  | .work m => some m
  | .halt => none

/-- Where the process of a node stands. -/
inductive Stage where
  | receiving
  | draining
  | exited
deriving DecidableEq

/-- A network: the sizes of its mailboxes and thread pools, what a handler makes of a
message and of the shared data, what a client does and sends, and what is new when a
node is launched again. `χ` is what the environment chooses for a handler. -/
structure Network (ν : Type u) (μ : Type v) (σ : Type w) (χ : Type x) (ω : Type y) where
  capacity : ν → Nat
  threads : ν → Nat
  handle : ν → χ → σ → μ → σ × List (ν × μ)
  client : ω → σ → σ × List (ν × Mail μ)
  fresh : ν → σ → σ

namespace Network

/-- A node: its mailbox, its process, the messages posted to its threads, and the
handlers on its threads, each with its message and what it has still to send. -/
structure Node (ν : Type u) (μ : Type v) where
  box : List (Mail μ) := []
  stage : Stage := .receiving
  pool : List μ := []
  busy : List (μ × List (ν × μ)) := []

/-- The nodes, what clients are waiting to send, the shared data, and the history:
what clients have sent, what was handled without anything being sent for it, and what
was lost when a process was killed. -/
structure State (ν : Type u) (μ : Type v) (σ : Type w) where
  node : ν → Node ν μ := fun _ => {}
  outside : List (ν × Mail μ) := []
  shared : σ
  entered : List (ν × Mail μ) := []
  retired : List μ := []
  lost : List μ := []

/-- What happens next; `i` is the position of a waiting client, of a posted message
or of a thread. A waiting client may be killed (`abandon`), and so may a node. -/
inductive Event (ν : Type u) (χ : Type x) (ω : Type y) where
  | client (o : ω)
  | accept (i : Nat)
  | abandon (i : Nat)
  | receive (n : ν)
  | invoke (n : ν) (i : Nat) (c : χ)
  | send (n : ν) (i : Nat)
  | finish (n : ν) (i : Nat)
  | join (n : ν)
  | relaunch (n : ν)
  | crash (n : ν)

/-- The events of a network that is left alone. -/
def Event.internal {ν : Type u} {χ : Type x} {ω : Type y} : Event ν χ ω → Bool
  | .client _ | .abandon _ | .relaunch _ | .crash _ => false
  | _ => true

variable {ν : Type u} {μ : Type v} {σ : Type w} {χ : Type x} {ω : Type y} [DecidableEq ν]

/-- Replace a node. -/
def State.set (s : State ν μ σ) (n : ν) (node : Node ν μ) : State ν μ σ :=
  { s with node := Function.update s.node n node }

/-- Append a piece of mail to a mailbox. -/
def State.put (s : State ν μ σ) (n : ν) (mail : Mail μ) : State ν μ σ :=
  s.set n { s.node n with box := (s.node n).box ++ [mail] }

/-- The messages a process takes with it when it is killed: what it had posted, and
what its handlers had not sent. -/
def Node.held (node : Node ν μ) : List μ :=
  node.pool ++ node.busy.flatMap fun h => h.2.map Prod.snd

/-- The mailbox has room for one more. -/
def Room (N : Network ν μ σ χ ω) (s : State ν μ σ) (n : ν) : Prop :=
  (s.node n).box.length < N.capacity n

instance (N : Network ν μ σ χ ω) (s : State ν μ σ) (n : ν) : Decidable (N.Room s n) :=
  inferInstanceAs (Decidable (_ < _))

/-- One step; `none` when it is not enabled. -/
def step (N : Network ν μ σ χ ω) (s : State ν μ σ) : Event ν χ ω → Option (State ν μ σ)
  | .client o =>
    let r := N.client o s.shared
    some { s with
      shared := r.1
      outside := s.outside ++ r.2
      entered := r.2 ++ s.entered }
  | .accept i =>
    match s.outside[i]? with
    | some p =>
      if N.Room s p.1 then
        some ({ s with outside := s.outside.eraseIdx i }.put p.1 p.2)
      else none
    | none => none
  | .abandon i =>
    (s.outside[i]?).map fun p => { s with
      outside := s.outside.eraseIdx i
      lost := p.2.message?.toList ++ s.lost }
  | .receive n =>
    match (s.node n).stage, (s.node n).box with
    | .receiving, .work m :: rest =>
      some (s.set n { s.node n with box := rest, pool := (s.node n).pool ++ [m] })
    | .receiving, .halt :: rest =>
      some (s.set n { s.node n with box := rest, stage := .draining })
    | _, _ => none
  | .invoke n i c =>
    match (s.node n).pool[i]? with
    | some m =>
      if (s.node n).busy.length < N.threads n then
        let r := N.handle n c s.shared m
        some { s.set n { s.node n with
                pool := (s.node n).pool.eraseIdx i
                busy := (s.node n).busy ++ [(m, r.2)] } with
          shared := r.1
          retired := if r.2 = [] then m :: s.retired else s.retired }
      else none
    | none => none
  | .send n i =>
    match (s.node n).busy[i]? with
    | some (m, p :: rest) =>
      if N.Room s p.1 then
        some ((s.set n { s.node n with busy := (s.node n).busy.set i (m, rest) }).put p.1
          (.work p.2))
      else none
    | _ => none
  | .finish n i =>
    match (s.node n).busy[i]? with
    | some (_, []) => some (s.set n { s.node n with busy := (s.node n).busy.eraseIdx i })
    | _ => none
  | .join n =>
    if (s.node n).stage = .draining ∧ (s.node n).pool = [] ∧ (s.node n).busy = [] then
      some (s.set n { s.node n with stage := .exited })
    else none
  | .relaunch n =>
    if (s.node n).stage = .exited then
      some { s.set n { box := (s.node n).box } with shared := N.fresh n s.shared }
    else none
  | .crash n =>
    if (s.node n).stage = .exited then none
    else some { s.set n { box := (s.node n).box, stage := .exited } with
      lost := (s.node n).held ++ s.lost }

/-! ## What a step does -/

/-- The effect of each event. -/
inductive StepSpec (N : Network ν μ σ χ ω) (s : State ν μ σ) :
    Event ν χ ω → State ν μ σ → Prop where
  | client (o : ω) :
      StepSpec N s (.client o) { s with
        shared := (N.client o s.shared).1
        outside := s.outside ++ (N.client o s.shared).2
        entered := (N.client o s.shared).2 ++ s.entered }
  | accepted {i : Nat} {n : ν} {mail : Mail μ} (hi : s.outside[i]? = some (n, mail))
      (hroom : N.Room s n) :
      StepSpec N s (.accept i) ({ s with outside := s.outside.eraseIdx i }.put n mail)
  | abandoned {i : Nat} {p : ν × Mail μ} (hi : s.outside[i]? = some p) :
      StepSpec N s (.abandon i) { s with
        outside := s.outside.eraseIdx i
        lost := p.2.message?.toList ++ s.lost }
  | posted {n : ν} {m : μ} {rest : List (Mail μ)} (hstage : (s.node n).stage = .receiving)
      (hbox : (s.node n).box = .work m :: rest) :
      StepSpec N s (.receive n)
        (s.set n { s.node n with box := rest, pool := (s.node n).pool ++ [m] })
  | halted {n : ν} {rest : List (Mail μ)} (hstage : (s.node n).stage = .receiving)
      (hbox : (s.node n).box = .halt :: rest) :
      StepSpec N s (.receive n) (s.set n { s.node n with box := rest, stage := .draining })
  | invoked {n : ν} {i : Nat} {c : χ} {m : μ} (hpool : (s.node n).pool[i]? = some m)
      (hthread : (s.node n).busy.length < N.threads n) :
      StepSpec N s (.invoke n i c)
        { s.set n { s.node n with
            pool := (s.node n).pool.eraseIdx i
            busy := (s.node n).busy ++ [(m, (N.handle n c s.shared m).2)] } with
          shared := (N.handle n c s.shared m).1
          retired := if (N.handle n c s.shared m).2 = [] then m :: s.retired else s.retired }
  | sent {n n' : ν} {i : Nat} {m m' : μ} {rest : List (ν × μ)}
      (hbusy : (s.node n).busy[i]? = some (m, (n', m') :: rest)) (hroom : N.Room s n') :
      StepSpec N s (.send n i)
        ((s.set n { s.node n with busy := (s.node n).busy.set i (m, rest) }).put n' (.work m'))
  | finished {n : ν} {i : Nat} {m : μ} (hbusy : (s.node n).busy[i]? = some (m, [])) :
      StepSpec N s (.finish n i)
        (s.set n { s.node n with busy := (s.node n).busy.eraseIdx i })
  | joined {n : ν} (hstage : (s.node n).stage = .draining) (hpool : (s.node n).pool = [])
      (hbusy : (s.node n).busy = []) :
      StepSpec N s (.join n) (s.set n { s.node n with stage := .exited })
  | relaunched {n : ν} (hstage : (s.node n).stage = .exited) :
      StepSpec N s (.relaunch n)
        { s.set n { box := (s.node n).box } with shared := N.fresh n s.shared }
  | crashed {n : ν} (hstage : (s.node n).stage ≠ .exited) :
      StepSpec N s (.crash n)
        { s.set n { box := (s.node n).box, stage := .exited } with
          lost := (s.node n).held ++ s.lost }

theorem step_spec {N : Network ν μ σ χ ω} {s s' : State ν μ σ} {e : Event ν χ ω}
    (h : N.step s e = some s') : StepSpec N s e s' := by
  cases e with
  | client o =>
    obtain rfl := Option.some.inj h
    exact .client o
  | accept i =>
    rw [step] at h
    split at h
    · next p hi =>
      obtain ⟨hroom, h⟩ := Option.ite_none_right_eq_some.mp h
      obtain rfl := Option.some.inj h
      exact .accepted hi hroom
    · cases h
  | abandon i =>
    obtain ⟨p, hi, rfl⟩ := Option.map_eq_some_iff.mp h
    exact .abandoned hi
  | receive n =>
    rw [step] at h
    split at h
    · next m rest hstage hbox =>
      obtain rfl := Option.some.inj h
      exact .posted hstage hbox
    · next rest hstage hbox =>
      obtain rfl := Option.some.inj h
      exact .halted hstage hbox
    · cases h
  | invoke n i c =>
    rw [step] at h
    split at h
    · next m hpool =>
      obtain ⟨hthread, h⟩ := Option.ite_none_right_eq_some.mp h
      obtain rfl := Option.some.inj h
      exact .invoked hpool hthread
    · cases h
  | send n i =>
    rw [step] at h
    split at h
    · next m p rest hbusy =>
      obtain ⟨hroom, h⟩ := Option.ite_none_right_eq_some.mp h
      obtain rfl := Option.some.inj h
      exact .sent hbusy hroom
    · cases h
  | finish n i =>
    rw [step] at h
    split at h
    · next m hbusy =>
      obtain rfl := Option.some.inj h
      exact .finished hbusy
    · cases h
  | join n =>
    obtain ⟨⟨hstage, hpool, hbusy⟩, h⟩ := Option.ite_none_right_eq_some.mp h
    obtain rfl := Option.some.inj h
    exact .joined hstage hpool hbusy
  | relaunch n =>
    obtain ⟨hstage, h⟩ := Option.ite_none_right_eq_some.mp h
    obtain rfl := Option.some.inj h
    exact .relaunched hstage
  | crash n =>
    obtain ⟨hstage, h⟩ := Option.ite_none_left_eq_some.mp h
    obtain rfl := Option.some.inj h
    exact .crashed hstage

section
variable {s : State ν μ σ} {n n' : ν}

@[simp] theorem set_self (node : Node ν μ) : (s.set n node).node n = node :=
  Function.update_self ..

theorem set_other (node : Node ν μ) (h : n' ≠ n) : (s.set n node).node n' = s.node n' :=
  Function.update_of_ne h ..

@[simp] theorem put_self (mail : Mail μ) :
    (s.put n mail).node n = { s.node n with box := (s.node n).box ++ [mail] } := set_self _

end

/-! ## Measures of what is in flight -/

/-- What a piece of mail is worth to a measure at each place it can be, and what an
occupied thread and the stage of a node are worth. -/
structure Measure (ν : Type u) (μ : Type v) (M : Type z) where
  outside : ν × Mail μ → M
  box : ν → Mail μ → M
  pool : ν → μ → M
  pending : ν × μ → M
  thread : M
  stage : Stage → M

section
variable {M : Type z} [AddCommMonoid M]

theorem sum_map_eraseIdx {α : Type v} {l : List α} {i : Nat} {a : α} (h : l[i]? = some a)
    (f : α → M) : ((l.eraseIdx i).map f).sum + f a = (l.map f).sum := by
  obtain ⟨hi, rfl⟩ := List.getElem?_eq_some_iff.mp h
  have hsum := ((List.getElem_cons_eraseIdx_perm hi).map f).sum_eq
  rw [List.map_cons, List.sum_cons, add_comm] at hsum
  exact hsum

theorem sum_map_set {α : Type v} {l : List α} {i : Nat} (hi : i < l.length) (b : α)
    (f : α → M) : ((l.set i b).map f).sum = ((l.eraseIdx i).map f).sum + f b := by
  have hset := ((List.set_perm_cons_eraseIdx hi b).map f).sum_eq
  rw [List.map_cons, List.sum_cons, add_comm] at hset
  exact hset

namespace Measure

variable (W : Measure ν μ M)

/-- What a node is worth. -/
def node (n : ν) (node : Node ν μ) : M :=
  (node.box.map (W.box n)).sum + (node.pool.map (W.pool n)).sum +
    (node.busy.map fun h => (h.2.map W.pending).sum + W.thread).sum + W.stage node.stage

variable [Fintype ν]

/-- What everything in flight is worth. -/
def total (s : State ν μ σ) : M := (s.outside.map W.outside).sum + ∑ n, W.node n (s.node n)

variable {W} {N : Network ν μ σ χ ω} {s : State ν μ σ} {n : ν} {m : μ} {i : Nat}

/-- What one node gains is what the network gains. -/
theorem total_set {node : Node ν μ} {x y : M} (h : W.node n node + x = W.node n (s.node n) + y) :
    W.total (s.set n node) + x = W.total s + y := by
  have hother : ∑ k ∈ Finset.univ.erase n, W.node k ((s.set n node).node k)
      = ∑ k ∈ Finset.univ.erase n, W.node k (s.node k) :=
    Finset.sum_congr rfl fun k hk => by rw [set_other node (Finset.ne_of_mem_erase hk)]
  rw [total, total, ← Finset.add_sum_erase _ _ (Finset.mem_univ n), hother,
    ← Finset.add_sum_erase _ (fun k => W.node k (s.node k)) (Finset.mem_univ n), set_self]
  show (s.outside.map W.outside).sum + (W.node n node + _) + x = _
  rw [add_assoc, add_right_comm (W.node n node), h, add_right_comm, ← add_assoc, ← add_assoc]

theorem total_put (mail : Mail μ) : W.total (s.put n mail) = W.total s + W.box n mail := by
  refine (add_zero _).symm.trans (total_set ?_)
  simp only [node, List.map_append, List.sum_append, List.map_cons, List.map_nil, List.sum_cons,
    List.sum_nil, add_zero]
  abel

omit [DecidableEq ν] in
theorem total_erase {p : ν × Mail μ} (hi : s.outside[i]? = some p) :
    W.total { s with outside := s.outside.eraseIdx i } + W.outside p = W.total s := by
  rw [total, total, add_right_comm, sum_map_eraseIdx hi]

theorem total_accepted {mail : Mail μ} (hi : s.outside[i]? = some (n, mail)) :
    W.total ({ s with outside := s.outside.eraseIdx i }.put n mail) + W.outside (n, mail)
      = W.total s + W.box n mail := by
  rw [total_put, add_right_comm, total_erase hi]

theorem total_posted {rest : List (Mail μ)} (hbox : (s.node n).box = .work m :: rest) :
    W.total (s.set n { s.node n with box := rest, pool := (s.node n).pool ++ [m] })
        + W.box n (.work m) = W.total s + W.pool n m := by
  refine total_set ?_
  simp only [node, hbox, List.map_append, List.sum_append, List.map_cons, List.map_nil,
    List.sum_cons, List.sum_nil, add_zero]
  abel

theorem total_halted {rest : List (Mail μ)} (hstage : (s.node n).stage = .receiving)
    (hbox : (s.node n).box = .halt :: rest) :
    W.total (s.set n { s.node n with box := rest, stage := .draining })
        + (W.box n .halt + W.stage .receiving) = W.total s + W.stage .draining := by
  refine total_set ?_
  simp only [node, hbox, hstage, List.map_cons, List.sum_cons]
  abel

theorem total_invoked (hpool : (s.node n).pool[i]? = some m) (outs : List (ν × μ)) :
    W.total (s.set n { s.node n with
        pool := (s.node n).pool.eraseIdx i
        busy := (s.node n).busy ++ [(m, outs)] }) + W.pool n m
      = W.total s + ((outs.map W.pending).sum + W.thread) := by
  refine total_set ?_
  simp only [node, ← sum_map_eraseIdx hpool (W.pool n), List.map_append, List.sum_append,
    List.map_cons, List.map_nil, List.sum_cons, List.sum_nil, add_zero]
  abel

theorem total_sent {n' : ν} {m' : μ} {rest : List (ν × μ)}
    (hbusy : (s.node n).busy[i]? = some (m, (n', m') :: rest)) :
    W.total ((s.set n { s.node n with busy := (s.node n).busy.set i (m, rest) }).put n'
        (.work m')) + W.pending (n', m') = W.total s + W.box n' (.work m') := by
  have hset : W.total (s.set n { s.node n with busy := (s.node n).busy.set i (m, rest) })
      + W.pending (n', m') = W.total s + 0 := by
    refine total_set ?_
    obtain ⟨hi, -⟩ := List.getElem?_eq_some_iff.mp hbusy
    have hsum := sum_map_eraseIdx hbusy fun h => (h.2.map W.pending).sum + W.thread
    simp only [List.map_cons, List.sum_cons] at hsum
    simp only [node, ← hsum, sum_map_set hi]
    abel
  rw [total_put, add_right_comm, hset, add_zero]

theorem total_finished (hbusy : (s.node n).busy[i]? = some (m, [])) :
    W.total (s.set n { s.node n with busy := (s.node n).busy.eraseIdx i }) + W.thread
      = W.total s := by
  refine (total_set (y := 0) ?_).trans (add_zero _)
  have hsum := sum_map_eraseIdx hbusy fun h => (h.2.map W.pending).sum + W.thread
  simp only [List.map_nil, List.sum_nil, zero_add] at hsum
  simp only [node, ← hsum]
  abel

/-- A process that is replaced takes with it what it had posted and started. -/
theorem total_replaced (stage : Stage) :
    W.total (s.set n { box := (s.node n).box, stage := stage })
        + (((s.node n).pool.map (W.pool n)).sum +
          ((s.node n).busy.map fun h => (h.2.map W.pending).sum + W.thread).sum +
          W.stage (s.node n).stage)
      = W.total s + W.stage stage := by
  refine total_set ?_
  simp only [node, List.map_nil, List.sum_nil, add_zero]
  abel

theorem total_stage (stage : Stage) :
    W.total (s.set n { s.node n with stage := stage }) + W.stage (s.node n).stage
      = W.total s + W.stage stage := by
  refine total_set ?_
  simp only [node]
  abel

end Measure

end

variable {N : Network ν μ σ χ ω} {s s' : State ν μ σ} {e : Event ν χ ω}

/-! ## What holds in every state -/

/-- Mailboxes and thread pools are not overfull, and a process that has exited has
nothing left to do. -/
structure Within (N : Network ν μ σ χ ω) (s : State ν μ σ) : Prop where
  box : ∀ n, (s.node n).box.length ≤ N.capacity n
  busy : ∀ n, (s.node n).busy.length ≤ N.threads n
  exited : ∀ n, (s.node n).stage = .exited → (s.node n).pool = [] ∧ (s.node n).busy = []

theorem Within.set (h : N.Within s) {n : ν} {node : Node ν μ}
    (hbox : node.box.length ≤ N.capacity n) (hbusy : node.busy.length ≤ N.threads n)
    (hexited : node.stage = .exited → node.pool = [] ∧ node.busy = []) :
    N.Within (s.set n node) := by
  have hall : ∀ k, ((s.set n node).node k).box.length ≤ N.capacity k ∧
      ((s.set n node).node k).busy.length ≤ N.threads k ∧
      (((s.set n node).node k).stage = .exited →
        ((s.set n node).node k).pool = [] ∧ ((s.set n node).node k).busy = []) := by
    intro k
    by_cases hk : k = n
    · subst hk
      rw [set_self]
      exact ⟨hbox, hbusy, hexited⟩
    · rw [set_other _ hk]
      exact ⟨h.box k, h.busy k, h.exited k⟩
  exact ⟨fun k => (hall k).1, fun k => (hall k).2.1, fun k => (hall k).2.2⟩

omit [DecidableEq ν] in
theorem Within.congr (h : N.Within s) (hnode : s'.node = s.node) : N.Within s' := by
  obtain ⟨hbox, hbusy, hexited⟩ := h
  rw [← hnode] at hbox hbusy hexited
  exact ⟨hbox, hbusy, hexited⟩

theorem Within.put (h : N.Within s) {n : ν} (mail : Mail μ) (hroom : N.Room s n) :
    N.Within (s.put n mail) := by
  refine h.set ?_ (h.busy n) (h.exited n)
  rw [List.length_append, List.length_singleton]
  exact hroom

theorem within_step (h : N.Within s) (hs : N.step s e = some s') : N.Within s' := by
  cases step_spec hs with
  | client o => exact ⟨h.box, h.busy, h.exited⟩
  | @accepted i n mail hi hroom =>
    have h' : N.Within { s with outside := s.outside.eraseIdx i } := ⟨h.box, h.busy, h.exited⟩
    exact h'.put mail hroom
  | abandoned hi => exact ⟨h.box, h.busy, h.exited⟩
  | @posted n m rest hstage hbox =>
    refine h.set ?_ (h.busy n) fun hx => ?_
    · have hlen := h.box n
      rw [hbox, List.length_cons] at hlen
      exact Nat.le_of_succ_le hlen
    · have hx' : (s.node n).stage = .exited := hx
      rw [hstage] at hx'
      cases hx'
  | @halted n rest hstage hbox =>
    refine h.set ?_ (h.busy n) fun hx => (nomatch hx)
    have hlen := h.box n
    rw [hbox, List.length_cons] at hlen
    exact Nat.le_of_succ_le hlen
  | @invoked n i c m hpool hthread =>
    have h' : N.Within (s.set n { s.node n with
        pool := (s.node n).pool.eraseIdx i
        busy := (s.node n).busy ++ [(m, (N.handle n c s.shared m).2)] }) := by
      refine h.set (h.box n) ?_ fun hx => ?_
      · rw [List.length_append, List.length_singleton]
        exact hthread
      · rw [(h.exited n hx).1] at hpool
        cases hpool
    exact h'.congr rfl
  | @sent n n' i m m' rest hbusy hroom =>
    have h' : N.Within (s.set n { s.node n with busy := (s.node n).busy.set i (m, rest) }) := by
      refine h.set (h.box n) ?_ fun hx => ?_
      · rw [List.length_set]
        exact h.busy n
      · rw [(h.exited n hx).2] at hbusy
        cases hbusy
    refine h'.put _ ?_
    -- only the thread of the sender has changed
    unfold Room at hroom ⊢
    by_cases hn : n' = n
    · subst hn
      rwa [set_self]
    · rwa [set_other _ hn]
  | @finished n i m hbusy =>
    refine h.set (h.box n) ?_ fun hx => ?_
    · exact Nat.le_trans (List.length_eraseIdx_le ..) (h.busy n)
    · rw [(h.exited n hx).2] at hbusy
      cases hbusy
  | @joined n hstage hpool hbusy =>
    exact h.set (h.box n) (h.busy n) fun _ => ⟨hpool, hbusy⟩
  | @relaunched n hstage =>
    have h' : N.Within (s.set n { box := (s.node n).box }) :=
      h.set (h.box n) (Nat.zero_le _) fun hx => (nomatch hx)
    exact h'.congr rfl
  | @crashed n hstage =>
    have h' : N.Within (s.set n { box := (s.node n).box, stage := .exited }) :=
      h.set (h.box n) (Nat.zero_le _) fun _ => ⟨rfl, rfl⟩
    exact h'.congr rfl

/-- Every message in the hands of a node satisfies `ok`, and so does every message its
handlers have still to send. -/
structure Node.Everywhere (ok : ν → μ → Prop) (n : ν) (node : Node ν μ) : Prop where
  box : ∀ m, .work m ∈ node.box → ok n m
  pool : ∀ m ∈ node.pool, ok n m
  pending : ∀ h ∈ node.busy, ∀ p ∈ h.2, ok p.1 p.2

/-- Every message on its way satisfies `ok` at the node it is for. -/
structure Everywhere (ok : ν → μ → Prop) (s : State ν μ σ) : Prop where
  outside : ∀ n m, (n, .work m) ∈ s.outside → ok n m
  node : ∀ n, (s.node n).Everywhere ok n

/-- Clients send what satisfies `ok`, and handlers do so for a message that does. -/
structure Keeps (N : Network ν μ σ χ ω) (ok : ν → μ → Prop) : Prop where
  client : ∀ o shared n m, (n, .work m) ∈ (N.client o shared).2 → ok n m
  handle : ∀ n c shared m, ok n m → ∀ p ∈ (N.handle n c shared m).2, ok p.1 p.2

variable {ok : ν → μ → Prop}

theorem Everywhere.set (h : Everywhere ok s) {n : ν} {node : Node ν μ}
    (hnode : node.Everywhere ok n) : Everywhere ok (s.set n node) := by
  refine ⟨h.outside, fun k => ?_⟩
  by_cases hk : k = n
  · subst hk
    rwa [set_self]
  · rw [set_other _ hk]
    exact h.node k

omit [DecidableEq ν] in
theorem Everywhere.congr (h : Everywhere ok s) (houtside : s'.outside = s.outside)
    (hnode : s'.node = s.node) : Everywhere ok s' := by
  obtain ⟨hall, hnodes⟩ := h
  rw [← houtside] at hall
  rw [← hnode] at hnodes
  exact ⟨hall, hnodes⟩

theorem Everywhere.put (h : Everywhere ok s) {n : ν} {mail : Mail μ}
    (hmail : ∀ m, mail = .work m → ok n m) : Everywhere ok (s.put n mail) := by
  refine h.set ⟨fun m hm => ?_, (h.node n).pool, (h.node n).pending⟩
  rcases List.mem_append.mp hm with hm | hm
  · exact (h.node n).box m hm
  · exact hmail m (List.mem_singleton.mp hm).symm

/-- A property of all messages survives a step when what the step adds has it. -/
theorem everywhere_step_of
    (hclient : ∀ o n m, e = .client o → (n, .work m) ∈ (N.client o s.shared).2 → ok n m)
    (hinvoke : ∀ n i c m, e = .invoke n i c → ok n m →
      ∀ p ∈ (N.handle n c s.shared m).2, ok p.1 p.2)
    (h : Everywhere ok s) (hs : N.step s e = some s') : Everywhere ok s' := by
  cases step_spec hs with
  | client o =>
    refine ⟨fun n m hm => ?_, h.node⟩
    rcases List.mem_append.mp hm with hm | hm
    · exact h.outside n m hm
    · exact hclient o n m rfl hm
  | @accepted i n mail hi hroom =>
    have hmem : (n, mail) ∈ s.outside := List.mem_of_getElem? hi
    have h' : Everywhere ok { s with outside := s.outside.eraseIdx i } :=
      ⟨fun k m hm => h.outside k m (List.mem_of_mem_eraseIdx hm), h.node⟩
    refine h'.put fun m hm => h.outside n m ?_
    rwa [← hm]
  | @abandoned i p hi =>
    exact ⟨fun k m hm => h.outside k m (List.mem_of_mem_eraseIdx hm), h.node⟩
  | @posted n m rest hstage hbox =>
    have hold := (h.node n).box
    rw [hbox] at hold
    refine h.set ⟨fun m' hm => hold m' (List.mem_cons_of_mem _ hm), fun m' hm => ?_,
      (h.node n).pending⟩
    rcases List.mem_append.mp hm with hm | hm
    · exact (h.node n).pool m' hm
    · rw [List.mem_singleton.mp hm]
      exact hold m List.mem_cons_self
  | @halted n rest hstage hbox =>
    have hold := (h.node n).box
    rw [hbox] at hold
    exact h.set ⟨fun m' hm => hold m' (List.mem_cons_of_mem _ hm), (h.node n).pool,
      (h.node n).pending⟩
  | @invoked n i c m hpool hthread =>
    have hm : ok n m := (h.node n).pool m (List.mem_of_getElem? hpool)
    have h' : Everywhere ok (s.set n { s.node n with
        pool := (s.node n).pool.eraseIdx i
        busy := (s.node n).busy ++ [(m, (N.handle n c s.shared m).2)] }) := by
      refine h.set ⟨(h.node n).box, fun m' hm' =>
        (h.node n).pool m' (List.mem_of_mem_eraseIdx hm'), fun t ht p hp => ?_⟩
      rcases List.mem_append.mp ht with ht | ht
      · exact (h.node n).pending t ht p hp
      · rw [List.mem_singleton.mp ht] at hp
        exact hinvoke n i c m rfl hm p hp
    exact h'.congr rfl rfl
  | @sent n n' i m m' rest hbusy hroom =>
    have hmem := List.mem_of_getElem? hbusy
    have h' : Everywhere ok
        (s.set n { s.node n with busy := (s.node n).busy.set i (m, rest) }) := by
      refine h.set ⟨(h.node n).box, (h.node n).pool, fun t ht p hp => ?_⟩
      rcases List.mem_or_eq_of_mem_set ht with ht | rfl
      · exact (h.node n).pending t ht p hp
      · exact (h.node n).pending _ hmem p (List.mem_cons_of_mem _ hp)
    refine h'.put fun m'' hm => ?_
    cases hm
    exact (h.node n).pending _ hmem (n', m') List.mem_cons_self
  | @finished n i m hbusy =>
    exact h.set ⟨(h.node n).box, (h.node n).pool, fun t ht =>
      (h.node n).pending t (List.mem_of_mem_eraseIdx ht)⟩
  | @joined n hstage hpool hbusy =>
    exact h.set ⟨(h.node n).box, (h.node n).pool, (h.node n).pending⟩
  | @relaunched n hstage =>
    have h' : Everywhere ok (s.set n { box := (s.node n).box }) :=
      h.set ⟨(h.node n).box, fun _ hm => (nomatch hm), fun _ ht => (nomatch ht)⟩
    exact h'.congr rfl rfl
  | @crashed n hstage =>
    have h' : Everywhere ok (s.set n { box := (s.node n).box, stage := .exited }) :=
      h.set ⟨(h.node n).box, fun _ hm => (nomatch hm), fun _ ht => (nomatch ht)⟩
    exact h'.congr rfl rfl

/-- **A property of all messages** survives every step, also full mailboxes, stops,
kills and launches. -/
theorem everywhere_step (hk : N.Keeps ok) (h : Everywhere ok s) (hs : N.step s e = some s') :
    Everywhere ok s' :=
  everywhere_step_of (fun o n m _ => hk.client o s.shared n m)
    (fun n _ c m _ => hk.handle n c s.shared m) h hs

/-- Every handler that is under way, with what it has still to send, satisfies `Q`. -/
def Begun (Q : ν → μ → List (ν × μ) → Prop) (s : State ν μ σ) : Prop :=
  ∀ n, ∀ h ∈ (s.node n).busy, Q n h.1 h.2

variable {Q : ν → μ → List (ν × μ) → Prop}

theorem Begun.set (h : Begun Q s) {n : ν} {node : Node ν μ} (hnode : ∀ h ∈ node.busy, Q n h.1 h.2) :
    Begun Q (s.set n node) := by
  intro k
  by_cases hk : k = n
  · subst hk
    rwa [set_self]
  · rw [set_other _ hk]
    exact h k

/-- **A property of all handlers under way**: it holds when a handler begins, and after
it has sent a message. -/
theorem begun_step (hinvoke : ∀ n i c m, e = .invoke n i c → (s.node n).pool[i]? = some m →
      Q n m (N.handle n c s.shared m).2)
    (hsend : ∀ n m p rest, Q n m (p :: rest) → Q n m rest) (h : Begun Q s)
    (hs : N.step s e = some s') : Begun Q s' := by
  cases step_spec hs with
  | client | abandoned => exact h
  | accepted hi hroom => exact Begun.set (s := { s with outside := _ }) h (h _)
  | posted | halted | joined => exact h.set (h _)
  | @invoked n i c m hpool hthread =>
    refine h.set fun t ht => ?_
    rcases List.mem_append.mp ht with ht | ht
    · exact h n t ht
    · rw [List.mem_singleton.mp ht]
      exact hinvoke n i c m rfl hpool
  | @sent n n' i m m' rest hbusy hroom =>
    have hset : Begun Q (s.set n { s.node n with busy := (s.node n).busy.set i (m, rest) }) := by
      refine h.set fun t ht => ?_
      rcases List.mem_or_eq_of_mem_set ht with ht | rfl
      · exact h n t ht
      · exact hsend n m _ rest (h n _ (List.mem_of_getElem? hbusy))
    exact hset.set (hset n')
  | @finished n i m hbusy => exact h.set fun t ht => h n t (List.mem_of_mem_eraseIdx ht)
  | relaunched | crashed => exact h.set fun t ht => (nomatch ht)

end Network

end Lib
