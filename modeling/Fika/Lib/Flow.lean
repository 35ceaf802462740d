import Mathlib.Algebra.Order.Group.Multiset
import Fika.Lib.Ledger
import Fika.Lib.Mailboxes

/-!
# How mail flows through a network of bounded mailboxes

- `Stuck`, `stuck_iff`: where nothing can go on by itself; `Stuck.blocked`: every
  send then waits for the full mailbox of a node that has stopped receiving, so a
  network whose nodes all receive is never stuck while there is work
  (`Stuck.quiet`).
- `Pays`, `Everywhere.rests`: when a handler sends less than it was given, the network
  comes to rest in a bounded number of steps, whatever the order; `run_fare`: in any
  run, the steps of the nodes are paid for by what clients have sent.
- `Passes`, `ledger_step`: when a handler sends at most one message, under the key of
  the one it handles, then every key that has entered is on its way, retired or lost,
  in as many copies as it has entered.
- `Records`, `records_step`: what the shared data say of the history.
-/

namespace Lib

universe u v w x y z

namespace Network

variable {ν : Type u} {μ : Type v} {σ : Type w} {χ : Type x} {ω : Type y} [DecidableEq ν]
  {N : Network ν μ σ χ ω} {s s' : State ν μ σ} {e : Event ν χ ω} {ok : ν → μ → Prop}

/-! ## Where nothing can go on -/

/-- No internal event is enabled. -/
def Stuck (N : Network ν μ σ χ ω) (s : State ν μ σ) : Prop :=
  ∀ e : Event ν χ ω, e.internal = true → N.step s e = none

/-- A node with nothing to do before somebody else moves. -/
structure Node.Waits (N : Network ν μ σ χ ω) (s : State ν μ σ) (n : ν) : Prop where
  receiving : (s.node n).stage = .receiving → (s.node n).box = []
  pool : (s.node n).pool = [] ∨ N.threads n ≤ (s.node n).busy.length
  busy : ∀ h ∈ (s.node n).busy, ∃ p rest, h.2 = p :: rest ∧ ¬ N.Room s p.1
  draining : (s.node n).stage = .draining → (s.node n).pool ≠ [] ∨ (s.node n).busy ≠ []

theorem Stuck.waits [Nonempty χ] (h : N.Stuck s) (n : ν) : Node.Waits N s n where
  receiving hstage := by
    cases hbox : (s.node n).box with
    | nil => rfl
    | cons mail rest =>
      have hnone := h (.receive n) rfl
      cases mail <;> simp only [step, hstage, hbox, reduceCtorEq] at hnone
  pool := by
    cases hpool : (s.node n).pool with
    | nil => exact .inl rfl
    | cons m rest =>
      obtain ⟨c⟩ := ‹Nonempty χ›
      have hnone := h (.invoke n 0 c) rfl
      simp only [step, hpool, List.getElem?_cons_zero, ite_eq_right_iff, reduceCtorEq,
        imp_false, Nat.not_lt] at hnone
      exact .inr hnone
  busy t ht := by
    obtain ⟨m, pending⟩ := t
    obtain ⟨i, hi⟩ := List.mem_iff_getElem?.mp ht
    cases pending with
    | nil =>
      have hnone := h (.finish n i) rfl
      simp only [step, hi, reduceCtorEq] at hnone
    | cons p rest =>
      refine ⟨p, rest, rfl, fun hroom => ?_⟩
      have hnone := h (.send n i) rfl
      simp only [step, hi, if_pos hroom, reduceCtorEq] at hnone
  draining hstage := by
    have hnone := h (.join n) rfl
    simp only [step, hstage, true_and, ite_eq_right_iff, reduceCtorEq, imp_false,
      not_and_or] at hnone
    exact hnone

/-- **Where nothing can go on**: the waiting clients have no room, and every node
waits. -/
theorem stuck_iff [Nonempty χ] :
    N.Stuck s ↔ (∀ p ∈ s.outside, ¬ N.Room s p.1) ∧ ∀ n, Node.Waits N s n := by
  constructor
  · refine fun h => ⟨fun p hp hroom => ?_, h.waits⟩
    obtain ⟨i, hi⟩ := List.mem_iff_getElem?.mp hp
    have hnone := h (.accept i) rfl
    simp only [step, hi, if_pos hroom, reduceCtorEq] at hnone
  · rintro ⟨hout, hwaits⟩ e he
    refine Option.eq_none_iff_forall_ne_some.mpr fun s' hs => ?_
    cases step_spec hs with
    | client o => cases he
    | accepted hi hroom => exact hout _ (List.mem_of_getElem? hi) hroom
    | abandoned hi => cases he
    | @posted n m rest hstage hbox =>
      rw [(hwaits n).receiving hstage] at hbox
      cases hbox
    | @halted n rest hstage hbox =>
      rw [(hwaits n).receiving hstage] at hbox
      cases hbox
    | @invoked n i c m hpool hthread =>
      rcases (hwaits n).pool with hempty | hfull
      · rw [hempty] at hpool
        cases hpool
      · exact absurd hthread (Nat.not_lt.mpr hfull)
    | @sent n n' i m m' rest hbusy hroom =>
      obtain ⟨p, rest', heq, hno⟩ := (hwaits n).busy _ (List.mem_of_getElem? hbusy)
      cases heq
      exact hno hroom
    | @finished n i m hbusy =>
      obtain ⟨p, rest', heq, -⟩ := (hwaits n).busy _ (List.mem_of_getElem? hbusy)
      cases heq
    | @joined n hstage hpool hbusy =>
      rcases (hwaits n).draining hstage with h | h
      · exact h hpool
      · exact h hbusy
    | relaunched hstage => cases he
    | crashed hstage => cases he

/-- A mailbox that has stopped being emptied and is full. -/
structure Clogged (N : Network ν μ σ χ ω) (s : State ν μ σ) (n : ν) : Prop where
  stage : (s.node n).stage ≠ .receiving
  full : N.capacity n ≤ (s.node n).box.length

theorem Stuck.clogged [Nonempty χ] (h : N.Stuck s) (hcap : ∀ n, 0 < N.capacity n) {n : ν}
    (hroom : ¬ N.Room s n) : Clogged N s n where
  full := Nat.not_lt.mp hroom
  stage hstage := by
    refine hroom ?_
    unfold Room
    rw [(h.waits n).receiving hstage]
    exact hcap n

/-- Nothing is on its way. -/
structure Quiet (s : State ν μ σ) : Prop where
  outside : s.outside = []
  node : ∀ n, (s.node n).box = [] ∧ (s.node n).pool = [] ∧ (s.node n).busy = []

/-- **Only a stopped node can block a network**: where nothing can go on, each waiting
client and each handler that has begun to send waits for a full mailbox of a node
that has stopped receiving. -/
theorem Stuck.blocked [Nonempty χ] (h : N.Stuck s) (hcap : ∀ n, 0 < N.capacity n) :
    (∀ p ∈ s.outside, Clogged N s p.1) ∧
    ∀ n, ∀ t ∈ (s.node n).busy, ∃ p rest, t.2 = p :: rest ∧ Clogged N s p.1 := by
  refine ⟨fun p hp => h.clogged hcap ((stuck_iff.mp h).1 p hp), fun n t ht => ?_⟩
  obtain ⟨p, rest, heq, hno⟩ := (h.waits n).busy t ht
  exact ⟨p, rest, heq, h.clogged hcap hno⟩

/-- **No deadlock on full mailboxes**: a network whose nodes all receive stands still
only when nothing is on its way. -/
theorem Stuck.quiet [Nonempty χ] (h : N.Stuck s) (hcap : ∀ n, 0 < N.capacity n)
    (hthreads : ∀ n, 0 < N.threads n) (hall : ∀ n, (s.node n).stage = .receiving) :
    Quiet s := by
  obtain ⟨hout, hsend⟩ := h.blocked hcap
  have hbusy : ∀ n, (s.node n).busy = [] := fun n => by
    refine List.eq_nil_iff_forall_not_mem.mpr fun t ht => ?_
    obtain ⟨p, rest, -, hclogged⟩ := hsend n t ht
    exact hclogged.stage (hall p.1)
  refine ⟨List.eq_nil_iff_forall_not_mem.mpr fun p hp => (hout p hp).stage (hall p.1),
    fun n => ⟨(h.waits n).receiving (hall n), ?_, hbusy n⟩⟩
  rcases (h.waits n).pool with hpool | hfull
  · exact hpool
  · rw [hbusy n] at hfull
    exact absurd (hthreads n) (Nat.not_lt.mpr hfull)

/-- With nothing on its way, nodes that receive have nothing to do. -/
theorem Quiet.stuck [Nonempty χ] (h : Quiet s) (hall : ∀ n, (s.node n).stage = .receiving) :
    N.Stuck s := by
  refine stuck_iff.mpr ⟨fun p hp => ?_, fun n => ⟨fun _ => (h.node n).1, .inl (h.node n).2.1,
    fun t ht => ?_, fun hstage => ?_⟩⟩
  · rw [h.outside] at hp
    cases hp
  · rw [(h.node n).2.2] at ht
    cases ht
  · rw [hall n] at hstage
    cases hstage

/-! ## Coming to rest -/

/-- Every message has a weight, and handlers send less than they are given. -/
structure Pays (N : Network ν μ σ χ ω) (ok : ν → μ → Prop) (w : ν → μ → Nat) : Prop where
  pos : ∀ n m, ok n m → 0 < w n m
  handle : ∀ n c shared m, ok n m →
    ((N.handle n c shared m).2.map fun p => w p.1 p.2).sum < w n m

/-- A price from which every step can be paid: four steps for each handler a message
is good for, three for a notice to stop. -/
def price (w : ν → μ → Nat) : Measure ν μ Nat where
  outside p := match p.2 with
    | .work m => 4 * w p.1 m
    | .halt => 3
  box n mail := match mail with
    | .work m => 4 * w n m - 1
    | .halt => 2
  pool n m := 4 * w n m - 2
  pending p := 4 * w p.1 p.2
  thread := 1
  stage
    | .draining => 1
    | _ => 0

omit [DecidableEq ν] in
theorem sum_pending (w : ν → μ → Nat) (outs : List (ν × μ)) :
    (outs.map (price w).pending).sum = 4 * (outs.map fun p => w p.1 p.2).sum := by
  induction outs with
  | nil => rfl
  | cons p rest ih =>
    rw [List.map_cons, List.map_cons, List.sum_cons, List.sum_cons, ih, Nat.mul_add]
    rfl

/-- Every internal step is paid for. -/
theorem price_step [Fintype ν] {w : ν → μ → Nat} (hp : N.Pays ok w) (h : Everywhere ok s)
    (he : e.internal = true) (hs : N.step s e = some s') :
    (price w).total s' + 1 ≤ (price w).total s := by
  cases step_spec hs with
  | client o => cases he
  | abandoned hi => cases he
  | relaunched hstage => cases he
  | crashed hstage => cases he
  | @accepted i n mail hi hroom =>
    have hsum := Measure.total_accepted (W := price w) hi
    cases mail with
    | halt =>
      change _ + 3 = _ + 2 at hsum
      omega
    | work m =>
      have hpos := hp.pos n m (h.outside n m (List.mem_of_getElem? hi))
      change _ + 4 * w n m = _ + (4 * w n m - 1) at hsum
      omega
  | @posted n m rest hstage hbox =>
    have hpos := hp.pos n m ((h.node n).box m (hbox ▸ List.mem_cons_self))
    have hsum := Measure.total_posted (W := price w) hbox
    change _ + (4 * w n m - 1) = _ + (4 * w n m - 2) at hsum
    omega
  | @halted n rest hstage hbox =>
    have hsum := Measure.total_halted (W := price w) hstage hbox
    change _ + (2 + 0) = _ + 1 at hsum
    omega
  | @invoked n i c m hpool hthread =>
    have hpaid := hp.handle n c s.shared m ((h.node n).pool m (List.mem_of_getElem? hpool))
    have hsum := Measure.total_invoked (W := price w) hpool (N.handle n c s.shared m).2
    rw [sum_pending] at hsum
    change _ + (4 * w n m - 2) = _ + (_ + 1) at hsum
    show (price w).total (s.set n _) + 1 ≤ _
    omega
  | @sent n n' i m m' rest hbusy hroom =>
    have hpos := hp.pos n' m'
      ((h.node n).pending _ (List.mem_of_getElem? hbusy) (n', m') List.mem_cons_self)
    have hsum := Measure.total_sent (W := price w) hbusy
    change _ + 4 * w n' m' = _ + (4 * w n' m' - 1) at hsum
    omega
  | @finished n i m hbusy =>
    have hsum := Measure.total_finished (W := price w) hbusy
    change _ + 1 = _ at hsum
    omega
  | @joined n hstage hpool hbusy =>
    have hsum := Measure.total_stage (W := price w) (s := s) (n := n) .exited
    rw [hstage] at hsum
    change _ + 1 = _ + 0 at hsum
    omega

/-- **The network comes to rest**: a run of internal events is no longer than the
price of what is in flight, and can be continued until nothing can go on. -/
theorem Everywhere.rests [Fintype ν] {w : ν → μ → Nat} (h : Everywhere ok s) (hk : N.Keeps ok)
    (hp : N.Pays ok w) {es : List (Event ν χ ω)} {t : State ν μ σ} 
    (hes : ∀ e ∈ es, e.internal = true)
    (hrun : run N.step s es = some t) :
    es.length + (price w).total t ≤ (price w).total s ∧
      ∃ more u, (∀ e ∈ more, Event.internal e = true) ∧ run N.step t more = some u ∧ N.Stuck u := by
  have hpay : ∀ {a b : State ν μ σ} {e : Event ν χ ω}, Everywhere ok a → e.internal = true →
      N.step a e = some b → Everywhere ok b ∧ (price w).total b + 1 ≤ (price w).total a :=
    fun ha he hs => ⟨everywhere_step hk ha hs, price_step hp ha he hs⟩
  have hpotential := run_potential hpay h hes hrun
  refine ⟨?_, run_completes (φ := (price w).total) (fun {a} ha hnot => ?_) hpotential.1⟩
  · have hpaid := hpotential.2
    rw [List.map_const', List.sum_replicate_nat, Nat.mul_one] at hpaid
    omega
  · simp only [Stuck, not_forall] at hnot
    obtain ⟨e, he, hsome⟩ := hnot
    obtain ⟨b, hb⟩ := Option.ne_none_iff_exists'.mp hsome
    exact ⟨e, b, he, hb, everywhere_step hk ha hb, price_step hp ha he hb⟩

/-- What clients have paid for what they have sent. -/
def fare (w : ν → μ → Nat) (s : State ν μ σ) : Nat := (s.entered.map (price w).outside).sum

/-- Every step is paid for by what is in flight or by the client that takes it. -/
theorem fare_step [Fintype ν] {w : ν → μ → Nat} (hp : N.Pays ok w) (h : Everywhere ok s)
    (hs : N.step s e = some s') :
    (price w).total s' + (if e.internal then 1 else 0) + fare w s
      ≤ (price w).total s + fare w s' := by
  cases hint : e.internal with
  | true =>
    have hpaid := price_step hp h hint hs
    have hfare : fare w s' = fare w s := by
      cases step_spec hs with
      | client o | abandoned hi | relaunched hstage | crashed hstage => cases hint
      | _ => rfl
    rw [hfare, if_pos rfl]
    omega
  | false =>
    rw [if_neg Bool.false_ne_true]
    cases step_spec hs with
    | accepted | posted | halted | invoked | sent | finished | joined => cases hint
    | client o =>
      have hfare : fare w { s with
            shared := (N.client o s.shared).1
            outside := s.outside ++ (N.client o s.shared).2
            entered := (N.client o s.shared).2 ++ s.entered }
          = ((N.client o s.shared).2.map (price w).outside).sum + fare w s := by
        show (((N.client o s.shared).2 ++ s.entered).map _).sum = _
        rw [List.map_append, List.sum_append]
        rfl
      have htotal : (price w).total { s with
            shared := (N.client o s.shared).1
            outside := s.outside ++ (N.client o s.shared).2
            entered := (N.client o s.shared).2 ++ s.entered }
          = (price w).total s + ((N.client o s.shared).2.map (price w).outside).sum := by
        show ((s.outside ++ (N.client o s.shared).2).map _).sum + _ = _
        rw [List.map_append, List.sum_append, Nat.add_right_comm]
        rfl
      rw [hfare, htotal]
      omega
    | @abandoned i p hi =>
      have hsum := Measure.total_erase (W := price w) hi
      show (price w).total { s with outside := s.outside.eraseIdx i } + 0 + fare w s ≤ _ + fare w s
      omega
    | @relaunched n hstage =>
      have hsum := Measure.total_replaced (W := price w) (s := s) (n := n) .receiving
      change _ + _ = _ + 0 at hsum
      show (price w).total (s.set n { box := (s.node n).box }) + 0 + fare w s ≤ _ + fare w s
      omega
    | @crashed n hstage =>
      have hsum := Measure.total_replaced (W := price w) (s := s) (n := n) .exited
      change _ + _ = _ + 0 at hsum
      show (price w).total (s.set n { box := (s.node n).box, stage := .exited }) + 0 + fare w s
        ≤ _ + fare w s
      omega

/-- **The work of any run is paid for by its clients**, whatever is killed, launched
again or given up on the way. -/
theorem run_fare [Fintype ν] {w : ν → μ → Nat} (hk : N.Keeps ok) (hp : N.Pays ok w) :
    ∀ {es : List (Event ν χ ω)} {s t : State ν μ σ}, Everywhere ok s →
      run N.step s es = some t →
      (price w).total t + es.countP Event.internal + fare w s ≤ (price w).total s + fare w t
  | [], s, t, _, hrun => by
    obtain rfl : s = t := Option.some.inj hrun
    exact Nat.le_refl _
  | e :: es, s, t, h, hrun => by
    obtain ⟨s', hs, hrest⟩ := Option.bind_eq_some_iff.mp hrun
    have hstep := fare_step hp h hs
    have hall := run_fare hk hp (everywhere_step hk h hs) hrest
    rw [List.countP_cons]
    omega

/-! ## Accounting -/

variable {κ : Type z} {key : μ → κ}

/-- The keys of a piece of mail: that of its message, if it has one. -/
def mailKeys (key : μ → κ) (mail : Mail μ) : Multiset κ := (mail.message?.toList.map key : List κ)

/-- The keys on their way. -/
def custody (key : μ → κ) : Measure ν μ (Multiset κ) where
  outside p := mailKeys key p.2
  box _ mail := mailKeys key mail
  pool _ m := {key m}
  pending p := {key p.2}
  thread := 0
  stage _ := 0

/-- A handler sends at most one message, under the key of the one it handles. -/
structure Passes (N : Network ν μ σ χ ω) (ok : ν → μ → Prop) (key : μ → κ) : Prop where
  handle : ∀ n c shared m, ok n m → (N.handle n c shared m).2 = [] ∨
    ∃ p, (N.handle n c shared m).2 = [p] ∧ key p.2 = key m

/-- What clients have sent, as a ledger: a key is on its way, or it was retired by a
handler that sent nothing, or lost. -/
def ledger [Fintype ν] (key : μ → κ) (s : State ν μ σ) : Ledger κ where
  minted := (s.entered.map fun p => mailKeys key p.2).sum
  custody := (custody key).total s
  retired := (s.retired.map key : List κ) + (s.lost.map key : List κ)

omit [DecidableEq ν] in
theorem sum_singletons {α : Type v} (f : α → κ) (l : List α) :
    (l.map fun a => ({f a} : Multiset κ)).sum = (l.map f : List κ) := by
  induction l with
  | nil => rfl
  | cons a rest ih =>
    rw [List.map_cons, List.sum_cons, ih, Multiset.singleton_add]
    rfl

omit [DecidableEq ν] in
theorem custody_busy (busy : List (μ × List (ν × μ))) :
    (busy.map fun h => (h.2.map (custody key : Measure ν μ _).pending).sum +
        (custody key : Measure ν μ _).thread).sum
      = ((busy.flatMap fun h => h.2.map Prod.snd).map key : List κ) := by
  induction busy with
  | nil => rfl
  | cons h rest ih =>
    have hhead : (h.2.map (custody key).pending).sum = ((h.2.map Prod.snd).map key : List κ) := by
      rw [List.map_map]
      exact sum_singletons (fun p => key p.2) h.2
    rw [List.map_cons, List.sum_cons, ih, hhead, List.flatMap_cons, List.map_append,
      ← Multiset.coe_add]
    exact congrArg (· + _) (add_zero _)

omit [DecidableEq ν] in
/-- What a process that is killed loses is what it was worth. -/
theorem custody_held (n : ν) (node : Node ν μ) :
    (node.pool.map ((custody key).pool n)).sum +
        (node.busy.map fun h => (h.2.map (custody key : Measure ν μ _).pending).sum +
          (custody key : Measure ν μ _).thread).sum
      = (node.held.map key : List κ) := by
  have hpool : (node.pool.map ((custody key).pool n)).sum = (node.pool.map key : List κ) :=
    sum_singletons key node.pool
  rw [hpool, custody_busy, Multiset.coe_add, Node.held, List.map_append]

section
variable [Fintype ν]

omit [DecidableEq ν] in
/-- The books after the keys `x` have come in and the keys `y` have gone. -/
theorem balanced_of_total {x y : Multiset κ} (hb : (ledger key s).Balanced)
    (htotal : (custody key).total s' + y = (custody key).total s + x)
    (hminted : (ledger key s').minted = x + (ledger key s).minted)
    (hretired : (ledger key s').retired = y + (ledger key s).retired) :
    (ledger key s').Balanced := by
  have hold : (custody key).total s + (ledger key s).retired = (ledger key s).minted := hb
  show (custody key).total s' + (ledger key s').retired = (ledger key s').minted
  calc (custody key).total s' + (ledger key s').retired
      = (custody key).total s' + y + (ledger key s).retired := by rw [hretired, add_assoc]
    _ = x + ((custody key).total s + (ledger key s).retired) := by
        rw [htotal, add_comm _ x, add_assoc]
    _ = (ledger key s').minted := by rw [hold, hminted]

omit [DecidableEq ν] in
/-- A key that has only moved. -/
theorem balanced_of_moved (hb : (ledger key s).Balanced)
    (htotal : (custody key).total s' = (custody key).total s) (hentered : s'.entered = s.entered)
    (hretired : s'.retired = s.retired) (hlost : s'.lost = s.lost) :
    (ledger key s').Balanced := by
  refine balanced_of_total (x := 0) (y := 0) hb (by rw [htotal]) ?_ ?_
  · rw [zero_add, ledger, ledger, hentered]
  · rw [zero_add, ledger, ledger, hretired, hlost]

/-- **The books stay balanced**, through full mailboxes, stops, kills and launches. -/
theorem ledger_step (hp : N.Passes ok key) (h : Everywhere ok s) (hw : N.Within s)
    (hb : (ledger key s).Balanced) (hs : N.step s e = some s') : (ledger key s').Balanced := by
  cases step_spec hs with
  | client o =>
    refine balanced_of_total (x := ((N.client o s.shared).2.map fun p => mailKeys key p.2).sum)
      (y := 0) hb ?_ ?_ (zero_add _).symm
    · show (((s.outside ++ (N.client o s.shared).2).map (custody key).outside).sum + _) + 0 = _
      rw [List.map_append, List.sum_append, add_zero, add_right_comm]
      rfl
    · show (((N.client o s.shared).2 ++ s.entered).map _).sum = _
      rw [List.map_append, List.sum_append]
      rfl
  | @accepted i n mail hi hroom =>
    have hsum := Measure.total_accepted (W := custody key) hi
    exact balanced_of_moved hb (add_right_cancel hsum) rfl rfl rfl
  | @abandoned i p hi =>
    have hsum := Measure.total_erase (W := custody key) hi
    refine balanced_of_total (x := 0) (y := mailKeys key p.2) hb ?_ (zero_add _).symm ?_
    · rw [add_zero]
      exact hsum
    · show (_ : Multiset κ) + (List.map key (p.2.message?.toList ++ s.lost) : List κ) = _
      rw [List.map_append, ← Multiset.coe_add, add_left_comm]
      rfl
  | @posted n m rest hstage hbox =>
    have hsum := Measure.total_posted (W := custody key) hbox
    exact balanced_of_moved hb (add_right_cancel hsum) rfl rfl rfl
  | @halted n rest hstage hbox =>
    have hsum := Measure.total_halted (W := custody key) hstage hbox
    exact balanced_of_moved hb (add_right_cancel hsum) rfl rfl rfl
  | @invoked n i c m hpool hthread =>
    have hsum := Measure.total_invoked (W := custody key) hpool (N.handle n c s.shared m).2
    rcases hp.handle n c s.shared m ((h.node n).pool m (List.mem_of_getElem? hpool)) with
      hnone | ⟨p, hone, hkey⟩
    · -- nothing is sent: the key is retired
      rw [hnone] at hsum ⊢
      refine balanced_of_total (x := 0) (y := {key m}) hb hsum (zero_add _).symm ?_
      show ((key m :: s.retired.map key : List κ) : Multiset κ) + _ = _
      rw [← Multiset.cons_coe, ← Multiset.singleton_add, add_assoc]
      rfl
    · rw [hone] at hsum ⊢
      change _ + {key m} = _ + ({key p.2} + 0 + 0) at hsum
      rw [hkey, add_zero, add_zero] at hsum
      have hretired : (if [p] = [] then m :: s.retired else s.retired) = s.retired :=
        if_neg (List.cons_ne_nil p [])
      exact balanced_of_moved hb (add_right_cancel hsum) rfl hretired rfl
  | @sent n n' i m m' rest hbusy hroom =>
    have hsum := Measure.total_sent (W := custody key) hbusy
    exact balanced_of_moved hb (add_right_cancel hsum) rfl rfl rfl
  | @finished n i m hbusy =>
    have hsum := Measure.total_finished (W := custody key) hbusy
    exact balanced_of_moved hb ((add_zero _).symm.trans hsum) rfl rfl rfl
  | @joined n hstage hpool hbusy =>
    have hsum := Measure.total_stage (W := custody key) (s := s) (n := n) .exited
    exact balanced_of_moved hb (add_right_cancel hsum) rfl rfl rfl
  | @relaunched n hstage =>
    have hsum := Measure.total_replaced (W := custody key) (s := s) (n := n) .receiving
    rw [(hw.exited n hstage).1, (hw.exited n hstage).2] at hsum
    exact balanced_of_moved hb (add_right_cancel hsum) rfl rfl rfl
  | @crashed n hstage =>
    have hsum := Measure.total_replaced (W := custody key) (s := s) (n := n) .exited
    rw [custody_held] at hsum
    change _ + (_ + 0) = _ + 0 at hsum
    rw [add_zero] at hsum
    refine balanced_of_total (x := 0) hb hsum (zero_add _).symm ?_
    show (_ : Multiset κ) + (List.map key ((s.node n).held ++ s.lost) : List κ) = _
    rw [List.map_append, ← Multiset.coe_add, add_left_comm]
    rfl

end

/-! ## What the shared data record -/

/-- A relation between the history of the network and the shared data, kept by every
change of the shared data that an admitted event makes. -/
structure Records (N : Network ν μ σ χ ω) (guard : Event ν χ ω → Prop) (ok : ν → μ → Prop)
    (R : List (ν × Mail μ) → List μ → σ → Prop) : Prop where
  client : ∀ o entered retired shared, guard (.client o) → R entered retired shared →
    R ((N.client o shared).2 ++ entered) retired (N.client o shared).1
  handle : ∀ n i c entered retired shared m, guard (.invoke n i c) → ok n m →
    R entered retired shared →
    R entered (if (N.handle n c shared m).2 = [] then m :: retired else retired)
      (N.handle n c shared m).1
  fresh : ∀ n entered retired shared, R entered retired shared →
    R entered retired (N.fresh n shared)

theorem records_step {guard : Event ν χ ω → Prop}
    {R : List (ν × Mail μ) → List μ → σ → Prop} (hr : N.Records guard ok R) (h : Everywhere ok s)
    (hR : R s.entered s.retired s.shared) (hg : guard e) (hs : N.step s e = some s') :
    R s'.entered s'.retired s'.shared := by
  cases step_spec hs with
  | client o => exact hr.client o _ _ _ hg hR
  | @invoked n i c m hpool hthread =>
    exact hr.handle n i c _ _ _ m hg ((h.node n).pool m (List.mem_of_getElem? hpool)) hR
  | @relaunched n hstage => exact hr.fresh n _ _ _ hR
  | accepted | abandoned | posted | halted | sent | finished | joined | crashed => exact hR

/-- Nothing is lost where nothing is killed. -/
theorem lost_step (hs : N.step s e = some s') (h : s'.lost ≠ s.lost) :
    (∃ i, e = .abandon i) ∨ ∃ n, e = .crash n := by
  cases step_spec hs with
  | @abandoned i p hi => exact .inl ⟨i, rfl⟩
  | @crashed n hstage => exact .inr ⟨n, rfl⟩
  | _ => exact absurd rfl h

end Network

end Lib
