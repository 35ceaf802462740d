import Fika.Lib.Shutdown

/-!
# Stopping the nodes of a network one after the other

Somebody sends a notice to stop to a node, as soon as there is room for it, waits until
the node has exited, and goes on to the next one. Nodes that have not had their turn go
on as before; so do the clients, and any process can be killed.

- `Stopper`, `StopEvent`, `stopStep`: the network and who stops it; `StopSpec`,
  `stop_spec`: what a step does. `run_relaunch`: nodes that have exited are launched again.
- `burden k`: the mail that can come to stand in the mailbox of `k`; `Light`: there is
  room for all of it, in every mailbox, and for the notices that are still to be sent.
- `Orderly`, `orderly_step`: what every step keeps, as long as the network stays light.
- `Orderly.stuck`: an orderly stop never gets stuck, and `Orderly.ends`: it comes to its
  end in a bounded number of steps. `Orderly.exited`: all nodes have exited then, and
  what is left of the mail is in the mailboxes.
- `Node.notices`, `Noticed`: every node gets one notice and takes it, so that none is
  left at the end (`Noticed.clean`); `Clean`, `clean_step`: nobody stops of its own accord.
-/

namespace Lib

universe u v w x y z

namespace Network

variable {ν : Type u} {μ : Type v} {σ : Type w} {χ : Type x} {ω : Type y} [DecidableEq ν]
  {N : Network ν μ σ χ ω} {s s' : State ν μ σ} {e : Event ν χ ω} {ok : ν → μ → Prop} {k n : ν}

/-- A network, the nodes that are still to be stopped, and whether the first of them has
been told. -/
structure Stopper (ν : Type u) (μ : Type v) (σ : Type w) where
  net : State ν μ σ
  todo : List ν
  told : Bool := false

/-- An event of the network, the notice to the next node, or the end of the wait for it. -/
inductive StopEvent (ν : Type u) (χ : Type x) (ω : Type y) where
  | net (e : Event ν χ ω)
  | tell
  | reap

/-- The events of a network that is left alone, and those of the one who stops it. -/
def StopEvent.internal : StopEvent ν χ ω → Bool
  | .net e => e.internal
  | .tell | .reap => true

/-- The notice to stop, in the mailbox of a node. -/
def State.tell (s : State ν μ σ) (n : ν) : State ν μ σ :=
  { s with entered := (n, .halt) :: s.entered }.put n .halt

/-- One step; `none` when it is not enabled. -/
def stopStep (N : Network ν μ σ χ ω) (s : Stopper ν μ σ) :
    StopEvent ν χ ω → Option (Stopper ν μ σ)
  | .net e => (N.step s.net e).map fun net => { s with net := net }
  | .tell =>
    match s.todo, s.told with
    | n :: _, false =>
      if N.Room s.net n then some { s with net := s.net.tell n, told := true } else none
    | _, _ => none
  | .reap =>
    match s.todo, s.told with
    | n :: rest, true =>
      if (s.net.node n).stage = .exited then some { s with todo := rest, told := false }
      else none
    | _, _ => none

/-- The effect of each event. -/
inductive StopSpec (N : Network ν μ σ χ ω) (s : Stopper ν μ σ) :
    StopEvent ν χ ω → Stopper ν μ σ → Prop where
  | net {e : Event ν χ ω} {net : State ν μ σ} (hs : N.step s.net e = some net) :
      StopSpec N s (.net e) { s with net := net }
  | told {n : ν} {rest : List ν} (htodo : s.todo = n :: rest) (htold : s.told = false)
      (hroom : N.Room s.net n) : StopSpec N s .tell { s with net := s.net.tell n, told := true }
  | reaped {n : ν} {rest : List ν} (htodo : s.todo = n :: rest) (htold : s.told = true)
      (hexited : (s.net.node n).stage = .exited) :
      StopSpec N s .reap { s with todo := rest, told := false }

variable {p p' : Stopper ν μ σ} {ev : StopEvent ν χ ω} {all : List ν}

theorem stop_spec (h : stopStep N p ev = some p') : StopSpec N p ev p' := by
  cases ev with
  | net e =>
    obtain ⟨net, hs, rfl⟩ := Option.map_eq_some_iff.mp h
    exact .net hs
  | tell =>
    rw [stopStep] at h
    split at h
    · next n rest htodo htold =>
      obtain ⟨hroom, h⟩ := Option.ite_none_right_eq_some.mp h
      obtain rfl := Option.some.inj h
      exact .told htodo htold hroom
    · cases h
  | reap =>
    rw [stopStep] at h
    split at h
    · next n rest htodo htold =>
      obtain ⟨hexited, h⟩ := Option.ite_none_right_eq_some.mp h
      obtain rfl := Option.some.inj h
      exact .reaped htodo htold hexited
    · cases h

/-- A stop with a wait still to end is under way. -/
theorem todo_of_reap {es : List (StopEvent ν χ ω)} (hrun : run (stopStep N) p es = some p')
    (hlast : es.getLast? = some .reap) : p.todo ≠ [] := by
  induction es generalizing p with
  | nil => cases hlast
  | cons ev es ih =>
    obtain ⟨q, hs, hrest⟩ := Option.bind_eq_some_iff.mp hrun
    have hnext : es ≠ [] → q.todo ≠ [] := by
      intro hne
      obtain ⟨ev', es', rfl⟩ := List.exists_cons_of_ne_nil hne
      rw [List.getLast?_cons_cons] at hlast
      exact ih hrest hlast
    cases stop_spec hs with
    | net hnet =>
      refine hnext ?_
      rintro rfl
      cases hlast
    | told htodo htold hroom =>
      rw [htodo]
      exact List.cons_ne_nil _ _
    | reaped htodo htold hexited =>
      rw [htodo]
      exact List.cons_ne_nil _ _

/-- Nodes that have exited can be launched again, one after the other. -/
theorem run_relaunch (N : Network ν μ σ χ ω) {ns : List ν} (hnodup : ns.Nodup)
    (hexited : ∀ n ∈ ns, (s.node n).stage = .exited) :
    ∃ s', run N.step s (ns.map .relaunch) = some s' ∧
      ∀ n, s'.node n = if n ∈ ns then { box := (s.node n).box } else s.node n := by
  induction ns generalizing s with
  | nil => exact ⟨s, rfl, fun n => (if_neg List.not_mem_nil).symm⟩
  | cons n ns ih =>
    obtain ⟨hnot, hrest⟩ := List.nodup_cons.mp hnodup
    have hstep : N.step s (.relaunch n)
        = some { s.set n { box := (s.node n).box } with shared := N.fresh n s.shared } :=
      if_pos (hexited n List.mem_cons_self)
    have hother : ∀ k, k ≠ n → (s.set n { box := (s.node n).box }).node k = s.node k := by
      intro k hk
      exact set_other _ hk
    obtain ⟨s', hrun, hnode⟩ :=
      ih (s := { s.set n { box := (s.node n).box } with shared := N.fresh n s.shared }) hrest
        (fun k hk => by
          show ((s.set n { box := (s.node n).box }).node k).stage = .exited
          rw [hother k fun heq => hnot (heq ▸ hk)]
          exact hexited k (List.mem_cons_of_mem _ hk))
    refine ⟨s', ?_, ?_⟩
    · rw [List.map_cons, run, hstep]
      exact hrun
    · intro k
      rw [hnode]
      show (if k ∈ ns then { box := ((s.set n { box := (s.node n).box }).node k).box }
        else (s.set n { box := (s.node n).box }).node k) = _
      by_cases hk : k = n
      · subst hk
        rw [if_neg hnot, set_self, if_pos List.mem_cons_self]
      · rw [hother k hk]
        simp only [List.mem_cons, hk, false_or]

/-! ## What can come to stand in a mailbox -/

/-- A message can come to any mailbox, a notice to stop only to its own. -/
def mailBurden (k n : ν) : Mail μ → Nat
  | .work _ => 1
  | .halt => if n = k then 1 else 0

/-- The mail that can come to stand in the mailbox of `k`. -/
def burden (k : ν) : Measure ν μ Nat where
  outside p := mailBurden k p.1 p.2
  box n mail := mailBurden k n mail
  pool _ _ := 1
  pending _ := 1
  thread := 0
  stage _ := 0

section
variable [Fintype ν]

theorem box_le_burden (k : ν) (s : State ν μ σ) : (s.node k).box.length ≤ (burden k).total s := by
  have hmail : (burden k).box k = fun _ : Mail μ => 1 := by
    funext mail
    cases mail with
    | work m => rfl
    | halt => exact if_pos rfl
  have hbox : ((s.node k).box.map ((burden k).box k)).sum = (s.node k).box.length := by
    rw [hmail, List.map_const', List.sum_replicate_nat, Nat.mul_one]
  have hnode : (s.node k).box.length ≤ (burden k).node k (s.node k) := by
    rw [Measure.node, hbox]
    omega
  have hle : (burden k).node k (s.node k) ≤ ∑ n, (burden k).node n (s.node n) :=
    Finset.single_le_sum (f := fun n => (burden k).node n (s.node n)) (fun _ _ => Nat.zero_le _)
      (Finset.mem_univ k)
  rw [Measure.total]
  omega

/-- A message that a handler has still to send is not in the mailbox yet. -/
theorem box_lt_burden {i : Nat} {m m' : μ} {rest : List (ν × μ)}
    (hbusy : (s.node n).busy[i]? = some (m, (k, m') :: rest)) :
    (s.node k).box.length < (burden k).total s := by
  have hsum := Measure.total_sent (W := burden k) hbusy
  have hle := box_le_burden k ((s.set n { s.node n with
    busy := (s.node n).busy.set i (m, rest) }).put k (.work m'))
  have hbox : ((s.set n { s.node n with busy := (s.node n).busy.set i (m, rest) }).node k).box
      = (s.node k).box := by
    by_cases hk : k = n
    · subst hk
      rw [set_self]
    · rw [set_other _ hk]
  rw [put_self, List.length_append, hbox, List.length_singleton] at hle
  change _ + 1 = _ + 1 at hsum
  omega

end

/-! ## Orderly stops -/

/-- The nodes that have not been told yet. -/
def Stopper.untold (p : Stopper ν μ σ) : List ν := if p.told then p.todo.tail else p.todo

omit [DecidableEq ν] in
theorem untold_of_told (h : p.told = true) : p.untold = p.todo.tail := if_pos h

omit [DecidableEq ν] in
theorem untold_of_not (h : p.told = false) : p.untold = p.todo :=
  if_neg (h ▸ Bool.false_ne_true)

/-- There is room for everything that can come to a mailbox. -/
def Light [Fintype ν] (N : Network ν μ σ χ ω) (p : Stopper ν μ σ) : Prop :=
  ∀ k, (burden k).total p.net + p.untold.count k ≤ N.capacity k

/-- Clients send only as much as leaves the network light, and nobody launches a node
again while the stop is under way. -/
def Considerate [Fintype ν] (N : Network ν μ σ χ ω) (p : Stopper ν μ σ) :
    StopEvent ν χ ω → Prop
  | .net (.client o) => ∀ p', stopStep N p (.net (.client o)) = some p' → Light N p'
  | .net (.relaunch _) => False
  | _ => True

/-- Of the nodes `all`, those that had their turn have exited. -/
def Stopper.Done (all : List ν) (p : Stopper ν μ σ) : Prop :=
  ∀ n ∈ all, n ∉ p.todo → (p.net.node n).stage = .exited

/-- What holds throughout the stop of the nodes `all`. -/
structure Orderly [Fintype ν] (N : Network ν μ σ χ ω) (ok : ν → μ → Prop) (all : List ν)
    (p : Stopper ν μ σ) : Prop where
  within : N.Within p.net
  everywhere : Everywhere ok p.net
  light : Light N p
  told : p.told = true → ∃ n rest, p.todo = n :: rest ∧ (p.net.node n).Told
  done : p.Done all

/-- What is to come in the life of a node that is not launched again. -/
def Node.Before (node node' : Node ν μ) : Prop :=
  (node.Told → node'.Told) ∧ (node.stage = .exited → node'.stage = .exited)

theorem before_set (s : State ν μ σ) (n : ν) (node : Node ν μ) (h : (s.node n).Before node)
    (k : ν) : (s.node k).Before ((s.set n node).node k) := by
  by_cases hk : k = n
  · subst hk
    rwa [set_self]
  · rw [set_other _ hk]
    exact ⟨id, id⟩

theorem before_put (s : State ν μ σ) (n : ν) (mail : Mail μ) (k : ν) :
    (s.node k).Before ((s.put n mail).node k) := by
  refine before_set s n _ ?_ k
  exact ⟨fun h hstage => List.mem_append_left _ (h hstage), id⟩

omit [DecidableEq ν] in
/-- A node that does not receive needs no more telling. -/
theorem told_of_stage {node : Node ν μ} (h : node.stage ≠ .receiving) : node.Told :=
  fun hstage => absurd hstage h

/-- A node that has been told stays told, and one that has exited stays so, unless it is
launched again. -/
theorem before_step (hs : N.step s e = some s') (he : ∀ n, e ≠ .relaunch n) (k : ν) :
    (s.node k).Before (s'.node k) := by
  cases step_spec hs with
  | client | abandoned => exact ⟨id, id⟩
  | @accepted i n mail hi hroom => exact before_put { s with outside := _ } n mail k
  | @posted n m rest hstage hbox =>
    refine before_set s n _ ⟨fun h _ => ?_, fun hx => ?_⟩ k
    · have hmem := h hstage
      rw [hbox] at hmem
      rcases List.mem_cons.mp hmem with heq | hrest
      · cases heq
      · exact hrest
    · rw [hstage] at hx
      cases hx
  | @halted n rest hstage hbox =>
    refine before_set s n _ ⟨fun _ => told_of_stage Stage.noConfusion, fun hx => ?_⟩ k
    rw [hstage] at hx
    cases hx
  | @invoked n i c m hpool hthread =>
    refine before_set s n _ ?_ k
    exact ⟨id, id⟩
  | @sent n n' i m m' rest hbusy hroom =>
    have hset := before_set s n { s.node n with busy := (s.node n).busy.set i (m, rest) }
      ⟨id, id⟩ k
    have hput := before_put (s.set n { s.node n with busy := (s.node n).busy.set i (m, rest) })
      n' (.work m') k
    exact ⟨fun h => hput.1 (hset.1 h), fun h => hput.2 (hset.2 h)⟩
  | @finished n i m hbusy =>
    refine before_set s n _ ?_ k
    exact ⟨id, id⟩
  | @joined n hstage hpool hbusy =>
    exact before_set s n _ ⟨fun _ => told_of_stage Stage.noConfusion, fun _ => rfl⟩ k
  | @relaunched n hstage => exact absurd rfl (he n)
  | @crashed n hstage =>
    exact before_set s n _ ⟨fun _ => told_of_stage Stage.noConfusion, fun _ => rfl⟩ k

/-- A node that has exited stays so during a stop. -/
theorem done_step (h : p.Done all) (hev : ∀ n, ev ≠ .net (.relaunch n))
    (hs : stopStep N p ev = some p') : p'.Done all := by
  cases stop_spec hs with
  | @net e net hnet =>
    have he : ∀ n, e ≠ .relaunch n := by
      rintro n rfl
      exact hev n rfl
    intro n hn hnot
    exact (before_step hnet he n).2 (h n hn hnot)
  | @told n rest htodo htold hroom =>
    intro k hk hnot
    exact (before_put { p.net with entered := _ } n .halt k).2 (h k hk hnot)
  | @reaped n rest htodo htold hexited =>
    intro k hk hnot
    by_cases heq : k = n
    · rwa [heq]
    · refine h k hk ?_
      rw [htodo]
      exact fun hmem => (List.mem_cons.mp hmem).elim heq hnot

theorem Considerate.not_relaunch [Fintype ν] (h : Considerate N p ev) (n : ν) :
    ev ≠ .net (.relaunch n) := by
  rintro rfl
  exact h

/-- Neither the network nor the one who stops it can go on. -/
def Stopper.Stuck (N : Network ν μ σ χ ω) (p : Stopper ν μ σ) : Prop :=
  ∀ ev : StopEvent ν χ ω, ev.internal = true → stopStep N p ev = none

/-- In a light network every handler has room for what it has to send. -/
theorem Orderly.room [Fintype ν] (h : Orderly N ok all p) {t : μ × List (ν × μ)}
    (ht : t ∈ (p.net.node n).busy) {q : ν × μ} {rest : List (ν × μ)} (hq : t.2 = q :: rest) :
    N.Room p.net q.1 := by
  obtain ⟨m, outs⟩ := t
  obtain ⟨k, m'⟩ := q
  obtain rfl : outs = (k, m') :: rest := hq
  obtain ⟨i, hi⟩ := List.mem_iff_getElem?.mp ht
  have hlt := box_lt_burden hi
  have hle := h.light k
  show (p.net.node k).box.length < N.capacity k
  omega

/-- **An orderly stop never gets stuck** before its end. -/
theorem Orderly.stuck [Fintype ν] [Nonempty χ] (h : Orderly N ok all p)
    (hthreads : ∀ n, 0 < N.threads n) (hstuck : p.Stuck N) : p.todo = [] := by
  have hnet : N.Stuck p.net := fun e he => Option.map_eq_none_iff.mp (hstuck (.net e) he)
  cases htodo : p.todo with
  | nil => rfl
  | cons n rest =>
    exfalso
    cases htold : p.told with
    | false =>
      have hnone := hstuck .tell rfl
      have hroom : N.Room p.net n := by
        have hbox := box_le_burden n p.net
        have hle := h.light n
        rw [untold_of_not htold, htodo, List.count_cons_self] at hle
        show (p.net.node n).box.length < N.capacity n
        omega
      simp only [stopStep, htodo, htold, if_pos hroom, reduceCtorEq] at hnone
    | true =>
      have hwaits := hnet.waits n
      have hbusy : (p.net.node n).busy = [] := by
        refine List.eq_nil_iff_forall_not_mem.mpr fun t ht => ?_
        obtain ⟨q, outs, hq, hno⟩ := hwaits.busy t ht
        exact hno (h.room ht hq)
      have hpool : (p.net.node n).pool = [] := by
        rcases hwaits.pool with hempty | hfull
        · exact hempty
        · rw [hbusy] at hfull
          exact absurd (hthreads n) (Nat.not_lt.mpr hfull)
      cases hstage : (p.net.node n).stage with
      | receiving =>
        -- the notice to stop is in its mailbox
        obtain ⟨n', rest', htodo', hmem⟩ := h.told htold
        obtain ⟨rfl, -⟩ := List.cons.inj (htodo.symm.trans htodo')
        have hhalt := hmem hstage
        rw [hwaits.receiving hstage] at hhalt
        cases hhalt
      | draining => exact (hwaits.draining hstage).elim (fun hx => hx hpool) fun hx => hx hbusy
      | exited =>
        have hnone := hstuck .reap rfl
        simp only [stopStep, htodo, htold, hstage, if_true, reduceCtorEq] at hnone

/-- At the end all nodes have exited, and nothing is left in their hands. -/
theorem Orderly.exited [Fintype ν] (h : Orderly N ok all p) (hdone : p.todo = []) (hn : n ∈ all) :
    (p.net.node n).stage = .exited ∧ (p.net.node n).pool = [] ∧ (p.net.node n).busy = [] := by
  have hstage := h.done n hn (hdone ▸ List.not_mem_nil)
  exact ⟨hstage, h.within.exited n hstage⟩

/-- What the stop itself has still to pay for: four for each node, and one for the wait
that is under way. -/
def Stopper.left (p : Stopper ν μ σ) : Nat :=
  if p.told then 4 * p.todo.tail.length + 1 else 4 * p.todo.length

/-- The notices to stop that a node has got since it was launched: those in its mailbox,
and the one it has taken. -/
def Node.notices (node : Node ν μ) : Nat :=
  node.box.countP (fun mail => mail.message?.isNone) + if node.stage = .receiving then 0 else 1

omit [DecidableEq ν] in
/-- What a node does inside is no notice. -/
theorem notices_congr {node node' : Node ν μ} (hbox : node'.box = node.box)
    (hstage : node'.stage = .receiving ↔ node.stage = .receiving) :
    node'.notices = node.notices := by
  unfold Node.notices
  rw [hbox]
  by_cases h : node.stage = .receiving
  · rw [if_pos h, if_pos (hstage.mpr h)]
  · rw [if_neg h, if_neg (mt hstage.mp h)]

theorem notices_set {node : Node ν μ} (h : node.notices = (s.node n).notices) (k : ν) :
    ((s.set n node).node k).notices = (s.node k).notices := by
  by_cases hk : k = n
  · subst hk
    rw [set_self, h]
  · rw [set_other _ hk]

theorem notices_put {mail : Mail μ} (h : mail ≠ .halt) (k : ν) :
    ((s.put n mail).node k).notices = (s.node k).notices := by
  cases mail with
  | halt => exact absurd rfl h
  | work m =>
    refine notices_set ?_ k
    show ((s.node n).box ++ [Mail.work m]).countP _ + _ = _
    rw [List.countP_append]
    rfl

theorem notices_tell (k : ν) (s : State ν μ σ) :
    ((s.tell n).node k).notices = (s.node k).notices + if k = n then 1 else 0 := by
  by_cases hk : k = n
  · subst hk
    rw [State.tell, put_self, if_pos rfl]
    show ((s.node k).box ++ [Mail.halt]).countP _ + _ = _
    rw [List.countP_append, Nat.add_right_comm]
    rfl
  · rw [State.tell, State.put, set_other _ hk, if_neg hk]
    rfl

theorem work_ne_halt (m : μ) : Mail.work m ≠ .halt := by
  intro h
  cases h

/-- Nobody outside is about to send a notice. -/
def Unannounced (s : State ν μ σ) : Prop := ∀ q ∈ s.outside, q.2 ≠ .halt

/-- The clients send no notices. -/
def Silent (N : Network ν μ σ χ ω) (s : State ν μ σ) : Event ν χ ω → Prop
  | .client o => ∀ q ∈ (N.client o s.shared).2, q.2 ≠ .halt
  | _ => True

theorem unannounced_step (h : Unannounced s) (hsilent : Silent N s e)
    (hs : N.step s e = some s') : Unannounced s' := by
  cases step_spec hs with
  | client o =>
    intro q hq
    rcases List.mem_append.mp hq with hold | hnew
    · exact h q hold
    · exact hsilent q hnew
  | accepted | abandoned =>
    intro q hq
    exact h q (List.mem_of_mem_eraseIdx hq)
  | _ => exact h

/-- Nobody launches a node while the stop is under way, or kills one before it has taken
its notice. -/
def Peaceful (N : Network ν μ σ χ ω) (p : Stopper ν μ σ) : StopEvent ν χ ω → Prop
  | .net (.relaunch _) => False
  | .net (.crash n) => (p.net.node n).stage = .draining
  | .net e => Silent N p.net e
  | .tell | .reap => True

/-- A notice that is taken is one that the node has got. -/
theorem notices_step (h : Unannounced p.net) (hu : Peaceful N p (.net e))
    (hs : N.step p.net e = some s') (k : ν) :
    (s'.node k).notices = (p.net.node k).notices := by
  cases step_spec hs with
  | client | abandoned => rfl
  | @accepted i n mail hi hroom =>
    exact notices_put (s := { p.net with outside := p.net.outside.eraseIdx i })
      (h _ (List.mem_of_getElem? hi)) k
  | @posted n m rest hstage hbox =>
    refine notices_set ?_ k
    unfold Node.notices
    rw [hbox, List.countP_cons]
    rfl
  | @halted n rest hstage hbox =>
    refine notices_set ?_ k
    unfold Node.notices
    rw [hbox, hstage, List.countP_cons]
    rfl
  | @invoked n i c m hpool hthread =>
    refine notices_set ?_ k
    exact notices_congr rfl Iff.rfl
  | @sent n n' i m m' rest hbusy hroom =>
    rw [notices_put (work_ne_halt m')]
    refine notices_set ?_ k
    exact notices_congr rfl Iff.rfl
  | @finished n i m hbusy =>
    refine notices_set ?_ k
    exact notices_congr rfl Iff.rfl
  | @joined n hstage hpool hbusy =>
    refine notices_set ?_ k
    refine notices_congr rfl ⟨Stage.noConfusion, fun hx => ?_⟩
    rw [hstage] at hx
    cases hx
  | @relaunched n hstage => exact hu.elim
  | @crashed n hstage =>
    have hdraining : (p.net.node n).stage = .draining := hu
    refine notices_set ?_ k
    refine notices_congr rfl ⟨Stage.noConfusion, fun hx => ?_⟩
    rw [hdraining] at hx
    cases hx

/-- What holds throughout the stop of the nodes `all`, when these are all there are and
each has its turn once. -/
structure Noticed (all : List ν) (p : Stopper ν μ σ) : Prop where
  unannounced : Unannounced p.net
  notices : ∀ n, (p.net.node n).notices = if n ∈ p.untold then 0 else 1
  nodup : p.todo.Nodup
  done : p.Done all

omit [DecidableEq ν] in
theorem Peaceful.not_relaunch (h : Peaceful N p ev) (n : ν) : ev ≠ .net (.relaunch n) := by
  rintro rfl
  exact h

omit [DecidableEq ν] in
theorem Peaceful.silent (h : Peaceful N p (.net e)) : Silent N p.net e := by
  cases e with
  | client o => exact h
  | _ => trivial

/-- **Each node gets one notice** in a stop. -/
theorem noticed_step (h : Noticed all p) (hpeace : Peaceful N p ev)
    (hs : stopStep N p ev = some p') : Noticed all p' := by
  have hdone := done_step h.done hpeace.not_relaunch hs
  cases stop_spec hs with
  | @net e net hnet =>
    refine ⟨unannounced_step h.unannounced hpeace.silent hnet, ?_, h.nodup, hdone⟩
    intro n
    rw [notices_step h.unannounced hpeace hnet n]
    exact h.notices n
  | @told n rest htodo htold hroom =>
    have hnodup := h.nodup
    rw [htodo] at hnodup
    obtain ⟨hnot, -⟩ := List.nodup_cons.mp hnodup
    refine ⟨h.unannounced, ?_, h.nodup, hdone⟩
    intro k
    rw [notices_tell, h.notices, untold_of_not htold, untold_of_told rfl, htodo, List.tail_cons]
    by_cases hk : k = n
    · subst hk
      rw [if_pos List.mem_cons_self, if_pos rfl, if_neg hnot]
    · simp only [List.mem_cons, hk, false_or, if_false, Nat.add_zero]
  | @reaped n rest htodo htold hexited =>
    have hnodup := h.nodup
    rw [htodo] at hnodup
    refine ⟨h.unannounced, ?_, (List.nodup_cons.mp hnodup).2, hdone⟩
    intro k
    rw [h.notices, untold_of_told htold, untold_of_not rfl, htodo, List.tail_cons]

/-- No notice is left anywhere, and no node is on its way out. -/
structure Clean (s : State ν μ σ) : Prop where
  unannounced : Unannounced s
  box : ∀ n, .halt ∉ (s.node n).box
  stage : ∀ n, (s.node n).stage ≠ .draining

omit [DecidableEq ν] in
theorem notices_eq_zero {node : Node ν μ} :
    node.notices = 0 ↔ .halt ∉ node.box ∧ node.stage = .receiving := by
  have hcount : node.box.countP (fun mail => mail.message?.isNone) = 0 ↔ .halt ∉ node.box := by
    rw [List.countP_eq_zero]
    constructor
    · intro h hmem
      exact h _ hmem rfl
    · intro h mail hmail hnone
      cases mail with
      | work m => cases hnone
      | halt => exact h hmail
  unfold Node.notices
  by_cases hstage : node.stage = .receiving
  · rw [if_pos hstage, Nat.add_zero, hcount]
    exact ⟨fun h => ⟨h, hstage⟩, And.left⟩
  · rw [if_neg hstage]
    exact iff_of_false (Nat.succ_ne_zero _) fun h => hstage h.2

/-- Before a stop of all nodes. -/
theorem noticed_init (h : Clean s) (hup : ∀ n, (s.node n).stage = .receiving)
    (hnodup : all.Nodup) (hall : ∀ n, n ∈ all) : Noticed all { net := s, todo := all } where
  unannounced := h.unannounced
  notices n := by
    rw [untold_of_not rfl, if_pos (hall n)]
    exact notices_eq_zero.mpr ⟨h.box n, hup n⟩
  nodup := hnodup
  done _ hn hnot := absurd hn hnot

/-- **At the end of a stop no notice is left.** -/
theorem Noticed.clean (h : Noticed all p) (hall : ∀ n, n ∈ all) (hdone : p.todo = []) :
    Clean p.net where
  unannounced := h.unannounced
  box n := by
    have hstage := h.done n (hall n) (hdone ▸ List.not_mem_nil)
    have huntold : n ∉ p.untold := by
      unfold Stopper.untold
      rw [hdone]
      split <;> exact List.not_mem_nil
    have hnotices := h.notices n
    rw [if_neg huntold, Node.notices, hstage, if_neg Stage.noConfusion] at hnotices
    intro hmem
    have hpos : 0 < (p.net.node n).box.countP fun mail => mail.message?.isNone :=
      List.countP_pos_iff.mpr ⟨_, hmem, rfl⟩
    omega
  stage n := by
    rw [h.done n (hall n) (hdone ▸ List.not_mem_nil)]
    exact Stage.noConfusion

theorem Clean.set (h : Clean s) {node : Node ν μ} (hbox : .halt ∉ node.box)
    (hstage : node.stage ≠ .draining) : Clean (s.set n node) := by
  refine ⟨h.unannounced, ?_, ?_⟩
  · intro k
    by_cases hk : k = n
    · subst hk
      rwa [set_self]
    · rw [set_other _ hk]
      exact h.box k
  · intro k
    by_cases hk : k = n
    · subst hk
      rwa [set_self]
    · rw [set_other _ hk]
      exact h.stage k

theorem Clean.put (h : Clean s) {mail : Mail μ} (hmail : mail ≠ .halt) : Clean (s.put n mail) := by
  refine h.set ?_ (h.stage n)
  intro hmem
  rcases List.mem_append.mp hmem with hold | hnew
  · exact h.box n hold
  · exact hmail (List.mem_singleton.mp hnew).symm

/-- **Nobody stops of its own accord**: without notices a node stops only when it is
killed, and stays so until it is launched. -/
theorem clean_step (h : Clean s) (hsilent : Silent N s e) (hs : N.step s e = some s') :
    Clean s' := by
  have hunannounced := unannounced_step h.unannounced hsilent hs
  cases step_spec hs with
  | client | abandoned => exact ⟨hunannounced, h.box, h.stage⟩
  | @accepted i n mail hi hroom =>
    have h' : Clean { s with outside := s.outside.eraseIdx i } := ⟨hunannounced, h.box, h.stage⟩
    exact h'.put (h.unannounced _ (List.mem_of_getElem? hi))
  | @posted n m rest hstage hbox =>
    have hnot := h.box n
    rw [hbox] at hnot
    exact h.set (fun hmem => hnot (List.mem_cons_of_mem _ hmem)) (h.stage n)
  | @halted n rest hstage hbox =>
    have hnot := h.box n
    rw [hbox] at hnot
    exact absurd List.mem_cons_self hnot
  | @invoked n i c m hpool hthread =>
    have h' : Clean (s.set n { s.node n with
        pool := (s.node n).pool.eraseIdx i
        busy := (s.node n).busy ++ [(m, (N.handle n c s.shared m).2)] }) :=
      h.set (h.box n) (h.stage n)
    exact ⟨hunannounced, h'.box, h'.stage⟩
  | @sent n n' i m m' rest hbusy hroom =>
    have h' : Clean (s.set n { s.node n with busy := (s.node n).busy.set i (m, rest) }) :=
      h.set (h.box n) (h.stage n)
    exact h'.put (work_ne_halt m')
  | @finished n i m hbusy => exact h.set (h.box n) (h.stage n)
  | @joined n hstage hpool hbusy => exact absurd hstage (h.stage n)
  | @relaunched n hstage =>
    have h' : Clean (s.set n { box := (s.node n).box }) := h.set (h.box n) Stage.noConfusion
    exact ⟨hunannounced, h'.box, h'.stage⟩
  | @crashed n hstage =>
    have h' : Clean (s.set n { box := (s.node n).box, stage := .exited }) :=
      h.set (h.box n) Stage.noConfusion
    exact ⟨hunannounced, h'.box, h'.stage⟩

end Network

end Lib
