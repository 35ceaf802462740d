import Mathlib.Algebra.Order.BigOperators.Group.Finset
import Mathlib.Data.List.TakeWhile
import Fika.Lib.Flow

/-!
# Stopping the nodes of a network that feed a stopped one

A node `k` has exited and takes nothing more from its mailbox. The other nodes answer
each message with one message to `k`, and some of them, `B`, have been told to stop:
they exit once everything they have begun has been answered. Whether they can is a
matter of the room that is left in the mailbox of `k`.

- `Node.owed`, `backlog`: the messages a node, or a set of nodes, has still to send
  before it can exit; `space`: the room left.
- `Halting`, `halting_step`: such states, and that `backlog - space` never falls.
- `Halting.exits_iff`: the nodes of `B` can all exit exactly if their backlog fits.
- `Halting.stuck_exited`: if the backlog of all other nodes and the clients that wait
  for `k` fit together, all of them exit in every run that is left alone.
-/

namespace Lib

universe u v w x y z

/-- A piece of work, not a notice to stop. -/
def Mail.isWork {μ : Type v} : Mail μ → Bool
  | .work _ => true
  | .halt => false

namespace Network

variable {ν : Type u} {μ : Type v} {σ : Type w} {χ : Type x} {ω : Type y} [DecidableEq ν]
  {N : Network ν μ σ χ ω} {s s' : State ν μ σ} {e : Event ν χ ω} {ok : ν → μ → Prop}
  {calm : ν → χ → Prop} {k n : ν} {B : Finset ν} {m : μ} {i : Nat}

/-! ## What a node owes -/

/-- The messages a node has still to send before it can exit, when each message it takes
is answered by one: those before the first notice to stop, if it still receives, those
it has posted, and those its handlers have not sent. -/
def Node.owed (node : Node ν μ) : Nat :=
  (match node.stage with
    | .receiving => (node.box.takeWhile Mail.isWork).length
    | _ => 0) + node.pool.length + (node.busy.map fun h => h.2.length).sum

/-- A node that receives has a notice to stop before it. -/
def Node.Told (node : Node ν μ) : Prop := node.stage = .receiving → .halt ∈ node.box

section
variable {node : Node ν μ}

omit [DecidableEq ν] in
theorem owed_posted {rest : List (Mail μ)} (hstage : node.stage = .receiving)
    (hbox : node.box = .work m :: rest) :
    ({ node with box := rest, pool := node.pool ++ [m] } : Node ν μ).owed = node.owed := by
  have hwork : ((Mail.work m :: rest).takeWhile Mail.isWork).length
      = (rest.takeWhile Mail.isWork).length + 1 := rfl
  simp only [Node.owed, hstage, hbox, hwork, List.length_append, List.length_singleton]
  omega

omit [DecidableEq ν] in
theorem owed_halted {rest : List (Mail μ)} (hstage : node.stage = .receiving)
    (hbox : node.box = .halt :: rest) :
    ({ node with box := rest, stage := .draining } : Node ν μ).owed = node.owed := by
  have hhalt : ((Mail.halt :: rest : List (Mail μ)).takeWhile Mail.isWork).length = 0 := rfl
  simp only [Node.owed, hstage, hbox, hhalt]

omit [DecidableEq ν] in
theorem owed_invoked (outs : List (ν × μ)) (hpool : node.pool[i]? = some m) :
    ({ node with pool := node.pool.eraseIdx i, busy := node.busy ++ [(m, outs)] } :
      Node ν μ).owed + 1 = node.owed + outs.length := by
  obtain ⟨hi, -⟩ := List.getElem?_eq_some_iff.mp hpool
  have hlen := List.length_eraseIdx_add_one hi
  simp only [Node.owed, List.map_append, List.sum_append, List.map_cons, List.map_nil,
    List.sum_cons, List.sum_nil]
  omega

omit [DecidableEq ν] in
theorem owed_sent {p : ν × μ} {rest : List (ν × μ)}
    (hbusy : node.busy[i]? = some (m, p :: rest)) :
    ({ node with busy := node.busy.set i (m, rest) } : Node ν μ).owed + 1 = node.owed := by
  obtain ⟨hi, -⟩ := List.getElem?_eq_some_iff.mp hbusy
  have hsum := sum_map_eraseIdx hbusy fun h => h.2.length
  simp only [Node.owed, sum_map_set hi]
  rw [← hsum, List.length_cons]
  omega

omit [DecidableEq ν] in
theorem owed_finished (hbusy : node.busy[i]? = some (m, [])) :
    ({ node with busy := node.busy.eraseIdx i } : Node ν μ).owed = node.owed := by
  have hsum := sum_map_eraseIdx hbusy fun h => h.2.length
  simp only [Node.owed]
  rw [← hsum, List.length_nil, Nat.add_zero]

omit [DecidableEq ν] in
theorem owed_joined (hstage : node.stage = .draining) :
    ({ node with stage := .exited } : Node ν μ).owed = node.owed := by
  simp only [Node.owed, hstage]

omit [DecidableEq ν] in
/-- More mail never lowers what a node owes. -/
theorem owed_append_le (mail : Mail μ) :
    node.owed ≤ ({ node with box := node.box ++ [mail] } : Node ν μ).owed := by
  have hle : (node.box.takeWhile Mail.isWork).length
      ≤ ((node.box ++ [mail]).takeWhile Mail.isWork).length := by
    rw [List.takeWhile_append]
    split
    · next hall =>
      rw [hall, List.length_append]
      exact Nat.le_add_right _ _
    · exact Nat.le_refl _
  simp only [Node.owed]
  cases node.stage <;> dsimp only <;> omega

omit [DecidableEq ν] in
/-- Nothing that comes after a notice to stop is owed. -/
theorem owed_append_told (h : node.Told) (mail : Mail μ) :
    ({ node with box := node.box ++ [mail] } : Node ν μ).owed = node.owed := by
  cases hstage : node.stage with
  | receiving =>
    have hhalt : ¬ ∀ a ∈ node.box, Mail.isWork a = true := fun hall =>
      absurd (hall _ (h hstage)) Bool.false_ne_true
    simp only [Node.owed, hstage]
    rw [List.takeWhile_append, if_neg]
    intro hlen
    exact hhalt (List.takeWhile_eq_self_iff.mp
      ((List.takeWhile_prefix Mail.isWork).eq_of_length hlen))
  | draining => simp only [Node.owed, hstage]
  | exited => simp only [Node.owed, hstage]

end

/-! ## Nodes that stop while another has stopped -/

/-- What `B` still owes. -/
def backlog (B : Finset ν) (s : State ν μ σ) : Nat := ∑ b ∈ B, (s.node b).owed

/-- The room that is left in a mailbox. -/
def space (N : Network ν μ σ χ ω) (s : State ν μ σ) (k : ν) : Nat :=
  N.capacity k - (s.node k).box.length

/-- The handlers of the other nodes send to `k` only, one message at most, and a calm one
answers each message with one message. -/
structure Feeds (N : Network ν μ σ χ ω) (calm : ν → χ → Prop) (ok : ν → μ → Prop)
    (k : ν) : Prop where
  directed : ∀ n c shared m, n ≠ k → ∀ p ∈ (N.handle n c shared m).2, p.1 = k
  atMost : ∀ n c shared m, n ≠ k → (N.handle n c shared m).2.length ≤ 1
  answers : ∀ n c shared m, n ≠ k → calm n c → ok n m →
    ∃ m', (N.handle n c shared m).2 = [(k, m')]

/-- What the other nodes have still to send is for `k`. -/
def Directed (k : ν) (s : State ν μ σ) : Prop :=
  Begun (fun n _ outs => n ≠ k → ∀ p ∈ outs, p.1 = k) s

/-- A node while `k` has exited and `B` is told to stop. -/
structure Node.Closing (k : ν) (B : Finset ν) (n : ν) (node : Node ν μ) : Prop where
  exited : n = k → node.stage = .exited
  told : n ∈ B → node.Told

/-- A state in which `k` has exited and `B` is told to stop. -/
structure Halting (N : Network ν μ σ χ ω) (ok : ν → μ → Prop) (k : ν) (B : Finset ν)
    (s : State ν μ σ) : Prop where
  within : N.Within s
  everywhere : Everywhere ok s
  directed : Directed k s
  node : ∀ n, (s.node n).Closing k B n

/-- The handlers are calm, and nobody launches `k` or a node of `B` again, or kills one
of `B`. -/
structure Undisturbed (calm : ν → χ → Prop) (k : ν) (B : Finset ν) (e : Event ν χ ω) :
    Prop where
  calm : ∀ n i c, e = .invoke n i c → calm n c
  relaunch : ∀ n, e = .relaunch n → n ≠ k ∧ n ∉ B
  crash : ∀ n, e = .crash n → n ∉ B

omit [DecidableEq ν] in
/-- Whatever the network does by itself launches and kills nothing. -/
theorem Undisturbed.of_internal (h : e.internal = true) :
    Undisturbed (fun _ _ => True) k B e := by
  refine ⟨fun _ _ _ _ => trivial, fun n he => ?_, fun n he => ?_⟩
  · rw [he] at h
    cases h
  · rw [he] at h
    cases h

/-- The node whose process takes an event. -/
def Event.actor : Event ν χ ω → Option ν
  | .receive n | .invoke n _ _ | .send n _ | .finish n _ | .join n => some n
  | _ => none

theorem backlog_set_mem (h : n ∈ B) (node : Node ν μ) :
    backlog B (s.set n node) + (s.node n).owed = backlog B s + node.owed := by
  have hother : ∑ b ∈ B.erase n, ((s.set n node).node b).owed
      = ∑ b ∈ B.erase n, (s.node b).owed :=
    Finset.sum_congr rfl fun b hb => by rw [set_other node (Finset.ne_of_mem_erase hb)]
  rw [backlog, backlog, ← Finset.add_sum_erase B _ h, hother,
    ← Finset.add_sum_erase B (fun b => (s.node b).owed) h, set_self]
  omega

theorem backlog_set_same (h : n ∈ B) {node : Node ν μ} (howed : node.owed = (s.node n).owed) :
    backlog B (s.set n node) = backlog B s := by
  have hsum := backlog_set_mem (s := s) h node
  rw [howed] at hsum
  exact Nat.add_right_cancel hsum

theorem backlog_set_less (h : n ∈ B) {node : Node ν μ} (howed : node.owed + 1 = (s.node n).owed) :
    backlog B (s.set n node) + 1 = backlog B s := by
  have hsum := backlog_set_mem (s := s) h node
  rw [← howed] at hsum
  omega

theorem backlog_set_mono (h : n ∈ B) {node : Node ν μ} (howed : (s.node n).owed ≤ node.owed) :
    backlog B s ≤ backlog B (s.set n node) := by
  have hsum := backlog_set_mem (s := s) h node
  omega

theorem backlog_set_le (h : n ∈ B) {node : Node ν μ} (howed : node.owed ≤ (s.node n).owed) :
    backlog B (s.set n node) ≤ backlog B s := by
  have hsum := backlog_set_mem (s := s) h node
  omega

theorem backlog_set_notMem (h : n ∉ B) (node : Node ν μ) :
    backlog B (s.set n node) = backlog B s :=
  Finset.sum_congr rfl fun b hb => by rw [set_other node (ne_of_mem_of_not_mem hb h)]

theorem space_set_other (h : n ≠ k) (node : Node ν μ) : N.space (s.set n node) k = N.space s k := by
  rw [space, space, set_other node h.symm]

theorem space_put_self (mail : Mail μ) (h : N.Room s k) :
    N.space (s.put k mail) k + 1 = N.space s k := by
  unfold Room at h
  rw [space, space, put_self, List.length_append, List.length_singleton]
  omega

/-- A message that a node of `B` owed has gone to `k`. -/
theorem backlog_put (hk : k ∉ B) (mail : Mail μ) (hroom : N.Room s' k)
    (hless : backlog B s' + 1 = backlog B s) (hspace : N.space s' k = N.space s k) :
    backlog B (s'.put k mail) + N.space s k = backlog B s + N.space (s'.put k mail) k := by
  have hput : backlog B (s'.put k mail) = backlog B s' := backlog_set_notMem hk _
  have hroom' := space_put_self mail hroom
  omega

omit [DecidableEq ν] in
/-- A state with the same nodes. -/
theorem backlog_congr (h : s'.node = s.node) : backlog B s' = backlog B s := by
  rw [backlog, backlog, h]

omit [DecidableEq ν] in
theorem space_congr (h : s'.node = s.node) : N.space s' k = N.space s k := by
  rw [space, space, h]

theorem closing_set {node : Node ν μ} (h : ∀ n, (s.node n).Closing k B n)
    (hnode : node.Closing k B n) : ∀ j, ((s.set n node).node j).Closing k B j := by
  intro j
  by_cases hj : j = n
  · subst hj
    rwa [set_self]
  · rw [set_other node hj]
    exact h j

theorem closing_put (h : ∀ n, (s.node n).Closing k B n) (n : ν) (mail : Mail μ) :
    ∀ j, ((s.put n mail).node j).Closing k B j :=
  closing_set h ⟨(h n).exited, fun hn hstage => List.mem_append_left _ ((h n).told hn hstage)⟩

/-- Wherever the network has got to, the other nodes send to `k`. -/
theorem directed_step (hf : N.Feeds calm ok k) (h : Directed k s) (hs : N.step s e = some s') :
    Directed k s' :=
  begun_step (fun n _ c m _ _ => hf.directed n c s.shared m)
    (fun _ _ _ _ hq hne p hp => hq hne p (List.mem_cons_of_mem _ hp)) h hs

/-- Nothing that `k` could do is enabled. -/
theorem Halting.actor_ne (h : Halting N ok k B s) (hs : N.step s e = some s')
    (ha : e.actor = some n) : n ≠ k := by
  rintro rfl
  have hexited := (h.node n).exited rfl
  obtain ⟨hpool, hbusy⟩ := h.within.exited n hexited
  cases step_spec hs with
  | client | accepted | abandoned | relaunched | crashed => cases ha
  | posted hstage _ | halted hstage _ | joined hstage _ _ =>
    obtain rfl := Option.some.inj ha
    rw [hexited] at hstage
    cases hstage
  | invoked hm _ =>
    obtain rfl := Option.some.inj ha
    rw [hpool] at hm
    cases hm
  | sent hm _ | finished hm =>
    obtain rfl := Option.some.inj ha
    rw [hbusy] at hm
    cases hm

/-- The nodes stay as they are: `k` has exited, and `B` is told to stop. -/
theorem closing_step (h : Halting N ok k B s) (hu : Undisturbed calm k B e)
    (hs : N.step s e = some s') : ∀ n, (s'.node n).Closing k B n := by
  cases step_spec hs with
  | client | abandoned => exact h.node
  | @accepted i n mail hi hroom => exact closing_put (s := { s with outside := _ }) h.node n mail
  | @posted n m rest hstage hbox =>
    refine closing_set h.node ⟨fun hn => absurd hn (h.actor_ne hs rfl), fun hb _ => ?_⟩
    have hmem := (h.node n).told hb hstage
    rw [hbox] at hmem
    exact (List.mem_cons.mp hmem).resolve_left fun heq => (nomatch heq)
  | halted hstage hbox =>
    exact closing_set h.node ⟨fun hn => absurd hn (h.actor_ne hs rfl), fun _ hx => (nomatch hx)⟩
  | @invoked n i c m hpool hthread =>
    exact closing_set h.node ⟨(h.node n).exited, (h.node n).told⟩
  | @sent n n' i m m' rest hbusy hroom =>
    have hset : ∀ j, ((s.set n { s.node n with busy := (s.node n).busy.set i (m, rest) }).node
        j).Closing k B j := closing_set h.node ⟨(h.node n).exited, (h.node n).told⟩
    exact closing_put hset n' _
  | @finished n i m hbusy => exact closing_set h.node ⟨(h.node n).exited, (h.node n).told⟩
  | joined hstage hpool hbusy =>
    exact closing_set h.node ⟨fun _ => rfl, fun _ hx => (nomatch hx)⟩
  | @relaunched n hstage =>
    obtain ⟨hne, hnot⟩ := hu.relaunch n rfl
    exact closing_set h.node ⟨fun hn => absurd hn hne, fun hb => absurd hb hnot⟩
  | crashed hstage => exact closing_set h.node ⟨fun _ => rfl, fun _ hx => (nomatch hx)⟩

theorem halting_step {calm' : ν → χ → Prop} (hkeep : N.Keeps ok) (hf : N.Feeds calm ok k)
    (h : Halting N ok k B s) (hu : Undisturbed calm' k B e) (hs : N.step s e = some s') :
    Halting N ok k B s' :=
  ⟨within_step h.within hs, everywhere_step hkeep h.everywhere hs,
    directed_step hf h.directed hs, closing_step h hu hs⟩

/-! ## What is owed, and what there is room for -/

/-- What a node of `B` does by itself changes what is owed and the room left by the same
amount. -/
theorem backlog_own (hf : N.Feeds calm ok k) (hk : k ∉ B) (h : Halting N ok k B s)
    (hu : Undisturbed calm k B e) (hs : N.step s e = some s') (ha : e.actor = some n)
    (hb : n ∈ B) : backlog B s' + N.space s k = backlog B s + N.space s' k := by
  have hne := h.actor_ne hs ha
  cases step_spec hs with
  | client | accepted | abandoned | relaunched | crashed => cases ha
  | posted hstage hbox =>
    obtain rfl := Option.some.inj ha
    rw [space_set_other hne, backlog_set_same hb (owed_posted hstage hbox)]
  | halted hstage hbox =>
    obtain rfl := Option.some.inj ha
    rw [space_set_other hne, backlog_set_same hb (owed_halted hstage hbox)]
  | @invoked n' i c m hpool hthread =>
    obtain rfl := Option.some.inj ha
    obtain ⟨m', hone⟩ := hf.answers n' c s.shared m hne (hu.calm n' i c rfl)
      ((h.everywhere.node n').pool m (List.mem_of_getElem? hpool))
    have howed := owed_invoked (N.handle n' c s.shared m).2 hpool
    rw [hone, List.length_singleton] at howed
    show backlog B (s.set n' _) + _ = _ + N.space (s.set n' _) k
    rw [space_set_other hne, backlog_set_same hb (by rw [hone]; exact Nat.add_right_cancel howed)]
  | @sent n' k' i m m' rest hbusy hroom =>
    obtain rfl := Option.some.inj ha
    obtain rfl : k' = k :=
      h.directed n' _ (List.mem_of_getElem? hbusy) hne (k', m') List.mem_cons_self
    refine backlog_put hk _ ?_ (backlog_set_less hb (owed_sent hbusy)) (space_set_other hne _)
    unfold Room at hroom ⊢
    rwa [set_other _ hne.symm]
  | finished hbusy =>
    obtain rfl := Option.some.inj ha
    rw [space_set_other hne, backlog_set_same hb (owed_finished hbusy)]
  | joined hstage hpool hbusy =>
    obtain rfl := Option.some.inj ha
    rw [space_set_other hne, backlog_set_same hb (owed_joined hstage)]

/-- Mail for `k` takes room, and mail for a node of `B` is owed or comes too late. -/
theorem backlog_accepted (hk : k ∉ B) (mail : Mail μ) (hroom : N.Room s' n)
    (hsame : backlog B s' = backlog B s) (hspace : N.space s' k = N.space s k) :
    backlog B s + N.space (s'.put n mail) k ≤ backlog B (s'.put n mail) + N.space s k := by
  rw [← hsame, ← hspace]
  by_cases hn : n = k
  · subst hn
    have hput : backlog B (s'.put n mail) = backlog B s' := backlog_set_notMem hk _
    have hless := space_put_self mail hroom
    omega
  · have hother : N.space (s'.put n mail) k = N.space s' k := space_set_other hn _
    by_cases hb : n ∈ B
    · have hput : backlog B s' ≤ backlog B (s'.put n mail) :=
        backlog_set_mono hb (owed_append_le mail)
      omega
    · have hput : backlog B (s'.put n mail) = backlog B s' := backlog_set_notMem hb _
      omega

/-- What is owed never falls below the room by more than before. -/
theorem backlog_step (hf : N.Feeds calm ok k) (hk : k ∉ B) (h : Halting N ok k B s)
    (hu : Undisturbed calm k B e) (hs : N.step s e = some s') :
    backlog B s + N.space s' k ≤ backlog B s' + N.space s k := by
  by_cases hown : ∃ n, e.actor = some n ∧ n ∈ B
  · obtain ⟨n, ha, hb⟩ := hown
    exact (backlog_own hf hk h hu hs ha hb).symm.le.trans_eq rfl
  · have hnot : ∀ n, e.actor = some n → n ∉ B := fun n ha hb => hown ⟨n, ha, hb⟩
    have hset : ∀ {n : ν} {node : Node ν μ}, n ∉ B → n ≠ k →
        backlog B s + N.space (s.set n node) k ≤ backlog B (s.set n node) + N.space s k := by
      intro n node hb hne
      rw [backlog_set_notMem hb, space_set_other hne]
    cases step_spec hs with
    | client o => exact Nat.le_refl _
    | accepted hi hroom => exact backlog_accepted hk _ hroom rfl rfl
    | abandoned hi => exact Nat.le_refl _
    | posted hstage hbox => exact hset (hnot _ rfl) (h.actor_ne hs rfl)
    | halted hstage hbox => exact hset (hnot _ rfl) (h.actor_ne hs rfl)
    | invoked hpool hthread => exact hset (hnot _ rfl) (h.actor_ne hs rfl)
    | @sent n k' i m m' rest hbusy hroom =>
      have hne := h.actor_ne hs rfl
      obtain rfl : k' = k :=
        h.directed n _ (List.mem_of_getElem? hbusy) hne (k', m') List.mem_cons_self
      refine backlog_accepted hk _ ?_ (backlog_set_notMem (hnot n rfl) _) (space_set_other hne _)
      unfold Room at hroom ⊢
      rwa [set_other _ hne.symm]
    | finished hbusy => exact hset (hnot _ rfl) (h.actor_ne hs rfl)
    | joined hstage hpool hbusy => exact hset (hnot _ rfl) (h.actor_ne hs rfl)
    | @relaunched n hstage => exact hset (hu.relaunch n rfl).2 (hu.relaunch n rfl).1
    | @crashed n hstage =>
      refine hset (hu.crash n rfl) ?_
      rintro rfl
      exact hstage ((h.node n).exited rfl)

/-! ## Whether the nodes can exit -/

/-- The events by which the nodes of `B` go on. -/
structure Event.Own (calm : ν → χ → Prop) (B : Finset ν) (e : Event ν χ ω) : Prop where
  calm : ∀ n i c, e = .invoke n i c → calm n c
  actor : ∃ b ∈ B, e.actor = some b

omit [DecidableEq ν] in
theorem Event.Own.internal (h : Event.Own calm B e) : e.internal = true := by
  obtain ⟨b, -, ha⟩ := h.actor
  cases e with
  | client | accept | abandon | relaunch | crash => cases ha
  | receive | invoke | send | finish | join => rfl

omit [DecidableEq ν] in
theorem Event.Own.undisturbed (h : Event.Own calm B e) : Undisturbed calm k B e := by
  obtain ⟨b, -, ha⟩ := h.actor
  refine ⟨h.calm, fun n hn => ?_, fun n hn => ?_⟩
  · rw [hn] at ha
    cases ha
  · rw [hn] at ha
    cases ha

omit [DecidableEq ν] in
/-- An event that calls no handler. -/
theorem Event.Own.of_ne {b : ν} (hb : b ∈ B) (ha : e.actor = some b)
    (he : ∀ n i c, e ≠ .invoke n i c) : Event.Own calm B e :=
  ⟨fun n i c h => absurd h (he n i c), b, hb, ha⟩

/-- A node of `B` that has not exited can go on, when what `B` owes fits. -/
theorem Halting.goes_on (h : Halting N ok k B s) (hk : k ∉ B)
    (hthreads : ∀ n, 0 < N.threads n) (hfit : backlog B s ≤ N.space s k) {b : ν} (hb : b ∈ B)
    (hstage : (s.node b).stage ≠ .exited) {c : χ} (hc : calm b c) :
    ∃ e, Event.Own calm B e ∧ e.actor = some b ∧ (N.step s e).isSome := by
  have hne : b ≠ k := ne_of_mem_of_not_mem hb hk
  cases hst : (s.node b).stage with
  | exited => exact absurd hst hstage
  | receiving =>
    have hmem := (h.node b).told hb hst
    cases hbox : (s.node b).box with
    | nil =>
      rw [hbox] at hmem
      cases hmem
    | cons mail rest =>
      refine ⟨.receive b, .of_ne hb rfl (by simp), rfl, ?_⟩
      cases mail <;> simp only [step, hst, hbox, Option.isSome_some]
  | draining =>
    cases hbusy : (s.node b).busy with
    | cons t rest =>
      obtain ⟨m, outs⟩ := t
      cases outs with
      | nil =>
        refine ⟨.finish b 0, .of_ne hb rfl (by simp), rfl, ?_⟩
        simp only [step, hbusy, List.getElem?_cons_zero, Option.isSome_some]
      | cons p outs =>
        have hroom : N.Room s p.1 := by
          rw [h.directed b (m, p :: outs) (hbusy ▸ List.mem_cons_self) hne p
            List.mem_cons_self]
          -- what this handler has to send is part of what is owed
          have hone : 1 ≤ (s.node b).owed := by
            simp only [Node.owed, hbusy, List.map_cons, List.sum_cons, List.length_cons]
            omega
          have hle : (s.node b).owed ≤ backlog B s :=
            Finset.single_le_sum (f := fun b => (s.node b).owed) (fun _ _ => Nat.zero_le _) hb
          unfold space at hfit
          unfold Room
          omega
        refine ⟨.send b 0, .of_ne hb rfl (by simp), rfl, ?_⟩
        simp only [step, hbusy, List.getElem?_cons_zero, if_pos hroom, Option.isSome_some]
    | nil =>
      cases hpool : (s.node b).pool with
      | nil =>
        refine ⟨.join b, .of_ne hb rfl (by simp), rfl, ?_⟩
        rw [step, if_pos ⟨hst, hpool, hbusy⟩, Option.isSome_some]
      | cons m rest =>
        have hthread : (s.node b).busy.length < N.threads b := by
          rw [hbusy]
          exact hthreads b
        refine ⟨.invoke b 0 c, ⟨fun _ _ _ he => ?_, b, hb, rfl⟩, rfl, ?_⟩
        · cases he
          exact hc
        · simp only [step, hpool, List.getElem?_cons_zero, if_pos hthread, Option.isSome_some]

/-- **When the nodes can exit**: while `k` stays as it is and nobody kills or launches a
node of `B`, some run lets all of `B` exit exactly if what they owe fits into the
mailbox of `k`. -/
theorem Halting.exits_iff [Fintype ν] {w : ν → μ → Nat} (h : Halting N ok k B s) (hk : k ∉ B)
    (hkeep : N.Keeps ok) (hp : N.Pays ok w) (hf : N.Feeds calm ok k)
    (hthreads : ∀ n, 0 < N.threads n) {c : χ} (hc : ∀ n, calm n c) :
    (∃ es t, (∀ e ∈ es, Undisturbed calm k B e) ∧ run N.step s es = some t ∧
      ∀ b ∈ B, (t.node b).stage = .exited) ↔ backlog B s ≤ N.space s k := by
  constructor
  · rintro ⟨es, t, hes, hrun, hexited⟩
    have hr : Reaches N.step (fun _ => Undisturbed calm k B) s t :=
      reaches_of_run (runOk_of_forall fun e he _ => hes e he) hrun
    have hinv : Halting N ok k B t ∧ backlog B s + N.space t k ≤ backlog B t + N.space s k := by
      refine hr.invariant (P := fun t => Halting N ok k B t ∧
        backlog B s + N.space t k ≤ backlog B t + N.space s k) ⟨h, Nat.le_refl _⟩
        fun {a b e} ha hu hs => ⟨halting_step hkeep hf ha.1 hu hs, ?_⟩
      have hstep := backlog_step hf hk ha.1 hu hs
      have hbefore := ha.2
      omega
    -- a node that has exited owes nothing
    have hzero : backlog B t = 0 := by
      refine Finset.sum_eq_zero fun b hb => ?_
      obtain ⟨hpool, hbusy⟩ := hinv.1.within.exited b (hexited b hb)
      simp only [Node.owed, hexited b hb, hpool, hbusy]
      rfl
    have hle := hinv.2
    omega
  · intro hfit
    have hgo : ∀ {a : State ν μ σ}, Halting N ok k B a ∧ backlog B a ≤ N.space a k →
        ¬ (∀ b ∈ B, (a.node b).stage = .exited) → ∃ e a', Event.Own calm B e ∧
          N.step a e = some a' ∧ (Halting N ok k B a' ∧ backlog B a' ≤ N.space a' k) ∧
          (price w).total a' < (price w).total a := by
      intro a ⟨ha, hroom⟩ hnot
      simp only [not_forall] at hnot
      obtain ⟨b, hb, hstage⟩ := hnot
      obtain ⟨e, hown, hactor, hsome⟩ := ha.goes_on hk hthreads hroom hb hstage (hc b)
      obtain ⟨a', hs⟩ := Option.isSome_iff_exists.mp hsome
      have hsame := backlog_own hf hk ha hown.undisturbed hs hactor hb
      refine ⟨e, a', hown, hs, ⟨halting_step hkeep hf ha hown.undisturbed hs, ?_⟩,
        price_step hp ha.everywhere hown.internal hs⟩
      omega
    obtain ⟨es, t, hes, hrun, hexited⟩ := run_completes hgo ⟨h, hfit⟩
    exact ⟨es, t, fun e he => (hes e he).undisturbed, hrun, hexited⟩

/-! ## Runs that are left alone -/

/-- What a node of `B` does by itself, with handlers that are not calm as well: one that
sends nothing leaves less to be owed. -/
theorem backlog_own_le (hf : N.Feeds calm ok k) (hk : k ∉ B) (h : Halting N ok k B s)
    (hs : N.step s e = some s') (ha : e.actor = some n) (hb : n ∈ B) :
    backlog B s' + N.space s k ≤ backlog B s + N.space s' k := by
  by_cases hinvoke : ∃ n' i c, e = .invoke n' i c
  · obtain ⟨n', i, c, rfl⟩ := hinvoke
    have hne := h.actor_ne hs ha
    obtain rfl := Option.some.inj ha
    cases step_spec hs with
    | @invoked _ _ _ m hpool hthread =>
      have howed := owed_invoked (N.handle n' c s.shared m).2 hpool
      have hless := howed.le.trans (Nat.add_le_add_left (hf.atMost n' c s.shared m hne) _)
      show backlog B (s.set n' _) + _ ≤ _ + N.space (s.set n' _) k
      rw [space_set_other hne]
      exact Nat.add_le_add_right (backlog_set_le hb (Nat.le_of_add_le_add_right hless)) _
  · have hown : Event.Own calm B e :=
      .of_ne hb ha fun n' i c he => hinvoke ⟨n', i, c, he⟩
    exact (backlog_own hf hk h hown.undisturbed hs ha hb).le

/-- The clients that wait for room at `k`. -/
def waiting (s : State ν μ σ) (k : ν) : Nat := s.outside.countP fun p => p.1 = k

/-- Left alone, what all other nodes owe and the clients that wait for `k` keep fitting. -/
theorem waiting_step [Fintype ν] (hf : N.Feeds calm ok k)
    (h : Halting N ok k (Finset.univ.erase k) s) (he : e.internal = true)
    (hs : N.step s e = some s')
    (hfit : backlog (Finset.univ.erase k) s + waiting s k ≤ N.space s k) :
    backlog (Finset.univ.erase k) s' + waiting s' k ≤ N.space s' k := by
  have hk : k ∉ Finset.univ.erase k := Finset.notMem_erase k _
  cases ha : e.actor with
  | some n =>
    have hb : n ∈ Finset.univ.erase k :=
      Finset.mem_erase.mpr ⟨h.actor_ne hs ha, Finset.mem_univ n⟩
    have hless := backlog_own_le hf hk h hs ha hb
    have hwait : waiting s' k = waiting s k := by
      cases step_spec hs with
      | client | accepted | abandoned | relaunched | crashed => cases ha
      | _ => rfl
    omega
  | none =>
    cases step_spec hs with
    | client | abandoned | relaunched | crashed => cases he
    | posted | halted | invoked | sent | finished | joined => cases ha
    | @accepted i n mail hi hroom =>
      have hcount : waiting { s with outside := s.outside.eraseIdx i } k + (if n = k then 1 else 0)
          = waiting s k := by
        obtain ⟨hlt, hget⟩ := List.getElem?_eq_some_iff.mp hi
        have hperm := (List.getElem_cons_eraseIdx_perm hlt).countP_eq fun p => p.1 = k
        rw [List.countP_cons, hget] at hperm
        simpa only [waiting, decide_eq_true_eq] using hperm
      have hsame : ∀ {t : State ν μ σ}, t.node = s.node → N.Room t n →
          backlog (Finset.univ.erase k) (t.put n mail) = backlog (Finset.univ.erase k) s ∧
            N.space (t.put n mail) k + (if n = k then 1 else 0) = N.space s k := by
        intro t hnode hroom
        rw [← backlog_congr hnode, ← space_congr hnode]
        by_cases hnk : n = k
        · subst hnk
          rw [if_pos rfl]
          exact ⟨backlog_set_notMem hk _, space_put_self mail hroom⟩
        · have hb : n ∈ Finset.univ.erase k := Finset.mem_erase.mpr ⟨hnk, Finset.mem_univ n⟩
          have htold : (t.node n).Told := hnode ▸ (h.node n).told hb
          rw [if_neg hnk, Nat.add_zero]
          exact ⟨backlog_set_same hb (owed_append_told htold mail), space_set_other hnk _⟩
      obtain ⟨hback, hspace⟩ := hsame (t := { s with outside := s.outside.eraseIdx i }) rfl hroom
      rw [hback]
      show _ + waiting { s with outside := s.outside.eraseIdx i } k ≤ _
      omega

/-- **When the nodes do exit**: if what all other nodes owe and the clients that wait for
`k` fit together, then left alone no run stops before all of them have exited. -/
theorem Halting.stuck_exited [Fintype ν] (h : Halting N ok k (Finset.univ.erase k) s)
    (hkeep : N.Keeps ok) (hf : N.Feeds calm ok k) (hthreads : ∀ n, 0 < N.threads n) {c : χ}
    (hc : ∀ n, calm n c)
    (hfit : backlog (Finset.univ.erase k) s + waiting s k ≤ N.space s k)
    {es : List (Event ν χ ω)} {t : State ν μ σ}
    (hes : ∀ e ∈ es, e.internal = true)
    (hrun : run N.step s es = some t) (hstuck : N.Stuck t) :
    ∀ n, (t.node n).stage = .exited := by
  have hk : k ∉ Finset.univ.erase k := Finset.notMem_erase k _
  have hr : Reaches N.step (fun _ e => e.internal = true) s t :=
    reaches_of_run (runOk_of_forall fun e he _ => hes e he) hrun
  have hinv : Halting N ok k (Finset.univ.erase k) t ∧
      backlog (Finset.univ.erase k) t + waiting t k ≤ N.space t k := by
    refine hr.invariant (P := fun t => Halting N ok k (Finset.univ.erase k) t ∧
      backlog (Finset.univ.erase k) t + waiting t k ≤ N.space t k) ⟨h, hfit⟩
      fun {a b e} ha hint hs => ⟨halting_step hkeep hf ha.1 (.of_internal hint) hs,
        waiting_step hf ha.1 hint hs ha.2⟩
  intro n
  by_cases hnk : n = k
  · exact (hinv.1.node n).exited hnk
  · by_contra hstage
    have hb : n ∈ Finset.univ.erase k := Finset.mem_erase.mpr ⟨hnk, Finset.mem_univ n⟩
    obtain ⟨e, hown, -, hsome⟩ := hinv.1.goes_on hk hthreads (Nat.le_of_add_right_le hinv.2) hb
      hstage (hc n)
    rw [hstuck e hown.internal] at hsome
    cases hsome

end Network

end Lib
