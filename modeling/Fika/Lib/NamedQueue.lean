import Mathlib.Logic.Function.Basic

/-!
# Named message queues

A name of the system is bound to a queue object or to none. Opening a name gives
the object it is bound to; removing the name unbinds it, while whoever has opened
the object keeps it; creating the name again binds it to a new object.

- `NamedQueue`: one name, the objects it has been bound to, and their messages.
- `openOrCreate`, `remove`, `send`, `pop`: the operations.
- `mem_openOrCreate`, `mem_send`, `mem_pop`: where a message in a queue comes from.
- `Use`, `Orphaned`: any operation, and an object no name is bound to any more;
  `Use.orphaned`: none will ever be again.
-/

namespace Lib

universe u

/-- A name and the queue objects that have been bound to it; objects are numbered
in the order of their creation. -/
structure NamedQueue (μ : Type u) where
  bound : Option Nat := none
  contents : Nat → List μ := fun _ => []
  next : Nat := 0

namespace NamedQueue

variable {μ : Type u} {q q' : NamedQueue μ} {o o' : Nat} {m m' : μ}

/-- Unbind the name. -/
def remove (q : NamedQueue μ) : NamedQueue μ := { q with bound := none }

/-- The object the name is bound to, a new and empty one if it was not bound. -/
def openOrCreate (q : NamedQueue μ) : NamedQueue μ × Nat :=
  match q.bound with
  | some o => (q, o)
  | none =>
    ({ bound := some q.next
       contents := Function.update q.contents q.next []
       next := q.next + 1 }, q.next)

/-- Append a message to an object. -/
def send (q : NamedQueue μ) (o : Nat) (m : μ) : NamedQueue μ :=
  { q with contents := Function.update q.contents o (q.contents o ++ [m]) }

/-- Take the first message out of an object. -/
def pop (q : NamedQueue μ) (o : Nat) : NamedQueue μ :=
  { q with contents := Function.update q.contents o (q.contents o).tail }

/-- An opened name is bound to the opened object. -/
theorem openOrCreate_bound (q : NamedQueue μ) : q.openOrCreate.1.bound = some q.openOrCreate.2 := by
  unfold openOrCreate
  cases hb : q.bound with
  | none => rfl
  | some o => exact hb

/-- Opening a bound name changes nothing. -/
theorem openOrCreate_of_bound (h : q.bound = some o) : q.openOrCreate = (q, o) := by
  simp only [openOrCreate, h]

/-- A bound name stays bound to its object. -/
theorem bound_openOrCreate (h : q.bound = some o) : q.openOrCreate.1.bound = some o := by
  rw [openOrCreate_of_bound h]
  exact h

/-- Opening an unbound name creates the next object. -/
theorem openOrCreate_of_unbound (h : q.bound = none) :
    q.openOrCreate = ({ bound := some q.next
                        contents := Function.update q.contents q.next []
                        next := q.next + 1 }, q.next) := by
  simp only [openOrCreate, h]

theorem mem_openOrCreate (h : m ∈ q.openOrCreate.1.contents o) : m ∈ q.contents o := by
  cases hb : q.bound with
  | some o' => rwa [openOrCreate_of_bound hb] at h
  | none =>
    rw [openOrCreate_of_unbound hb] at h
    change m ∈ Function.update q.contents q.next [] o at h
    by_cases ho : o = q.next
    · rw [ho, Function.update_self] at h
      cases h
    · rwa [Function.update_of_ne ho] at h

/-- What is in an opened object was there before: the object was bound already. -/
theorem bound_of_mem_opened (h : m ∈ q.openOrCreate.1.contents q.openOrCreate.2) :
    q.bound = some q.openOrCreate.2 := by
  cases hb : q.bound with
  | some o => rw [openOrCreate_of_bound hb]
  | none =>
    rw [openOrCreate_of_unbound hb] at h
    change m ∈ Function.update q.contents q.next [] q.next at h
    rw [Function.update_self] at h
    cases h

/-- An object that existed and that an opened name is bound to was bound before. -/
theorem bound_of_opened (h : q.openOrCreate.1.bound = some o) (ho : o < q.next) :
    q.bound = some o := by
  cases hb : q.bound with
  | some o' =>
    rw [openOrCreate_of_bound hb] at h
    exact hb.symm.trans h
  | none =>
    rw [openOrCreate_of_unbound hb] at h
    exact absurd (Option.some.inj h) (Nat.ne_of_gt ho)

theorem mem_send_self : m' ∈ (q.send o m).contents o ↔ m' ∈ q.contents o ∨ m' = m := by
  change m' ∈ Function.update q.contents o (q.contents o ++ [m]) o ↔ _
  rw [Function.update_self, List.mem_append, List.mem_singleton]

theorem mem_send (h : m' ∈ (q.send o m).contents o') :
    m' ∈ q.contents o' ∨ (o' = o ∧ m' = m) := by
  change m' ∈ Function.update q.contents o (q.contents o ++ [m]) o' at h
  by_cases ho : o' = o
  · subst ho
    exact (mem_send_self.mp h).imp id fun hm => ⟨rfl, hm⟩
  · rw [Function.update_of_ne ho] at h
    exact .inl h

theorem mem_pop (h : m ∈ (q.pop o).contents o') : m ∈ q.contents o' := by
  change m ∈ Function.update q.contents o (q.contents o).tail o' at h
  by_cases ho : o' = o
  · subst ho
    rw [Function.update_self] at h
    exact List.mem_of_mem_tail h
  · rwa [Function.update_of_ne ho] at h

/-! ## Any use of a name -/

/-- What one operation makes of a name and its objects. -/
inductive Use (q : NamedQueue μ) : NamedQueue μ → Prop where
  | same : Use q q
  | remove : Use q q.remove
  | openOrCreate : Use q q.openOrCreate.1
  | send (o : Nat) (m : μ) : Use q (q.send o m)
  | pop (o : Nat) : Use q (q.pop o)

/-- An object that exists and that the name is not bound to. -/
structure Orphaned (q : NamedQueue μ) (o : Nat) : Prop where
  created : o < q.next
  unbound : q.bound ≠ some o

/-- The name is bound to an object that has been created. -/
def Numbered (q : NamedQueue μ) : Prop := ∀ o, q.bound = some o → o < q.next

theorem Use.of_eq (h : q' = q) : q.Use q' := h ▸ .same

theorem Use.numbered (h : q.Use q') (hq : q.Numbered) : q'.Numbered := by
  cases h with
  | same | send | pop => exact hq
  | remove => exact fun _ ho => nomatch ho
  | openOrCreate =>
    cases hb : q.bound with
    | some o => rwa [openOrCreate_of_bound hb]
    | none =>
      rw [openOrCreate_of_unbound hb]
      intro o ho
      rw [← Option.some.inj ho]
      exact Nat.lt_succ_self q.next

theorem Use.next_le (h : q.Use q') : q.next ≤ q'.next := by
  cases h with
  | same | remove | send | pop => exact Nat.le_refl _
  | openOrCreate =>
    cases hb : q.bound with
    | some o => exact Nat.le_of_eq (congrArg (fun p => p.1.next) (openOrCreate_of_bound hb)).symm
    | none =>
      rw [openOrCreate_of_unbound hb]
      exact Nat.le_succ q.next

/-- New objects get new numbers: an object is bound to the name only once. -/
theorem Use.orphaned (h : q.Use q') (hq : q.Orphaned o) : q'.Orphaned o := by
  cases h with
  | same => exact hq
  | send | pop => exact ⟨hq.created, hq.unbound⟩
  | remove => exact ⟨hq.created, fun hn => nomatch hn⟩
  | openOrCreate =>
    cases hb : q.bound with
    | some o' => rwa [openOrCreate_of_bound hb]
    | none =>
      rw [openOrCreate_of_unbound hb]
      exact ⟨Nat.lt_succ_of_lt hq.created, fun ho => Nat.ne_of_gt hq.created (Option.some.inj ho)⟩

end NamedQueue

end Lib
