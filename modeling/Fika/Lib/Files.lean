import Mathlib.Logic.Function.Basic

/-!
# Files and their names

A name is bound to a file object or to none. Opening a name for writing empties the
object it is bound to, or binds it to a new one; whoever has opened an object writes
to it at a position of its own, whatever becomes of the name; a rename takes the
binding from one name to another, whose own is lost.

- `Files`: the names, the objects and their bytes; `read`: what a name shows.
- `openTrunc`, `write`, `rename`, `unlink`: the operations; `patch`: the bytes after
  a write.
- `Sound`: no two names share an object.
- `Same`: a name keeps its object and shows the same; every operation keeps all names
  but its own (`same_openTrunc`, `same_write`, `same_rename`, `same_unlink`).
-/

namespace Lib

universe u v

/-- The names of a file system and its file objects, numbered in the order of their
creation. -/
structure Files (ι : Type u) (β : Type v) where
  names : ι → Option Nat := fun _ => none
  data : Nat → List β := fun _ => []
  next : Nat := 0

/-- What a file holds after `text` was written at `pos`; a gap before it is filled. -/
def patch {β : Type v} [Inhabited β] (old : List β) (pos : Nat) (text : List β) : List β :=
  old.take pos ++ List.replicate (pos - old.length) default ++ text ++ old.drop (pos + text.length)

/-- Writing on where the file ends appends to it. -/
theorem patch_end {β : Type v} [Inhabited β] {old : List β} {pos : Nat} (text : List β)
    (h : old.length = pos) : patch old pos text = old ++ text := by
  have htake : old.take pos = old := List.take_of_length_le (Nat.le_of_eq h)
  have hdrop : old.drop (pos + text.length) = [] := List.drop_eq_nil_iff.mpr (by omega)
  rw [patch, htake, hdrop, h, Nat.sub_self, List.replicate_zero, List.append_nil, List.append_nil]

/-- The next piece of a text is written where the pieces before it end. -/
theorem patch_take {β : Type v} [Inhabited β] {text : List β} {w n : Nat}
    (h : w + n ≤ text.length) :
    patch (text.take w) w ((text.drop w).take n) = text.take (w + n) := by
  have hlen : (text.take w).length = w := by
    rw [List.length_take]
    omega
  rw [patch_end _ hlen, List.take_add]

namespace Files

variable {ι : Type u} {β : Type v} {f g : Files ι β} {p q : ι} {o : Nat}

/-- What is found under a name. -/
def read (f : Files ι β) (p : ι) : Option (List β) := (f.names p).map f.data

/-- Write to an open object. -/
def write [Inhabited β] (f : Files ι β) (o pos : Nat) (text : List β) : Files ι β :=
  { f with data := Function.update f.data o (patch (f.data o) pos text) }

/-- No two names share an object. -/
structure Sound (f : Files ι β) : Prop where
  created : ∀ p o, f.names p = some o → o < f.next
  once : ∀ p q o, f.names p = some o → f.names q = some o → p = q

theorem sound_empty : ({} : Files ι β).Sound where
  created _ _ h := by cases h
  once _ _ _ h := by cases h

/-- The name is bound to the same object, which shows the same. -/
structure Same (f g : Files ι β) (p : ι) : Prop where
  names : g.names p = f.names p
  read : g.read p = f.read p

theorem same_of_names (hn : g.names p = f.names p)
    (hd : ∀ o, f.names p = some o → g.data o = f.data o) : Same f g p := by
  refine ⟨hn, ?_⟩
  rw [read, read, hn]
  cases h : f.names p with
  | none => rfl
  | some o =>
    show some (g.data o) = some (f.data o)
    rw [hd o h]

theorem read_of_names (h : f.names p = some o) : f.read p = some (f.data o) := by
  rw [read, h]
  rfl

/-! ## Writing -/

section
variable [Inhabited β]

theorem read_write (h : f.names p = some o) (pos : Nat) (text : List β) :
    (f.write o pos text).read p = some (patch (f.data o) pos text) := by
  rw [read_of_names (f := f.write o pos text) (o := o) h]
  exact congrArg some (Function.update_self ..)

theorem same_write (hf : f.Sound) (hp : f.names p = some o) (h : q ≠ p) (pos : Nat)
    (text : List β) : Same f (f.write o pos text) q := by
  refine same_of_names rfl fun o' ho' => Function.update_of_ne ?_ ..
  rintro rfl
  exact h (hf.once q p _ ho' hp)

theorem Sound.write (hf : f.Sound) (o pos : Nat) (text : List β) : (f.write o pos text).Sound :=
  ⟨hf.created, hf.once⟩

end

/-! ## Opening, renaming, removing -/

variable [DecidableEq ι]

/-- Open a name for writing, which creates the file or empties it. -/
def openTrunc (f : Files ι β) (p : ι) : Files ι β × Nat :=
  match f.names p with
  | some o => ({ f with data := Function.update f.data o [] }, o)
  | none =>
    ({ names := Function.update f.names p (some f.next)
       data := Function.update f.data f.next []
       next := f.next + 1 }, f.next)

/-- Rename a file that exists; what the new name was bound to is lost. -/
def rename (f : Files ι β) (p q : ι) : Option (Files ι β) :=
  (f.names p).map fun o =>
    { f with names := Function.update (Function.update f.names p none) q (some o) }

/-- Remove a name. -/
def unlink (f : Files ι β) (p : ι) : Files ι β :=
  { f with names := Function.update f.names p none }

theorem openTrunc_of_bound (h : f.names p = some o) :
    f.openTrunc p = ({ f with data := Function.update f.data o [] }, o) := by
  simp only [openTrunc, h]

theorem openTrunc_of_unbound (h : f.names p = none) :
    f.openTrunc p = ({ names := Function.update f.names p (some f.next)
                       data := Function.update f.data f.next []
                       next := f.next + 1 }, f.next) := by
  simp only [openTrunc, h]

/-- An opened name is bound to the opened object. -/
theorem names_openTrunc (f : Files ι β) (p : ι) :
    (f.openTrunc p).1.names p = some (f.openTrunc p).2 := by
  cases h : f.names p with
  | none =>
    rw [openTrunc_of_unbound h]
    exact Function.update_self ..
  | some o =>
    rw [openTrunc_of_bound h]
    exact h

/-- An opened file is empty. -/
theorem read_openTrunc (f : Files ι β) (p : ι) : (f.openTrunc p).1.read p = some [] := by
  rw [read_of_names (names_openTrunc f p), Option.some.injEq]
  cases h : f.names p with
  | none =>
    rw [openTrunc_of_unbound h]
    exact Function.update_self ..
  | some o =>
    rw [openTrunc_of_bound h]
    exact Function.update_self ..

theorem same_openTrunc (hf : f.Sound) (h : q ≠ p) : Same f (f.openTrunc p).1 q := by
  cases hp : f.names p with
  | none =>
    rw [openTrunc_of_unbound hp]
    refine same_of_names (Function.update_of_ne h ..) fun o ho => ?_
    -- a new object is no one's yet
    exact Function.update_of_ne (Nat.ne_of_lt (hf.created q o ho)) ..
  | some o =>
    rw [openTrunc_of_bound hp]
    refine same_of_names rfl fun o' ho' => Function.update_of_ne ?_ ..
    rintro rfl
    exact h (hf.once q p _ ho' hp)

/-- What an opened file is bound to was there before, or is new. -/
theorem names_openTrunc_cases (h : (f.openTrunc p).1.names q = some o) :
    f.names q = some o ∨ (q = p ∧ o = f.next ∧ (f.openTrunc p).1.next = f.next + 1) := by
  cases hp : f.names p with
  | some o' =>
    rw [openTrunc_of_bound hp] at h
    exact .inl h
  | none =>
    rw [openTrunc_of_unbound hp] at h ⊢
    change Function.update f.names p (some f.next) q = some o at h
    by_cases hq : q = p
    · rw [hq, Function.update_self] at h
      exact .inr ⟨hq, (Option.some.inj h).symm, rfl⟩
    · rw [Function.update_of_ne hq] at h
      exact .inl h

theorem next_openTrunc (f : Files ι β) (p : ι) : f.next ≤ (f.openTrunc p).1.next := by
  cases hp : f.names p with
  | some o =>
    simp only [openTrunc_of_bound hp, Nat.le_refl]
  | none =>
    simp only [openTrunc_of_unbound hp, Nat.le_succ]

theorem Sound.openTrunc (hf : f.Sound) (p : ι) : (f.openTrunc p).1.Sound := by
  constructor
  · intro q o ho
    rcases names_openTrunc_cases ho with hold | ⟨-, rfl, hnext⟩
    · exact Nat.lt_of_lt_of_le (hf.created q o hold) (next_openTrunc f p)
    · rw [hnext]
      exact Nat.lt_succ_self _
  · intro q q' o ho ho'
    rcases names_openTrunc_cases ho with hold | ⟨rfl, rfl, -⟩
    · rcases names_openTrunc_cases ho' with hold' | ⟨-, rfl, -⟩
      · exact hf.once q q' o hold hold'
      · exact absurd (hf.created q _ hold) (Nat.lt_irrefl _)
    · rcases names_openTrunc_cases ho' with hold' | ⟨rfl, -, -⟩
      · exact absurd (hf.created q' _ hold') (Nat.lt_irrefl _)
      · rfl

theorem rename_eq_none : f.rename p q = none ↔ f.read p = none := by
  rw [rename, read, Option.map_eq_none_iff, Option.map_eq_none_iff]

/-- A rename shows the file under its new name only. -/
theorem rename_spec (h : f.rename p q = some g) (hpq : p ≠ q) :
    g.read q = f.read p ∧ g.read p = none ∧ ∀ r, r ≠ p → r ≠ q → Same f g r := by
  obtain ⟨o, ho, rfl⟩ := Option.map_eq_some_iff.mp h
  refine ⟨?_, ?_, fun r hp hq => same_of_names ?_ fun _ _ => rfl⟩
  · rw [read_of_names ho, read_of_names (o := o) (Function.update_self ..)]
  · show (Function.update (Function.update f.names p none) q (some o) p).map _ = none
    rw [Function.update_of_ne hpq, Function.update_self]
    rfl
  · show Function.update (Function.update f.names p none) q (some o) r = f.names r
    rw [Function.update_of_ne hq, Function.update_of_ne hp]

/-- A name is bound to what it was bound to, or to what was renamed to it. -/
theorem names_rename {r : ι} (h : f.rename p q = some g) (hr : g.names r = some o) :
    (r = q ∧ f.names p = some o) ∨ (r ≠ p ∧ f.names r = some o) := by
  obtain ⟨o', ho', rfl⟩ := Option.map_eq_some_iff.mp h
  change Function.update (Function.update f.names p none) q (some o') r = some o at hr
  by_cases hq : r = q
  · rw [hq, Function.update_self] at hr
    exact .inl ⟨hq, ho'.trans hr⟩
  · rw [Function.update_of_ne hq] at hr
    by_cases hp : r = p
    · rw [hp, Function.update_self] at hr
      cases hr
    · rw [Function.update_of_ne hp] at hr
      exact .inr ⟨hp, hr⟩

theorem next_rename (h : f.rename p q = some g) : g.next = f.next := by
  obtain ⟨o, -, rfl⟩ := Option.map_eq_some_iff.mp h
  rfl

theorem Sound.rename (hf : f.Sound) (h : f.rename p q = some g) : g.Sound := by
  constructor
  · intro r o hr
    rw [next_rename h]
    rcases names_rename h hr with ⟨-, hold⟩ | ⟨-, hold⟩
    · exact hf.created p o hold
    · exact hf.created r o hold
  · intro r r' o hr hr'
    rcases names_rename h hr with ⟨rfl, hold⟩ | ⟨hne, hold⟩
    · rcases names_rename h hr' with ⟨rfl, -⟩ | ⟨hne', hold'⟩
      · rfl
      · exact absurd (hf.once r' p o hold' hold) hne'
    · rcases names_rename h hr' with ⟨rfl, hold'⟩ | ⟨-, hold'⟩
      · exact absurd (hf.once r p o hold hold') hne
      · exact hf.once r r' o hold hold'

theorem read_unlink (f : Files ι β) (p : ι) : (f.unlink p).read p = none := by
  show (Function.update f.names p none p).map f.data = none
  rw [Function.update_self]
  rfl

theorem same_unlink (h : q ≠ p) : Same f (f.unlink p) q :=
  same_of_names (Function.update_of_ne h ..) fun _ _ => rfl

theorem names_unlink (h : (f.unlink p).names q = some o) : f.names q = some o := by
  change Function.update f.names p none q = some o at h
  by_cases hq : q = p
  · rw [hq, Function.update_self] at h
    cases h
  · rwa [Function.update_of_ne hq] at h

theorem Sound.unlink (hf : f.Sound) (p : ι) : (f.unlink p).Sound :=
  ⟨fun q o ho => hf.created q o (names_unlink ho),
    fun q q' o ho ho' => hf.once q q' o (names_unlink ho) (names_unlink ho')⟩

end Files

end Lib
