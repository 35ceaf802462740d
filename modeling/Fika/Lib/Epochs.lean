import Fika.Lib.NamedQueue
import Mathlib.Data.List.Nodup

/-!
# Names that every launch binds anew

A launcher takes over some names: it first removes all of them and then creates them
one by one. Anybody can open a name at any time, also between these steps, and a launcher
can be given up between any two of them; the next one begins again.

- `Epochs`: the names, what is left to do in the current launch, and which launch has
  created an object; `launch`, `remove`, `create`, `put`: what changes them.
- `Fresh`: what the steps keep; `fresh_launch`, `fresh_remove`, `fresh_create`,
  `fresh_put`. A name that is to be created is not bound (`Fresh.vacant`).
- `Placed`: the current launch has bound the name already.
- `Handle`, `Genuine`: an opened object; `Genuine.step` keeps it, and by
  `Genuine.object_iff` two handles that were opened on placed names lead to one object
  exactly if they were opened in one launch.
-/

namespace Lib

universe u v

/-- The names, and the launches that have begun. `created` only records in which of them
an object was created, with 0 for what was there before. -/
structure Epochs (ν : Type u) (μ : Type v) where
  names : ν → NamedQueue μ := fun _ => {}
  launches : Nat := 0
  toRemove : List ν := []
  toCreate : List ν := []
  created : ν → Nat → Nat := fun _ _ => 0

namespace Epochs

variable {ν : Type u} {μ : Type v} [DecidableEq ν] {ns rest : List ν} {s s' : Epochs ν μ} {n m : ν}
  {q : NamedQueue μ}

/-- A launcher begins. -/
def launch (s : Epochs ν μ) (ns : List ν) : Epochs ν μ :=
  { s with launches := s.launches + 1, toRemove := ns, toCreate := ns }

/-- It removes a name. -/
def remove (s : Epochs ν μ) (n : ν) (rest : List ν) : Epochs ν μ :=
  { s with names := Function.update s.names n (s.names n).remove, toRemove := rest }

/-- It creates a name that is not bound. -/
def create (s : Epochs ν μ) (n : ν) (rest : List ν) : Epochs ν μ :=
  { s with
    names := Function.update s.names n (s.names n).openOrCreate.1
    toCreate := rest
    created := Function.update s.created n
      (Function.update (s.created n) (s.names n).next s.launches) }

/-- The messages of an object change. -/
def put (s : Epochs ν μ) (n : ν) (q : NamedQueue μ) : Epochs ν μ :=
  { s with names := Function.update s.names n q }

/-- The current launch has bound the name. -/
def Placed (ns : List ν) (s : Epochs ν μ) (n : ν) : Prop :=
  0 < s.launches ∧ n ∈ ns ∧ n ∉ s.toCreate

instance (ns : List ν) (s : Epochs ν μ) (n : ν) : Decidable (Placed ns s n) :=
  inferInstanceAs (Decidable (_ ∧ _ ∧ _))

/-- What holds at any time, whichever launches have been given up on the way. -/
structure Fresh (ns : List ν) (s : Epochs ν μ) : Prop where
  numbered : ∀ n, (s.names n).Numbered
  created_le : ∀ n o, s.created n o ≤ s.launches
  /-- A launch creates at most one object for a name. -/
  once : ∀ n o o', o < (s.names n).next → o' < (s.names n).next → 0 < s.created n o →
    s.created n o = s.created n o' → o = o'
  subset : ∀ n ∈ s.toRemove, n ∈ s.toCreate
  nodup : s.toCreate.Nodup
  begun : ∀ n ∈ s.toCreate, 0 < s.launches
  pending : ∀ n ∈ s.toCreate, (n ∉ s.toRemove → (s.names n).bound = none) ∧
    ∀ o, o < (s.names n).next → s.created n o < s.launches
  placed : ∀ n, Placed ns s n → ∃ o, (s.names n).bound = some o ∧ s.created n o = s.launches

omit [DecidableEq ν] in
/-- **A name that is to be created is not bound**, once all of them have been removed. -/
theorem Fresh.vacant (h : Fresh ns s) (hremoved : s.toRemove = []) (hn : n ∈ s.toCreate) :
    (s.names n).bound = none :=
  (h.pending n hn).1 (by rw [hremoved]; exact List.not_mem_nil)

/-! ## The steps -/

theorem names_put_self : (s.put n q).names n = q := Function.update_self ..

theorem names_put_other (h : m ≠ n) : (s.put n q).names m = s.names m := Function.update_of_ne h ..

theorem names_remove_self : (s.remove n rest).names n = (s.names n).remove :=
  Function.update_self ..

theorem names_remove_other (h : m ≠ n) : (s.remove n rest).names m = s.names m :=
  Function.update_of_ne h ..

theorem next_remove (s : Epochs ν μ) (n : ν) (rest : List ν) (m : ν) :
    ((s.remove n rest).names m).next = (s.names m).next := by
  by_cases h : m = n
  · rw [h, names_remove_self]
    rfl
  · rw [names_remove_other h]

theorem names_create_self (hfree : (s.names n).bound = none) : (s.create n rest).names n =
    { bound := some (s.names n).next
      contents := Function.update (s.names n).contents (s.names n).next []
      next := (s.names n).next + 1 } := by
  show Function.update s.names n _ n = _
  rw [Function.update_self, NamedQueue.openOrCreate_of_unbound hfree]

theorem names_create_other (h : m ≠ n) : (s.create n rest).names m = s.names m :=
  Function.update_of_ne h ..

theorem created_create_new : (s.create n rest).created n (s.names n).next = s.launches := by
  show Function.update s.created n _ n _ = _
  rw [Function.update_self, Function.update_self]

theorem created_create_old {o : Nat} (h : m ≠ n ∨ o ≠ (s.names n).next) :
    (s.create n rest).created m o = s.created m o := by
  show Function.update s.created n _ m o = _
  by_cases hm : m = n
  · subst hm
    rw [Function.update_self, Function.update_of_ne (h.resolve_left fun hno => hno rfl)]
  · rw [Function.update_of_ne hm]

omit [DecidableEq ν] in
/-- Nothing was launched yet, whatever the names are bound to. -/
theorem fresh_start (names : ν → NamedQueue μ) (h : ∀ n, (names n).Numbered) :
    Fresh ns { names := names } where
  numbered := h
  created_le := fun _ _ => Nat.le_refl 0
  once := fun _ _ _ _ _ hpos _ => absurd hpos (Nat.lt_irrefl 0)
  subset := fun _ hn => hn
  nodup := .nil
  begun := fun _ hn => absurd hn List.not_mem_nil
  pending := fun _ hn => absurd hn List.not_mem_nil
  placed := fun _ hp => absurd hp.1 (Nat.lt_irrefl 0)

omit [DecidableEq ν] in
theorem fresh_launch (h : Fresh ns s) (hns : ns.Nodup) : Fresh ns (s.launch ns) where
  numbered := h.numbered
  created_le n o := Nat.le_succ_of_le (h.created_le n o)
  once := h.once
  subset := fun _ hn => hn
  nodup := hns
  begun := fun _ _ => Nat.succ_pos _
  pending n hn := ⟨fun hno => absurd hn hno, fun o _ => Nat.lt_succ_of_le (h.created_le n o)⟩
  placed := fun _ hp => absurd hp.2.1 hp.2.2

theorem fresh_remove (h : Fresh ns s) (hs : s.toRemove = n :: rest) :
    Fresh ns (s.remove n rest) where
  numbered m := by
    by_cases hm : m = n
    · rw [hm, names_remove_self]
      exact fun _ ho => by cases ho
    · rw [names_remove_other hm]
      exact h.numbered m
  created_le := h.created_le
  once m o o' ho ho' := by
    rw [next_remove] at ho ho'
    exact h.once m o o' ho ho'
  subset m hm := h.subset m (hs ▸ List.mem_cons_of_mem n hm)
  nodup := h.nodup
  begun := h.begun
  pending m hm := by
    refine ⟨fun hrest => ?_, fun o ho => ?_⟩
    · by_cases hmn : m = n
      · rw [hmn, names_remove_self]
        rfl
      · rw [names_remove_other hmn]
        refine (h.pending m hm).1 fun hin => ?_
        rw [hs] at hin
        exact (List.mem_cons.mp hin).elim hmn hrest
    · rw [next_remove] at ho
      exact (h.pending m hm).2 o ho
  placed m hp := by
    -- a name that is removed has not been created again
    have hmn : m ≠ n := by
      rintro rfl
      exact hp.2.2 (h.subset m (hs ▸ List.mem_cons_self))
    rw [names_remove_other hmn]
    exact h.placed m hp

/-- The object of this launch is new, and all others of its name are older. -/
theorem once_create (h : Fresh ns s) (hin : n ∈ s.toCreate)
    (hself : (s.create n rest).names n =
      { bound := some (s.names n).next
        contents := Function.update (s.names n).contents (s.names n).next []
        next := (s.names n).next + 1 })
    {o o' : Nat} (ho : o < ((s.create n rest).names m).next)
    (ho' : o' < ((s.create n rest).names m).next) (hpos : 0 < (s.create n rest).created m o)
    (heq : (s.create n rest).created m o = (s.create n rest).created m o') : o = o' := by
  by_cases hm : m = n
  · subst hm
    rw [hself] at ho ho'
    have hlt : ∀ {o}, o < (s.names m).next + 1 → o ≠ (s.names m).next →
        o < (s.names m).next := fun ho hne => by omega
    have hold : ∀ {o}, o < (s.names m).next → s.created m o < s.launches :=
      fun ho => (h.pending m hin).2 _ ho
    by_cases hnew : o = (s.names m).next
    · by_cases hnew' : o' = (s.names m).next
      · rw [hnew, hnew']
      · rw [hnew, created_create_new, created_create_old (.inr hnew')] at heq
        exact absurd heq (Nat.ne_of_gt (hold (hlt ho' hnew')))
    · rw [created_create_old (.inr hnew)] at heq hpos
      by_cases hnew' : o' = (s.names m).next
      · rw [hnew', created_create_new] at heq
        exact absurd heq (Nat.ne_of_lt (hold (hlt ho hnew)))
      · rw [created_create_old (.inr hnew')] at heq
        exact h.once m o o' (hlt ho hnew) (hlt ho' hnew') hpos heq
  · rw [names_create_other hm] at ho ho'
    rw [created_create_old (.inl hm)] at heq hpos
    rw [created_create_old (.inl hm)] at heq
    exact h.once m o o' ho ho' hpos heq

theorem fresh_create (h : Fresh ns s) (hremoved : s.toRemove = []) (hs : s.toCreate = n :: rest) :
    Fresh ns (s.create n rest) := by
  have hin : n ∈ s.toCreate := hs ▸ List.mem_cons_self
  have hfree := h.vacant hremoved hin
  have hnodup : (n :: rest).Nodup := hs ▸ h.nodup
  have hself : (s.create n rest).names n = _ := names_create_self hfree
  have hne : ∀ {m}, m ∈ rest → m ≠ n := fun hm hmn =>
    (List.nodup_cons.mp hnodup).1 (hmn ▸ hm)
  refine ⟨fun m => ?_, fun m o => ?_, fun m o o' ho ho' hpos heq => ?_, fun m hm => ?_,
    (List.nodup_cons.mp hnodup).2, fun _ _ => h.begun n hin, fun m hm => ?_, fun m hp => ?_⟩
  · by_cases hm : m = n
    · rw [hm, hself]
      intro o ho
      rw [← Option.some.inj ho]
      exact Nat.lt_succ_self _
    · rw [names_create_other hm]
      exact h.numbered m
  · by_cases hnew : m = n ∧ o = (s.names n).next
    · rw [hnew.1, hnew.2, created_create_new]
      exact Nat.le_refl _
    · rw [created_create_old (Decidable.not_and_iff_or_not.mp hnew)]
      exact h.created_le m o
  · exact once_create h hin hself ho ho' hpos heq
  · change m ∈ s.toRemove at hm
    rw [hremoved] at hm
    cases hm
  · have hmn := hne hm
    rw [names_create_other hmn]
    obtain ⟨hvacant, hold⟩ := h.pending m (hs ▸ List.mem_cons_of_mem n hm)
    refine ⟨fun hno => hvacant hno, fun o ho => ?_⟩
    rw [created_create_old (.inl hmn)]
    exact hold o ho
  · by_cases hm : m = n
    · subst hm
      exact ⟨(s.names m).next, by rw [hself], created_create_new⟩
    · rw [names_create_other hm]
      have hp' : Placed ns s m := by
        refine ⟨hp.1, hp.2.1, fun hno => ?_⟩
        rw [hs] at hno
        exact (List.mem_cons.mp hno).elim hm hp.2.2
      obtain ⟨o, hbound, hcreated⟩ := h.placed m hp'
      refine ⟨o, hbound, ?_⟩
      rw [created_create_old (.inl hm)]
      exact hcreated

theorem fresh_put (h : Fresh ns s) (hbound : q.bound = (s.names n).bound)
    (hnext : q.next = (s.names n).next) : Fresh ns (s.put n q) := by
  have hb : ∀ m, ((s.put n q).names m).bound = (s.names m).bound := fun m => by
    by_cases hm : m = n
    · rw [hm, names_put_self, hbound]
    · rw [names_put_other hm]
  have hx : ∀ m, ((s.put n q).names m).next = (s.names m).next := fun m => by
    by_cases hm : m = n
    · rw [hm, names_put_self, hnext]
    · rw [names_put_other hm]
  refine ⟨fun m o ho => ?_, h.created_le, fun m o o' ho ho' => ?_, h.subset, h.nodup, h.begun,
    fun m hm => ?_, fun m hp => ?_⟩
  · rw [hb] at ho
    rw [hx]
    exact h.numbered m o ho
  · rw [hx] at ho ho'
    exact h.once m o o' ho ho'
  · rw [hb, hx]
    exact h.pending m hm
  · rw [hb]
    exact h.placed m hp

/-- What can be done to the names. -/
inductive Use (ns : List ν) (s : Epochs ν μ) : Epochs ν μ → Prop where
  | same : Use ns s s
  | launch : Use ns s (s.launch ns)
  | remove {n : ν} {rest : List ν} (hs : s.toRemove = n :: rest) : Use ns s (s.remove n rest)
  | create {n : ν} {rest : List ν} (hremoved : s.toRemove = []) (hs : s.toCreate = n :: rest) :
      Use ns s (s.create n rest)
  | put {n : ν} {q : NamedQueue μ} (hbound : q.bound = (s.names n).bound)
      (hnext : q.next = (s.names n).next) : Use ns s (s.put n q)

theorem Use.fresh (hu : Use ns s s') (h : Fresh ns s) (hns : ns.Nodup) : Fresh ns s' := by
  cases hu with
  | same => exact h
  | launch => exact fresh_launch h hns
  | remove hs => exact fresh_remove h hs
  | create hremoved hs => exact fresh_create h hremoved hs
  | put hbound hnext => exact fresh_put h hbound hnext

/-- Objects stay, and it stays known which launch has created them. -/
theorem Use.keeps (hu : Use ns s s') (h : Fresh ns s) {o : Nat} (ho : o < (s.names m).next) :
    o < (s'.names m).next ∧ s'.created m o = s.created m o := by
  cases hu with
  | same | launch => exact ⟨ho, rfl⟩
  | remove hs => exact ⟨by rwa [next_remove], rfl⟩
  | @create n rest hremoved hs =>
    by_cases hm : m = n
    · subst hm
      rw [names_create_self (h.vacant hremoved (hs ▸ List.mem_cons_self))]
      exact ⟨Nat.lt_succ_of_lt ho, created_create_old (.inr (Nat.ne_of_lt ho))⟩
    · rw [names_create_other hm]
      exact ⟨ho, created_create_old (.inl hm)⟩
  | @put n q hbound hnext =>
    refine ⟨?_, rfl⟩
    by_cases hm : m = n
    · rw [hm, names_put_self, hnext, ← hm]
      exact ho
    · rwa [names_put_other hm]

/-! ## Handles -/

/-- An opened object, how many launches had begun when it was opened, and whether the
last of them had bound the name by then. -/
structure Handle where
  object : Nat
  launch : Nat
  placed : Bool
deriving DecidableEq

/-- Open a name that is bound. -/
def opened (ns : List ν) (s : Epochs ν μ) (n : ν) : Option Handle :=
  (s.names n).bound.map fun o => { object := o, launch := s.launches, placed := Placed ns s n }

/-- The object exists, and what was opened on a placed name is of that launch. -/
structure Genuine (s : Epochs ν μ) (n : ν) (h : Handle) : Prop where
  created : h.object < (s.names n).next
  launch : h.placed = true → s.created n h.object = h.launch ∧ 0 < h.launch

theorem genuine_opened {hd : Handle} (h : Fresh ns s) (ho : s.opened ns n = some hd) :
    Genuine s n hd := by
  obtain ⟨o, hbound, rfl⟩ := Option.map_eq_some_iff.mp ho
  refine ⟨h.numbered n o hbound, fun hp => ?_⟩
  have hplaced : Placed ns s n := of_decide_eq_true hp
  obtain ⟨o', hbound', hcreated⟩ := h.placed n hplaced
  obtain rfl : o = o' := Option.some.inj (hbound.symm.trans hbound')
  exact ⟨hcreated, hplaced.1⟩

theorem Genuine.step {hd : Handle} (hg : Genuine s n hd) (hu : Use ns s s') (h : Fresh ns s) :
    Genuine s' n hd := by
  obtain ⟨hlt, hcreated⟩ := hu.keeps h hg.created
  refine ⟨hlt, fun hp => ?_⟩
  rw [hcreated]
  exact hg.launch hp

omit [DecidableEq ν] in
/-- **One object for each launch**: two handles lead to the same object exactly if they
were opened in the same launch. -/
theorem Genuine.object_iff {hd hd' : Handle} (h : Fresh ns s) (hg : Genuine s n hd)
    (hg' : Genuine s n hd') (hp : hd.placed = true) (hp' : hd'.placed = true) :
    hd.object = hd'.object ↔ hd.launch = hd'.launch := by
  obtain ⟨hl, hpos⟩ := hg.launch hp
  obtain ⟨hl', -⟩ := hg'.launch hp'
  refine ⟨fun heq => ?_, fun heq => ?_⟩
  · rw [← hl, ← hl', heq]
  · refine h.once n _ _ hg.created hg'.created ?_ ?_
    · rw [hl]
      exact hpos
    · rw [hl, hl', heq]

end Epochs

end Lib
