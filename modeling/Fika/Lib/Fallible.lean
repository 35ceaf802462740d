import Mathlib.Data.List.Forall2

/-!
# Loops of fallible steps

`Except` models code that may fault. A loop over the elements of a vector is
`List.mapM` when the body changes one element, and `List.foldlM` over the
positions when it changes the whole state.

- `Ensures allowed P x`: whatever `x` returns meets `P`, and whatever fault it
  ends in is `allowed`. With every fault allowed this is partial correctness;
  with one fault ruled out it says that this fault is never met.
- `Ensures.bind`, `Ensures.mapM`, `Ensures.foldlM`, `Ensures.foldlM_range`: one
  rule for each way of putting steps together.
- `mapM_ok`: a loop over elements that returns relates the elements one by one;
  `mapM_total`: it returns when every turn does.
-/

namespace Lib

universe u v w

variable {ε : Type u} {α β σ : Type v}

/-- What `x` returns meets `P`, and the fault it ends in, if any, is allowed. -/
def Ensures (allowed : ε → Prop) (P : α → Prop) : Except ε α → Prop
  | .ok a => P a
  | .error e => allowed e

theorem bind_eq_ok {x : Except ε α} {f : α → Except ε β} {b : β} :
    x >>= f = .ok b ↔ ∃ a, x = .ok a ∧ f a = .ok b := by
  constructor
  · intro h
    cases x with
    | error e => cases h
    | ok a => exact ⟨a, rfl, h⟩
  · rintro ⟨a, rfl, h⟩
    exact h

namespace Ensures

variable {A : ε → Prop} {P Q : α → Prop} {R : β → Prop} {x : Except ε α}

theorem of_ok (h : Ensures A P x) {a : α} (hx : x = .ok a) : P a := by
  subst hx
  exact h

theorem of_error (h : Ensures A P x) {e : ε} (hx : x = .error e) : A e := by
  subst hx
  exact h

theorem mono (h : Ensures A P x) (hP : ∀ a, P a → Q a) : Ensures A Q x := by
  cases x with
  | error e => exact h
  | ok a => exact hP a h

theorem weaken {A' : ε → Prop} (h : Ensures A P x)
    (hle : ∀ e, A e → A' e) : Ensures A' P x := by
  cases x with
  | error e => exact hle e h
  | ok a => exact h

/-- One step after another. -/
theorem bind (h : Ensures A P x) {f : α → Except ε β}
    (hf : ∀ a, P a → Ensures A R (f a)) : Ensures A R (x >>= f) := by
  cases x with
  | error e => exact h
  | ok a => exact hf a h

/-- A loop over elements. -/
theorem mapM {l : List α} {f : α → Except ε β} (hf : ∀ a ∈ l, Ensures A R (f a)) :
    Ensures A (fun r => ∀ b ∈ r, R b) (l.mapM f) := by
  induction l with
  | nil => exact fun b hb => nomatch hb
  | cons a l ih =>
    rw [List.mapM_cons]
    refine (hf a List.mem_cons_self).bind fun b hb => ?_
    refine (ih fun a' ha' => hf a' (List.mem_cons_of_mem _ ha')).bind fun r hr => ?_
    exact List.forall_mem_cons.mpr ⟨hb, hr⟩

/-- A loop over a list that keeps an invariant. -/
theorem foldlM {I : σ → Prop} {l : List α} {f : σ → α → Except ε σ} {s : σ} (hinit : I s)
    (hf : ∀ t, I t → ∀ a ∈ l, Ensures A I (f t a)) :
    Ensures A I (l.foldlM f s) := by
  induction l generalizing s with
  | nil => exact hinit
  | cons a l ih =>
    rw [List.foldlM_cons]
    refine (hf s hinit a List.mem_cons_self).bind fun t ht => ?_
    exact ih ht fun u hu b hb => hf u hu b (List.mem_cons_of_mem _ hb)

/-- A loop over positions: the invariant may tell how far the loop is. -/
theorem foldlM_range {I : Nat → σ → Prop} {n : Nat} {f : σ → Nat → Except ε σ} {s : σ}
    (hinit : I 0 s) (hf : ∀ i t, i < n → I i t → Ensures A (I (i + 1)) (f t i)) :
    Ensures A (I n) ((List.range n).foldlM f s) := by
  induction n with
  | zero => exact hinit
  | succ n ih =>
    rw [List.range_succ, List.foldlM_append]
    refine (ih fun i t hi => hf i t (Nat.lt_succ_of_lt hi)).bind fun t ht => ?_
    rw [List.foldlM_cons]
    exact (hf n t (Nat.lt_succ_self n) ht).bind fun u hu => hu

end Ensures

/-! ## Loops over elements -/

/-- A loop that returns has turned each element into the corresponding result. -/
theorem mapM_ok {f : α → Except ε β} {l : List α} {r : List β} (h : l.mapM f = .ok r) :
    List.Forall₂ (fun a b => f a = .ok b) l r := by
  induction l generalizing r with
  | nil =>
    cases h
    exact .nil
  | cons a l ih =>
    rw [List.mapM_cons] at h
    obtain ⟨b, hb, h⟩ := bind_eq_ok.mp h
    obtain ⟨bs, hbs, h⟩ := bind_eq_ok.mp h
    cases h
    exact .cons hb (ih hbs)

/-- A loop whose turns all return does. -/
theorem mapM_total {R : α → β → Prop} {f : α → Except ε β} {l : List α}
    (h : ∀ a ∈ l, ∃ b, f a = .ok b ∧ R a b) :
    ∃ r, l.mapM f = .ok r ∧ List.Forall₂ R l r := by
  induction l with
  | nil => exact ⟨[], rfl, .nil⟩
  | cons a l ih =>
    obtain ⟨b, hb, hab⟩ := h a List.mem_cons_self
    obtain ⟨r, hr, hrest⟩ := ih fun a' ha' => h a' (List.mem_cons_of_mem _ ha')
    refine ⟨b :: r, ?_, .cons hab hrest⟩
    rw [List.mapM_cons, hb, hr]
    rfl

/-- A loop whose turns change nothing changes nothing. -/
theorem mapM_eq_self {f : α → Except ε α} {l : List α} (h : ∀ a ∈ l, f a = .ok a) :
    l.mapM f = .ok l := by
  induction l with
  | nil => rfl
  | cons a l ih =>
    rw [List.mapM_cons, h a List.mem_cons_self, ih fun b hb => h b (List.mem_cons_of_mem _ hb)]
    rfl

/-! ## Lists related element by element -/

theorem forall₂_getElem? {R : α → β → Prop} {l : List α} {r : List β} (h : List.Forall₂ R l r)
    {i : Nat} {a : α} (ha : l[i]? = some a) : ∃ b, r[i]? = some b ∧ R a b := by
  induction h generalizing i with
  | nil => cases ha
  | cons hab _ ih =>
    cases i with
    | zero =>
      cases ha
      exact ⟨_, rfl, hab⟩
    | succ i => exact ih ha

theorem forall₂_getElem?' {R : α → β → Prop} {l : List α} {r : List β} (h : List.Forall₂ R l r)
    {i : Nat} {b : β} (hb : r[i]? = some b) : ∃ a, l[i]? = some a ∧ R a b := by
  obtain ⟨a, ha, hr⟩ := forall₂_getElem? h.flip hb
  exact ⟨a, ha, hr⟩

/-- Changing one element by a related one. -/
theorem forall₂_modify {R : α → α → Prop} (hrefl : ∀ a, R a a) {f : α → α} (hf : ∀ a, R a (f a))
    (l : List α) (i : Nat) : List.Forall₂ R l (l.modify i f) := by
  induction l generalizing i with
  | nil =>
    rw [List.modify_nil]
    exact .nil
  | cons a l ih =>
    cases i with
    | zero =>
      rw [List.modify_zero_cons]
      exact .cons (hf a) (List.forall₂_same.mpr fun a _ => hrefl a)
    | succ i =>
      rw [List.modify_succ_cons]
      exact .cons (hrefl a) (ih i)

end Lib
