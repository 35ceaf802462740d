import Fika.Lib.Fallible

/-!
# What a computation leaves behind

`Except` forgets the state of a computation that fails. An `Outcome` keeps it,
together with a record of what the computation did on the way, so that a
statement can cover the computations that fail as well.

- `Outcome.toExcept`: the outcome with the record and the state of a failure
  forgotten; `andThen`, `each` and `mapEach` are then `bind`, `List.foldlM` and
  `List.mapM`.
- `Keeps P Q B`: the state left behind meets `P`, everything recorded meets `Q`,
  and the fault, if any, is a `B`; one rule for each way of putting steps
  together.
-/

namespace Lib

universe u v w

/-- The state a computation has come to, what it has recorded, and the fault that
stopped it. -/
structure Outcome (σ : Type u) (α : Type v) (ε : Type w) where
  left : σ
  log : List α := []
  fault : Option ε := none

namespace Outcome

variable {σ : Type u} {α : Type v} {ε : Type w} {β : Type u}

/-- The outcome of a step that leaves the state alone when it fails, and records the
same either way. -/
def ofExcept (s : σ) (log : List α) : Except ε σ → Outcome σ α ε
  | .ok t => { left := t, log := log }
  | .error f => { left := s, log := log, fault := some f }

/-- The state of a computation that returned, or the fault. -/
def toExcept (o : Outcome σ α ε) : Except ε σ :=
  match o.fault with
  | none => .ok o.left
  | some f => .error f

/-- Go on from the state left, unless something has stopped the computation. -/
def andThen (o : Outcome σ α ε) (f : σ → Outcome σ α ε) : Outcome σ α ε :=
  match o.fault with
  | none => { f o.left with log := o.log ++ (f o.left).log }
  | some _ => o

/-- One step for each element. -/
def each (f : σ → β → Outcome σ α ε) : σ → List β → Outcome σ α ε
  | s, [] => { left := s }
  | s, b :: bs => (f s b).andThen fun t => each f t bs

/-- Change the elements of a list one after another; the elements behind a failure
stay as they are, as does the one that failed. -/
def mapEach (f : β → Except ε β) : List β → Outcome (List β) α ε
  | [] => { left := [] }
  | b :: bs =>
    match f b with
    | .error e => { left := b :: bs, fault := some e }
    | .ok c => { mapEach f bs with left := c :: (mapEach f bs).left }

@[simp] theorem toExcept_ofExcept (s : σ) (log : List α) (x : Except ε σ) :
    (ofExcept s log x).toExcept = x := by
  cases x with
  | ok t => rfl
  | error f => rfl

theorem toExcept_andThen (o : Outcome σ α ε) (f : σ → Outcome σ α ε) :
    (o.andThen f).toExcept = o.toExcept >>= fun s => (f s).toExcept := by
  unfold andThen toExcept
  cases hf : o.fault with
  | none => rfl
  | some e =>
    simp only [hf]
    rfl

theorem toExcept_each (f : σ → β → Outcome σ α ε) (s : σ) (bs : List β) :
    (each f s bs).toExcept = bs.foldlM (fun t b => (f t b).toExcept) s := by
  induction bs generalizing s with
  | nil => rfl
  | cons b bs ih =>
    rw [each, toExcept_andThen, List.foldlM_cons]
    exact congrArg _ (funext ih)

theorem toExcept_mapEach (f : β → Except ε β) (bs : List β) :
    (mapEach f bs : Outcome (List β) α ε).toExcept = bs.mapM f := by
  induction bs with
  | nil => rfl
  | cons b bs ih =>
    rw [List.mapM_cons, ← ih, mapEach]
    cases f b with
    | error e => rfl
    | ok c =>
      unfold toExcept
      cases (mapEach f bs : Outcome (List β) α ε).fault with
      | none => rfl
      | some e => rfl

/-! ## Rules -/

/-- What an outcome leaves, records and ends in. -/
structure Keeps (P : σ → Prop) (Q : α → Prop) (B : ε → Prop) (o : Outcome σ α ε) : Prop where
  left : P o.left
  log : ∀ a ∈ o.log, Q a
  fault : ∀ f, o.fault = some f → B f

variable {P P' : σ → Prop} {Q : α → Prop} {B : ε → Prop} {o : Outcome σ α ε}

/-- A step that records nothing and cannot fail. -/
theorem keeps_done {s : σ} (h : P s) : Keeps P Q B ({ left := s } : Outcome σ α ε) where
  left := h
  log a ha := absurd ha List.not_mem_nil
  fault f hf := by cases hf

theorem Keeps.mono (h : Keeps P Q B o) (hP : ∀ s, P s → P' s) : Keeps P' Q B o :=
  ⟨hP _ h.left, h.log, h.fault⟩

theorem keeps_ofExcept {s : σ} {log : List α} {x : Except ε σ} (hs : P s)
    (hx : Ensures B P x) (hlog : ∀ a ∈ log, Q a) : Keeps P Q B (ofExcept s log x) := by
  cases x with
  | ok t => exact ⟨hx, hlog, fun f hf => by cases hf⟩
  | error f =>
    refine ⟨hs, hlog, fun f' hf' => ?_⟩
    obtain rfl : f = f' := Option.some.inj hf'
    exact hx

/-- One step after another. -/
theorem Keeps.andThen (h : Keeps P Q B o) {f : σ → Outcome σ α ε}
    (hleft : ∀ s, P s → P' s) (hf : ∀ s, P s → Keeps P' Q B (f s)) :
    Keeps P' Q B (o.andThen f) := by
  unfold Outcome.andThen
  cases hfault : o.fault with
  | some e => exact h.mono hleft
  | none =>
    have hnext := hf o.left h.left
    refine ⟨hnext.left, fun a ha => ?_, hnext.fault⟩
    rcases List.mem_append.mp ha with ha | ha
    · exact h.log a ha
    · exact hnext.log a ha

/-- A loop keeps what every turn keeps. -/
theorem Keeps.each {f : σ → β → Outcome σ α ε} (hf : ∀ s b, P s → Keeps P Q B (f s b)) :
    ∀ {s : σ} (bs : List β), P s → Keeps P Q B (each f s bs)
  | _, [], h => keeps_done h
  | s, b :: bs, h => (hf s b h).andThen (fun _ => id) fun _ ht => Keeps.each hf bs ht

/-- A loop over elements relates them one by one; a turn may only fail in a way that
is allowed. -/
theorem keeps_mapEach {R : β → β → Prop} (hrefl : ∀ b, R b b) {f : β → Except ε β} :
    ∀ {bs : List β}, (∀ b ∈ bs, Ensures B (R b) (f b)) →
      Keeps (List.Forall₂ R bs) Q B (mapEach f bs : Outcome (List β) α ε)
  | [], _ => keeps_done .nil
  | b :: bs, h => by
    have hhere := h b List.mem_cons_self
    have hrest : Keeps (List.Forall₂ R bs) Q B (mapEach f bs : Outcome (List β) α ε) :=
      keeps_mapEach hrefl fun b' hb' => h b' (List.mem_cons_of_mem _ hb')
    unfold mapEach
    cases hb : f b with
    | error e =>
      refine ⟨List.forall₂_same.mpr fun b _ => hrefl b, fun a ha => absurd ha List.not_mem_nil,
        fun e' he' => ?_⟩
      obtain rfl : e = e' := Option.some.inj he'
      exact hhere.of_error hb
    | ok c => exact ⟨.cons (hhere.of_ok hb) hrest.left, hrest.log, hrest.fault⟩

end Outcome

end Lib
