import Mathlib.Data.List.Infix

/-!
# First occurrences

A search for a separator stops at its first occurrence; what a split at that
point does to a text depends on whether the separator occurs any earlier, also
across the seam of the two pieces.

- `find`: the search, by positions (`std::string::find`).
- `find_eq_some_iff`: an occurrence at the position, and none before it.
- `find_append_iff`: in `a ++ sep ++ b` the search stops after `a` exactly when
  `a`, with all of `sep` but its last element, has no occurrence; what follows
  plays no part.
- `infix_append_iff`: an occurrence does not reach into a tail that lacks the
  pattern's last element, which is how the seam shrinks to the real overlaps.
-/

namespace Lib

variable {α : Type*} [DecidableEq α]

/-- The position of the first occurrence of `sep`, if there is one. -/
def find (sep : List α) : List α → Option Nat
  | [] => if sep = [] then some 0 else none
  | x :: xs => if sep <+: x :: xs then some 0 else (find sep xs).map (· + 1)

/-- The search from a position on, as a position of the whole text. -/
def findFrom (sep text : List α) (start : Nat) : Option Nat :=
  if start ≤ text.length then (find sep (text.drop start)).map (start + ·) else none

/-- The search stops at an occurrence with none before it. -/
theorem find_eq_some_iff {sep text : List α} {i : Nat} :
    find sep text = some i ↔
      i ≤ text.length ∧ sep <+: text.drop i ∧ ∀ j < i, ¬ sep <+: text.drop j := by
  induction text generalizing i with
  | nil =>
    constructor
    · intro h
      rw [find] at h
      split at h
      · rename_i hnil
        cases h
        exact ⟨Nat.le_refl 0, hnil ▸ List.nil_prefix, fun j hj => absurd hj (Nat.not_lt_zero j)⟩
      · cases h
    · rintro ⟨hi, hpre, -⟩
      obtain rfl : i = 0 := Nat.le_zero.mp hi
      rw [find, if_pos (List.prefix_nil.mp hpre)]
  | cons x xs ih =>
    rw [find]
    split
    · rename_i hhere
      -- an occurrence at the front is the first one
      constructor
      · intro h
        cases h
        exact ⟨Nat.zero_le _, hhere, fun j hj => absurd hj (Nat.not_lt_zero j)⟩
      · rintro ⟨-, -, hnone⟩
        cases i with
        | zero => rfl
        | succ i => exact absurd hhere (hnone 0 (Nat.succ_pos i))
    · rename_i hhere
      rw [Option.map_eq_some_iff]
      constructor
      · rintro ⟨k, hk, rfl⟩
        obtain ⟨hlen, hpre, hnone⟩ := ih.mp hk
        refine ⟨Nat.succ_le_succ hlen, hpre, fun j hj => ?_⟩
        cases j with
        | zero => exact hhere
        | succ j => exact hnone j (Nat.lt_of_succ_lt_succ hj)
      · rintro ⟨hlen, hpre, hnone⟩
        cases i with
        | zero => exact absurd hpre hhere
        | succ i =>
          exact ⟨i, ih.mpr ⟨Nat.le_of_succ_le_succ hlen, hpre,
            fun j hj => hnone (j + 1) (Nat.succ_lt_succ hj)⟩, rfl⟩

/-- What the search found splits the text there. -/
theorem eq_of_find {sep text : List α} {i : Nat} (h : find sep text = some i) :
    text = text.take i ++ sep ++ text.drop (i + sep.length) := by
  obtain ⟨-, ⟨rest, hrest⟩, -⟩ := find_eq_some_iff.mp h
  have hdrop : text.drop (i + sep.length) = rest := by
    rw [← List.drop_drop, ← hrest, List.drop_left]
  rw [hdrop, List.append_assoc, hrest, List.take_append_drop]

omit [DecidableEq α] in
/-- A prefix of a text that ends inside its first part is a prefix of that part. -/
theorem prefix_append_iff {u v w : List α} (hlen : u.length ≤ v.length) :
    u <+: v ++ w ↔ u <+: v :=
  ⟨fun h => List.prefix_of_prefix_length_le h (List.prefix_append v w) hlen,
    fun h => h.trans (List.prefix_append v w)⟩

omit [DecidableEq α] in
theorem infix_iff_prefix_drop {u v : List α} :
    u <:+: v ↔ ∃ j ≤ v.length, u <+: v.drop j := by
  constructor
  · rintro ⟨a, b, rfl⟩
    refine ⟨a.length, by simp, b, ?_⟩
    rw [List.append_assoc, List.drop_left]
  · rintro ⟨j, -, hpre⟩
    exact hpre.isInfix.trans (List.drop_suffix j v).isInfix

/-- The search stops after `a` exactly when nothing before the end of the first
separator holds an earlier occurrence. -/
theorem find_append_iff {sep a b : List α} :
    find sep (a ++ sep ++ b) = some a.length ↔
      sep = [] ∧ a = [] ∨ sep ≠ [] ∧ ¬ sep <:+: a ++ sep.dropLast := by
  have hhere : sep <+: (a ++ sep ++ b).drop a.length := by
    rw [List.append_assoc, List.drop_left]
    exact List.prefix_append sep b
  rcases List.eq_nil_or_concat' sep with rfl | ⟨front, c, rfl⟩
  · rw [find_eq_some_iff]
    constructor
    · rintro ⟨-, -, hnone⟩
      refine .inl ⟨rfl, List.eq_nil_of_length_eq_zero (Nat.eq_zero_of_not_pos fun hpos => ?_)⟩
      exact hnone 0 hpos List.nil_prefix
    · rintro (⟨-, rfl⟩ | ⟨hne, -⟩)
      · exact ⟨Nat.zero_le _, List.nil_prefix, fun j hj => absurd hj (Nat.not_lt_zero j)⟩
      · exact absurd rfl hne
  · -- an occurrence that starts before `a` ends is over before the last element of `sep`
    have hearlier : ∀ j < a.length, (front ++ [c] <+: (a ++ (front ++ [c]) ++ b).drop j ↔
        front ++ [c] <+: (a ++ front).drop j) := by
      intro j hj
      have hsplit : (a ++ (front ++ [c]) ++ b).drop j = (a ++ front).drop j ++ ([c] ++ b) := by
        rw [← List.drop_append_of_le_length (by simp; omega)]
        simp only [List.append_assoc]
      rw [hsplit]
      refine prefix_append_iff ?_
      simp only [List.length_append, List.length_drop, List.length_singleton]
      omega
    rw [find_eq_some_iff, List.dropLast_concat, infix_iff_prefix_drop]
    constructor
    · rintro ⟨-, -, hnone⟩
      refine .inr ⟨by simp, ?_⟩
      rintro ⟨j, -, hpre⟩
      have hfits := hpre.length_le
      simp only [List.length_append, List.length_drop, List.length_singleton] at hfits
      have hj : j < a.length := by omega
      exact hnone j hj ((hearlier j hj).mpr hpre)
    · rintro (⟨hnil, -⟩ | ⟨-, hnone⟩)
      · exact absurd hnil (by simp)
      · refine ⟨by simp, hhere, fun j hj hpre => hnone ⟨j, ?_, (hearlier j hj).mp hpre⟩⟩
        simp only [List.length_append]
        omega

omit [DecidableEq α] in
/-- A pattern does not reach into a tail without its last element. -/
theorem infix_append_iff {front a tail : List α} {c : α} (htail : c ∉ tail) :
    front ++ [c] <:+: a ++ tail ↔ front ++ [c] <:+: a := by
  induction tail using List.reverseRecOn with
  | nil => rw [List.append_nil]
  | append_singleton tail d ih =>
    have hd : d ≠ c := fun h => htail (by simp [h])
    rw [← List.append_assoc, List.infix_concat_iff,
      ih fun h => htail (List.mem_append_left _ h)]
    refine ⟨fun h => h.resolve_left ?_, .inr⟩
    intro hsuf
    -- a suffix shares its last element
    rcases List.suffix_concat_iff.mp hsuf with hnil | ⟨t, ht, -⟩
    · simp at hnil
    · have hlast : [c] = [d] := (List.append_inj' ht rfl).2
      exact hd (List.singleton_inj.mp hlast).symm

end Lib
