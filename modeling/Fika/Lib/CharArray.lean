import Mathlib.Data.List.TakeWhile

/-!
# Byte strings and fixed-size character arrays

`std::string` is a list of bytes; `std::array<char, n>` is a list of exactly
`n` bytes, read through `data()` as a C string: the bytes before the first NUL.
A read that meets no NUL runs off the end of the array, so `Terminated` (there
is a NUL in the array) is what makes a C-string read legal.

- `CharArray.strncpy`, `CharArray.copyFrom`, `CharArray.set`: the three writers
  the C and C++ libraries offer, on any array.
- `padded`: a string followed by zeros, the shape both idiomatic writers leave
  in a zeroed array (`strncpy_zero`, `assign_eq_padded`).
- `str_padded`: reading gives back what was stored.
- `Canonical`: nothing but zeros after the first NUL; a canonical array is
  determined by the string it holds (`Canonical.eq_of_str_eq`).
- `ClearedFrom`: the same array up to its first NUL, zeros behind it; what is
  left of an array when only its C string is kept (`clearedFrom_padded`), and
  the array itself exactly when its tail was zero (`ClearedFrom.eq_iff`).
-/

namespace Lib

/-- A byte string (`std::string`). -/
abbrev Str := List UInt8

/-- The bytes of an ASCII literal. -/
def lit (s : String) : Str := s.toList.map fun c => UInt8.ofNat c.toNat

/-- The bytes before the first NUL: what a C string holds. -/
def cStr (s : Str) : Str := s.takeWhile (· ≠ 0)

/-! ## C strings -/

theorem nul_not_mem_cStr (s : Str) : 0 ∉ cStr s := by
  intro h
  have := List.mem_takeWhile_imp h
  simp at this

theorem cStr_of_nul_not_mem {s : Str} (h : 0 ∉ s) : cStr s = s := by
  refine List.takeWhile_eq_self_iff.mpr fun b hb => ?_
  have hne : b ≠ 0 := fun h0 => h (h0 ▸ hb)
  simpa using hne

@[simp] theorem cStr_cStr (s : Str) : cStr (cStr s) = cStr s :=
  cStr_of_nul_not_mem (nul_not_mem_cStr s)

/-- Reading stops at the first NUL, whatever follows it. -/
theorem cStr_append_nul (s t : Str) : cStr (s ++ 0 :: t) = cStr s := by
  induction s with
  | nil => rfl
  | cons b s ih =>
    unfold cStr at ih ⊢
    rw [List.cons_append, List.takeWhile_cons, List.takeWhile_cons, ih]

theorem cStr_append_replicate (s : Str) (k : Nat) :
    cStr (s ++ List.replicate k 0) = cStr s := by
  cases k with
  | zero => rw [List.replicate_zero, List.append_nil]
  | succ k => exact cStr_append_nul s _

/-- A string that contains a NUL is its C string, the NUL, and the rest. -/
theorem cStr_split {s : Str} (h : 0 ∈ s) : ∃ t, s = cStr s ++ 0 :: t := by
  obtain ⟨pre, t, rfl, hpre⟩ := List.eq_append_cons_of_mem h
  exact ⟨t, by rw [cStr_append_nul, cStr_of_nul_not_mem hpre]⟩

theorem length_cStr_lt {s : Str} (h : 0 ∈ s) : (cStr s).length < s.length := by
  obtain ⟨t, ht⟩ := cStr_split h
  have hlen := congrArg List.length ht
  rw [List.length_append, List.length_cons] at hlen
  omega

theorem nul_not_mem_take {s : Str} (h : 0 ∉ s) (k : Nat) : 0 ∉ s.take k :=
  fun hm => h (List.mem_of_mem_take hm)

/-! ## Arrays -/

/-- `std::array<char, n>`: exactly `n` bytes. -/
structure CharArray (n : Nat) where
  data : Str
  size_eq : data.length = n
deriving DecidableEq

namespace CharArray

variable {n : Nat}

@[ext] theorem ext {a b : CharArray n} (h : a.data = b.data) : a = b := by
  cases a
  cases b
  cases h
  rfl

/-- The value-initialized array (`= {}`). -/
def zero (n : Nat) : CharArray n := ⟨List.replicate n 0, List.length_replicate⟩

/-- The array read as a C string. -/
def str (a : CharArray n) : Str := cStr a.data

/-- The array holds a NUL, so reading it as a C string stays inside it. -/
def Terminated (a : CharArray n) : Prop := 0 ∈ a.data

instance (a : CharArray n) : Decidable a.Terminated :=
  inferInstanceAs (Decidable (0 ∈ a.data))

/-- `std::strncpy(dst, src, k)`: at most `k` bytes of the C string `src`, then
zeros up to `k`; the array beyond `k` is left alone. -/
def strncpy (dst : CharArray n) (src : Str) (k : Nat) (hk : k ≤ n) : CharArray n where
  data :=
    let taken := (cStr src).take k
    taken ++ List.replicate (k - taken.length) 0 ++ dst.data.drop k
  size_eq := by
    simp only [List.length_append, List.length_take, List.length_replicate, List.length_drop,
      dst.size_eq]
    omega

/-- `s.copy(dst.data(), k)`: the first `k` bytes of `s`, without a terminator. -/
def copyFrom (dst : CharArray n) (s : Str) (k : Nat) (hk : k ≤ n) : CharArray n where
  data := s.take k ++ dst.data.drop (min k s.length)
  size_eq := by
    simp only [List.length_append, List.length_take, List.length_drop, dst.size_eq]
    omega

/-- `dst.at(i) = c`. -/
def set (dst : CharArray n) (i : Nat) (c : UInt8) : CharArray n where
  data := dst.data.set i c
  size_eq := by rw [List.length_set, dst.size_eq]

/-- The idiom `len = s.copy(a.data(), n - 1); a.at(len) = '\0'` on a zeroed
array. -/
def assign (n : Nat) (s : Str) : CharArray n :=
  ((zero n).copyFrom s (n - 1) (Nat.sub_le n 1)).set (min (n - 1) s.length) 0

/-- A string that fits, followed by zeros. -/
def padded (n : Nat) (s : Str) (h : s.length ≤ n) : CharArray n where
  data := s ++ List.replicate (n - s.length) 0
  size_eq := by
    rw [List.length_append, List.length_replicate]
    omega

theorem padded_congr {s t : Str} {hs : s.length ≤ n} {ht : t.length ≤ n} (h : s = t) :
    padded n s hs = padded n t ht := by
  subst h
  rfl

theorem str_padded (s : Str) (h : s.length ≤ n) : (padded n s h).str = cStr s :=
  cStr_append_replicate s _

theorem terminated_padded {s : Str} (h : s.length < n) :
    (padded n s (Nat.le_of_lt h)).Terminated := by
  refine List.mem_append_right s (List.mem_replicate.mpr ⟨?_, rfl⟩)
  omega

theorem str_length_lt {a : CharArray n} (h : a.Terminated) : a.str.length < n := by
  have := length_cStr_lt h
  rwa [a.size_eq] at this

theorem nul_not_mem_str (a : CharArray n) : 0 ∉ a.str := nul_not_mem_cStr a.data

@[simp] theorem cStr_str (a : CharArray n) : cStr a.str = a.str := cStr_cStr a.data

/-- `strncpy` of all but the last byte into a zeroed array stores the string
and zeros the rest. -/
theorem strncpy_zero (hn : 0 < n) (src : Str) :
    (zero n).strncpy src (n - 1) (Nat.sub_le n 1) =
      padded n ((cStr src).take (n - 1))
        (Nat.le_trans (List.length_take_le _ _) (Nat.sub_le n 1)) := by
  apply ext
  show (cStr src).take (n - 1)
        ++ List.replicate (n - 1 - ((cStr src).take (n - 1)).length) 0
        ++ (List.replicate n 0).drop (n - 1)
      = (cStr src).take (n - 1) ++ List.replicate (n - ((cStr src).take (n - 1)).length) 0
  have hlen : ((cStr src).take (n - 1)).length ≤ n - 1 := List.length_take_le _ _
  rw [List.append_assoc, List.drop_replicate, List.replicate_append_replicate]
  congr 2
  omega

theorem str_strncpy_zero (hn : 0 < n) (src : Str) :
    ((zero n).strncpy src (n - 1) (Nat.sub_le n 1)).str = (cStr src).take (n - 1) := by
  rw [strncpy_zero hn, str_padded]
  exact cStr_of_nul_not_mem (nul_not_mem_take (nul_not_mem_cStr src) _)

theorem terminated_strncpy_zero (hn : 0 < n) (src : Str) :
    ((zero n).strncpy src (n - 1) (Nat.sub_le n 1)).Terminated := by
  rw [strncpy_zero hn]
  refine terminated_padded ?_
  have := List.length_take_le (n - 1) (cStr src)
  omega

/-- The copy-then-terminate idiom leaves the first `n - 1` bytes and zeros. -/
theorem assign_eq_padded (s : Str) :
    assign n s = padded n (s.take (n - 1))
      (Nat.le_trans (List.length_take_le _ _) (Nat.sub_le n 1)) := by
  apply ext
  show (s.take (n - 1) ++ (List.replicate n 0).drop (min (n - 1) s.length)).set
        (min (n - 1) s.length) 0
      = s.take (n - 1) ++ List.replicate (n - (s.take (n - 1)).length) 0
  have hlen : (s.take (n - 1)).length = min (n - 1) s.length := List.length_take
  rw [List.drop_replicate, ← hlen, List.set_append_right _ _ (Nat.le_refl _), Nat.sub_self,
    List.set_replicate_self]

theorem str_assign (s : Str) : (assign n s).str = cStr (s.take (n - 1)) := by
  rw [assign_eq_padded, str_padded]

theorem terminated_assign (hn : 0 < n) (s : Str) : (assign n s).Terminated := by
  rw [assign_eq_padded]
  refine terminated_padded ?_
  have := List.length_take_le (n - 1) s
  omega

/-- Storing what was read from a terminated array: the array zeroed after its
first NUL. -/
theorem strncpy_str (hn : 0 < n) {a : CharArray n} (h : a.Terminated) :
    (zero n).strncpy a.str (n - 1) (Nat.sub_le n 1) =
      padded n a.str (Nat.le_of_lt (str_length_lt h)) := by
  rw [strncpy_zero hn]
  refine padded_congr ?_
  rw [cStr_str]
  exact List.take_of_length_le (Nat.le_sub_one_of_lt (str_length_lt h))

/-! ## Canonical arrays -/

/-- The array is a string without NUL, followed by zeros. -/
def Canonical (a : CharArray n) : Prop :=
  ∃ (s : Str) (h : s.length ≤ n), 0 ∉ s ∧ a = padded n s h

theorem canonical_padded {s : Str} (hs : 0 ∉ s) (h : s.length ≤ n) : (padded n s h).Canonical :=
  ⟨s, h, hs, rfl⟩

/-- A canonical array is determined by the C string it holds. -/
theorem Canonical.eq_of_str_eq {a b : CharArray n} (ha : a.Canonical) (hb : b.Canonical)
    (h : a.str = b.str) : a = b := by
  obtain ⟨s, _, hs, rfl⟩ := ha
  obtain ⟨t, _, ht, rfl⟩ := hb
  rw [str_padded, str_padded, cStr_of_nul_not_mem hs, cStr_of_nul_not_mem ht] at h
  exact padded_congr h

/-- Whatever `strncpy` puts into a zeroed array is canonical. -/
theorem canonical_strncpy_zero (hn : 0 < n) (src : Str) :
    ((zero n).strncpy src (n - 1) (Nat.sub_le n 1)).Canonical := by
  rw [strncpy_zero hn]
  exact canonical_padded (nul_not_mem_take (nul_not_mem_cStr src) _) _

/-- The copy-then-terminate idiom leaves the bytes after a NUL in place, so it is
canonical for strings without one. -/
theorem canonical_assign {s : Str} (hs : 0 ∉ s) : (assign n s).Canonical := by
  rw [assign_eq_padded]
  exact canonical_padded (nul_not_mem_take hs _) _

/-! ## Clearing what follows the first NUL -/

/-- Nothing but zeros after the first NUL. -/
def ZeroTail (a : CharArray n) : Prop := ∀ c ∈ a.data.drop (a.str.length + 1), c = 0

instance (a : CharArray n) : Decidable a.ZeroTail :=
  inferInstanceAs (Decidable (∀ c ∈ a.data.drop (a.str.length + 1), c = 0))

/-- `b` agrees with `a` up to and including the first NUL of `a`, and is zero
after it. -/
structure ClearedFrom (a b : CharArray n) : Prop where
  agrees : b.data.take (a.str.length + 1) = a.data.take (a.str.length + 1)
  zero : ∀ c ∈ b.data.drop (a.str.length + 1), c = 0

/-- Storing the C string of a terminated array and zeros clears the array. -/
theorem clearedFrom_padded {a : CharArray n} (h : a.Terminated) :
    ClearedFrom a (padded n a.str (Nat.le_of_lt (str_length_lt h))) := by
  obtain ⟨t, ht⟩ := cStr_split h
  have hsplit : a.data = a.str ++ [0] ++ t := by
    rw [List.append_assoc]
    exact ht
  have hlen : (a.str ++ [0]).length = a.str.length + 1 := List.length_append
  have hzeros : List.replicate (n - a.str.length) (0 : UInt8)
      = [0] ++ List.replicate (n - a.str.length - 1) 0 := by
    have hlt := str_length_lt h
    rw [← List.replicate_one, List.replicate_append_replicate]
    congr 1
    omega
  have hpad : (padded n a.str (Nat.le_of_lt (str_length_lt h))).data
      = a.str ++ [0] ++ List.replicate (n - a.str.length - 1) 0 := by
    rw [List.append_assoc, ← hzeros]
    rfl
  constructor
  · rw [hpad, List.take_left' hlen]
    exact (hsplit ▸ List.take_left' hlen).symm
  · intro c hc
    rw [hpad, List.drop_left' hlen] at hc
    exact List.eq_of_mem_replicate hc

/-- Two arrays that agree up to a point and are zero behind it are one. -/
theorem ClearedFrom.eq_iff {a b : CharArray n} (h : ClearedFrom a b) : b = a ↔ a.ZeroTail := by
  constructor
  · rintro rfl
    exact h.zero
  · intro ha
    have hlen : (b.data.drop (a.str.length + 1)).length
        = (a.data.drop (a.str.length + 1)).length := by
      rw [List.length_drop, List.length_drop, a.size_eq, b.size_eq]
    have htail : b.data.drop (a.str.length + 1) = a.data.drop (a.str.length + 1) := by
      rw [List.eq_replicate_of_mem h.zero, List.eq_replicate_of_mem ha, hlen]
    apply ext
    rw [← List.take_append_drop (a.str.length + 1) b.data, h.agrees, htail,
      List.take_append_drop]

end CharArray

end Lib
