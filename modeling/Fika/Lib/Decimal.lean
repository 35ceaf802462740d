import Mathlib.Algebra.Group.Int.Defs
import Mathlib.Algebra.Group.Nat.Defs
import Fika.Lib.CharArray

/-!
# Decimal renderings (`std::to_string`, `operator>>`)

- `decimal`, `decimalInt`: the bytes `std::to_string` produces for an unsigned
  and for a signed number.
- `decimal_injective`, `decimalInt_injective`: different numbers render
  differently.
- `nul_not_mem_decimalInt`: a rendering is a C string.
- `readInt`: the number a stream extracts from its text; `readInt_decimal`: it
  reads a rendering back, whatever other than a digit follows it.
- `decimal_append`: two renderings one after the other render one number, unless
  the first is that of zero; `decimal_append_eq_iff`: the ways in which two pairs of
  numbers give the same digits (`Shifted`).
-/

namespace Lib

/-- `std::to_string` of an unsigned number. -/
def decimal (n : Nat) : Str := (Nat.toDigits 10 n).map fun c => UInt8.ofNat c.toNat

/-- `std::to_string` of a signed number. -/
def decimalInt : Int → Str
  | .ofNat n => decimal n
  | .negSucc n => lit "-" ++ decimal (n + 1)

/-- A digit's code lies between those of `'0'` and `'9'`. -/
theorem digit_range {c : Char} (h : c.isDigit = true) : 48 ≤ c.toNat ∧ c.toNat ≤ 57 := by
  rw [Char.isDigit, Bool.and_eq_true, decide_eq_true_eq, decide_eq_true_eq] at h
  exact ⟨UInt32.le_iff_toNat_le.mp h.1, UInt32.le_iff_toNat_le.mp h.2⟩

/-- A digit is recovered from its byte. -/
theorem digit_byte {c : Char} (h : c.isDigit = true) : (UInt8.ofNat c.toNat).toNat = c.toNat := by
  have hr := digit_range h
  rw [UInt8.toNat_ofNat']
  omega

/-- Every byte of a rendering is one of `'0'..'9'`. -/
theorem mem_decimal {n : Nat} {b : UInt8} (h : b ∈ decimal n) :
    48 ≤ b.toNat ∧ b.toNat ≤ 57 := by
  obtain ⟨c, hc, rfl⟩ := List.mem_map.mp h
  have hd := Nat.isDigit_of_mem_toDigits (by decide) (by decide) hc
  rw [digit_byte hd]
  exact digit_range hd

/-- The digits are read back from their bytes. -/
theorem map_ofNat_decimal (n : Nat) :
    (decimal n).map (fun b => Char.ofNat b.toNat) = Nat.toDigits 10 n := by
  rw [decimal, List.map_map]
  refine (List.map_congr_left fun c hc => ?_).trans (List.map_id _)
  have hd := Nat.isDigit_of_mem_toDigits (by decide) (by decide) hc
  show Char.ofNat (UInt8.ofNat c.toNat).toNat = c
  rw [digit_byte hd, Char.ofNat_toNat]

theorem decimal_injective {n m : Nat} (h : decimal n = decimal m) : n = m := by
  have hdig : Nat.toDigits 10 n = Nat.toDigits 10 m := by
    rw [← map_ofNat_decimal n, h, map_ofNat_decimal]
  rw [← Nat.ofDigitChars_toDigits (b := 10) (n := n) (by decide) (by decide), hdig,
    Nat.ofDigitChars_toDigits (by decide) (by decide)]

theorem nul_not_mem_decimal (n : Nat) : 0 ∉ decimal n := fun h =>
  absurd (mem_decimal h).1 (by decide)

/-- A rendering does not start with a sign. -/
theorem decimal_ne_sign_append (n : Nat) (s : Str) : decimal n ≠ lit "-" ++ s := by
  intro h
  have hmem : (45 : UInt8) ∈ decimal n := by
    rw [h]
    exact List.mem_append_left s (by decide)
  exact absurd (mem_decimal hmem).1 (by decide)

theorem decimalInt_injective {i j : Int} (h : decimalInt i = decimalInt j) : i = j := by
  cases i with
  | ofNat n =>
    cases j with
    | ofNat m => exact congrArg Int.ofNat (decimal_injective h)
    | negSucc m => exact absurd h (decimal_ne_sign_append n _)
  | negSucc n =>
    cases j with
    | ofNat m => exact absurd h.symm (decimal_ne_sign_append m _)
    | negSucc m =>
      have hnm := decimal_injective (List.append_cancel_left h)
      exact congrArg Int.negSucc (Nat.succ.inj hnm)

theorem nul_not_mem_decimalInt (i : Int) : 0 ∉ decimalInt i := by
  cases i with
  | ofNat n => exact nul_not_mem_decimal n
  | negSucc n =>
    intro h
    rcases List.mem_append.mp h with hs | hd
    · exact absurd hs (by decide)
    · exact nul_not_mem_decimal (n + 1) hd

/-! ## Reading -/

/-- The number a string of digits stands for. -/
def ofDecimal (s : Str) : Nat := s.foldl (fun n b => 10 * n + (b.toNat - 48)) 0

/-- `isspace` and `isdigit`, in the C locale. -/
def isSpace (b : UInt8) : Bool := b == 32 || (9 ≤ b && b ≤ 13)

def isDigit (b : UInt8) : Bool := 48 ≤ b && b ≤ 57

/-- The optional sign of a number, and what follows it. -/
def splitSign : Str → Bool × Str
  | 45 :: rest => (true, rest)
  | 43 :: rest => (false, rest)
  | s => (false, s)

/-- `std::istream::operator>>` into a signed integer of `w` bits that was zero: a
number that does not fit is replaced by the closest one that does. -/
def readInt (w : Nat) (s : Str) : Int :=
  let signed := splitSign (s.dropWhile isSpace)
  let n := ofDecimal (signed.2.takeWhile isDigit)
  if signed.1 then max (-(n : Int)) (-(2 ^ (w - 1))) else min (n : Int) (2 ^ (w - 1) - 1)

theorem foldl_digits (l : List Char) (h : ∀ c ∈ l, c.isDigit = true) (init : Nat) :
    (l.map fun c => UInt8.ofNat c.toNat).foldl (fun n b => 10 * n + (b.toNat - 48)) init
      = Nat.ofDigitChars 10 l init := by
  induction l generalizing init with
  | nil => rfl
  | cons c l ih =>
    rw [List.map_cons, List.foldl_cons, Nat.ofDigitChars_cons,
      digit_byte (h c List.mem_cons_self)]
    exact ih (fun c' hc' => h c' (List.mem_cons_of_mem _ hc')) _

/-- A rendering is read back. -/
theorem ofDecimal_decimal (n : Nat) : ofDecimal (decimal n) = n := by
  have hdigits : ∀ c ∈ Nat.toDigits 10 n, c.isDigit = true := fun c hc =>
    Nat.isDigit_of_mem_toDigits (by decide) (by decide) hc
  rw [ofDecimal, decimal, foldl_digits _ hdigits, Nat.ofDigitChars_toDigits (by decide) (by decide)]

theorem isDigit_of_mem_decimal {n : Nat} {b : UInt8} (h : b ∈ decimal n) : isDigit b = true := by
  obtain ⟨hlow, hhigh⟩ := mem_decimal h
  rw [isDigit, Bool.and_eq_true, decide_eq_true_eq, decide_eq_true_eq, UInt8.le_iff_toNat_le,
    UInt8.le_iff_toNat_le]
  exact ⟨hlow, hhigh⟩

theorem decimal_ne_nil (n : Nat) : decimal n ≠ [] := fun h =>
  Nat.toDigits_ne_nil (List.map_eq_nil_iff.mp h)

/-- A digit is neither a space nor a sign. -/
theorem splitSign_decimal (n : Nat) (s : Str) :
    splitSign ((decimal n ++ s).dropWhile isSpace) = (false, decimal n ++ s) := by
  cases hd : decimal n with
  | nil => exact absurd hd (decimal_ne_nil n)
  | cons b l =>
    obtain ⟨hlow, hhigh⟩ := mem_decimal (n := n) (b := b) (hd ▸ List.mem_cons_self)
    have hspace : isSpace b = false := by
      rw [isSpace, Bool.or_eq_false_iff, beq_eq_false_iff_ne, Bool.and_eq_false_iff]
      refine ⟨fun h => ?_, .inr ?_⟩
      · rw [h] at hlow
        exact absurd hlow (by decide)
      · rw [decide_eq_false_iff_not, UInt8.le_iff_toNat_le]
        have hthirteen : (13 : UInt8).toNat = 13 := rfl
        omega
    rw [List.cons_append, List.dropWhile_cons_of_neg (by simp [hspace])]
    unfold splitSign
    split
    · rename_i heq
      rw [(List.cons.inj heq).1] at hlow
      exact absurd hlow (by decide)
    · rename_i heq
      rw [(List.cons.inj heq).1] at hlow
      exact absurd hlow (by decide)
    · rfl

/-- A rendering that fits is read back, up to the first byte that is no digit. -/
theorem readInt_decimal {w n : Nat} {b : UInt8} {s : Str} (hn : n < 2 ^ (w - 1))
    (hb : isDigit b = false) : readInt w (decimal n ++ b :: s) = n := by
  have hdigits : (decimal n ++ b :: s).takeWhile isDigit = decimal n := by
    rw [List.takeWhile_append_of_pos fun c hc => isDigit_of_mem_decimal hc,
      List.takeWhile_cons_of_neg (by simp [hb]), List.append_nil]
  rw [readInt, splitSign_decimal]
  simp only [hdigits, ofDecimal_decimal, Bool.false_eq_true, if_false]
  have hfits : (n : Int) < 2 ^ (w - 1) := by exact_mod_cast hn
  exact Int.min_eq_left (Int.le_sub_one_of_lt hfits)

/-! ## Two renderings one after the other -/

theorem decimal_append_digit {n d : Nat} (hn : 0 < n) (hd : d < 10) :
    decimal n ++ decimal d = decimal (10 * n + d) := by
  unfold decimal
  rw [← List.map_append, Nat.toDigits_append_toDigits (by decide) hn hd]

theorem length_decimal_digit {d : Nat} (hd : d < 10) : (decimal d).length = 1 := by
  rw [decimal, List.length_map, Nat.toDigits_of_lt_base hd]
  rfl

theorem length_decimal_le {n k : Nat} (hk : 0 < k) (h : n < 10 ^ k) : (decimal n).length ≤ k := by
  rw [decimal, List.length_map]
  exact (Nat.length_toDigits_le_iff (by decide) hk).mpr h

/-- A rendering in front of another one counts for as many tens as the other has
digits. -/
theorem decimal_append {a : Nat} (ha : 0 < a) (b : Nat) :
    decimal a ++ decimal b = decimal (a * 10 ^ (decimal b).length + b) := by
  induction b using Nat.strongRecOn with
  | ind b ih =>
    by_cases hb : b < 10
    · rw [length_decimal_digit hb, decimal_append_digit ha hb, Nat.pow_one, Nat.mul_comm 10]
    · have htens : 0 < b / 10 := Nat.div_pos (Nat.le_of_not_lt hb) (by decide)
      have hlast : b % 10 < 10 := Nat.mod_lt b (by decide)
      -- the last digit of `b` apart
      have hsplit : decimal b = decimal (b / 10) ++ decimal (b % 10) := by
        rw [decimal_append_digit htens hlast, Nat.div_add_mod]
      have hlen : (decimal b).length = (decimal (b / 10)).length + 1 := by
        rw [hsplit, List.length_append, length_decimal_digit hlast]
      have hfront : 0 < a * 10 ^ (decimal (b / 10)).length + b / 10 := by omega
      calc decimal a ++ decimal b
          = decimal a ++ decimal (b / 10) ++ decimal (b % 10) := by
            rw [hsplit, List.append_assoc]
        _ = decimal (a * 10 ^ (decimal (b / 10)).length + b / 10) ++ decimal (b % 10) := by
            rw [ih (b / 10) (Nat.div_lt_self (by omega) (by decide))]
        _ = decimal (10 * (a * 10 ^ (decimal (b / 10)).length + b / 10) + b % 10) :=
            decimal_append_digit hfront hlast
        _ = decimal (a * 10 ^ (decimal b).length + b) := by
            congr 1
            rw [hlen, Nat.pow_succ, ← Nat.mul_assoc]
            omega

/-- Reading on from `init`. -/
theorem foldl_ofDecimal (t : Str) (init : Nat) :
    t.foldl (fun n b => 10 * n + (b.toNat - 48)) init = init * 10 ^ t.length + ofDecimal t := by
  induction t generalizing init with
  | nil => simp [ofDecimal]
  | cons b t ih =>
    have hcons : ofDecimal (b :: t) = (10 * 0 + (b.toNat - 48)) * 10 ^ t.length + ofDecimal t :=
      ih _
    rw [List.foldl_cons, ih, hcons, List.length_cons, Nat.pow_succ, Nat.add_mul,
      Nat.mul_zero, Nat.zero_add, Nat.add_assoc, Nat.mul_comm 10 init, Nat.mul_assoc init,
      Nat.mul_comm 10]

theorem ofDecimal_append (s t : Str) :
    ofDecimal (s ++ t) = ofDecimal s * 10 ^ t.length + ofDecimal t := by
  rw [ofDecimal, List.foldl_append]
  exact foldl_ofDecimal t _

/-- `c` is `a` followed by the leading digits of `b`, and `d` is the rest of `b`. -/
def Shifted (a b c d : Nat) : Prop :=
  ∃ lead, 0 < lead ∧ 0 < a ∧ c = a * 10 ^ (decimal lead).length + lead ∧
    b = lead * 10 ^ (decimal d).length + d

/-- A shift makes the number in front more than ten times as large. -/
theorem Shifted.lt {a b c d : Nat} (h : Shifted a b c d) : 10 * a < c := by
  obtain ⟨lead, hlead, ha, rfl, -⟩ := h
  have hdigits : 0 < (decimal lead).length := List.length_pos_iff.mpr (decimal_ne_nil lead)
  have hten : 10 ^ 1 ≤ 10 ^ (decimal lead).length := Nat.pow_le_pow_right (by decide) hdigits
  have hmul := Nat.mul_le_mul_left a hten
  omega

theorem Shifted.append_eq {a b c d : Nat} (h : Shifted a b c d) :
    decimal a ++ decimal b = decimal c ++ decimal d := by
  obtain ⟨lead, hlead, ha, rfl, rfl⟩ := h
  rw [← decimal_append ha, ← decimal_append hlead, List.append_assoc]

/-- The same digits, cut at an earlier place. -/
theorem shifted_of_append_eq {a b c d : Nat} (h : decimal a ++ decimal b = decimal c ++ decimal d)
    (hlt : (decimal a).length < (decimal c).length) : Shifted a b c d := by
  -- `mid` is what the longer front has more than the shorter one
  obtain ⟨mid, hc, hb⟩ : ∃ mid, decimal c = decimal a ++ mid ∧ decimal b = mid ++ decimal d := by
    rcases List.append_eq_append_iff.mp h with ⟨mid, hc, hb⟩ | ⟨mid, ha, -⟩
    · exact ⟨mid, hc, hb⟩
    · rw [ha, List.length_append] at hlt
      omega
  have hmid : mid ≠ [] := by
    rintro rfl
    rw [hc, List.append_nil] at hlt
    exact absurd hlt (Nat.lt_irrefl _)
  have hbval : b = ofDecimal mid * 10 ^ (decimal d).length + d := by
    have := congrArg ofDecimal hb
    rwa [ofDecimal_append, ofDecimal_decimal, ofDecimal_decimal] at this
  have hcval : c = a * 10 ^ mid.length + ofDecimal mid := by
    have := congrArg ofDecimal hc
    rwa [ofDecimal_append, ofDecimal_decimal, ofDecimal_decimal] at this
  -- with nothing but zeros in between, `b` and `d` would be the same number
  have hlead : 0 < ofDecimal mid := by
    refine Nat.pos_of_ne_zero fun h0 => hmid ?_
    rw [h0, Nat.zero_mul, Nat.zero_add] at hbval
    rw [hbval] at hb
    exact List.append_left_eq_self.mp hb.symm
  have hrender : decimal (ofDecimal mid) = mid := by
    have hsame : decimal (ofDecimal mid) ++ decimal d = mid ++ decimal d := by
      rw [decimal_append hlead, ← hbval, hb]
    exact List.append_cancel_right hsame
  have ha : 0 < a := by
    refine Nat.pos_of_ne_zero fun h0 => decimal_ne_nil a ?_
    rw [h0, Nat.zero_mul, Nat.zero_add] at hcval
    rw [hcval, hrender] at hc
    exact List.append_left_eq_self.mp hc.symm
  exact ⟨ofDecimal mid, hlead, ha, by rwa [hrender], hbval⟩

/-- **Two pairs of numbers give the same digits** exactly when they are the same, or
one is a shift of the other. -/
theorem decimal_append_eq_iff {a b c d : Nat} :
    decimal a ++ decimal b = decimal c ++ decimal d ↔
      (a = c ∧ b = d) ∨ Shifted a b c d ∨ Shifted c d a b := by
  constructor
  · intro h
    rcases Nat.lt_trichotomy (decimal a).length (decimal c).length with hlt | heq | hlt
    · exact Or.inr (Or.inl (shifted_of_append_eq h hlt))
    · obtain ⟨hac, hbd⟩ := List.append_inj h heq
      exact Or.inl ⟨decimal_injective hac, decimal_injective hbd⟩
    · exact Or.inr (Or.inr (shifted_of_append_eq h.symm hlt))
  · rintro (⟨rfl, rfl⟩ | h | h)
    · rfl
    · exact h.append_eq
    · exact h.append_eq.symm

end Lib
