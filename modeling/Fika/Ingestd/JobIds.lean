import Fika.Ingestd.Ingestd

/-!
# Job ids (`generate_unique_id` in `ingestd.cpp`)

The documented format is `job_<timestamp>_<rand>`, but the two numbers are appended
without a separator, so an id does not say where the timestamp ends.

- `length_generateUniqueId_le`, `newJob_jobId_str`: an id fits the array of the job
  message and is read back from it.
- `generateUniqueId_eq_iff`: when two ids are the same (`Shifted`);
  `generateUniqueId_injective_of_close`: not for two clock readings within a factor
  of ten.
- `job_ids_determine_iff`: an id determines its parts exactly when neither pair is a
  shift of the other; `job_110`: the ids of two different pairs.
-/

namespace Fika

open Lib

/-- A 64-bit timestamp has at most 19 digits and the random number at most 5. -/
theorem length_generateUniqueId_le {t r : Nat} (ht : t < 2 ^ 63) (hr : r ≤ 0xffff) :
    (generateUniqueId t r).length ≤ 28 := by
  have htime : (decimalInt t).length ≤ 19 :=
    length_decimal_le (by decide) (Nat.lt_trans ht (by decide))
  have hrand : (decimal r).length ≤ 5 :=
    length_decimal_le (by decide) (Nat.lt_of_le_of_lt hr (by decide))
  have hjob : (lit "job_").length = 4 := by decide
  rw [generateUniqueId, List.length_append, List.length_append]
  omega

/-- The id is read back from the job message as it was made. -/
theorem newJob_jobId_str {t r : Nat} (ht : t < 2 ^ 63) (hr : r ≤ 0xffff) (dst : Str) :
    (newJob (generateUniqueId t r) dst).jobId.str = generateUniqueId t r := by
  have hlen := length_generateUniqueId_le ht hr
  show (CharArray.assign maxIdSize (generateUniqueId t r)).str = _
  rw [CharArray.str_assign, List.take_of_length_le (Nat.le_trans hlen (by decide)),
    cStr_of_nul_not_mem (nul_not_mem_generateUniqueId t r)]

/-- When two ids are the same. -/
theorem generateUniqueId_eq_iff {t₁ t₂ r₁ r₂ : Nat} :
    generateUniqueId t₁ r₁ = generateUniqueId t₂ r₂ ↔
      (t₁ = t₂ ∧ r₁ = r₂) ∨ Shifted t₁ r₁ t₂ r₂ ∨ Shifted t₂ r₂ t₁ r₁ := by
  rw [← decimal_append_eq_iff]
  unfold generateUniqueId
  rw [List.append_assoc, List.append_assoc, List.append_right_inj]
  exact Iff.rfl

/-- Clock readings of which neither is more than ten times the other make different
ids from different parts. -/
theorem generateUniqueId_injective_of_close {t₁ t₂ r₁ r₂ : Nat} (h₁ : t₁ ≤ 10 * t₂)
    (h₂ : t₂ ≤ 10 * t₁) (h : generateUniqueId t₁ r₁ = generateUniqueId t₂ r₂) :
    t₁ = t₂ ∧ r₁ = r₂ := by
  rcases generateUniqueId_eq_iff.mp h with heq | hshift | hshift
  · exact heq
  · have := hshift.lt
    omega
  · have := hshift.lt
    omega

/-- **Job ids determine their parts** exactly when neither timestamp is the other one
followed by the leading digits of the other's random number, with its own random
number as the rest; and every id survives the copy into the job message. -/
theorem job_ids_determine_iff (t₁ t₂ r₁ r₂ : Nat) (ht₁ : t₁ < 2 ^ 63) (ht₂ : t₂ < 2 ^ 63)
    (hr₁ : r₁ ≤ 0xffff) (hr₂ : r₂ ≤ 0xffff) :
    (∀ dst, (newJob (generateUniqueId t₁ r₁) dst).jobId.str = generateUniqueId t₁ r₁) ∧
    (∀ dst, (newJob (generateUniqueId t₂ r₂) dst).jobId.str = generateUniqueId t₂ r₂) ∧
    ((generateUniqueId t₁ r₁ = generateUniqueId t₂ r₂ → t₁ = t₂ ∧ r₁ = r₂) ↔
      ¬ Shifted t₁ r₁ t₂ r₂ ∧ ¬ Shifted t₂ r₂ t₁ r₁) := by
  refine ⟨newJob_jobId_str ht₁ hr₁, newJob_jobId_str ht₂ hr₂, ?_⟩
  constructor
  · intro h
    constructor
    · intro hshift
      have hlt := hshift.lt
      obtain ⟨rfl, -⟩ := h (generateUniqueId_eq_iff.mpr (Or.inr (Or.inl hshift)))
      omega
    · intro hshift
      have hlt := hshift.lt
      obtain ⟨rfl, -⟩ := h (generateUniqueId_eq_iff.mpr (Or.inr (Or.inr hshift)))
      omega
  · rintro ⟨h₁, h₂⟩ hid
    rcases generateUniqueId_eq_iff.mp hid with heq | hshift | hshift
    · exact heq
    · exact absurd hshift h₁
    · exact absurd hshift h₂

/-- Two jobs of consecutive milliseconds with the same random number have different
ids. -/
theorem job_ids_determine_consecutive :
    generateUniqueId (1700000000000 : Nat) 4660 ≠ generateUniqueId (1700000000001 : Nat) 4660 := by
  intro h
  have hdetermine := (job_ids_determine_iff 1700000000000 1700000000001 4660 4660 (by decide)
    (by decide) (by decide) (by decide)).2.2.mpr
    ⟨fun hshift => absurd hshift.lt (by decide), fun hshift => absurd hshift.lt (by decide)⟩
  exact absurd (hdetermine h).1 (by decide)

/-- The pairs `1`, `10` and `11`, `0` make the same id. -/
theorem job_110 :
    ¬ ∀ t₁ t₂ r₁ r₂ : Nat, t₁ < 2 ^ 63 → t₂ < 2 ^ 63 → r₁ ≤ 0xffff → r₂ ≤ 0xffff →
      generateUniqueId t₁ r₁ = generateUniqueId t₂ r₂ → t₁ = t₂ ∧ r₁ = r₂ := by
  intro h
  have hsame : generateUniqueId (1 : Nat) 10 = generateUniqueId (11 : Nat) 0 := by decide
  exact absurd (h 1 11 10 0 (by decide) (by decide) (by decide) (by decide) hsame).1 (by decide)

end Fika
