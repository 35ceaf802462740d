import Mathlib.Data.Multiset.AddSub
import Mathlib.Data.Multiset.Count
import Mathlib.Logic.Relation

/-!
# Custody ledgers

What a reliable work pipeline promises, stated without the pipeline: tokens are
minted, are in custody for a while and are retired, and nothing else ever
happens to them.

- `Ledger.Step`: minting puts a token into custody, retiring takes it out.
- `Ledger.Balanced`: what is in custody together with what is retired is what
  was minted, with multiplicities; it holds along every run (`Balanced.run`).
- `Balanced.custody_of_not_retired`, `Balanced.custody_of_retired`: when no
  token is minted twice, an unretired token is in custody exactly once and a
  retired one not at all.
-/

namespace Lib

universe u

/-- The tokens minted so far, those in custody and those retired. -/
structure Ledger (κ : Type u) where
  minted : Multiset κ
  custody : Multiset κ
  retired : Multiset κ

namespace Ledger

variable {κ : Type u}

/-- The two things that happen to a token. -/
inductive Step : Ledger κ → Ledger κ → Prop where
  | mint (k : κ) {m c r : Multiset κ} : Step ⟨m, c, r⟩ ⟨k ::ₘ m, k ::ₘ c, r⟩
  | retire (k : κ) {m c r : Multiset κ} : Step ⟨m, k ::ₘ c, r⟩ ⟨m, c, k ::ₘ r⟩

/-- Every minted token is accounted for, with its multiplicity. -/
def Balanced (L : Ledger κ) : Prop := L.custody + L.retired = L.minted

theorem Step.balanced {L L' : Ledger κ} (h : Step L L') (hb : L.Balanced) : L'.Balanced := by
  cases h with
  | mint k =>
    show k ::ₘ _ + _ = k ::ₘ _
    rw [Multiset.cons_add]
    exact congrArg (k ::ₘ ·) hb
  | retire k =>
    show _ + k ::ₘ _ = _
    rw [Multiset.add_cons, ← Multiset.cons_add]
    exact hb

theorem Balanced.run {L L' : Ledger κ} (hb : L.Balanced)
    (h : Relation.ReflTransGen Step L L') : L'.Balanced := by
  induction h with
  | refl => exact hb
  | tail _ hs ih => exact hs.balanced ih

namespace Balanced

variable [DecidableEq κ] {L : Ledger κ} {k : κ}

theorem count_add (hb : L.Balanced) (k : κ) :
    L.custody.count k + L.retired.count k = L.minted.count k := by
  rw [← Multiset.count_add]
  exact congrArg (Multiset.count k) hb

/-- A token minted once and not retired is in custody exactly once. -/
theorem custody_of_not_retired (hb : L.Balanced) (hnd : L.minted.Nodup) (hm : k ∈ L.minted)
    (hr : k ∉ L.retired) : L.custody.count k = 1 := by
  have hsum := hb.count_add k
  rw [Multiset.count_eq_one_of_mem hnd hm, Multiset.count_eq_zero_of_notMem hr] at hsum
  exact hsum

/-- A retired token is no longer in custody. -/
theorem custody_of_retired (hb : L.Balanced) (hnd : L.minted.Nodup) (hr : k ∈ L.retired) :
    L.custody.count k = 0 := by
  have hsum := hb.count_add k
  have hle := Multiset.nodup_iff_count_le_one.mp hnd k
  have hpos := Multiset.count_pos.mpr hr
  omega

omit [DecidableEq κ] in
/-- With nothing in custody every minted token is retired. -/
theorem retired_of_custody_eq_zero (hb : L.Balanced) (hc : L.custody = 0)
    (hm : k ∈ L.minted) : k ∈ L.retired := by
  have hsum : L.custody + L.retired = L.minted := hb
  rw [hc, Multiset.zero_add] at hsum
  rwa [hsum]

end Balanced

end Ledger

end Lib
