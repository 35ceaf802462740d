/-!
# Calls on handles

A C interface hands out handles, possibly null, and takes them back. Which calls
were made is a trace; the calls themselves are of any type.

- `Protocol`: which calls return a handle, which take one, and which of these give
  it back.
- `Balanced`: every handle returned is given back exactly once, no call is made with
  a null handle or one that was given back, and nothing is given back when a null
  handle was returned.
- `balanced_bracket`, `balanced_null`: the two balanced shapes of a trace with one
  acquisition; `not_balanced_of_kept`: a trace that gives nothing back.
-/

namespace Lib

universe u v

/-- How calls deal with handles; the inner option is null or not. -/
structure Protocol (κ : Type u) (H : Type v) where
  returns : κ → Option (Option H)
  takes : κ → Option (Option H)
  releases : κ → Bool

namespace Protocol

variable {κ : Type u} {H : Type v} (P : Protocol κ H)

/-- The call works with `h` and leaves it open. -/
structure Uses (h : H) (c : κ) : Prop where
  returns : P.returns c = none
  takes : P.takes c = some (some h)
  releases : P.releases c = false

/-- The call returns a handle without taking one. -/
structure Acquires (p : Option H) (c : κ) : Prop where
  returns : P.returns c = some p
  takes : P.takes c = none
  releases : P.releases c = false

/-- The call gives `h` back. -/
structure Gives (h : H) (c : κ) : Prop where
  returns : P.returns c = none
  takes : P.takes c = some (some h)
  releases : P.releases c = true

variable {P} {h : H} {acq rel : κ} {uses calls : List κ}

/-- The calls of a bracket: the first, one in between, or the last. -/
theorem mem_bracket {c : κ} (huses : ∀ c ∈ uses, P.Uses h c) (hc : c ∈ acq :: uses ++ [rel]) :
    c = acq ∨ P.Uses h c ∨ c = rel := by
  rcases List.mem_append.mp hc with hc | hc
  · exact (List.mem_cons.mp hc).imp_right fun hc => Or.inl (huses c hc)
  · exact Or.inr (Or.inr (List.mem_singleton.mp hc))

variable [DecidableEq H]

/-- The call gives `h` back. -/
def gives (P : Protocol κ H) (h : H) (c : κ) : Bool := P.releases c && P.takes c == some (some h)

/-- A trace in which every handle is treated as it should be. -/
structure Balanced (P : Protocol κ H) (calls : List κ) : Prop where
  once : ∀ c ∈ calls, ∀ h, P.returns c = some (some h) → calls.countP (P.gives h) = 1
  live : ∀ before c after, calls = before ++ c :: after → ∀ p, P.takes c = some p →
    ∃ h, p = some h ∧ ∀ b ∈ before, P.gives h b = false
  null : ∀ c ∈ calls, P.returns c = some none → ∀ b ∈ calls, P.releases b = false

theorem gives_eq_false {c : κ} (hc : P.releases c = false) (h : H) : P.gives h c = false := by
  rw [gives, hc]
  rfl

/-- **Acquire, use, give back** is balanced. -/
theorem balanced_bracket (hacq : P.Acquires (some h) acq) (huses : ∀ c ∈ uses, P.Uses h c)
    (hrel : P.Gives h rel) : P.Balanced (acq :: uses ++ [rel]) := by
  have hfront : ∀ c ∈ acq :: uses, P.gives h c = false := fun c hc => by
    rcases List.mem_cons.mp hc with rfl | hc
    · exact gives_eq_false hacq.releases h
    · exact gives_eq_false (huses c hc).releases h
  have hlast : P.gives h rel = true := by
    rw [gives, hrel.releases, hrel.takes]
    simp
  -- only the first call returns a handle, and it is `h`
  have hreturns : ∀ c ∈ acq :: uses ++ [rel], ∀ p, P.returns c = some p → p = some h := by
    intro c hc p hret
    rcases mem_bracket huses hc with rfl | hc | rfl
    · rw [hacq.returns] at hret
      exact (Option.some.inj hret).symm
    · rw [hc.returns] at hret
      cases hret
    · rw [hrel.returns] at hret
      cases hret
  refine ⟨fun c hc h' hret => ?_, fun before c after hsplit p hp => ?_, fun c hc hret => ?_⟩
  · obtain rfl := Option.some.inj (hreturns c hc _ hret)
    have hzero : (acq :: uses).countP (P.gives h') = 0 :=
      List.countP_eq_zero.mpr fun c hc => by simp [hfront c hc]
    rw [List.countP_append, hzero, List.countP_singleton, if_pos hlast]
  · have hp' : p = some h := by
      have hc : c ∈ acq :: uses ++ [rel] := by
        rw [hsplit]
        exact List.mem_append_right _ List.mem_cons_self
      rcases mem_bracket huses hc with rfl | hc | rfl
      · rw [hacq.takes] at hp
        cases hp
      · rw [hc.takes] at hp
        exact (Option.some.inj hp).symm
      · rw [hrel.takes] at hp
        exact (Option.some.inj hp).symm
    -- whatever comes before some call comes before the last one
    have hbefore : before <+: acq :: uses := by
      have hdrop := congrArg List.dropLast hsplit
      rw [List.dropLast_concat, List.dropLast_append_cons] at hdrop
      exact ⟨_, hdrop.symm⟩
    exact ⟨h, hp', fun b hb => hfront b (hbefore.mem hb)⟩
  · cases hreturns c hc none hret

/-- **A null handle**, and nothing after it, is balanced. -/
theorem balanced_null (hacq : P.Acquires none acq) : P.Balanced [acq] := by
  refine ⟨fun c hc h' hret => ?_, fun before c after hsplit p hp => ?_, fun c hc hret b hb => ?_⟩
  · rw [List.mem_singleton.mp hc, hacq.returns] at hret
    cases hret
  · have hc : c ∈ [acq] := by
      rw [hsplit]
      exact List.mem_append_right _ List.mem_cons_self
    rw [List.mem_singleton.mp hc, hacq.takes] at hp
    cases hp
  · rw [List.mem_singleton.mp hb]
    exact hacq.releases

/-- **A handle that is kept**: a trace that returns one and gives nothing back is not
balanced. -/
theorem not_balanced_of_kept (hmem : acq ∈ calls) (hacq : P.returns acq = some (some h))
    (hkept : ∀ c ∈ calls, P.releases c = false) : ¬ P.Balanced calls := by
  intro hb
  have hone := hb.once acq hmem h hacq
  have hzero : calls.countP (P.gives h) = 0 :=
    List.countP_eq_zero.mpr fun c hc => by simp [gives_eq_false (hkept c hc)]
  omega

end Protocol

end Lib
