import Mathlib.Algebra.GroupWithZero.Nat
import Mathlib.Logic.Relation

/-!
# Runs of an event-driven system

A system is a partial function `step : σ → ε → Option σ`: the event carries
everything the environment chooses, so a step is a computation and a finite
run can be evaluated. Every statement about "any run" is made over `Reaches`,
which also carries a *guard* `ok` on the events a run may take (an assumption
on the environment, or the condition under which a defective step is safe).

- `Reaches.invariant`: a predicate that holds at the start and is preserved by
  every guarded step holds in every reached state.
- `Reaches.mono`: a weaker guard admits more runs.
- `Reaches.simulate`: a step-wise simulation carries a run over to another
  system, with stuttering.
- `run` and `reaches_of_run`: the executable reading, used to exhibit a run.
- `runOk_of_runCheck`: a guard that is checked by evaluation.
- `along_iff_runOk`: a guard that is exact for one step is exact for runs.
- `run_potential`: a potential from which every event pays its cost bounds the
  cost of a whole run.
- `run_completes`: a potential that every unfinished state can still spend from
  leads to a finished one; `run_map`: runs under a change of view.
- `settle`, `taken`: a machine that passes over the events it cannot take, and the
  events it took. What it took is a run of its own (`run_taken`), and the word
  taken so far can be part of an invariant (`taken_invariant`).
-/

namespace Lib

universe u v w

variable {σ : Type u} {ε : Type v}

/-- States reached from `s` by steps whose events all meet the guard `ok`,
judged in the state before the step. -/
inductive Reaches (step : σ → ε → Option σ) (ok : σ → ε → Prop) (s : σ) : σ → Prop where
  | refl : Reaches step ok s s
  | tail {t t' : σ} {e : ε} :
      Reaches step ok s t → ok t e → step t e = some t' → Reaches step ok s t'

/-- The guard that admits every event. -/
def anyEvent (_ : σ) (_ : ε) : Prop := True

namespace Reaches

variable {step : σ → ε → Option σ} {ok ok' : σ → ε → Prop} {s t : σ}

/-- **Invariant rule**: what holds at the start and survives every guarded step
holds in every reached state. -/
theorem invariant {P : σ → Prop} (h : Reaches step ok s t) (hinit : P s)
    (hstep : ∀ {a b : σ} {e : ε}, P a → ok a e → step a e = some b → P b) : P t := by
  induction h with
  | refl => exact hinit
  | tail _ hok hs ih => exact hstep ih hok hs

/-- The invariant rule with an invariant already known to hold along the run. -/
theorem invariant_with {P Q : σ → Prop} (h : Reaches step ok s t)
    (hQ : ∀ {a : σ}, Reaches step ok s a → Q a) (hinit : P s)
    (hstep : ∀ {a b : σ} {e : ε}, Q a → P a → ok a e → step a e = some b → P b) : P t := by
  induction h with
  | refl => exact hinit
  | tail hr hok hs ih => exact hstep (hQ hr) ih hok hs

/-- A weaker guard admits every run of a stronger one. -/
theorem mono (hle : ∀ {a : σ} {e : ε}, ok a e → ok' a e) (h : Reaches step ok s t) :
    Reaches step ok' s t := by
  induction h with
  | refl => exact refl
  | tail _ hok hs ih => exact tail ih (hle hok) hs

/-- Runs compose. -/
theorem trans {u : σ} (h : Reaches step ok s t) (h' : Reaches step ok t u) :
    Reaches step ok s u := by
  induction h' with
  | refl => exact h
  | tail _ hok hs ih => exact tail ih hok hs

/-- One guarded step is a run. -/
theorem single {e : ε} (hok : ok s e) (hs : step s e = some t) : Reaches step ok s t :=
  tail refl hok hs

/-- **Simulation**: when every guarded step of the concrete system is matched by
a step of the abstract relation or by a stutter, `R` relates every reached state
to an abstract state reached by `astep`. -/
theorem simulate {α : Type w} {astep : α → α → Prop} (f : σ → α)
    (hstep : ∀ {a b : σ} {e : ε}, Reaches step ok s a → ok a e → step a e = some b →
      astep (f a) (f b) ∨ f b = f a)
    (h : Reaches step ok s t) : Relation.ReflTransGen astep (f s) (f t) := by
  induction h with
  | refl => exact .refl
  | tail hr hok hs ih =>
    rcases hstep hr hok hs with hmove | hstay
    · exact ih.tail hmove
    · rw [hstay]
      exact ih

end Reaches

/-! ## The executable reading -/

/-- Run a list of events in order; `none` when one of them is not enabled. -/
def run (step : σ → ε → Option σ) : σ → List ε → Option σ
  | s, [] => some s
  | s, e :: es => (step s e).bind fun s' => run step s' es

/-- Every event of the list meets the guard in the state it is taken in. -/
def runOk (step : σ → ε → Option σ) (ok : σ → ε → Prop) : σ → List ε → Prop
  | _, [] => True
  | s, e :: es => ok s e ∧ ∀ s', step s e = some s' → runOk step ok s' es

/-- A completed evaluation is a run. -/
theorem reaches_of_run {step : σ → ε → Option σ} {ok : σ → ε → Prop} :
    ∀ {es : List ε} {s t : σ}, runOk step ok s es → run step s es = some t →
      Reaches step ok s t
  | [], s, t, _, h => by
    obtain rfl : s = t := Option.some.inj h
    exact .refl
  | e :: es, s, t, hok, h => by
    obtain ⟨s', hs, hrest⟩ := Option.bind_eq_some_iff.mp h
    exact (Reaches.single hok.1 hs).trans (reaches_of_run (hok.2 s' hs) hrest)

/-- A guard that only looks at the event is checked along the list. -/
theorem runOk_of_forall {step : σ → ε → Option σ} {ok : σ → ε → Prop} :
    ∀ {es : List ε} {s : σ}, (∀ e ∈ es, ∀ t, ok t e) → runOk step ok s es
  | [], _, _ => trivial
  | e :: _, s, h =>
    ⟨h e List.mem_cons_self s, fun _ _ =>
      runOk_of_forall fun e' he' => h e' (List.mem_cons_of_mem _ he')⟩

/-- One run after another. -/
theorem runOk_append {step : σ → ε → Option σ} {ok : σ → ε → Prop} {es' : List ε} :
    ∀ {es : List ε} {s : σ}, runOk step ok s es →
      (∀ t, run step s es = some t → runOk step ok t es') → runOk step ok s (es ++ es')
  | [], s, _, h => h s rfl
  | e :: es, s, hok, h =>
    ⟨hok.1, fun s' hs => runOk_append (hok.2 s' hs) fun t ht => h t (by rw [run, hs]; exact ht)⟩

/-- A check of every event of a run, by evaluation. -/
def runCheck (step : σ → ε → Option σ) (check : σ → ε → Bool) : σ → List ε → Bool
  | _, [] => true
  | s, e :: es => check s e && (step s e).all fun s' => runCheck step check s' es

theorem runOk_of_runCheck {step : σ → ε → Option σ} {ok : σ → ε → Prop} {check : σ → ε → Bool}
    (hok : ∀ s e, check s e = true → ok s e) :
    ∀ {es : List ε} {s : σ}, runCheck step check s es = true → runOk step ok s es
  | [], _, _ => trivial
  | e :: es, s, h => by
    obtain ⟨hhere, hrest⟩ := Bool.and_eq_true_iff.mp h
    refine ⟨hok s e hhere, fun s' hs => runOk_of_runCheck hok ?_⟩
    rw [hs] at hrest
    exact hrest

/-- `P` holds in every state of a run. -/
def along (step : σ → ε → Option σ) (P : σ → Prop) : σ → List ε → Prop
  | s, [] => P s
  | s, e :: es => P s ∧ ∀ s', step s e = some s' → along step P s' es

/-- **Exact guards**: when, under an invariant of all runs, a step keeps `P` exactly
if it meets the guard, then `P` holds all along a run exactly if every step of it
meets the guard. -/
theorem along_iff_runOk {step : σ → ε → Option σ} {ok : σ → ε → Prop} {inv P : σ → Prop}
    (hinv : ∀ {a b : σ} {e : ε}, inv a → step a e = some b → inv b)
    (hstep : ∀ {a b : σ} {e : ε}, inv a → P a → step a e = some b → (P b ↔ ok a e)) :
    ∀ {es : List ε} {s t : σ}, inv s → P s → run step s es = some t →
      (along step P s es ↔ runOk step ok s es)
  | [], s, _, _, hP, _ => ⟨fun _ => trivial, fun _ => hP⟩
  | e :: es, s, t, hI, hP, h => by
    obtain ⟨s', hs, hrest⟩ := Option.bind_eq_some_iff.mp h
    have hiff := hstep hI hP hs
    have hnext : P s' → (along step P s' es ↔ runOk step ok s' es) := fun hP' =>
      along_iff_runOk hinv hstep (hinv hI hs) hP' hrest
    -- the step is deterministic, so `s'` is the only state to look at
    have honly : ∀ {s'' : σ}, step s e = some s'' → s'' = s' := fun h'' =>
      Option.some.inj (h''.symm.trans hs)
    constructor
    · rintro ⟨-, hall⟩
      have hP' : P s' := by
        have hfirst := hall s' hs
        cases es with
        | nil => exact hfirst
        | cons e' es' => exact hfirst.1
      refine ⟨hiff.mp hP', fun s'' hs'' => ?_⟩
      rw [honly hs'']
      exact (hnext hP').mp (hall s' hs)
    · rintro ⟨hok, hall⟩
      refine ⟨hP, fun s'' hs'' => ?_⟩
      rw [honly hs'']
      exact (hnext (hiff.mpr hok)).mpr (hall s' hs)

/-- **Potential rule**: when an invariant lets every event pay its cost from the
potential, the cost of a run is paid from the potential at its start. -/
theorem run_potential {step : σ → ε → Option σ} {inv : σ → Prop} {ok : ε → Prop} {φ : σ → Nat}
    {cost : ε → Nat}
    (hstep : ∀ {a b : σ} {e : ε}, inv a → ok e → step a e = some b →
      inv b ∧ φ b + cost e ≤ φ a) :
    ∀ {es : List ε} {s t : σ}, inv s → (∀ e ∈ es, ok e) → run step s es = some t →
      inv t ∧ φ t + (es.map cost).sum ≤ φ s
  | [], s, t, hinv, _, h => by
    obtain rfl : s = t := Option.some.inj h
    exact ⟨hinv, Nat.le_refl _⟩
  | e :: es, s, t, hinv, hok, h => by
    obtain ⟨s', hs, hrest⟩ := Option.bind_eq_some_iff.mp h
    obtain ⟨hinv', hpaid⟩ := hstep hinv (hok e List.mem_cons_self) hs
    have hall : inv t ∧ φ t + (es.map cost).sum ≤ φ s' :=
      run_potential hstep hinv' (fun e' he' => hok e' (List.mem_cons_of_mem _ he')) hrest
    refine ⟨hall.1, ?_⟩
    rw [List.map_cons, List.sum_cons]
    omega

/-- **Completion rule**: when an invariant lets every unfinished state go on with
an event of a kind, at the price of a potential, a run of such events finishes. -/
theorem run_completes {step : σ → ε → Option σ} {inv done : σ → Prop} {ok : ε → Prop}
    {φ : σ → Nat}
    (hgo : ∀ {a : σ}, inv a → ¬ done a → ∃ e b, ok e ∧ step a e = some b ∧ inv b ∧ φ b < φ a) :
    ∀ {s : σ}, inv s → ∃ es t, (∀ e ∈ es, ok e) ∧ run step s es = some t ∧ done t := by
  intro s hs
  induction hn : φ s using Nat.strongRecOn generalizing s with
  | ind n ih =>
    by_cases hdone : done s
    · exact ⟨[], s, fun e he => absurd he List.not_mem_nil, rfl, hdone⟩
    · obtain ⟨e, b, he, hb, hinv, hlt⟩ := hgo hs hdone
      obtain ⟨es, t, hes, hrun, ht⟩ := ih (φ b) (hn ▸ hlt) hinv rfl
      refine ⟨e :: es, t, List.forall_mem_cons.mpr ⟨he, hes⟩, ?_, ht⟩
      rw [run, hb]
      exact hrun

/-- A map that commutes with every step carries runs over. -/
theorem run_map {τ : Type w} {step : σ → ε → Option σ} {step' : τ → ε → Option τ} {f : σ → τ}
    {g : ε → ε} (h : ∀ s e, (step s e).map f = step' (f s) (g e)) :
    ∀ (es : List ε) (s : σ), (run step s es).map f = run step' (f s) (es.map g)
  | [], _ => rfl
  | e :: es, s => by
    rw [List.map_cons, run, run, ← h s e]
    cases hs : step s e with
    | none => rfl
    | some t => exact run_map h es t

/-- A property of every step of a run may be replaced by an equivalent one. -/
theorem runOk_congr {step : σ → ε → Option σ} {ok ok' : σ → ε → Prop}
    (h : ∀ s e, ok s e ↔ ok' s e) :
    ∀ {es : List ε} {s : σ}, runOk step ok s es ↔ runOk step ok' s es
  | [], _ => Iff.rfl
  | _ :: _, s =>
    and_congr (h s _) (forall_congr' fun _ => imp_congr_right fun _ => runOk_congr h)

/-! ## Passing over the events that are not enabled -/

/-- The state after the events, those that are not enabled being passed over. -/
def settle (step : σ → ε → Option σ) : σ → List ε → σ
  | s, [] => s
  | s, e :: es => settle step ((step s e).getD s) es

/-- The events that were not passed over. -/
def taken (step : σ → ε → Option σ) : σ → List ε → List ε
  | _, [] => []
  | s, e :: es =>
    match step s e with
    | some s' => e :: taken step s' es
    | none => taken step s es

section
variable {step : σ → ε → Option σ}

/-- The events taken are a run, and it leads to the same state. -/
theorem run_taken : ∀ (es : List ε) (s : σ),
    run step s (taken step s es) = some (settle step s es)
  | [], _ => rfl
  | e :: es, s => by
    unfold taken settle
    cases hs : step s e with
    | none => exact run_taken es s
    | some s' =>
      show (step s e).bind _ = _
      rw [hs]
      exact run_taken es s'

/-- A state with nothing enabled takes nothing more. -/
theorem taken_eq_nil {s : σ} (h : ∀ e, step s e = none) :
    ∀ es : List ε, taken step s es = [] ∧ settle step s es = s
  | [] => ⟨rfl, rfl⟩
  | e :: es => by
    unfold taken settle
    rw [h e]
    exact taken_eq_nil h es

/-- **Invariant rule for words**: a relation between the word taken so far and the
state, kept by every enabled event, holds after any events. -/
theorem taken_invariant {P : List ε → σ → Prop}
    (hstep : ∀ {w : List ε} {a b : σ} {e : ε}, P w a → step a e = some b → P (w ++ [e]) b) :
    ∀ {w : List ε} {s : σ} (es : List ε), P w s → P (w ++ taken step s es) (settle step s es)
  | w, s, [], h => by
    rw [taken, List.append_nil]
    exact h
  | w, s, e :: es, h => by
    unfold taken settle
    cases hs : step s e with
    | none => exact taken_invariant hstep es h
    | some s' =>
      have hnext := taken_invariant hstep es (hstep h hs)
      rwa [List.append_assoc] at hnext

end

end Lib
