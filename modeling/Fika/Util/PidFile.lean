import Mathlib.Logic.Function.Basic
import Fika.Lib.Decimal
import Fika.Lib.Run

/-!
# The pid file (`pid_file.h`, `pid_file.cpp`)

Any number of processes call `pidfile_lock::create_and_lock` on one path, each at
its own pace. The call tests whether the file exists and creates it if not,
takes the lock without waiting, and only then opens the file again and writes the
pid that is to stay. The first half is not covered by the lock.

- `Stage`, `State`, `step`: where each process stands, the file and its lock; the
  lock is exclusive and goes with its holder.
- `readPid`: `pidfile_lock::read_pid`; `readPid_pidText`: it reads back what a
  process writes.
- `Owned`: the lock is held by the one process that has come past it, in every
  run; `Owned.atMostOne`.
- `Named`: the file names the process that has returned true; `named_step_iff`:
  what a step has to respect (`Spares`); `pid_file_names_holder`: over whole runs.
- `together`: two calls that spare each other; `overtaken`: a run in which the unlocked
  half of one call undoes another one.
-/

namespace Fika

open Lib

namespace PidFile

/-- A `pid_t` that names a process. -/
abbrev Pid : Type := Fin (2 ^ 31)

/-- `getpid() << "\n"`. -/
def pidText (p : Pid) : Str := decimal p.val ++ lit "\n"

/-- What a file holds after a write at its start. -/
def overlay (text content : Str) : Str := text ++ content.drop text.length

/-- `pidfile_lock::read_pid`: an exception when the file cannot be opened. -/
def readPid (content : Option Str) : Option Int := content.map (readInt 32)

/-- Where a process stands in `create_and_lock`. -/
inductive Stage where
  | absent
  | testing
  | creating
  | writing
  | locking
  | reopening
  | rewriting
  | returnedTrue
  | returnedFalse
deriving DecidableEq, Repr

/-- The process has come past `try_lock` and not given the lock back. -/
def Stage.Locked : Stage → Prop
  | .reopening => True
  | .rewriting => True
  | .returnedTrue => True
  | _ => False

/-- The stage of each process, the file at the path, and who holds its lock. -/
structure State where
  stage : Pid → Stage := fun _ => .absent
  content : Option Str := none
  lock : Option Pid := none

/-- The steps of a process, one system call each. `opened` tells whether the file
can be opened for writing. -/
inductive Event where
  | enter (p : Pid)
  | test (p : Pid)
  | create (p : Pid) (opened : Bool)
  | write (p : Pid)
  | tryLock (p : Pid)
  | reopen (p : Pid) (opened : Bool)
  | rewrite (p : Pid)
  | exit (p : Pid)

namespace State

def setStage (s : State) (p : Pid) (stage : Stage) : State :=
  { s with stage := Function.update s.stage p stage }

/-- Write the pid of `p` at the start of the file. -/
def writePid (s : State) (p : Pid) : State :=
  { s with content := some (overlay (pidText p) (s.content.getD [])) }

/-- The end of a process, which gives its lock back. -/
def depart (s : State) (p : Pid) : State :=
  { s.setStage p .absent with lock := if s.lock = some p then none else s.lock }

/-- One step; `none` when the process is not at it. -/
def step (s : State) : Event → Option State
  | .enter p => if s.stage p = .absent then some (s.setStage p .testing) else none
  | .test p =>
    if s.stage p = .testing then
      some (s.setStage p (if s.content.isSome then .locking else .creating))
    else none
  | .create p opened =>
    if s.stage p = .creating then
      -- the stream `temp` ignores what is written to it when it is not open
      if opened then some ({ s with content := some [] }.setStage p .writing)
      else some (s.setStage p .locking)
    else none
  | .write p => if s.stage p = .writing then some ((s.writePid p).setStage p .locking) else none
  | .tryLock p =>
    if s.stage p = .locking then
      match s.content, s.lock with
      -- `file_lock` throws for a file that does not exist, and nobody catches it
      | none, _ => some (s.depart p)
      | some _, none => some ({ s with lock := some p }.setStage p .reopening)
      | some _, some _ => some (s.setStage p .returnedFalse)
    else none
  | .reopen p opened =>
    if s.stage p = .reopening then
      if opened then some ({ s with content := some [] }.setStage p .rewriting)
      else some ({ s with lock := none }.setStage p .returnedFalse)
    else none
  | .rewrite p =>
    if s.stage p = .rewriting then some ((s.writePid p).setStage p .returnedTrue) else none
  | .exit p => if s.stage p = .absent then none else some (s.depart p)

/-- No process is there and the lock is free; an earlier one may have left a file. -/
def init (content : Option Str) : State := { content := content }

@[simp] theorem setStage_self (s : State) (p : Pid) (stage : Stage) :
    (s.setStage p stage).stage p = stage := Function.update_self ..

theorem setStage_other (s : State) {p q : Pid} (stage : Stage) (h : q ≠ p) :
    (s.setStage p stage).stage q = s.stage q := Function.update_of_ne h ..

@[simp] theorem setStage_lock (s : State) (p : Pid) (stage : Stage) :
    (s.setStage p stage).lock = s.lock := rfl

@[simp] theorem writePid_stage (s : State) (p : Pid) : (s.writePid p).stage = s.stage := rfl

end State

open State

/-! ## What is written and read -/

/-- `read_pid` reads back the pid a process has written. -/
theorem readPid_pidText (p : Pid) : readPid (some (pidText p)) = some (p.val : Int) :=
  congrArg some (readInt_decimal p.isLt (by decide))

theorem pidText_ne_nil (p : Pid) : pidText p ≠ [] := fun h =>
  decimal_ne_nil p.val (List.append_eq_nil_iff.mp h).1

/-- A write leaves its own text exactly when what was there was not longer. -/
theorem overlay_eq_iff {text content : Str} :
    overlay text content = text ↔ content.length ≤ text.length := by
  rw [overlay, List.append_right_eq_self, List.drop_eq_nil_iff]

/-- The digits of a pid are what comes before the end of the line. -/
theorem takeWhile_pidText (p : Pid) (rest : Str) :
    (pidText p ++ rest).takeWhile isDigit = decimal p.val := by
  have hline : pidText p ++ rest = decimal p.val ++ 10 :: rest := by
    rw [pidText, List.append_assoc]
    rfl
  rw [hline, List.takeWhile_append_of_pos fun b hb => isDigit_of_mem_decimal hb,
    List.takeWhile_cons_of_neg (by decide), List.append_nil]

/-- Writing another pid at the start of the file changes the pid it names. -/
theorem overlay_ne_pidText {p q : Pid} {content : Str} (hne : q ≠ p) :
    overlay (pidText q) content ≠ pidText p := by
  intro h
  have hdigits : decimal q.val = decimal p.val := by
    rw [← takeWhile_pidText q (content.drop (pidText q).length), ← takeWhile_pidText p [],
      List.append_nil, ← h]
    rfl
  exact hne (Fin.ext (decimal_injective hdigits))

/-! ## The lock -/

variable {s s' : State} {p q : Pid} {e : Event}

/-- The lock is held by the process that has come past it, if there is one. -/
def Owned (s : State) : Prop := ∀ p, (s.stage p).Locked ↔ s.lock = some p

/-- At most one process has had `create_and_lock` return true and still runs. -/
def AtMostOne (s : State) : Prop :=
  ∀ p q, s.stage p = .returnedTrue → s.stage q = .returnedTrue → p = q

theorem owned_init (content : Option Str) : Owned (init content) := fun _ =>
  ⟨fun h => h.elim, fun h => nomatch h⟩

/-- A step of `p` that leaves the others and their lock alone. -/
theorem Owned.frame (hI : Owned s) (hother : ∀ q, q ≠ p → s'.stage q = s.stage q)
    (hlock : ∀ q, q ≠ p → (s'.lock = some q ↔ s.lock = some q))
    (hself : (s'.stage p).Locked ↔ s'.lock = some p) : Owned s' := by
  intro q
  by_cases hq : q = p
  · rw [hq]
    exact hself
  · rw [hother q hq, hlock q hq]
    exact hI q

theorem Owned.setStage (hI : Owned s) {stage : Stage}
    (h : stage.Locked ↔ (s.stage p).Locked) : Owned (s.setStage p stage) := by
  refine hI.frame (fun q hq => s.setStage_other stage hq) (fun _ _ => Iff.rfl) ?_
  rw [setStage_self, setStage_lock, h]
  exact hI p

theorem Owned.depart (hI : Owned s) : Owned (s.depart p) := by
  refine hI.frame (p := p) (fun q hq => s.setStage_other .absent hq) (fun q hq => ?_) ?_
  · simp only [State.depart]
    split
    · rename_i hp
      rw [hp]
      exact ⟨fun h => (nomatch h), fun h => absurd (Option.some.inj h).symm hq⟩
    · exact Iff.rfl
  · have hstage : (s.depart p).stage p = .absent := s.setStage_self p .absent
    rw [hstage]
    refine ⟨fun h => h.elim, fun h => ?_⟩
    simp only [State.depart] at h
    split at h
    · cases h
    · exact absurd h ‹_›

/-- The process that holds the lock gives it back. -/
theorem Owned.unlock (hI : Owned s) (hp : (s.stage p).Locked) {stage : Stage}
    (h : ¬ stage.Locked) : Owned ({ s with lock := none }.setStage p stage) := by
  have hlock : s.lock = some p := (hI p).mp hp
  refine hI.frame (p := p) (fun q hq => setStage_other _ stage hq) (fun q hq => ?_) ?_
  · rw [setStage_lock, hlock]
    exact ⟨fun h => (nomatch h), fun h => absurd (Option.some.inj h).symm hq⟩
  · rw [setStage_self, setStage_lock]
    exact ⟨fun hl => absurd hl h, fun h => (nomatch h)⟩

/-- A process takes the free lock. -/
theorem Owned.lock (hI : Owned s) (hfree : s.lock = none) {stage : Stage} (h : stage.Locked) :
    Owned ({ s with lock := some p }.setStage p stage) := by
  refine hI.frame (p := p) (fun q hq => setStage_other _ stage hq) (fun q hq => ?_) ?_
  · rw [setStage_lock, hfree]
    exact ⟨fun h => absurd (Option.some.inj h).symm hq, fun h => (nomatch h)⟩
  · rw [setStage_self, setStage_lock]
    exact ⟨fun _ => rfl, fun _ => h⟩

/-- Every step keeps the lock with its owner. -/
theorem owned_step (hI : Owned s) (h : step s e = some s') : Owned s' := by
  cases e with
  | enter p =>
    obtain ⟨hp, hs⟩ := Option.ite_none_right_eq_some.mp h
    cases hs
    exact hI.setStage (by rw [hp]; exact Iff.rfl)
  | test p =>
    obtain ⟨hp, hs⟩ := Option.ite_none_right_eq_some.mp h
    cases hs
    refine hI.setStage ?_
    rw [hp]
    split <;> exact Iff.rfl
  | create p opened =>
    obtain ⟨hp, hs⟩ := Option.ite_none_right_eq_some.mp h
    split at hs <;> cases hs
    · exact Owned.setStage (s := { s with content := some [] }) hI (by rw [hp]; exact Iff.rfl)
    · exact hI.setStage (by rw [hp]; exact Iff.rfl)
  | write p =>
    obtain ⟨hp, hs⟩ := Option.ite_none_right_eq_some.mp h
    cases hs
    exact Owned.setStage (s := s.writePid p) hI (by rw [writePid_stage, hp]; exact Iff.rfl)
  | tryLock p =>
    obtain ⟨hp, hs⟩ := Option.ite_none_right_eq_some.mp h
    split at hs <;> cases hs
    · exact hI.depart
    · rename_i hfree
      exact hI.lock hfree trivial
    · exact hI.setStage (by rw [hp]; exact Iff.rfl)
  | reopen p opened =>
    obtain ⟨hp, hs⟩ := Option.ite_none_right_eq_some.mp h
    split at hs <;> cases hs
    · exact Owned.setStage (s := { s with content := some [] }) hI (by rw [hp]; exact Iff.rfl)
    · exact hI.unlock (by rw [hp]; trivial) (fun hl => hl)
  | rewrite p =>
    obtain ⟨hp, hs⟩ := Option.ite_none_right_eq_some.mp h
    cases hs
    exact Owned.setStage (s := s.writePid p) hI (by rw [writePid_stage, hp]; exact Iff.rfl)
  | exit p =>
    obtain ⟨hp, hs⟩ := Option.ite_none_left_eq_some.mp h
    cases hs
    exact hI.depart

/-- The lock admits one process at a time. -/
theorem Owned.atMostOne (hI : Owned s) : AtMostOne s := by
  intro p q hp hq
  have hlockp : s.lock = some p := (hI p).mp (by rw [hp]; trivial)
  have hlockq : s.lock = some q := (hI q).mp (by rw [hq]; trivial)
  exact Option.some.inj (hlockp.symm.trans hlockq)

/-! ## What the file names -/

/-- The file holds the pid of `p`, so that `read_pid` returns it. -/
def Names (s : State) (p : Pid) : Prop :=
  s.content = some (pidText p) ∧ readPid s.content = some (p.val : Int)

/-- The file names whoever has returned true. -/
def Named (s : State) : Prop := ∀ p, s.stage p = .returnedTrue → Names s p

/-- Nobody who has returned true is there. -/
def Vacant (s : State) : Prop := ∀ p, s.stage p ≠ .returnedTrue

/-- What a step has to respect: the half of `create_and_lock` before the lock empties
and writes the file only while nobody holds it, and the other half finds no more in
the file than it writes. -/
def Spares (s : State) : Event → Prop
  | .create _ opened => opened = true → Vacant s
  | .write _ => Vacant s
  | .rewrite p => (s.content.getD []).length ≤ (pidText p).length
  | _ => True

theorem names_iff : Names s p ↔ s.content = some (pidText p) := by
  refine ⟨fun h => h.1, fun h => ⟨h, ?_⟩⟩
  rw [h]
  exact readPid_pidText p

theorem named_init (content : Option Str) : Named (init content) := fun _ h => nomatch h

theorem Named.setStage (hN : Named s) {stage : Stage} (h : stage ≠ .returnedTrue) :
    Named (s.setStage p stage) := by
  intro q hq
  by_cases hqp : q = p
  · rw [hqp, setStage_self] at hq
    exact absurd hq h
  · rw [s.setStage_other stage hqp] at hq
    exact hN q hq

/-- While a process is on its way through the locked half, nobody else has returned
true. -/
theorem Owned.vacant (hI : Owned s) (hlocked : (s.stage p).Locked)
    (hp : s.stage p ≠ .returnedTrue) : Vacant s := by
  intro q hq
  have hlockq : s.lock = some q := (hI q).mp (by rw [hq]; trivial)
  have hqp : q = p := Option.some.inj (hlockq.symm.trans ((hI p).mp hlocked))
  rw [hqp] at hq
  exact hp hq

/-- A process that has not returned true changes what the file holds: the file still
names the holder only if there is none. -/
theorem named_change_iff (hp : s.stage p ≠ .returnedTrue) {stage : Stage}
    (hstage : stage ≠ .returnedTrue) {content : Option Str}
    (hchange : ∀ q, s.stage q = .returnedTrue → content ≠ some (pidText q)) :
    Named ({ s with content := content }.setStage p stage) ↔ Vacant s := by
  constructor
  · intro hN q hq
    have hqp : q ≠ p := fun heq => hp (heq ▸ hq)
    have hthere : ({ s with content := content }.setStage p stage).stage q = .returnedTrue :=
      (setStage_other _ stage hqp).trans hq
    exact hchange q hq (hN q hthere).1
  · intro hvacant q hq
    by_cases hqp : q = p
    · rw [hqp, setStage_self] at hq
      exact absurd hq hstage
    · rw [setStage_other _ stage hqp] at hq
      exact absurd hq (hvacant q)

theorem named_empty_iff (hp : s.stage p ≠ .returnedTrue) {stage : Stage}
    (hstage : stage ≠ .returnedTrue) :
    Named ({ s with content := some [] }.setStage p stage) ↔ Vacant s :=
  named_change_iff hp hstage fun q _ h => pidText_ne_nil q (Option.some.inj h).symm

/-- The write of a process that has not the lock names that process. -/
theorem named_write_iff (hp : s.stage p ≠ .returnedTrue) {stage : Stage}
    (hstage : stage ≠ .returnedTrue) :
    Named ((s.writePid p).setStage p stage) ↔ Vacant s := by
  refine named_change_iff hp hstage fun q hq h => ?_
  have hpq : p ≠ q := fun heq => hp (heq ▸ hq)
  exact overlay_ne_pidText hpq (Option.some.inj h)

/-- The write of the process that has the lock leaves what was longer. -/
theorem named_rewrite_iff (hvacant : Vacant s) :
    Named ((s.writePid p).setStage p .returnedTrue) ↔
      (s.content.getD []).length ≤ (pidText p).length := by
  rw [← overlay_eq_iff]
  constructor
  · intro hN
    exact Option.some.inj (hN p (setStage_self _ p _)).1
  · intro hown q hq
    by_cases hqp : q = p
    · rw [names_iff, hqp]
      exact congrArg some hown
    · rw [setStage_other _ _ hqp] at hq
      exact absurd hq (hvacant q)

/-- **The exact condition**: a step keeps the holder's name in the file exactly when
it respects what it has to. -/
theorem named_step_iff (hI : Owned s) (hN : Named s) (h : step s e = some s') :
    Named s' ↔ Spares s e := by
  cases e with
  | enter p =>
    obtain ⟨-, hs⟩ := Option.ite_none_right_eq_some.mp h
    cases hs
    exact iff_of_true (hN.setStage (by decide)) trivial
  | test p =>
    obtain ⟨-, hs⟩ := Option.ite_none_right_eq_some.mp h
    cases hs
    refine iff_of_true (hN.setStage ?_) trivial
    split <;> decide
  | create p opened =>
    obtain ⟨hp, hs⟩ := Option.ite_none_right_eq_some.mp h
    split at hs <;> cases hs
    · rename_i hopened
      rw [named_empty_iff (by rw [hp]; decide) (by decide)]
      exact ⟨fun hv _ => hv, fun hv => hv hopened⟩
    · rename_i hopened
      exact iff_of_true (hN.setStage (by decide)) fun ho => absurd ho hopened
  | write p =>
    obtain ⟨hp, hs⟩ := Option.ite_none_right_eq_some.mp h
    cases hs
    exact named_write_iff (by rw [hp]; decide) (by decide)
  | tryLock p =>
    obtain ⟨-, hs⟩ := Option.ite_none_right_eq_some.mp h
    refine iff_of_true ?_ trivial
    split at hs <;> cases hs
    · exact Named.setStage hN (by decide)
    · exact Named.setStage (s := { s with lock := some p }) hN (by decide)
    · exact hN.setStage (by decide)
  | reopen p opened =>
    obtain ⟨hp, hs⟩ := Option.ite_none_right_eq_some.mp h
    have hne : s.stage p ≠ .returnedTrue := by rw [hp]; decide
    refine iff_of_true ?_ trivial
    split at hs <;> cases hs
    · -- nobody else has come past the lock, so the file may be emptied
      exact (named_empty_iff hne (by decide)).mpr (hI.vacant (by rw [hp]; trivial) hne)
    · exact Named.setStage (s := { s with lock := none }) hN (by decide)
  | rewrite p =>
    obtain ⟨hp, hs⟩ := Option.ite_none_right_eq_some.mp h
    cases hs
    exact named_rewrite_iff (hI.vacant (by rw [hp]; trivial) (by rw [hp]; decide))
  | exit p =>
    obtain ⟨-, hs⟩ := Option.ite_none_left_eq_some.mp h
    cases hs
    exact iff_of_true (Named.setStage hN (by decide)) trivial

/-- **The pid file names the holder**: in every run at most one process has returned
true, and the file names it all along exactly when every step respects what it has
to. -/
theorem pid_file_names_holder (content : Option Str) :
    (∀ t, Reaches step anyEvent (init content) t → AtMostOne t) ∧
    (∀ es t, run step (init content) es = some t →
      (along step Named (init content) es ↔ runOk step Spares (init content) es)) := by
  refine ⟨fun t h => ?_, fun es t h => ?_⟩
  · have hI : Owned t := h.invariant (owned_init content) fun hI _ hs => owned_step hI hs
    exact hI.atMostOne
  · exact along_iff_runOk owned_step named_step_iff (owned_init content) (named_init content) h

theorem vacant_init (content : Option Str) : Vacant (init content) := fun _ h => nomatch h

theorem Vacant.setStage (hv : Vacant s) {stage : Stage} (h : stage ≠ .returnedTrue) :
    Vacant (s.setStage p stage) := by
  intro q hq
  by_cases hqp : q = p
  · rw [hqp, setStage_self] at hq
    exact h hq
  · rw [s.setStage_other stage hqp] at hq
    exact hv q hq

/-- Only the last step of a call returns true. -/
theorem Vacant.of_step (hv : Vacant s) (he : ∀ p, e ≠ .rewrite p) (hs : s.step e = some s') :
    Vacant s' := by
  cases e with
  | enter p =>
    obtain ⟨-, hs⟩ := Option.ite_none_right_eq_some.mp hs
    cases hs
    exact hv.setStage (by decide)
  | test p =>
    obtain ⟨-, hs⟩ := Option.ite_none_right_eq_some.mp hs
    cases hs
    refine hv.setStage ?_
    split
    · decide
    · decide
  | create p opened =>
    obtain ⟨-, hs⟩ := Option.ite_none_right_eq_some.mp hs
    split at hs
    · cases hs
      exact Vacant.setStage (s := { s with content := some [] }) hv (by decide)
    · cases hs
      exact hv.setStage (by decide)
  | write p =>
    obtain ⟨-, hs⟩ := Option.ite_none_right_eq_some.mp hs
    cases hs
    exact Vacant.setStage (s := s.writePid p) hv (by decide)
  | tryLock p =>
    obtain ⟨-, hs⟩ := Option.ite_none_right_eq_some.mp hs
    split at hs
    · cases hs
      exact hv.setStage (by decide)
    · cases hs
      exact Vacant.setStage (s := { s with lock := some p }) hv (by decide)
    · cases hs
      exact hv.setStage (by decide)
  | reopen p opened =>
    obtain ⟨-, hs⟩ := Option.ite_none_right_eq_some.mp hs
    split at hs
    · cases hs
      exact Vacant.setStage (s := { s with content := some [] }) hv (by decide)
    · cases hs
      exact Vacant.setStage (s := { s with lock := none }) hv (by decide)
  | rewrite p => exact absurd rfl (he p)
  | exit p =>
    obtain ⟨-, hs⟩ := Option.ite_none_left_eq_some.mp hs
    cases hs
    exact hv.setStage (by decide)

/-- Before that nothing has to be respected. -/
theorem Vacant.runOk_spares {es : List Event} (hv : Vacant s)
    (hes : ∀ e ∈ es, ∀ p, e ≠ .rewrite p) : runOk step Spares s es := by
  induction es generalizing s with
  | nil => trivial
  | cons e es ih =>
    obtain ⟨he, hrest⟩ := List.forall_mem_cons.mp hes
    refine ⟨?_, fun s' hs => ih (hv.of_step he hs) hrest⟩
    cases e with
    | create p opened => exact fun _ => hv
    | write p => exact hv
    | rewrite p => exact absurd rfl (he p)
    | _ => trivial

/-- Two processes that both find no file, before either has come past the lock. -/
def together : List Event := [
  .enter 1, .enter 2, .test 1, .test 2, .create 2 true, .create 1 true, .write 2, .write 1,
  .tryLock 1, .tryLock 2, .reopen 1 true]

theorem runOk_together : runOk step Spares (init none) (together ++ [.rewrite 1]) := by
  have hbefore : runOk step Spares (init none) together := by
    refine (vacant_init none).runOk_spares fun e he p => ?_
    simp only [together, List.mem_cons, List.not_mem_nil, or_false] at he
    rcases he with rfl | rfl | rfl | rfl | rfl | rfl | rfl | rfl | rfl | rfl | rfl
    all_goals simp
  refine runOk_append hbefore fun t ht => ⟨?_, fun _ _ => trivial⟩
  have hcontent : (run step (init none) together).map (fun t => t.content) = some (some []) := by
    rfl
  rw [ht, Option.map_some, Option.some.injEq] at hcontent
  show (t.content.getD []).length ≤ _
  rw [hcontent]
  exact Nat.zero_le _

/-- At the end of such a run the file names the process that has got the lock. -/
theorem pid_file_names_holder_together :
    ∃ t, run step (init none) (together ++ [.rewrite 1]) = some t ∧
      t.stage 1 = .returnedTrue ∧ t.stage 2 = .returnedFalse ∧ AtMostOne t ∧
      along step Named (init none) (together ++ [.rewrite 1]) := by
  have hseen : (run step (init none) (together ++ [.rewrite 1])).map
      (fun t => (t.stage 1, t.stage 2)) = some (.returnedTrue, .returnedFalse) := by rfl
  obtain ⟨t, hrun, ht⟩ := Option.map_eq_some_iff.mp hseen
  obtain ⟨hfirst, hsecond⟩ := Prod.mk.inj ht
  have hreach : Reaches step anyEvent (init none) t :=
    reaches_of_run (runOk_of_forall fun _ _ _ => trivial) hrun
  exact ⟨t, hrun, hfirst, hsecond, (pid_file_names_holder none).1 t hreach,
    ((pid_file_names_holder none).2 _ t hrun).mpr runOk_together⟩

/-- A process has found no file and is slow; another one runs to its end. Then the
first empties the file and writes its own pid, before it learns that the lock is
taken. -/
def overtaken : List Event :=
  [.enter 2, .test 2, .enter 1, .test 1, .create 1 true, .write 1, .tryLock 1, .reopen 1 true,
    .rewrite 1, .create 2 true, .write 2]

/-- The file names the process that has not got the lock. -/
theorem overtaken_names_loser :
    ¬ ∀ content es t, run step (init content) es = some t → AtMostOne t ∧ Named t := by
  intro hall
  have hseen : (run step (init none) overtaken).map (fun t => (t.stage 1, t.content))
      = some (.returnedTrue, some (pidText 2)) := by rfl
  obtain ⟨t, hrun, ht⟩ := Option.map_eq_some_iff.mp hseen
  have hN := (hall none overtaken t hrun).2 1 (congrArg Prod.fst ht)
  have hcontent : t.content = some (pidText 2) := congrArg Prod.snd ht
  exact absurd (hcontent.symm.trans hN.1) (by decide)

end PidFile

end Fika
