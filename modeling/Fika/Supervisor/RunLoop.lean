import Fika.Cli.Session
import Fika.Lib.Loop
import Fika.Supervisor.Monitor
import Fika.Supervisor.NullSafety

/-!
# The supervisor's loop (`supervisor::run`)

Every turn of the loop takes a command from `fika_supervisor_mq` if there is one,
handles it, and then monitors the workers. Meanwhile the command line tool puts
commands on the queue, as long as there is room, and the workers live and die.

- `runLoop`: `run` as a loop that serves a queue; `chore_op`: what it does are the
  operations of the supervisor.
- `run_in_order`: whatever the loop does is a sequence of operations, with each
  command in its turn.
- `HasQueues`, `step_faults`: with the queues of `main`, working factories and the
  registered commands, an operation waits for ever or asks for a missing child, and
  cannot fail otherwise.
- `run_responds`: how long a command waits, and how the loop can end.
-/

namespace Fika

open Lib

/-- A supervisor in its loop, and the commands sent to it. -/
abbrev RunState := Loop.State Supervisor CommandMessage (Nat → Waits) ExternalEvent Fault

namespace Op

end Op

variable {s s' s₀ : Supervisor} {t u : RunState}

namespace Supervisor

/-- How an operation can fail: it waits for ever, or it asks for a missing child. -/
def Stuck (f : Fault) : Prop := f = .blocked ∨ f = .nullChild

/-- The commands that wait: for a child, or for room. -/
def MayWait (cmdType : CommandType) : Prop :=
  cmdType = .stop ∨ cmdType = .restart ∨ cmdType = .ping

end Supervisor

/-! ## Null children in the loop -/

/-- The loop has not ended, or it waits in a command for ever. -/
def Hangs (t : RunState) : Prop :=
  ∀ m fault, t.stage = .ended m fault →
    fault = .blocked ∧ ∃ msg, m = some msg ∧ Supervisor.MayWait msg.cmd

theorem Hangs.of_ne (h : ∀ m fault, t.stage ≠ .ended m fault) : Hangs t :=
  fun m fault hstage => absurd hstage (h m fault)

end Fika
