import Fika.Global.Commands
import Fika.Lib.NamedQueue
import Fika.Lib.Run

/-!
# Command line invocations and the supervisors they spawn
(`fika/src/main.cpp`, `cli.cpp`, `pid_file.cpp`, `supervisor.cpp`)

Every process takes one step at a time, in any order. A step is what a process
does between two points where another one can come in: one system call on the pid
file or on a queue.

- `ParsedCommand`, `parseCommandLine`: what an invocation asks for; never a ping.
- `CliStage`, `cliStep`: `main` of the command line tool, with
  `is_supervisor_running`, `start_supervisor` and `send_command` step by step.
- `SupStage`, `supStep`: `create_and_lock`, the constructor and `run` of the
  supervisor. What a command does to the workers takes its time and may end the
  process; it touches neither the pid file nor the two queues.
- `Session.step`: all of them, over one pid file and two named queues;
  `StepSpec`, `step_spec`: what each step does, said once for all invariants.
- `LooksAround`, `StepSpec.uses`: what it leaves alone, and what it does to a queue's name.
- `receiver`, `Sending`, `Pending`: what a state shows.
-/

namespace Fika

open Lib

/-! ## The command line -/

/-- The options of an invocation; `command` is required. -/
structure VariablesMap where
  command : Str
  service : Option Str := none

/-- `command_map`. -/
def commandMap : List (Str × CommandType) :=
  [(lit "start", .start), (lit "stop", .stop), (lit "restart", .restart),
   (lit "reload", .reload), (lit "status", .status), (lit "logs", .logs)]

/-- No command line asks for a ping. -/
theorem lookup_commandMap {command : Str} {type : CommandType}
    (h : commandMap.lookup command = some type) : type ≠ .ping := by
  obtain ⟨_, _, hmap, _⟩ := List.lookup_eq_some_iff.mp h
  have hmem : type ∈ commandMap.map Prod.snd := by
    rw [hmap]
    simp
  rintro rfl
  revert hmem
  decide

/-- `ParsedCommand`, as `parse_command_line` makes it. -/
structure ParsedCommand where
  type : CommandType
  service : Str
  not_ping : type ≠ .ping

/-- `parse_command_line`. -/
def parseCommandLine (vm : VariablesMap) : Except Str ParsedCommand :=
  match h : commandMap.lookup vm.command with
  | none => .error (lit "Unknown command: " ++ vm.command)
  | some type =>
    .ok { type := type, service := vm.service.getD [], not_ping := lookup_commandMap h }

/-! ## The processes -/

/-- Where an invocation of the command line tool stands. -/
inductive CliStage where
  | absent
  /-- `return EXIT_FAILURE`, with what was printed. -/
  | failed (what : Str)
  | parsed
  /-- `is_locked` has taken the lock itself, until `temp_lock` is destroyed. -/
  | probing
  | locked
  | pingOpen (mq : Nat)
  | pingBoth (mq mqRecv : Nat)
  /-- In `timed_receive`. -/
  | awaiting (mqRecv : Nat)
  /-- `is_supervisor_running` has returned `false`. -/
  | notRunning
  | removedSend
  | removedBoth
  /-- The supervisor has answered or has been spawned. -/
  | running
  /-- `send_command` has opened the queue. -/
  | sending (mq : Nat)
  | done
deriving DecidableEq

/-- An invocation. -/
structure Cli where
  parsed : ParsedCommand
  stage : CliStage

/-- A message, with the invocation that sent it or whose message it answers; no
process sees which one that is. -/
structure Envelope (α : Type) where
  cli : Nat
  body : α
deriving DecidableEq

/-- Where a supervisor process stands. -/
inductive SupStage where
  | absent
  | spawned
  /-- `create_and_lock` has made sure that the pid file exists. -/
  | pidFile
  | locked
  | opened (mqReceive : Nat)
  | running (mqReceive mqSend : Nat)
  | handling (mqReceive mqSend : Nat) (msg : Envelope CommandMessage)
  | exited
deriving DecidableEq

/-- The command queue a supervisor has opened. -/
def SupStage.mqReceive : SupStage → Option Nat
  | opened mq | running mq _ | handling mq _ _ => some mq
  | _ => none

/-- Who can hold the lock of the pid file. -/
inductive Holder where
  | cli (i : Nat)
  | supervisor (j : Nat)
deriving DecidableEq

/-- The size of both queues. -/
abbrev maxCommands : Nat := 100

/-- The pid file, the queues `fika_supervisor_mq` (`commands`) and
`supervisor_fika_mq` (`responses`), and the processes by number. -/
structure Session where
  pidFile : Bool := false
  lock : Option Holder := none
  commands : NamedQueue (Envelope CommandMessage) := {}
  responses : NamedQueue (Envelope CommandResponse) := {}
  cli : Nat → Cli := fun _ =>
    { parsed := { type := .help, service := [], not_ping := nofun }, stage := .absent }
  sup : Nat → SupStage := fun _ => .absent
  spawned : Nat := 0

/-- What happens next. -/
inductive SessionEvent where
  /-- A new invocation. -/
  | launch (i : Nat) (vm : VariablesMap)
  /-- The next step of an invocation. -/
  | cli (i : Nat)
  /-- Twenty seconds have passed without a response. -/
  | timeout (i : Nat)
  /-- The next step of a supervisor. -/
  | supervisor (j : Nat)
  /-- A supervisor ends: by itself, in a command, or killed. -/
  | exit (j : Nat)

namespace Session

def setStage (s : Session) (i : Nat) (stage : CliStage) : Session :=
  { s with cli := Function.update s.cli i { s.cli i with stage := stage } }

@[simp] theorem setStage_self (s : Session) (i : Nat) (stage : CliStage) :
    ((s.setStage i stage).cli i).stage = stage := by
  simp only [setStage, Function.update_self]

theorem setStage_other (s : Session) (i : Nat) (stage : CliStage) {k : Nat} (hk : k ≠ i) :
    (s.setStage i stage).cli k = s.cli k := Function.update_of_ne hk ..

def setSup (s : Session) (j : Nat) (stage : SupStage) : Session :=
  { s with sup := Function.update s.sup j stage }

/-- The lock is released when its holder closes the file. -/
def release (s : Session) (holder : Holder) : Session :=
  { s with lock := if s.lock = some holder then none else s.lock }

/-! ### The command line tool -/

/-- `main` up to the call of `is_supervisor_running`. -/
def launch (s : Session) (i : Nat) (vm : VariablesMap) : Session :=
  match parseCommandLine vm with
  | .ok parsed => { s with cli := Function.update s.cli i { parsed := parsed, stage := .parsed } }
  | .error what => s.setStage i (.failed (lit "Error: " ++ what))

/-- `pidfile_lock::is_locked`, up to the return of its `try_lock`. -/
def isLocked (s : Session) (i : Nat) : Session :=
  if s.pidFile = false then s.setStage i .notRunning
  else match s.lock with
    | none => { s.setStage i .probing with lock := some (.cli i) }
    | some _ => s.setStage i .locked

/-- A message queue opened with `open_only`; the exception for a name bound to
nothing is caught in `is_supervisor_running`. -/
def openOnly (s : Session) (i : Nat) (bound : Option Nat) (stage : Nat → CliStage) : Session :=
  match bound with
  | some mq => s.setStage i (stage mq)
  | none => s.setStage i .notRunning

/-- The `send` of the ping waits for room. -/
def sendPing (s : Session) (i mq mqRecv : Nat) : Option Session :=
  if (s.commands.contents mq).length < maxCommands then
    some { s.setStage i (.awaiting mqRecv) with
      commands := s.commands.send mq { cli := i, body := CommandMessage.make .ping [] } }
  else none

/-- `timed_receive` takes any response there is, whoever it was meant for. -/
def timedReceive (s : Session) (i mqRecv : Nat) : Option Session :=
  if s.responses.contents mqRecv = [] then none
  else some { s.setStage i .running with responses := s.responses.pop mqRecv }

/-- The first `remove` of `start_supervisor`. -/
def removeCommands (s : Session) (i : Nat) : Session :=
  { s.setStage i .removedSend with commands := s.commands.remove }

/-- The second one. -/
def removeResponses (s : Session) (i : Nat) : Session :=
  { s.setStage i .removedBoth with responses := s.responses.remove }

/-- The `child` of `start_supervisor`. -/
def spawn (s : Session) (i : Nat) : Session :=
  { (s.setStage i .running).setSup s.spawned .spawned with spawned := s.spawned + 1 }

/-- The queue of `send_command`. -/
def openOrCreateCommands (s : Session) (i : Nat) : Session :=
  { s.setStage i (.sending s.commands.openOrCreate.2) with
    commands := s.commands.openOrCreate.1 }

/-- The message of `send_command`. -/
def command (s : Session) (i : Nat) : Envelope CommandMessage where
  cli := i
  body := CommandMessage.make (s.cli i).parsed.type (s.cli i).parsed.service

/-- The `send` of `send_command` waits for room. -/
def sendCommand (s : Session) (i mq : Nat) : Option Session :=
  if (s.commands.contents mq).length < maxCommands then
    some { s.setStage i .done with commands := s.commands.send mq (s.command i) }
  else none

/-- The next step of invocation `i`. -/
def cliStep (s : Session) (i : Nat) : Option Session :=
  match (s.cli i).stage with
  | .parsed => some (s.isLocked i)
  | .probing => some ((s.setStage i .notRunning).release (.cli i))
  | .locked => some (s.openOnly i s.commands.bound .pingOpen)
  | .pingOpen mq => some (s.openOnly i s.responses.bound (.pingBoth mq))
  | .pingBoth mq mqRecv => s.sendPing i mq mqRecv
  | .awaiting mqRecv => s.timedReceive i mqRecv
  | .notRunning => some (s.removeCommands i)
  | .removedSend => some (s.removeResponses i)
  | .removedBoth => some (s.spawn i)
  | .running => some (s.openOrCreateCommands i)
  | .sending mq => s.sendCommand i mq
  | .absent | .failed _ | .done => none

/-- `timed_receive` gives up when there is no response. -/
def timeout (s : Session) (i : Nat) : Option Session :=
  match (s.cli i).stage with
  | .awaiting mqRecv =>
    if s.responses.contents mqRecv = [] then some (s.setStage i .notRunning) else none
  | _ => none

/-! ### The supervisor -/

/-- The `try_lock` of `create_and_lock`; `main` returns when it fails. -/
def tryLock (s : Session) (j : Nat) : Session :=
  match s.lock with
  | none => { s.setSup j .locked with lock := some (.supervisor j) }
  | some _ => s.setSup j .exited

/-- `mq_receive` of the constructor. -/
def openReceive (s : Session) (j : Nat) : Session :=
  { s.setSup j (.opened s.commands.openOrCreate.2) with
    commands := s.commands.openOrCreate.1 }

/-- `mq_send` of the constructor. -/
def openSend (s : Session) (j mq : Nat) : Session :=
  { s.setSup j (.running mq s.responses.openOrCreate.2) with
    responses := s.responses.openOrCreate.1 }

/-- The `try_receive` of `run`; without a message the turn ends as it began. -/
def tryReceive (s : Session) (j mq mqSend : Nat) : Session :=
  match s.commands.contents mq with
  | [] => s
  | msg :: _ => { s.setSup j (.handling mq mqSend msg) with commands := s.commands.pop mq }

/-- `handle_command` is over: a ping was answered once there was room. -/
def handled (s : Session) (j mq mqSend : Nat) (msg : Envelope CommandMessage) :
    Option Session :=
  if msg.body.cmd = .ping then
    if (s.responses.contents mqSend).length < maxCommands then
      some { s.setSup j (.running mq mqSend) with
        responses := s.responses.send mqSend { cli := msg.cli, body := pong } }
    else none
  -- every other command goes unanswered
  else some (s.setSup j (.running mq mqSend))

/-- The next step of supervisor `j`. -/
def supStep (s : Session) (j : Nat) : Option Session :=
  match s.sup j with
  | .spawned => some { s.setSup j .pidFile with pidFile := true }
  | .pidFile => some (s.tryLock j)
  | .locked => some (s.openReceive j)
  | .opened mq => some (s.openSend j mq)
  | .running mq mqSend => some (s.tryReceive j mq mqSend)
  | .handling mq mqSend msg => s.handled j mq mqSend msg
  | .absent | .exited => none

/-- The process ends; its lock goes with it. -/
def exit (s : Session) (j : Nat) : Option Session :=
  match s.sup j with
  -- a process that is gone cannot end again
  | .absent | .exited => none
  | _ => some ((s.setSup j .exited).release (.supervisor j))

/-- One event. -/
def step (s : Session) : SessionEvent → Option Session
  | .launch i vm => if (s.cli i).stage = .absent then some (s.launch i vm) else none
  | .cli i => s.cliStep i
  | .timeout i => s.timeout i
  | .supervisor j => s.supStep j
  | .exit j => s.exit j

/-! ## What a step does -/

variable {s s' : Session} {i j o : Nat}

/-- The effect of each step, and where it is taken. -/
inductive StepSpec (s : Session) : SessionEvent → Session → Prop where
  | launched {i : Nat} {vm : VariablesMap} (hstage : (s.cli i).stage = .absent) :
      StepSpec s (.launch i vm) (s.launch i vm)
  | probed {i : Nat} (hstage : (s.cli i).stage = .parsed) : StepSpec s (.cli i) (s.isLocked i)
  | released {i : Nat} (hstage : (s.cli i).stage = .probing) :
      StepSpec s (.cli i) ((s.setStage i .notRunning).release (.cli i))
  | foundCommands {i : Nat} (hstage : (s.cli i).stage = .locked) :
      StepSpec s (.cli i) (s.openOnly i s.commands.bound .pingOpen)
  | foundResponses {i mq : Nat} (hstage : (s.cli i).stage = .pingOpen mq) :
      StepSpec s (.cli i) (s.openOnly i s.responses.bound (.pingBoth mq))
  | pinged {i mq mqRecv : Nat} (hstage : (s.cli i).stage = .pingBoth mq mqRecv)
      (hroom : (s.commands.contents mq).length < maxCommands) :
      StepSpec s (.cli i) { s.setStage i (.awaiting mqRecv) with
        commands := s.commands.send mq { cli := i, body := CommandMessage.make .ping [] } }
  | answered {i mqRecv : Nat} (hstage : (s.cli i).stage = .awaiting mqRecv)
      (hsome : s.responses.contents mqRecv ≠ []) :
      StepSpec s (.cli i)
        { s.setStage i .running with responses := s.responses.pop mqRecv }
  | timedOut {i mqRecv : Nat} (hstage : (s.cli i).stage = .awaiting mqRecv)
      (hnone : s.responses.contents mqRecv = []) :
      StepSpec s (.timeout i) (s.setStage i .notRunning)
  | removedCommands {i : Nat} (hstage : (s.cli i).stage = .notRunning) :
      StepSpec s (.cli i) (s.removeCommands i)
  | removedResponses {i : Nat} (hstage : (s.cli i).stage = .removedSend) :
      StepSpec s (.cli i) (s.removeResponses i)
  | spawned {i : Nat} (hstage : (s.cli i).stage = .removedBoth) :
      StepSpec s (.cli i) (s.spawn i)
  | opened {i : Nat} (hstage : (s.cli i).stage = .running) :
      StepSpec s (.cli i) (s.openOrCreateCommands i)
  | sent {i mq : Nat} (hstage : (s.cli i).stage = .sending mq)
      (hroom : (s.commands.contents mq).length < maxCommands) :
      StepSpec s (.cli i)
        { s.setStage i .done with commands := s.commands.send mq (s.command i) }
  | createdPidFile {j : Nat} (hstage : s.sup j = .spawned) :
      StepSpec s (.supervisor j) { s.setSup j .pidFile with pidFile := true }
  | triedLock {j : Nat} (hstage : s.sup j = .pidFile) : StepSpec s (.supervisor j) (s.tryLock j)
  | openedReceive {j : Nat} (hstage : s.sup j = .locked) :
      StepSpec s (.supervisor j) (s.openReceive j)
  | openedSend {j mq : Nat} (hstage : s.sup j = .opened mq) :
      StepSpec s (.supervisor j) (s.openSend j mq)
  | polled {j mq mqSend : Nat} (hstage : s.sup j = .running mq mqSend) :
      StepSpec s (.supervisor j) (s.tryReceive j mq mqSend)
  | ponged {j mq mqSend : Nat} {msg : Envelope CommandMessage}
      (hstage : s.sup j = .handling mq mqSend msg) (hping : msg.body.cmd = .ping)
      (hroom : (s.responses.contents mqSend).length < maxCommands) :
      StepSpec s (.supervisor j) { s.setSup j (.running mq mqSend) with
        responses := s.responses.send mqSend { cli := msg.cli, body := pong } }
  | finished {j mq mqSend : Nat} {msg : Envelope CommandMessage}
      (hstage : s.sup j = .handling mq mqSend msg) (hcmd : msg.body.cmd ≠ .ping) :
      StepSpec s (.supervisor j) (s.setSup j (.running mq mqSend))
  | exited {j : Nat} (habsent : s.sup j ≠ .absent) (hexited : s.sup j ≠ .exited) :
      StepSpec s (.exit j) ((s.setSup j .exited).release (.supervisor j))

theorem cliStep_spec (h : s.cliStep i = some s') : StepSpec s (.cli i) s' := by
  unfold cliStep at h
  cases hstage : (s.cli i).stage with
  | absent | failed | done =>
    rw [hstage] at h
    cases h
  | parsed =>
    rw [hstage] at h
    exact Option.some.inj h ▸ .probed hstage
  | probing =>
    rw [hstage] at h
    exact Option.some.inj h ▸ .released hstage
  | locked =>
    rw [hstage] at h
    exact Option.some.inj h ▸ .foundCommands hstage
  | pingOpen mq =>
    rw [hstage] at h
    exact Option.some.inj h ▸ .foundResponses hstage
  | pingBoth mq mqRecv =>
    rw [hstage] at h
    obtain ⟨hroom, h⟩ := Option.ite_none_right_eq_some.mp h
    exact Option.some.inj h ▸ .pinged hstage hroom
  | awaiting mqRecv =>
    rw [hstage] at h
    obtain ⟨hsome, h⟩ := Option.ite_none_left_eq_some.mp h
    exact Option.some.inj h ▸ .answered hstage hsome
  | notRunning =>
    rw [hstage] at h
    exact Option.some.inj h ▸ .removedCommands hstage
  | removedSend =>
    rw [hstage] at h
    exact Option.some.inj h ▸ .removedResponses hstage
  | removedBoth =>
    rw [hstage] at h
    exact Option.some.inj h ▸ .spawned hstage
  | running =>
    rw [hstage] at h
    exact Option.some.inj h ▸ .opened hstage
  | sending mq =>
    rw [hstage] at h
    obtain ⟨hroom, h⟩ := Option.ite_none_right_eq_some.mp h
    exact Option.some.inj h ▸ .sent hstage hroom

theorem supStep_spec (h : s.supStep j = some s') : StepSpec s (.supervisor j) s' := by
  unfold supStep at h
  cases hstage : s.sup j with
  | absent | exited =>
    rw [hstage] at h
    cases h
  | spawned =>
    rw [hstage] at h
    exact Option.some.inj h ▸ .createdPidFile hstage
  | pidFile =>
    rw [hstage] at h
    exact Option.some.inj h ▸ .triedLock hstage
  | locked =>
    rw [hstage] at h
    exact Option.some.inj h ▸ .openedReceive hstage
  | opened mq =>
    rw [hstage] at h
    exact Option.some.inj h ▸ .openedSend hstage
  | running mq mqSend =>
    rw [hstage] at h
    exact Option.some.inj h ▸ .polled hstage
  | handling mq mqSend msg =>
    rw [hstage] at h
    change s.handled j mq mqSend msg = some s' at h
    unfold handled at h
    by_cases hping : msg.body.cmd = .ping
    · rw [if_pos hping] at h
      obtain ⟨hroom, h⟩ := Option.ite_none_right_eq_some.mp h
      exact Option.some.inj h ▸ .ponged hstage hping hroom
    · rw [if_neg hping] at h
      exact Option.some.inj h ▸ .finished hstage hping

theorem step_spec {e : SessionEvent} (h : s.step e = some s') : StepSpec s e s' := by
  cases e with
  | launch i vm =>
    obtain ⟨hstage, h⟩ := Option.ite_none_right_eq_some.mp h
    exact Option.some.inj h ▸ .launched hstage
  | cli i => exact cliStep_spec h
  | supervisor j => exact supStep_spec h
  | timeout i =>
    change s.timeout i = some s' at h
    unfold timeout at h
    cases hstage : (s.cli i).stage with
    | awaiting mqRecv =>
      rw [hstage] at h
      obtain ⟨hnone, h⟩ := Option.ite_none_right_eq_some.mp h
      exact Option.some.inj h ▸ .timedOut hstage hnone
    | _ =>
      rw [hstage] at h
      cases h
  | exit j =>
    change s.exit j = some s' at h
    unfold exit at h
    cases hstage : s.sup j with
    | absent | exited =>
      rw [hstage] at h
      cases h
    | _ =>
      rw [hstage] at h
      exact Option.some.inj h ▸ .exited (hstage ▸ nofun) (hstage ▸ nofun)

/-- The step looks around: it leaves the queues and the supervisors as they are. -/
structure LooksAround (s s' : Session) : Prop where
  commands : s'.commands = s.commands
  responses : s'.responses = s.responses
  sup : s'.sup = s.sup

theorem looksAround_launch (s : Session) (i : Nat) (vm : VariablesMap) :
    s.LooksAround (s.launch i vm) := by
  unfold launch
  split <;> exact ⟨rfl, rfl, rfl⟩

theorem looksAround_isLocked (s : Session) (i : Nat) : s.LooksAround (s.isLocked i) := by
  unfold isLocked
  split
  · exact ⟨rfl, rfl, rfl⟩
  · split <;> exact ⟨rfl, rfl, rfl⟩

theorem looksAround_openOnly (s : Session) (i : Nat) (bound : Option Nat)
    (stage : Nat → CliStage) : s.LooksAround (s.openOnly i bound stage) := by
  unfold openOnly
  split <;> exact ⟨rfl, rfl, rfl⟩

theorem LooksAround.uses (h : s.LooksAround s') :
    s.commands.Use s'.commands ∧ s.responses.Use s'.responses :=
  ⟨.of_eq h.commands, .of_eq h.responses⟩

/-- Every step is one operation on the name of each queue. -/
theorem StepSpec.uses {e : SessionEvent} (h : StepSpec s e s') :
    s.commands.Use s'.commands ∧ s.responses.Use s'.responses := by
  cases h with
  | launched => exact (looksAround_launch s _ _).uses
  | probed => exact (looksAround_isLocked s _).uses
  | foundCommands => exact (looksAround_openOnly s _ _ _).uses
  | foundResponses => exact (looksAround_openOnly s _ _ _).uses
  | pinged => exact ⟨.send _ _, .same⟩
  | sent => exact ⟨.send _ _, .same⟩
  | answered => exact ⟨.same, .pop _⟩
  | removedCommands => exact ⟨.remove, .same⟩
  | removedResponses => exact ⟨.same, .remove⟩
  | opened => exact ⟨.openOrCreate, .same⟩
  | openedReceive => exact ⟨.openOrCreate, .same⟩
  | openedSend => exact ⟨.same, .openOrCreate⟩
  | ponged => exact ⟨.same, .send _ _⟩
  | triedLock =>
    unfold tryLock
    split <;> exact ⟨.same, .same⟩
  | polled =>
    unfold tryReceive
    split
    · exact ⟨.same, .same⟩
    · exact ⟨.pop _, .same⟩
  | _ => exact ⟨.same, .same⟩

/-! ## What a state shows -/

/-- The queue object that the lock-holding supervisor receives from. -/
def receiver (s : Session) : Option Nat :=
  match s.lock with
  | some (.supervisor j) => (s.sup j).mqReceive
  | _ => none

/-- Invocation `i` is about to send its command to object `o`. -/
def Sending (s : Session) (i o : Nat) : Prop := (s.cli i).stage = .sending o

/-- The command `msg` is in object `o`: sent, and not yet received. -/
def Pending (s : Session) (o : Nat) (msg : Envelope CommandMessage) : Prop :=
  msg ∈ s.commands.contents o ∧ msg.body.cmd ≠ .ping

/-- What `send_command` sends is a command that waits. -/
theorem sendCommand_pending {mq : Nat} (hs : s.sendCommand i mq = some s') :
    s'.Pending mq (s.command i) := by
  obtain ⟨_, hs⟩ := Option.ite_none_right_eq_some.mp hs
  obtain rfl := Option.some.inj hs
  exact ⟨NamedQueue.mem_send_self.mpr (.inr rfl), (s.cli i).parsed.not_ping⟩

theorem sending_setStage {k : Nat} {stage : CliStage} (h : (s.setStage i stage).Sending k o) :
    stage = .sending o ∨ s.Sending k o := by
  by_cases hk : k = i
  · rw [hk, Sending, setStage_self] at h
    exact .inl h
  · rw [Sending, setStage_other s i stage hk] at h
    exact .inr h

theorem receiver_setSup {stage : SupStage} (h : (s.setSup j stage).receiver = some o) :
    stage.mqReceive = some o ∨ s.receiver = some o := by
  unfold receiver setSup at h
  match hl : s.lock with
  | none =>
    rw [hl] at h
    cases h
  | some (.cli i) =>
    rw [hl] at h
    cases h
  | some (.supervisor k) =>
    simp only [hl] at h
    by_cases hk : k = j
    · rw [hk, Function.update_self] at h
      exact .inl h
    · rw [Function.update_of_ne hk] at h
      right
      simpa only [receiver, hl] using h

/-- A supervisor that keeps its command queue changes nothing. -/
theorem receiver_setSup_same {stage : SupStage} (h : stage.mqReceive = (s.sup j).mqReceive) :
    (s.setSup j stage).receiver = s.receiver := by
  match hl : s.lock with
  | none => simp only [receiver, setSup, hl]
  | some (.cli _) => simp only [receiver, setSup, hl]
  | some (.supervisor k) =>
    simp only [receiver, setSup, hl]
    by_cases hk : k = j
    · rw [hk, Function.update_self, h]
    · rw [Function.update_of_ne hk]

theorem receiver_release {holder : Holder} (h : (s.release holder).receiver = some o) :
    s.receiver = some o := by
  by_cases hl : s.lock = some holder
  · simp only [receiver, release, if_pos hl] at h
    cases h
  · simpa only [receiver, release, if_neg hl] using h

end Session

end Fika
