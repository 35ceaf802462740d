import Fika.Cli.Session

/-!
# No command is lost between the command line and the supervisor

A supervisor that is busy does not answer a ping within its time, and one that was
spawned a moment ago holds no lock yet. An invocation takes both for dead, removes
the queue names and spawns another. What the removal takes away is found at the
name: the object a supervisor receives from, the one another invocation is about
to send to, or the commands in it.

- `NoCommandLost`: every command is, or is about to be, where the lock-holding
  supervisor receives it, or the next one will.
- `Removable`: what makes a removal harmless.
- `AtTheName`, `AtTheName.step`: the invariant under harmless removals, and one step.
- `no_command_lost`: every run of harmless removals; `answeredStop`: a second invocation
  that removes nothing; `start_discarded`: a run of two invocations whose second removal is
  not harmless.
- `removal_not_removable`, `orphaned_run`: a removal that is not harmless loses a
  command at once, or cuts the supervisor off from all who open the queue later.
-/

namespace Fika

open Lib

namespace Session

/-- `o` is the object the lock-holding supervisor receives from or, if none has
opened its queue, the one the name is bound to: the next one will open it. -/
def Deliverable (s : Session) (o : Nat) : Prop :=
  match s.receiver with
  | some mq => o = mq
  | none => s.commands.bound = some o

/-- No command is lost: neither one about to be sent, nor one sent and not yet
received. -/
structure NoCommandLost (s : Session) : Prop where
  sending : ∀ i o, s.Sending i o → s.Deliverable o
  pending : ∀ o msg, s.Pending o msg → s.Deliverable o

/-- Nothing and nobody needs the object the command queue's name is bound to. -/
structure Removable (s : Session) : Prop where
  receiver : s.receiver = none
  sending : ∀ i o, ¬ s.Sending i o
  pending : ∀ o msg, s.commands.bound = some o → ¬ s.Pending o msg

/-- The guard on runs: names are removed only when they are not needed. -/
def RemovesOnlyRemovable (s : Session) : SessionEvent → Prop
  | .cli i => (s.cli i).stage = .notRunning → s.Removable
  | _ => True

/-! ## The invariant -/

/-- Receiving, sending and waiting all take place at the object the name is bound to. -/
structure AtTheName (s : Session) : Prop where
  receiver : ∀ o, s.receiver = some o → s.commands.bound = some o
  sending : ∀ i o, s.Sending i o → s.commands.bound = some o
  pending : ∀ o msg, s.Pending o msg → s.commands.bound = some o

variable {s s' : Session} {i j o mq : Nat}

namespace AtTheName

theorem deliverable (h : s.AtTheName) (ho : s.commands.bound = some o) : s.Deliverable o := by
  unfold Deliverable
  cases hr : s.receiver with
  | none => exact ho
  | some mq => exact Option.some.inj (ho.symm.trans (h.receiver mq hr))

theorem noCommandLost (h : s.AtTheName) : s.NoCommandLost where
  sending i o hs := h.deliverable (h.sending i o hs)
  pending o msg hp := h.deliverable (h.pending o msg hp)

theorem init : ({} : Session).AtTheName where
  receiver _ h := by cases h
  sending _ _ h := by cases h
  pending _ _ h := by cases h.1

/-- A step that keeps what the name is bound to, and whose receiver, senders and
commands are there or were there before. -/
theorem frame (h : s.AtTheName)
    (hbound : ∀ o, s.commands.bound = some o → s'.commands.bound = some o)
    (hreceiver : ∀ o, s'.receiver = some o → s'.commands.bound = some o ∨ s.receiver = some o)
    (hsending : ∀ i o, s'.Sending i o → s'.commands.bound = some o ∨ s.Sending i o)
    (hpending : ∀ o msg, s'.Pending o msg →
      s'.commands.bound = some o ∨ s.Pending o msg) :
    s'.AtTheName where
  receiver o hr := (hreceiver o hr).elim id fun hr => hbound o (h.receiver o hr)
  sending i o hs := (hsending i o hs).elim id fun hs => hbound o (h.sending i o hs)
  pending o msg hp := (hpending o msg hp).elim id fun hp => hbound o (h.pending o msg hp)

/-- A step that leaves the command queue alone and adds no receiver and no sender. -/
theorem quiet (h : s.AtTheName) (hcommands : s'.commands = s.commands)
    (hreceiver : ∀ o, s'.receiver = some o → s.receiver = some o)
    (hsending : ∀ i o, s'.Sending i o → s.Sending i o) : s'.AtTheName := by
  refine h.frame ?_ (fun o hr => .inr (hreceiver o hr)) (fun i o hs => .inr (hsending i o hs)) ?_
  · intro o ho
    rwa [hcommands]
  · intro o msg hp
    right
    rwa [Pending, hcommands] at hp

end AtTheName

/-! ## Steps of an invocation -/

/-- A stage that is not `sending` adds no sender. -/
theorem sending_of_stage (i : Nat) (stage : CliStage) (hstage : ∀ o, stage ≠ .sending o)
    (hcli : s'.cli = (s.setStage i stage).cli) (k o : Nat) (hk : s'.Sending k o) :
    s.Sending k o := by
  rw [Sending, hcli] at hk
  exact (sending_setStage hk).resolve_left (hstage o)

theorem AtTheName.setStage {stage : CliStage} (h : s.AtTheName)
    (hstage : ∀ o, stage ≠ .sending o) : (s.setStage i stage).AtTheName :=
  h.quiet rfl (fun _ hr => hr) (sending_of_stage i stage hstage rfl)

/-- A new invocation is not sending yet. -/
theorem sending_launch {vm : VariablesMap} (k o : Nat) (hk : (s.launch i vm).Sending k o) :
    s.Sending k o := by
  unfold Session.launch at hk
  cases hp : parseCommandLine vm with
  | ok parsed =>
    rw [hp] at hk
    change Cli.stage (Function.update s.cli i { parsed := parsed, stage := .parsed } k) = _ at hk
    by_cases hki : k = i
    · rw [hki, Function.update_self] at hk
      cases hk
    · rwa [Function.update_of_ne hki] at hk
  | error what =>
    rw [hp] at hk
    exact sending_of_stage i (.failed _) (fun _ hn => nomatch hn) rfl k o hk

theorem AtTheName.launch {vm : VariablesMap} (h : s.AtTheName) : (s.launch i vm).AtTheName := by
  refine h.quiet (looksAround_launch s i vm).commands (fun o hr => ?_) sending_launch
  unfold Session.launch at hr
  cases hp : parseCommandLine vm <;> rwa [hp] at hr

theorem AtTheName.isLocked (h : s.AtTheName) : (s.isLocked i).AtTheName := by
  unfold Session.isLocked
  by_cases hp : s.pidFile = false
  · rw [if_pos hp]
    exact h.setStage fun _ hn => nomatch hn
  · rw [if_neg hp]
    cases hl : s.lock with
    | some _ => exact h.setStage fun _ hn => nomatch hn
    | none =>
      -- the invocation holds the lock for a moment, and then nobody receives
      exact h.quiet rfl (fun _ hr => nomatch hr)
        (sending_of_stage i .probing (fun _ hn => nomatch hn) rfl)

theorem AtTheName.openOnly {bound : Option Nat} {stage : Nat → CliStage} (h : s.AtTheName)
    (hstage : ∀ mq o, stage mq ≠ .sending o) : (s.openOnly i bound stage).AtTheName := by
  cases bound with
  | some mq => exact h.setStage (hstage mq)
  | none => exact h.setStage fun _ hn => nomatch hn

/-- A message that is a ping, or is sent to the object the name is bound to. -/
theorem AtTheName.send {stage : CliStage} {msg : Envelope CommandMessage} (h : s.AtTheName)
    (hstage : ∀ o, stage ≠ .sending o)
    (hmsg : msg.body.cmd = .ping ∨ s.commands.bound = some mq) :
    AtTheName { s.setStage i stage with commands := s.commands.send mq msg } := by
  refine h.frame (fun _ ho => ho) (fun _ hr => .inr hr)
    (fun k o hk => .inr (sending_of_stage i stage hstage rfl k o hk)) ?_
  rintro o msg' ⟨hmem, hcmd⟩
  rcases NamedQueue.mem_send hmem with hmem | ⟨rfl, rfl⟩
  · exact .inr ⟨hmem, hcmd⟩
  · exact .inl (hmsg.resolve_left hcmd)

/-- A new supervisor process has not opened anything. -/
theorem AtTheName.spawn (h : s.AtTheName) : (s.spawn i).AtTheName := by
  refine h.quiet rfl (fun o hr => ?_)
    (sending_of_stage i .running (fun _ hn => nomatch hn) rfl)
  have hr : ((s.setStage i .running).setSup s.spawned .spawned).receiver = some o := hr
  exact (receiver_setSup hr).resolve_left fun hn => nomatch hn

/-- The removal: nothing was at the name. -/
theorem AtTheName.removeCommands (h : s.AtTheName) (hok : s.Removable) :
    (s.removeCommands i).AtTheName where
  receiver _ hr := nomatch hok.receiver.symm.trans hr
  sending k o hk := absurd
    (sending_of_stage i .removedSend (fun _ hn => nomatch hn) rfl k o hk) (hok.sending k o)
  pending o msg hp := absurd hp (hok.pending o msg (h.pending o msg hp))

theorem AtTheName.openOrCreateCommands (h : s.AtTheName) :
    (s.openOrCreateCommands i).AtTheName := by
  have hopened := s.commands.openOrCreate_bound
  refine h.frame (fun _ => NamedQueue.bound_openOrCreate) (fun _ hr => .inr hr) ?_ ?_
  · intro k o hk
    have hk : (s.setStage i (.sending s.commands.openOrCreate.2)).Sending k o := hk
    rcases sending_setStage hk with hstage | hk
    · left
      rw [← CliStage.sending.inj hstage]
      exact hopened
    · exact .inr hk
  · rintro o msg ⟨hmem, hmsg⟩
    exact .inr ⟨NamedQueue.mem_openOrCreate hmem, hmsg⟩

/-! ## Steps of a supervisor -/

/-- A supervisor that moves to a stage without a command queue. -/
theorem AtTheName.setSup {stage : SupStage} (h : s.AtTheName) (hstage : stage.mqReceive = none) :
    (s.setSup j stage).AtTheName := by
  refine h.quiet rfl (fun o hr => ?_) fun _ _ hk => hk
  exact (receiver_setSup hr).resolve_left (by rw [hstage]; exact fun hn => nomatch hn)

/-- A supervisor that keeps its command queue, and the queue its commands. -/
theorem AtTheName.keepSup {stage : SupStage} (h : s.AtTheName)
    (hstage : stage.mqReceive = (s.sup j).mqReceive) : (s.setSup j stage).AtTheName :=
  h.quiet rfl (fun _ hr => receiver_setSup_same hstage ▸ hr) fun _ _ hk => hk

theorem AtTheName.tryLock (h : s.AtTheName) : (s.tryLock j).AtTheName := by
  unfold Session.tryLock
  -- a supervisor that does not get the lock exits; one that does has opened nothing yet
  cases s.lock with
  | some _ => exact h.setSup rfl
  | none =>
    refine h.quiet rfl (fun o hr => ?_) fun _ _ hk => hk
    -- its own stage is now the one that counts
    have hr : SupStage.mqReceive (Function.update s.sup j .locked j) = some o := hr
    rw [Function.update_self] at hr
    cases hr

theorem AtTheName.openReceive (h : s.AtTheName) : (s.openReceive j).AtTheName := by
  have hopened := s.commands.openOrCreate_bound
  refine h.frame (fun _ => NamedQueue.bound_openOrCreate) ?_ (fun _ _ hk => .inr hk) ?_
  · intro o hr
    have hr : (s.setSup j (.opened s.commands.openOrCreate.2)).receiver = some o := hr
    rcases receiver_setSup hr with hmq | hr
    · exact .inl (hopened.trans hmq)
    · exact .inr hr
  · rintro o msg ⟨hmem, hmsg⟩
    exact .inr ⟨NamedQueue.mem_openOrCreate hmem, hmsg⟩

theorem AtTheName.tryReceive {mqSend : Nat} (h : s.AtTheName)
    (hstage : s.sup j = .running mq mqSend) : (s.tryReceive j mq mqSend).AtTheName := by
  unfold Session.tryReceive
  cases s.commands.contents mq with
  | nil => exact h
  | cons msg rest =>
    -- the supervisor keeps its queue, and the queue loses its first message
    have hsame : SupStage.mqReceive (.handling mq mqSend msg) = (s.sup j).mqReceive := by
      rw [hstage]
      rfl
    refine h.frame (fun _ ho => ho)
      (fun _ hr => .inr (receiver_setSup_same hsame ▸ hr)) (fun _ _ hk => .inr hk) ?_
    rintro o msg' ⟨hmem, hmsg⟩
    exact .inr ⟨NamedQueue.mem_pop hmem, hmsg⟩

/-! ## Runs -/

/-- **One step** that removes the name only if nothing needs it. -/
theorem AtTheName.step {e : SessionEvent} (h : s.AtTheName) (hok : s.RemovesOnlyRemovable e)
    (hs : s.step e = some s') : s'.AtTheName := by
  cases step_spec hs with
  | launched => exact h.launch
  | probed => exact h.isLocked
  | @released i =>
    exact h.quiet rfl (fun _ hr => receiver_release hr)
      (sending_of_stage i .notRunning (fun _ hn => nomatch hn) rfl)
  | foundCommands => exact h.openOnly fun _ _ hn => nomatch hn
  | foundResponses => exact h.openOnly fun _ _ hn => nomatch hn
  | pinged => exact h.send (fun _ hn => nomatch hn) (.inl rfl)
  | @answered i =>
    exact h.quiet rfl (fun _ hr => hr) (sending_of_stage i .running (fun _ hn => nomatch hn) rfl)
  | timedOut => exact h.setStage fun _ hn => nomatch hn
  | removedCommands hstage => exact h.removeCommands (hok hstage)
  | @removedResponses i =>
    exact h.quiet rfl (fun _ hr => hr)
      (sending_of_stage i .removedBoth (fun _ hn => nomatch hn) rfl)
  | spawned => exact h.spawn
  | opened => exact h.openOrCreateCommands
  | @sent i mq hstage =>
    -- the object `send_command` has opened is still the one the name is bound to
    exact h.send (fun _ hn => nomatch hn) (.inr (h.sending i mq hstage))
  | createdPidFile => exact (h.setSup rfl).quiet rfl (fun _ hr => hr) fun _ _ hk => hk
  | triedLock => exact h.tryLock
  | openedReceive => exact h.openReceive
  | openedSend hstage =>
    exact (h.keepSup (hstage ▸ rfl)).quiet rfl (fun _ hr => hr) fun _ _ hk => hk
  | polled hstage => exact h.tryReceive hstage
  | ponged hstage =>
    exact (h.keepSup (hstage ▸ rfl)).quiet rfl (fun _ hr => hr) fun _ _ hk => hk
  | finished hstage => exact h.keepSup (hstage ▸ rfl)
  | exited =>
    -- whatever the stage was, the process now receives nothing
    exact (h.setSup rfl).quiet rfl (fun _ hr => receiver_release hr) fun _ _ hk => hk

theorem atTheName_run (h : Reaches step RemovesOnlyRemovable {} s) : s.AtTheName :=
  h.invariant .init fun ha hok hs => ha.step hok hs

/-- **No command is lost**, as long as names are removed only when nothing needs them. -/
theorem no_command_lost (h : Reaches step RemovesOnlyRemovable {} s) : s.NoCommandLost :=
  (atTheName_run h).noCommandLost

/-- The command `fika -c start`. -/
def fikaStart : VariablesMap := { command := lit "start" }

/-- The first invocation, which finds no pid file. -/
def firstStart : List SessionEvent := .launch 0 fikaStart :: List.replicate 6 (.cli 0)

theorem runOk_firstStart : runOk step RemovesOnlyRemovable {} firstStart := by
  refine ⟨trivial, fun s₁ h₁ => ⟨?_, fun s₂ h₂ => ⟨fun _ => ?_, fun s₃ h₃ => ?_⟩⟩⟩
  · obtain rfl := Option.some.inj h₁
    exact fun hn => nomatch hn
  · obtain rfl := Option.some.inj h₁
    obtain rfl := Option.some.inj h₂
    -- the name is removed before anybody has opened it
    refine ⟨rfl, fun k o hk => ?_, fun _ _ hn => nomatch hn⟩
    have hk := sending_of_stage (s := Session.launch {} 0 fikaStart) 0 .notRunning
      (fun _ hn => nomatch hn) rfl k o hk
    exact nomatch sending_launch k o hk
  · obtain rfl := Option.some.inj h₁
    obtain rfl := Option.some.inj h₂
    obtain rfl := Option.some.inj h₃
    iterate 4
      refine ⟨(fun hn => nomatch hn), fun _ h => ?_⟩
      obtain rfl := Option.some.inj h
    trivial

/-- The supervisor that was spawned starts, and a second invocation pings it while it takes
the first command; the pong comes, and the second command is sent. -/
def answeredStop : List SessionEvent :=
  List.replicate 4 (.supervisor 0) ++ .launch 1 { command := lit "stop" } ::
    List.replicate 3 (.cli 1) ++ [.supervisor 0, .cli 1, .supervisor 0] ++
    List.replicate 2 (.supervisor 0) ++ List.replicate 3 (.cli 1)

/-- An event at which no name is removed. -/
def removesNothing (s : Session) : SessionEvent → Bool
  | .cli i => decide ((s.cli i).stage ≠ .notRunning)
  | _ => true

theorem removesOnlyRemovable_of_removesNothing (s : Session) (e : SessionEvent)
    (h : s.removesNothing e = true) : s.RemovesOnlyRemovable e := by
  cases e with
  | cli i => exact fun hstage => absurd hstage (of_decide_eq_true h)
  | _ => trivial

/-- The commands of two invocations: the first one has been taken, and the second one waits
where the supervisor receives. -/
theorem no_command_lost_answeredStop :
    ∃ s, run step {} (firstStart ++ answeredStop) = some s ∧ s.receiver = some 0 ∧
      (s.cli 0).stage = .done ∧ (s.cli 1).stage = .done ∧
      s.Pending 0 { cli := 1, body := CommandMessage.make .stop [] } ∧ s.NoCommandLost := by
  have hok : runOk step RemovesOnlyRemovable {} (firstStart ++ answeredStop) := by
    refine runOk_append runOk_firstStart fun t ht => ?_
    refine runOk_of_runCheck removesOnlyRemovable_of_removesNothing ?_
    have hcheck : (run step {} firstStart).map
        (fun t => runCheck step removesNothing t answeredStop) = some true := by rfl
    rw [ht, Option.map_some, Option.some.injEq] at hcheck
    exact hcheck
  exact ⟨_, rfl, rfl, rfl, rfl, ⟨List.mem_singleton_self _, fun hn => nomatch hn⟩,
    no_command_lost (reaches_of_run hok rfl)⟩

/-- Two invocations, one right after the other: the second one finds no lock yet,
removes the names and spawns another supervisor; then the first supervisor starts. -/
def startThenStop : List SessionEvent :=
  .launch 0 fikaStart :: List.replicate 6 (.cli 0) ++
    .launch 1 { command := lit "stop" } :: List.replicate 6 (.cli 1) ++
    List.replicate 4 (.supervisor 0)

/-- The first command is left in an object that no supervisor receives from. -/
theorem start_discarded :
    ∃ s, Reaches step anyEvent {} s ∧ s.receiver = some 1 ∧
      s.Pending 0 { cli := 0, body := CommandMessage.make .start [] } ∧ ¬ s.NoCommandLost := by
  have hrun : ∃ s, run step {} startThenStop = some s ∧ s.receiver = some 1 ∧
      s.Pending 0 { cli := 0, body := CommandMessage.make .start [] } :=
    ⟨_, rfl, rfl, List.mem_singleton_self _, fun hn => nomatch hn⟩
  obtain ⟨s, hrun, hr, hp⟩ := hrun
  refine ⟨s, reaches_of_run (runOk_of_forall fun _ _ _ => trivial) hrun, hr, hp, fun h => ?_⟩
  have hdel := h.pending 0 _ hp
  rw [Deliverable, hr] at hdel
  cases hdel

/-! ## The condition is needed -/

/-- Every step is one operation on the command queue's name. -/
theorem step_use {e : SessionEvent} (hs : s.step e = some s') : s.commands.Use s'.commands :=
  (step_spec hs).uses.1

theorem numbered_run {ok : Session → SessionEvent → Prop} (h : Reaches step ok {} s) :
    s.commands.Numbered :=
  h.invariant (fun _ ho => nomatch ho) fun ha _ hs => (step_use hs).numbered ha

/-- No later event binds the name to an orphaned queue again. -/
theorem orphaned_run {ok : Session → SessionEvent → Prop} (h : Reaches step ok s s')
    (ho : s.commands.Orphaned o) : s'.commands.Orphaned o :=
  h.invariant ho fun ha _ hs => (step_use hs).orphaned ha

/-- An invocation that opens the command queue does not open an orphaned one. -/
theorem orphaned_not_opened (ho : s.commands.Orphaned o) :
    s.commands.openOrCreate.2 ≠ o := by
  intro heq
  exact ((NamedQueue.Use.openOrCreate).orphaned ho).unbound (heq ▸ s.commands.openOrCreate_bound)

/-- Without a receiver and with the name unbound, nothing is deliverable. -/
theorem not_deliverable (hr : s.receiver = none) (hb : s.commands.bound = none) :
    ¬ s.Deliverable o := by
  unfold Deliverable
  rw [hr, hb]
  exact fun hn => nomatch hn

/-- A removal that does not meet the condition loses a command at once, or cuts the
supervisor that receives off from every invocation that opens the queue later. -/
theorem removal_not_removable (h : Reaches step RemovesOnlyRemovable {} s)
    (hstage : (s.cli i).stage = .notRunning) (hneeded : ¬ s.Removable)
    (hs : s.step (.cli i) = some s') :
    ¬ s'.NoCommandLost ∨ ∃ o, s'.receiver = some o ∧ s'.commands.Orphaned o := by
  have hat := atTheName_run h
  change s.cliStep i = some s' at hs
  unfold Session.cliStep at hs
  rw [hstage] at hs
  obtain rfl := Option.some.inj hs
  cases hr : s.receiver with
  | some o =>
    right
    -- the name is unbound, and a new object will get a new number
    exact ⟨o, hr, numbered_run h o (hat.receiver o hr), fun hn => nomatch hn⟩
  | none =>
    left
    intro hlost
    have hnothing : ∀ o, ¬ (s.removeCommands i).Deliverable o := fun o =>
      not_deliverable hr rfl
    refine hneeded ⟨hr, fun k o hk => ?_, fun o msg _ hp => hnothing o (hlost.pending o msg hp)⟩
    have hki : k ≠ i := by
      rintro rfl
      rw [Sending, hstage] at hk
      cases hk
    refine hnothing o (hlost.sending k o ?_)
    change Cli.stage (Function.update s.cli i _ k) = _
    rwa [Function.update_of_ne hki]

end Session

end Fika
