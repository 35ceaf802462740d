import Fika.Cli.Delivery

/-!
# Whose pong is it (`is_supervisor_running`, `send_pong`)

A ping and a pong carry no identity: `timed_receive` takes the first response there
is. A pong for somebody else is there when an earlier call has given up waiting, or
when two calls wait at the same queue.

- `Serves`, `Owed`: which response queue answers the pings of a command queue, and
  for whom a pong is in it or on its way there.
- `PingsAlone`: a ping is sent only when nothing else is owed where it waits, and
  nobody waits where it is answered.
- `owed_step`, `mqRecv_step`: what a step adds; `Fresh`, `Fresh.step`: the invariant.
- `ping_fresh`: every run of such pings.
- `takes_stale`: a pong for another call that is there when a ping is sent is taken;
  `lateAnswer`: a run that comes to this after a timeout.
-/

namespace Fika

open Lib

/-- The response queue an invocation waits at, or is about to. -/
def CliStage.mqRecv : CliStage → Option Nat
  | pingBoth _ mqRecv => some mqRecv
  | awaiting mqRecv => some mqRecv
  | _ => none

/-- A supervisor at this stage answers in object `r` the pings of object `o`. One
that has opened only its command queue will answer in the object `answers` of the
other name. -/
def SupStage.Serves (stage : SupStage) (answers : Option Nat) (o r : Nat) : Prop :=
  match stage with
  | opened mq => mq = o ∧ answers = some r
  | running mq mqSend => mq = o ∧ mqSend = r
  | handling mq mqSend _ => mq = o ∧ mqSend = r
  | _ => False

theorem SupStage.Serves.mono {stage : SupStage} {answers answers' : Option Nat} {o r : Nat}
    (h : stage.Serves answers' o r) (hanswers : answers' = some r → answers = some r) :
    stage.Serves answers o r := by
  cases stage with
  | opened mq => exact ⟨h.1, hanswers h.2⟩
  | running _ _ => exact h
  | handling _ _ _ => exact h
  | _ => exact h.elim

namespace Session

/-- The pings in object `o` of the command queue are answered in object `r` of the
response queue: by a supervisor that is there, or by one that opens the two names. -/
def Serves (s : Session) (o r : Nat) : Prop :=
  (∃ j, (s.sup j).Serves s.responses.bound o r) ∨
    (s.commands.bound = some o ∧ s.responses.bound = some r)

/-- A pong for invocation `k` is in object `r`, or may still come there. -/
inductive Owed (s : Session) (r : Nat) (k : Nat) : Prop where
  | replied {pong : Envelope CommandResponse} (hmem : pong ∈ s.responses.contents r)
      (hcli : pong.cli = k) : Owed s r k
  | handled {j o : Nat} {msg : Envelope CommandMessage} (hsup : s.sup j = .handling o r msg)
      (hping : msg.body.cmd = .ping) (hcli : msg.cli = k) : Owed s r k
  | waiting {o : Nat} {msg : Envelope CommandMessage} (hserves : s.Serves o r)
      (hmem : msg ∈ s.commands.contents o) (hping : msg.body.cmd = .ping)
      (hcli : msg.cli = k) : Owed s r k

/-- The guard on runs: when an invocation sends its ping, no pong is in the object
it will wait at, and none may still come there; and nobody waits at an object in
which the ping may be answered. -/
def PingsAlone (s : Session) : SessionEvent → Prop
  | .cli i => ∀ mq mqRecv, (s.cli i).stage = .pingBoth mq mqRecv →
      (∀ k, ¬ s.Owed mqRecv k) ∧ ∀ r, s.Serves mq r → ∀ k, (s.cli k).stage ≠ .awaiting r
  | _ => True

/-- The step to `s'` makes `is_supervisor_running` of `i` return true, and the
response it takes answers its own ping. -/
def TakesOwn (s : Session) (i mqRecv : Nat) (s' : Session) : Prop :=
  ∃ pong rest, s.responses.contents mqRecv = pong :: rest ∧
    s'.responses.contents mqRecv = rest ∧ (s'.cli i).stage = .running ∧ pong.cli = i

variable {s s' : Session} {i j k o r mq mqRecv mqSend : Nat} {e : SessionEvent}

/-! ## What serves whom -/

theorem sup_setSup (s : Session) (j : Nat) (stage : SupStage) (l : Nat) :
    (s.setSup j stage).sup l = stage ∨ (s.setSup j stage).sup l = s.sup l := by
  by_cases hlj : l = j
  · rw [hlj]
    exact .inl (Function.update_self ..)
  · exact .inr (Function.update_of_ne hlj ..)

/-- A supervisor that moves on serves what its new stage does. -/
theorem serves_setSup {stage : SupStage} (h : (s.setSup j stage).Serves o r) :
    stage.Serves s.responses.bound o r ∨ s.Serves o r := by
  rcases h with ⟨l, hl⟩ | hbound
  · rcases sup_setSup s j stage l with hnew | hold
    · exact .inl (hnew ▸ hl)
    · exact .inr (.inl ⟨l, hold ▸ hl⟩)
  · exact .inr (.inr hbound)

/-- A supervisor that handles a message after another one has moved on is that one, or
handled it before. -/
theorem handling_setSup {stage : SupStage} {l : Nat} {msg : Envelope CommandMessage}
    (h : (s.setSup j stage).sup l = .handling o r msg) :
    stage = .handling o r msg ∨ s.sup l = .handling o r msg :=
  (sup_setSup s j stage l).imp (fun hnew => hnew.symm.trans h) fun hold => hold.symm.trans h

/-- The messages of an object that serves `r` were in one that did. -/
theorem serves_opened {msg : Envelope CommandMessage} (hr : s.responses.bound = some r)
    (hmem : msg ∈ s.commands.openOrCreate.1.contents s.commands.openOrCreate.2) :
    s.Serves s.commands.openOrCreate.2 r :=
  .inr ⟨NamedQueue.bound_of_mem_opened hmem, hr⟩

/-! ## What is owed after a step -/

namespace Owed

/-- A step that adds no response, no message and no service. -/
theorem quiet (h : s'.Owed r k)
    (hreplies : ∀ pong ∈ s'.responses.contents r, pong ∈ s.responses.contents r)
    (hsup : ∀ j o msg, s'.sup j = .handling o r msg → s.sup j = .handling o r msg)
    (hmem : ∀ o, ∀ msg ∈ s'.commands.contents o, s'.Serves o r →
      s.Serves o r ∧ msg ∈ s.commands.contents o) : s.Owed r k := by
  cases h with
  | replied hpong hcli => exact .replied (hreplies _ hpong) hcli
  | handled hhandling hping hcli => exact .handled (hsup _ _ _ hhandling) hping hcli
  | waiting hserves hmsg hping hcli =>
    obtain ⟨hserved, hwas⟩ := hmem _ _ hmsg hserves
    exact .waiting hserved hwas hping hcli

theorem congr (h : s'.Owed r k) (hsame : s.LooksAround s') : s.Owed r k := by
  obtain ⟨hcommands, hresponses, hsup⟩ := hsame
  refine h.quiet (fun pong hpong => ?_) (fun j o msg hj => ?_) fun o msg hmsg hserves => ⟨?_, ?_⟩
  · rwa [hresponses] at hpong
  · rwa [hsup] at hj
  · rwa [Serves, hcommands, hresponses, hsup] at hserves
  · rwa [hcommands] at hmsg

/-- A supervisor that moves to a stage in which it handles nothing, and serves only
what it served. -/
theorem setSup {stage : SupStage} (h : (s.setSup j stage).Owed r k)
    (hidle : ∀ o msg, stage ≠ .handling o r msg)
    (hserves : ∀ o, stage.Serves s.responses.bound o r → s.Serves o r) : s.Owed r k := by
  refine h.quiet (fun _ hpong => hpong) (fun l o msg hl => ?_) fun o msg hmsg hserved => ⟨?_, hmsg⟩
  · exact (handling_setSup hl).resolve_left (hidle o msg)
  · exact (serves_setSup hserved).elim (hserves o) id

/-- Opening the command queue: an object that is new has no messages. -/
theorem openCommands (h : Owed { s with commands := s.commands.openOrCreate.1 } r k) :
    s.Owed r k := by
  refine h.quiet (fun _ hpong => hpong) (fun _ _ _ hj => hj) fun o msg hmsg hserves =>
    ⟨?_, NamedQueue.mem_openOrCreate hmsg⟩
  rcases hserves with hsup | ⟨hbound, hr⟩
  · exact .inl hsup
  · obtain rfl : s.commands.openOrCreate.2 = o :=
      Option.some.inj (s.commands.openOrCreate_bound.symm.trans hbound)
    exact serves_opened hr hmsg

/-- Opening the response queue: an object that was there gets no new service. -/
theorem openResponses (h : Owed { s with responses := s.responses.openOrCreate.1 } r k)
    (hr : r < s.responses.next) : s.Owed r k := by
  refine h.quiet (fun _ hpong => NamedQueue.mem_openOrCreate hpong) (fun _ _ _ hj => hj)
    fun o msg hmsg hserves => ⟨?_, hmsg⟩
  rcases hserves with ⟨j, hj⟩ | ⟨hbound, hopened⟩
  · exact .inl ⟨j, hj.mono fun hopened => NamedQueue.bound_of_opened hopened hr⟩
  · exact .inr ⟨hbound, NamedQueue.bound_of_opened hopened hr⟩

/-- A message is sent: if it is a ping, it is owed where its object is served. -/
theorem send {stage : CliStage} {msg : Envelope CommandMessage}
    (h : Owed { s.setStage i stage with commands := s.commands.send mq msg } r k) :
    s.Owed r k ∨ (msg.body.cmd = .ping ∧ msg.cli = k ∧ s.Serves mq r) := by
  cases h with
  | replied hpong hcli => exact .inl (.replied hpong hcli)
  | handled hsup hping hcli => exact .inl (.handled hsup hping hcli)
  | waiting hserves hmsg hping hcli =>
    rcases NamedQueue.mem_send hmsg with hwas | ⟨rfl, rfl⟩
    · exact .inl (.waiting hserves hwas hping hcli)
    · exact .inr ⟨hping, hcli, hserves⟩

/-- What a supervisor receives was waiting. -/
theorem tryReceive (h : (s.tryReceive j mq mqSend).Owed r k)
    (hstage : s.sup j = .running mq mqSend) : s.Owed r k := by
  have hserving : s.Serves mq mqSend := .inl ⟨j, by rw [hstage]; exact ⟨rfl, rfl⟩⟩
  unfold Session.tryReceive at h
  split at h
  · exact h
  · rename_i msg rest hcontents
    cases h with
    | replied hpong hcli => exact .replied hpong hcli
    | @handled l o msg' hsup hping hcli =>
      have hsup : (s.setSup j (.handling mq mqSend msg)).sup l = .handling o r msg' := hsup
      rcases handling_setSup hsup with hnew | hold
      · cases hnew
        exact .waiting hserving (by rw [hcontents]; exact List.mem_cons_self) hping hcli
      · exact .handled hold hping hcli
    | @waiting o msg' hserves hmsg hping hcli =>
      have hserves : (s.setSup j (.handling mq mqSend msg)).Serves o r := hserves
      rcases serves_setSup hserves with ⟨rfl, rfl⟩ | hserved
      · exact .waiting hserving (NamedQueue.mem_pop hmsg) hping hcli
      · exact .waiting hserved (NamedQueue.mem_pop hmsg) hping hcli

/-- A pong that is sent was owed to whoever sent the ping. -/
theorem sendPong {msg : Envelope CommandMessage}
    (h : Owed { s.setSup j (.running mq mqSend) with
      responses := s.responses.send mqSend { cli := msg.cli, body := pong } } r k)
    (hstage : s.sup j = .handling mq mqSend msg) (hping : msg.body.cmd = .ping) :
    s.Owed r k := by
  cases h with
  | replied hpong hcli =>
    rcases NamedQueue.mem_send hpong with hwas | ⟨rfl, rfl⟩
    · exact .replied hwas hcli
    · exact .handled hstage hping hcli
  | @handled l o msg' hsup hping' hcli =>
    have hsup : (s.setSup j (.running mq mqSend)).sup l = .handling o r msg' := hsup
    exact .handled ((handling_setSup hsup).resolve_left nofun) hping' hcli
  | @waiting o msg' hserves hmsg hping' hcli =>
    have hserves : (s.setSup j (.running mq mqSend)).Serves o r := hserves
    rcases serves_setSup hserves with ⟨rfl, rfl⟩ | hserved
    · exact .waiting (.inl ⟨j, by rw [hstage]; exact ⟨rfl, rfl⟩⟩) hmsg hping' hcli
    · exact .waiting hserved hmsg hping' hcli

end Owed

/-- **What a step adds**: only a ping makes an object that was there owe more, and it
owes it to whoever has sent the ping. -/
theorem owed_step (hs : StepSpec s e s') (hr : r < s.responses.next) (h : s'.Owed r k) :
    s.Owed r k ∨
      ∃ mq mqRecv, e = .cli k ∧ (s.cli k).stage = .pingBoth mq mqRecv ∧ s.Serves mq r := by
  cases hs with
  | launched => exact .inl (h.congr (looksAround_launch s _ _))
  | probed => exact .inl (h.congr (looksAround_isLocked s _))
  | foundCommands => exact .inl (h.congr (looksAround_openOnly s _ _ _))
  | foundResponses => exact .inl (h.congr (looksAround_openOnly s _ _ _))
  | released => exact .inl (h.congr ⟨rfl, rfl, rfl⟩)
  | timedOut => exact .inl (h.congr ⟨rfl, rfl, rfl⟩)
  | pinged hstage =>
    rcases h.send with hwas | ⟨-, hcli, hserves⟩
    · exact .inl hwas
    · cases hcli
      exact .inr ⟨_, _, rfl, hstage, hserves⟩
  | @sent i =>
    rcases h.send with hwas | ⟨hping, -⟩
    · exact .inl hwas
    · exact absurd hping (s.cli i).parsed.not_ping
  | answered =>
    exact .inl (h.quiet (fun _ hpong => NamedQueue.mem_pop hpong) (fun _ _ _ hj => hj)
      fun _ _ hmsg hserves => ⟨hserves, hmsg⟩)
  | removedCommands =>
    exact .inl (h.quiet (fun _ hpong => hpong) (fun _ _ _ hj => hj) fun _ _ hmsg hserves =>
      ⟨hserves.imp id fun hbound => (nomatch hbound.1), hmsg⟩)
  | removedResponses =>
    refine .inl (h.quiet (fun _ hpong => hpong) (fun _ _ _ hj => hj) fun _ _ hmsg hserves =>
      ⟨?_, hmsg⟩)
    rcases hserves with ⟨j, hj⟩ | hbound
    · exact .inl ⟨j, hj.mono nofun⟩
    · exact nomatch hbound.2
  | @spawned i =>
    have h : ((s.setStage i .running).setSup s.spawned .spawned).Owed r k := h.congr ⟨rfl, rfl, rfl⟩
    exact .inl ((h.setSup nofun fun _ hn => hn.elim).congr ⟨rfl, rfl, rfl⟩)
  | opened =>
    have h : Owed { s with commands := s.commands.openOrCreate.1 } r k := h.congr ⟨rfl, rfl, rfl⟩
    exact .inl h.openCommands
  | @createdPidFile j =>
    have h : (s.setSup j .pidFile).Owed r k := h.congr ⟨rfl, rfl, rfl⟩
    exact .inl (h.setSup nofun fun _ hn => hn.elim)
  | @triedLock j =>
    left
    unfold Session.tryLock at h
    split at h
    · have h : (s.setSup j .locked).Owed r k := h.congr ⟨rfl, rfl, rfl⟩
      exact h.setSup nofun fun _ hn => hn.elim
    · exact h.setSup nofun fun _ hn => hn.elim
  | @openedReceive j =>
    have h : (Session.setSup { s with commands := s.commands.openOrCreate.1 } j
      (.opened s.commands.openOrCreate.2)).Owed r k := h
    refine .inl (Owed.openCommands (h.setSup nofun fun o ho => ?_))
    rw [← ho.1]
    exact .inr ⟨s.commands.openOrCreate_bound, ho.2⟩
  | @openedSend j mq hstage =>
    have h : (Session.setSup { s with responses := s.responses.openOrCreate.1 } j
      (.running mq s.responses.openOrCreate.2)).Owed r k := h
    refine .inl (Owed.openResponses (h.setSup nofun fun o ho => .inl ⟨j, ?_⟩) hr)
    rw [hstage, ← ho.1, ← ho.2]
    exact ⟨rfl, s.responses.openOrCreate_bound⟩
  | polled hstage => exact .inl (h.tryReceive hstage)
  | ponged hstage hping => exact .inl (h.sendPong hstage hping)
  | @finished j mq mqSend msg hstage =>
    exact .inl (h.setSup nofun fun o ho => .inl ⟨j, by rw [hstage]; exact ho⟩)
  | @exited j =>
    have h : (s.setSup j .exited).Owed r k := h.congr ⟨rfl, rfl, rfl⟩
    exact .inl (h.setSup nofun fun _ hn => hn.elim)

/-! ## Who waits where after a step -/

/-- An invocation that moves to a stage without a response queue. -/
theorem mqRecv_update
    (hcli : ∃ c : Cli, c.stage.mqRecv = none ∧ s'.cli = Function.update s.cli i c)
    (h : (s'.cli k).stage.mqRecv = some r) : (s'.cli k).stage = (s.cli k).stage := by
  obtain ⟨c, hc, hcli⟩ := hcli
  rw [hcli] at h ⊢
  by_cases hk : k = i
  · rw [hk, Function.update_self] at h
    exact nomatch hc.symm.trans h
  · rw [Function.update_of_ne hk]

/-- How an invocation comes to a response queue: it opens the one the name is bound
to, or it sends its ping and stays there. -/
theorem mqRecv_step (hs : StepSpec s e s') (h : (s'.cli k).stage.mqRecv = some r) :
    (s'.cli k).stage = (s.cli k).stage ∨
      (∃ mq, e = .cli k ∧ (s.cli k).stage = .pingBoth mq r) ∨
      (s.responses.bound = some r ∧ ∃ mq, (s'.cli k).stage = .pingBoth mq r) := by
  cases hs with
  | @launched i vm =>
    refine .inl (mqRecv_update (i := i) ?_ h)
    unfold Session.launch
    split <;> exact ⟨_, rfl, rfl⟩
  | @probed i =>
    refine .inl (mqRecv_update (i := i) ?_ h)
    unfold Session.isLocked
    split
    · exact ⟨_, rfl, rfl⟩
    · split <;> exact ⟨_, rfl, rfl⟩
  | released => exact .inl (mqRecv_update ⟨_, rfl, rfl⟩ h)
  | @foundCommands i =>
    refine .inl (mqRecv_update (i := i) ?_ h)
    unfold Session.openOnly
    split <;> exact ⟨_, rfl, rfl⟩
  | @foundResponses i mq hstage =>
    cases hbound : s.responses.bound with
    | none =>
      rw [hbound] at h
      exact .inl (mqRecv_update ⟨_, rfl, rfl⟩ h)
    | some mqRecv =>
      rw [hbound] at h
      have h : ((s.setStage i (.pingBoth mq mqRecv)).cli k).stage.mqRecv = some r := h
      by_cases hk : k = i
      · rw [hk, setStage_self] at h
        cases h
        exact .inr (.inr ⟨rfl, mq, by rw [hk]; exact setStage_self s i _⟩)
      · exact .inl (congrArg Cli.stage (setStage_other s i _ hk))
  | @pinged i mq mqRecv hstage =>
    have h : ((s.setStage i (.awaiting mqRecv)).cli k).stage.mqRecv = some r := h
    by_cases hk : k = i
    · rw [hk, setStage_self] at h
      cases h
      exact .inr (.inl ⟨mq, by rw [hk], by rw [hk]; exact hstage⟩)
    · exact .inl (congrArg Cli.stage (setStage_other s i _ hk))
  | answered => exact .inl (mqRecv_update ⟨_, rfl, rfl⟩ h)
  | timedOut => exact .inl (mqRecv_update ⟨_, rfl, rfl⟩ h)
  | removedCommands => exact .inl (mqRecv_update ⟨_, rfl, rfl⟩ h)
  | removedResponses => exact .inl (mqRecv_update ⟨_, rfl, rfl⟩ h)
  | spawned => exact .inl (mqRecv_update ⟨_, rfl, rfl⟩ h)
  | opened => exact .inl (mqRecv_update ⟨_, rfl, rfl⟩ h)
  | sent => exact .inl (mqRecv_update ⟨_, rfl, rfl⟩ h)
  | triedLock =>
    left
    unfold Session.tryLock
    split <;> rfl
  | polled =>
    left
    unfold Session.tryReceive
    split <;> rfl
  | _ => exact .inl rfl

/-! ## Runs -/

/-- Whatever is owed where an invocation waits is owed to it. -/
structure Fresh (s : Session) : Prop where
  numbered : s.responses.Numbered
  known : ∀ i r, (s.cli i).stage.mqRecv = some r → r < s.responses.next
  own : ∀ i r k, (s.cli i).stage = .awaiting r → s.Owed r k → k = i

theorem Fresh.init : ({} : Session).Fresh where
  numbered _ h := nomatch h
  known _ _ h := nomatch h
  own _ _ _ h := nomatch h

/-- **One step** that pings only when nothing else is owed. -/
theorem Fresh.step (h : s.Fresh) (hok : s.PingsAlone e) (hs : s.step e = some s') :
    s'.Fresh := by
  have hspec := step_spec hs
  have huse := hspec.uses.2
  refine ⟨huse.numbered h.numbered, fun i r hr => ?_, fun i r k hwaits howed => ?_⟩
  · refine Nat.lt_of_lt_of_le ?_ huse.next_le
    rcases mqRecv_step hspec hr with hsame | ⟨mq, -, hboth⟩ | ⟨hbound, -⟩
    · exact h.known i r (hsame ▸ hr)
    · exact h.known i r (by rw [hboth]; rfl)
    · exact h.numbered r hbound
  · rcases mqRecv_step hspec (by rw [hwaits]; rfl) with hsame | ⟨mq, rfl, hboth⟩ | ⟨-, mq, hboth⟩
    · -- it waited already: nobody may send a ping that is answered here
      have hwaited : (s.cli i).stage = .awaiting r := hsame.symm.trans hwaits
      have hr : r < s.responses.next := h.known i r (by rw [hwaited]; rfl)
      rcases owed_step hspec hr howed with hwas | ⟨mq, mqRecv, rfl, hping, hserves⟩
      · exact h.own i r k hwaited hwas
      · exact absurd hwaited ((hok mq mqRecv hping).2 r hserves i)
    · -- it has sent its ping: nothing else was owed here
      have hr : r < s.responses.next := h.known i r (by rw [hboth]; rfl)
      rcases owed_step hspec hr howed with hwas | ⟨_, _, hevent, -⟩
      · exact absurd hwas ((hok mq r hboth).1 k)
      · exact (SessionEvent.cli.inj hevent).symm
    · rw [hwaits] at hboth
      cases hboth

theorem step_awaiting (hstage : (s.cli i).stage = .awaiting mqRecv) :
    s.step (.cli i) = s.timedReceive i mqRecv := by
  change s.cliStep i = _
  unfold Session.cliStep
  rw [hstage]

/-- **Ping freshness**, as long as pings are sent alone: whenever
`is_supervisor_running` returns true, it has taken the pong to its own ping. -/
theorem ping_fresh (h : Reaches step PingsAlone {} s)
    (hstage : (s.cli i).stage = .awaiting mqRecv) (hs : s.step (.cli i) = some s') :
    s.TakesOwn i mqRecv s' := by
  have hfresh : s.Fresh := h.invariant .init fun ha hok hs => ha.step hok hs
  obtain ⟨hsome, hs⟩ := Option.ite_none_left_eq_some.mp ((step_awaiting hstage).symm.trans hs)
  cases hs
  obtain ⟨pong, rest, hcontents⟩ := List.exists_cons_of_ne_nil hsome
  have howed : s.Owed mqRecv pong.cli :=
    .replied (by rw [hcontents]; exact List.mem_cons_self) rfl
  refine ⟨pong, rest, hcontents, ?_, ?_, hfresh.own i mqRecv pong.cli hstage howed⟩
  · change Function.update s.responses.contents mqRecv _ mqRecv = rest
    rw [Function.update_self, hcontents, List.tail_cons]
  · exact setStage_self s i .running

/-- `fika -c start` once more, with the supervisor of the first one running and idle, up
to the ping. -/
def secondStart : List SessionEvent :=
  firstStart ++ List.replicate 6 (.supervisor 0) ++ .launch 1 fikaStart :: List.replicate 3 (.cli 1)

/-- The next event is not a ping. -/
def sendsNoPing (s : Session) : SessionEvent → Bool
  | .cli i => match (s.cli i).stage with
    | .pingBoth _ _ => false
    | _ => true
  | _ => true

theorem pingsAlone_of_sendsNoPing (s : Session) (e : SessionEvent) (h : s.sendsNoPing e = true) :
    s.PingsAlone e := by
  cases e with
  | cli i =>
    intro mq mqRecv hstage
    simp only [sendsNoPing, hstage] at h
    cases h
  | _ => trivial

/-- Nobody waits, and no response, no message and no command in hand is there. -/
structure AtRest (s : Session) : Prop where
  commands : ∀ o, s.commands.contents o = []
  responses : ∀ r, s.responses.contents r = []
  sup : ∀ j o r msg, s.sup j ≠ .handling o r msg
  cli : ∀ k r, (s.cli k).stage ≠ .awaiting r

theorem AtRest.not_owed (h : s.AtRest) : ¬ s.Owed r k := by
  intro howed
  cases howed with
  | replied hmem =>
    rw [h.responses] at hmem
    cases hmem
  | handled hsup => exact absurd hsup (h.sup _ _ _ _)
  | waiting _ hmem =>
    rw [h.commands] at hmem
    cases hmem

/-- With everything at rest a ping is alone. -/
theorem AtRest.pingsAlone (h : s.AtRest) : s.PingsAlone e := by
  cases e with
  | cli i => exact fun _ _ _ => ⟨fun _ => h.not_owed, fun r _ k => h.cli k r⟩
  | _ => trivial

/-- The second invocation takes the pong to its own ping. -/
theorem ping_fresh_secondStart :
    ∃ s₀ s s', run step {} secondStart = some s₀ ∧
      run step s₀ [.cli 1, .supervisor 0, .supervisor 0] = some s ∧
      s.step (.cli 1) = some s' ∧ s.TakesOwn 1 0 s' := by
  obtain ⟨s₀, s, s', h₀, hrest, hrun, hs, hstage⟩ : ∃ s₀ s s', run step {} secondStart = some s₀ ∧
      s₀.AtRest ∧ run step s₀ [.cli 1, .supervisor 0, .supervisor 0] = some s ∧
      s.step (.cli 1) = some s' ∧ (s.cli 1).stage = .awaiting 0 := by
    refine ⟨_, _, _, rfl, ⟨fun o => ?_, fun r => ?_, fun j => ?_, fun k => ?_⟩, rfl, rfl, rfl⟩
    · cases o <;> rfl
    · cases r <;> rfl
    · cases j <;> nofun
    · match k with
      | 0 => nofun
      | 1 => nofun
      | _ + 2 => nofun
  have hreach₀ : Reaches step PingsAlone {} s₀ :=
    reaches_of_run (runOk_of_runCheck pingsAlone_of_sendsNoPing rfl) h₀
  have hok : runOk step PingsAlone s₀ [.cli 1, .supervisor 0, .supervisor 0] :=
    ⟨hrest.pingsAlone, fun _ _ => ⟨trivial, fun _ _ => ⟨trivial, fun _ _ => trivial⟩⟩⟩
  have hreach : Reaches step PingsAlone {} s := hreach₀.trans (reaches_of_run hok hrun)
  exact ⟨s₀, s, s', h₀, hrun, hs, ping_fresh hreach hstage hs⟩

/-! ## A pong that is late -/

theorem step_pingBoth (hstage : (s.cli i).stage = .pingBoth mq mqRecv)
    (hs : s.step (.cli i) = some s') :
    (s'.cli i).stage = .awaiting mqRecv ∧ s'.responses = s.responses := by
  change s.cliStep i = some s' at hs
  unfold Session.cliStep at hs
  rw [hstage] at hs
  obtain ⟨-, hs⟩ := Option.ite_none_right_eq_some.mp hs
  cases hs
  exact ⟨setStage_self s i _, rfl⟩

/-- A pong that an earlier call has not waited for is taken by the next one. -/
theorem takes_stale {pong : Envelope CommandResponse} {rest : List (Envelope CommandResponse)}
    (hstage : (s.cli i).stage = .pingBoth mq mqRecv)
    (hpong : s.responses.contents mqRecv = pong :: rest) (hother : pong.cli ≠ i)
    (hs : s.step (.cli i) = some s') :
    (s'.cli i).stage = .awaiting mqRecv ∧
      ∃ s'', s'.step (.cli i) = some s'' ∧ ¬ s'.TakesOwn i mqRecv s'' := by
  obtain ⟨hwaits, hresponses⟩ := step_pingBoth hstage hs
  rw [← hresponses] at hpong
  have hsome : s'.responses.contents mqRecv ≠ [] := by
    rw [hpong]
    exact List.cons_ne_nil pong rest
  refine ⟨hwaits, _, (step_awaiting hwaits).trans (if_neg hsome), ?_⟩
  rintro ⟨taken, rest', hcontents, -, -, hown⟩
  rw [hpong] at hcontents
  cases hcontents
  exact hother hown

/-- The first invocation has started the supervisor, which starts the workers. Meanwhile
the second one gives up waiting for its pong; then the pong comes, and a third
invocation is about to ping. -/
def lateAnswer : List SessionEvent :=
  firstStart ++ List.replicate 5 (.supervisor 0) ++
    .launch 1 fikaStart :: List.replicate 4 (.cli 1) ++ .timeout 1 ::
    List.replicate 3 (.supervisor 0) ++ .launch 2 fikaStart :: List.replicate 3 (.cli 2)

/-- The third invocation takes the pong to the ping of the second. -/
theorem lateAnswer_not_fresh :
    ¬ ∀ s i mqRecv s', Reaches step anyEvent {} s → (s.cli i).stage = .awaiting mqRecv →
      s.step (.cli i) = some s' → s.TakesOwn i mqRecv s' := by
  intro hall
  obtain ⟨s, s', hrun, hstage, hs, hpongs⟩ : ∃ s s', run step {} lateAnswer = some s ∧
      (s.cli 2).stage = .pingBoth 0 0 ∧ s.step (.cli 2) = some s' ∧
      s.responses.contents 0 = [{ cli := 1, body := pong }] := ⟨_, _, rfl, rfl, rfl, rfl⟩
  have hreach : Reaches step anyEvent {} s :=
    reaches_of_run (runOk_of_forall fun _ _ _ => trivial) hrun
  obtain ⟨hwaits, s'', hs', hnot⟩ := takes_stale hstage hpongs (by decide) hs
  exact hnot (hall s' 2 0 s'' (hreach.tail trivial hs) hwaits hs')

end Session

end Fika
