import Fika.Lib.Epochs
import Fika.Lib.Run
import Fika.Supervisor.Supervisor

/-!
# The queues over several launches
(`supervisor::reset_queues`, `create_queues`, `boost_queue_manager`, the `main`s of the
workers)

A supervisor removes the queues it finds and creates new ones, one call after the other.
The workers open the queues by name when they start, whenever that is: a worker that a
supervisor has left behind goes on with the queues it has opened. At most one supervisor
runs (it holds the lock of the pid file), and it can end at any time.

- `Program.opens`, `Program.receives`: what the `main`s open, and what they receive from.
- `Launches`, `Launches.step`: supervisors that come one after the other, the queues, and
  the workers; `StepSpec`, `step_spec`.
- `Known`: the handles that a state knows of; `Sound`: what every step keeps of them and
  of the messages.
- `launches_apart`: no message gets from one launch to another, between processes that
  have opened their queue after the supervisor had created it.
- `launch_binds`: what the supervisor holds once its queues are created.
-/

namespace Fika

open Lib

/-- The programs that open the queues. -/
inductive Program where
  | service (b : Binary)
  | ingestd
deriving DecidableEq

namespace Program

/-- The queues that `main` opens with `open_only`, in this order; `ingestd` opens its queue
in the constructor. -/
def opens : Program → List Str
  | service .qm => [Binary.queue .qm, Binary.queue .parse, Binary.queue .detect]
  | service .detect => [Binary.queue .detect, Binary.queue .qm]
  | service .parse => [Binary.queue .parse, Binary.queue .qm]
  | ingestd => [Binary.queue .qm]

/-- The queue of the `MsgQueueReceiver`. -/
def receives : Program → Option Str
  | service b => some b.queue
  | ingestd => none

end Program

/-- A message in a queue. The rest only records: how many launches had begun when it was
sent, and the handle it was sent through; there is none for what was found in a queue. -/
structure Parcel where
  msg : IpcMessage
  sentIn : Nat := 0
  via : Option Epochs.Handle := none

/-- A worker process, and the queues it still has to open. -/
structure Process where
  program : Program
  toOpen : List Str
  handles : Str → Option Epochs.Handle := fun _ => none

/-- A message that was received, and the handle that gave it. -/
structure Receipt where
  queue : Str
  handle : Epochs.Handle
  parcel : Parcel

/-- The queues by name and object, with the descriptors they were created from; the
`queues_` of the current supervisor, and whether its `create` has thrown; the workers. -/
structure Launches where
  queues : Epochs Str Parcel := {}
  described : Str → Nat → QueueDescriptor := fun n _ =>
    { name := n, maxMessages := 0, messageSize := 0 }
  manager : Str → Option Epochs.Handle := fun _ => none
  thrown : Bool := false
  process : Nat → Option Process := fun _ => none
  received : List Receipt := []

/-- What happens next. -/
inductive LaunchEvent where
  /-- A new supervisor gets to `reset_queues`; the last one has ended. -/
  | launch
  /-- Its next `remove` or `create`. -/
  | setup
  | spawn (p : Nat) (program : Program)
  /-- The next `open_only` of a worker. -/
  | openQueue (p : Nat)
  | exit (p : Nat)
  /-- A worker sends a message through one of its handles. -/
  | send (p : Nat) (queue : Str) (msg : IpcMessage)
  | receive (p : Nat)
  /-- `send_stop_job` of the current supervisor. -/
  | stopJob (queue : Str)

namespace Launches

/-- The names of the descriptors. -/
def queueNames (qs : List QueueDescriptor) : List Str := qs.map QueueDescriptor.name

/-- The descriptor of a name. -/
def descriptorOf (qs : List QueueDescriptor) (n : Str) : QueueDescriptor :=
  (qs.find? fun q => q.name == n).getD { name := n, maxMessages := 0, messageSize := 0 }

/-- The messages in an object. -/
def contents (s : Launches) (n : Str) (o : Nat) : List Parcel := (s.queues.names n).contents o

/-- `boost_queue_manager::create`; the handle is kept in `queues_`. -/
def create (qs : List QueueDescriptor) (s : Launches) (n : Str) (rest : List Str) : Launches :=
  match (s.queues.names n).bound with
  | some _ => { s with thrown := true }
  | none => { s with
      queues := s.queues.create n rest
      described := Function.update s.described n
        (Function.update (s.described n) (s.queues.names n).next (descriptorOf qs n))
      manager := Function.update s.manager n (some
        { object := (s.queues.names n).next, launch := s.queues.launches, placed := true }) }

/-- The next step of `reset_queues` or, once they have all been removed, of
`create_queues`. -/
def setup (qs : List QueueDescriptor) (s : Launches) : Option Launches :=
  if s.thrown then none
  else match s.queues.toRemove with
    | n :: rest => some { s with queues := s.queues.remove n rest }
    | [] => match s.queues.toCreate with
      | [] => none
      | n :: rest => some (s.create qs n rest)

/-- A worker opens its next queue. `open_only` throws when the name is not bound, and the
worker ends. -/
def openQueue (qs : List QueueDescriptor) (s : Launches) (p : Nat) : Option Launches :=
  match s.process p with
  | none => none
  | some proc =>
    match proc.toOpen with
    | [] => none
    | n :: rest =>
      let proc' := (s.queues.opened (queueNames qs) n).map fun hd =>
        { proc with toOpen := rest, handles := Function.update proc.handles n (some hd) }
      some { s with process := Function.update s.process p proc' }

/-- Send a message through a handle, when there is room. -/
def sendVia (s : Launches) (n : Str) (hd : Epochs.Handle) (msg : IpcMessage) : Option Launches :=
  let q := s.described n hd.object
  if ipcMessageSize ≤ q.messageSize ∧ (s.contents n hd.object).length < q.maxMessages then
    some { s with
      queues := s.queues.put n ((s.queues.names n).send hd.object
        { msg := msg, sentIn := s.queues.launches, via := some hd }) }
  else none

/-- The handle of a worker that has opened all its queues. -/
def handleOf (s : Launches) (p : Nat) (n : Str) : Option Epochs.Handle := do
  let proc ← s.process p
  if proc.toOpen = [] then proc.handles n else none

/-- The queue a worker receives from. -/
def receivesFrom (s : Launches) (p : Nat) : Option Str := do
  let proc ← s.process p
  proc.program.receives

/-- A worker takes the first message of its queue. -/
def receive (s : Launches) (p : Nat) : Option Launches :=
  match s.receivesFrom p with
  | none => none
  | some n =>
    match s.handleOf p n with
    | none => none
    | some hd =>
      match s.contents n hd.object with
      | [] => none
      | parcel :: _ => some { s with
          queues := s.queues.put n ((s.queues.names n).pop hd.object)
          received := { queue := n, handle := hd, parcel := parcel } :: s.received }

/-- One event. -/
def step (qs : List QueueDescriptor) (s : Launches) : LaunchEvent → Option Launches
  | .launch => some { s with
      queues := s.queues.launch (queueNames qs), manager := fun _ => none, thrown := false }
  | .setup => s.setup qs
  | .spawn p program =>
    if (s.process p).isNone then
      some { s with
        process := Function.update s.process p
          (some { program := program, toOpen := program.opens }) }
    else none
  | .openQueue p => s.openQueue qs p
  | .exit p => some { s with process := Function.update s.process p none }
  | .send p n msg =>
    match s.handleOf p n with
    | none => none
    | some hd => s.sendVia n hd msg
  | .receive p => s.receive p
  | .stopJob n =>
    if s.queues.toRemove = [] ∧ s.queues.toCreate = [] then
      match s.manager n with
      | none => none
      | some hd => s.sendVia n hd .poisonPill
    else none

variable {qs : List QueueDescriptor} {s t : Launches} {n : Str} {hd : Epochs.Handle}

/-- A process, or the supervisor, holds the handle. -/
inductive Held (s : Launches) (n : Str) (hd : Epochs.Handle) : Prop where
  | process {p : Nat} {proc : Process} (hp : s.process p = some proc)
      (hh : proc.handles n = some hd) : Held s n hd
  | manager (hm : s.manager n = some hd) : Held s n hd

/-- The state after a message was sent. -/
def afterSend (s : Launches) (n : Str) (hd : Epochs.Handle) (msg : IpcMessage) : Launches :=
  { s with
    queues := s.queues.put n ((s.queues.names n).send hd.object
      { msg := msg, sentIn := s.queues.launches, via := some hd }) }

/-- What each step does, and when. -/
inductive StepSpec (qs : List QueueDescriptor) (s : Launches) : LaunchEvent → Launches → Prop where
  | launched : StepSpec qs s .launch { s with
      queues := s.queues.launch (queueNames qs), manager := fun _ => none, thrown := false }
  | removed {n : Str} {rest : List Str} (htodo : s.queues.toRemove = n :: rest) :
      StepSpec qs s .setup { s with queues := s.queues.remove n rest }
  | created {n : Str} {rest : List Str} (hremoved : s.queues.toRemove = [])
      (htodo : s.queues.toCreate = n :: rest) : StepSpec qs s .setup (s.create qs n rest)
  | spawned {p : Nat} {program : Program} : StepSpec qs s (.spawn p program) { s with
      process := Function.update s.process p
        (some { program := program, toOpen := program.opens }) }
  | opened {p : Nat} {proc : Process} {n : Str} {rest : List Str} {hd : Epochs.Handle}
      (hp : s.process p = some proc) (hopen : s.queues.opened (queueNames qs) n = some hd) :
      StepSpec qs s (.openQueue p) { s with
        process := Function.update s.process p (some { proc with
          toOpen := rest, handles := Function.update proc.handles n (some hd) }) }
  /-- A worker ends, also because it could not open a queue. -/
  | ended {p : Nat} {e : LaunchEvent} :
      StepSpec qs s e { s with process := Function.update s.process p none }
  | sent {n : Str} {hd : Epochs.Handle} {msg : IpcMessage} {e : LaunchEvent} (hheld : s.Held n hd) :
      StepSpec qs s e (s.afterSend n hd msg)
  | received {p : Nat} {n : Str} {hd : Epochs.Handle} {parcel : Parcel} {rest : List Parcel}
      (hheld : s.Held n hd) (hcontents : s.contents n hd.object = parcel :: rest) :
      StepSpec qs s (.receive p) { s with
        queues := s.queues.put n ((s.queues.names n).pop hd.object)
        received := { queue := n, handle := hd, parcel := parcel } :: s.received }

theorem held_of_handleOf {p : Nat} (h : s.handleOf p n = some hd) : s.Held n hd := by
  obtain ⟨proc, hp, hh⟩ := Option.bind_eq_some_iff.mp h
  split at hh
  · exact .process hp hh
  · cases hh

theorem sendVia_eq {msg : IpcMessage} (h : s.sendVia n hd msg = some t) :
    t = s.afterSend n hd msg := by
  simp only [sendVia] at h
  split at h
  · exact (Option.some.inj h).symm
  · cases h

theorem setup_cases (h : s.setup qs = some t) :
    (∃ n rest, s.queues.toRemove = n :: rest ∧ t = { s with queues := s.queues.remove n rest }) ∨
    ∃ n rest, s.queues.toRemove = [] ∧ s.queues.toCreate = n :: rest ∧ t = s.create qs n rest := by
  unfold setup at h
  split at h
  · cases h
  · split at h
    · next n rest hs =>
      cases h
      exact .inl ⟨n, rest, hs, rfl⟩
    · next hremoved =>
      split at h
      · cases h
      · next n rest hs =>
        cases h
        exact .inr ⟨n, rest, hremoved, hs, rfl⟩

theorem openQueue_spec {p : Nat} (h : s.openQueue qs p = some t) :
    StepSpec qs s (.openQueue p) t := by
  unfold openQueue at h
  split at h
  · cases h
  · next proc hp =>
    split at h
    · cases h
    · next n rest hopens =>
      cases h
      cases hopen : s.queues.opened (queueNames qs) n with
      | none => exact .ended
      | some hd => exact .opened hp hopen

theorem receive_spec {p : Nat} (h : s.receive p = some t) : StepSpec qs s (.receive p) t := by
  unfold receive at h
  split at h
  · cases h
  · next n hn =>
    split at h
    · cases h
    · next hd hhandle =>
      split at h
      · cases h
      · next parcel rest hcontents =>
        cases h
        exact .received (held_of_handleOf hhandle) hcontents

theorem step_spec {e : LaunchEvent} (h : s.step qs e = some t) : StepSpec qs s e t := by
  cases e with
  | launch =>
    cases h
    exact .launched
  | setup =>
    rcases setup_cases h with ⟨n, rest, htodo, rfl⟩ | ⟨n, rest, hremoved, htodo, rfl⟩
    · exact .removed htodo
    · exact .created hremoved htodo
  | spawn p program =>
    simp only [step] at h
    split at h
    · cases h
      exact .spawned
    · cases h
  | openQueue p => exact openQueue_spec h
  | exit p =>
    cases h
    exact .ended
  | send p n msg =>
    simp only [step] at h
    split at h
    · cases h
    · next hd hhandle =>
      rw [sendVia_eq h]
      exact .sent (held_of_handleOf hhandle)
  | receive p => exact receive_spec h
  | stopJob n =>
    simp only [step] at h
    split at h
    · split at h
      · cases h
      · next hd hmanager =>
        rw [sendVia_eq h]
        exact .sent (.manager hmanager)
    · cases h

/-! ## What is kept -/

/-- The message was sent to this object, not before the launch that created it. -/
structure Right (q : Epochs Str Parcel) (n : Str) (o : Nat) (parcel : Parcel) : Prop where
  created : o < (q.names n).next
  sentIn : q.created n o ≤ parcel.sentIn
  found : parcel.via = none → parcel.sentIn = 0
  via : ∀ hd, parcel.via = some hd → hd.object = o ∧ q.Genuine n hd

theorem Right.step {q q' : Epochs Str Parcel} {o : Nat} {parcel : Parcel} {ns : List Str}
    (h : Right q n o parcel) (hu : q.Use ns q') (hf : q.Fresh ns) : Right q' n o parcel := by
  obtain ⟨hlt, hcreated⟩ := hu.keeps hf h.created
  refine ⟨hlt, ?_, h.found, fun hd hvia => ?_⟩
  · rw [hcreated]
    exact h.sentIn
  · exact ⟨(h.via hd hvia).1, (h.via hd hvia).2.step hu hf⟩

/-- The invariant of all launches. -/
structure Sound (qs : List QueueDescriptor) (s : Launches) : Prop where
  fresh : s.queues.Fresh (queueNames qs)
  held : ∀ n hd, s.Held n hd → s.queues.Genuine n hd
  parcels : ∀ n o parcel, parcel ∈ s.contents n o → Right s.queues n o parcel
  receipts : ∀ r ∈ s.received, s.queues.Genuine r.queue r.handle ∧
    Right s.queues r.queue r.handle.object r.parcel

/-- What is not new was right before. -/
theorem Sound.advance (h : Sound qs s) (hqs : (queueNames qs).Nodup)
    (hu : s.queues.Use (queueNames qs) t.queues)
    (hheld : ∀ n hd, t.Held n hd → s.Held n hd ∨ t.queues.Genuine n hd)
    (hparcels : ∀ n o parcel, parcel ∈ t.contents n o →
      parcel ∈ s.contents n o ∨ Right t.queues n o parcel)
    (hreceipts : ∀ r ∈ t.received, r ∈ s.received ∨
      t.queues.Genuine r.queue r.handle ∧ Right t.queues r.queue r.handle.object r.parcel) :
    Sound qs t where
  fresh := hu.fresh h.fresh hqs
  held n hd hh := (hheld n hd hh).elim (fun hold => (h.held n hd hold).step hu h.fresh) id
  parcels n o parcel hin := (hparcels n o parcel hin).elim
    (fun hold => (h.parcels n o parcel hold).step hu h.fresh) id
  receipts r hr := (hreceipts r hr).elim
    (fun hold => ⟨(h.receipts r hold).1.step hu h.fresh, (h.receipts r hold).2.step hu h.fresh⟩) id

/-- The handles of a state in which only one process has changed. -/
theorem held_update {p : Nat} {proc : Option Process} {q : Epochs Str Parcel}
    (hnew : ∀ proc', proc = some proc' → proc'.handles n = some hd → s.Held n hd ∨ q.Genuine n hd)
    (h : { s with process := Function.update s.process p proc }.Held n hd) :
    s.Held n hd ∨ q.Genuine n hd := by
  cases h with
  | @process p' proc' hp hh =>
    change Function.update s.process p proc p' = some proc' at hp
    by_cases hpp : p' = p
    · rw [hpp, Function.update_self] at hp
      exact hnew proc' hp hh
    · rw [Function.update_of_ne hpp] at hp
      exact .inl (.process hp hh)
  | manager hm => exact .inl (.manager hm)

theorem contents_remove {rest : List Str} {m : Str} {o : Nat} :
    { s with queues := s.queues.remove n rest }.contents m o = s.contents m o := by
  show ((s.queues.remove n rest).names m).contents o = _
  by_cases hm : m = n
  · rw [hm, Epochs.names_remove_self]
    rfl
  · rw [Epochs.names_remove_other hm]
    rfl

/-- A created queue is empty, and the others are as they were. -/
theorem mem_contents_create {rest : List Str} {m : Str} {o : Nat} {parcel : Parcel}
    (hfree : (s.queues.names n).bound = none)
    (hin : parcel ∈ (s.create qs n rest).contents m o) : parcel ∈ s.contents m o := by
  rw [create, hfree] at hin
  change parcel ∈ ((s.queues.create n rest).names m).contents o at hin
  by_cases hm : m = n
  · subst hm
    rw [Epochs.names_create_self hfree] at hin
    change parcel ∈ Function.update (s.queues.names m).contents _ [] o at hin
    by_cases ho : o = (s.queues.names m).next
    · rw [ho, Function.update_self] at hin
      cases hin
    · rwa [Function.update_of_ne ho] at hin
  · rwa [Epochs.names_create_other hm] at hin

theorem held_create {rest : List Str} {m : Str} (hfree : (s.queues.names n).bound = none)
    (h : (s.create qs n rest).Held m hd) : s.Held m hd ∨ m = n ∧ hd =
      { object := (s.queues.names n).next, launch := s.queues.launches, placed := true } := by
  rw [create, hfree] at h
  cases h with
  | process hp hh => exact .inl (.process hp hh)
  | manager hm =>
    change Function.update s.manager n _ m = some hd at hm
    by_cases hmn : m = n
    · rw [hmn, Function.update_self] at hm
      exact .inr ⟨hmn, (Option.some.inj hm).symm⟩
    · rw [Function.update_of_ne hmn] at hm
      exact .inl (.manager hm)

/-- The object a launch has created is one of this launch. -/
theorem genuine_created {rest : List Str} (hfree : (s.queues.names n).bound = none)
    (hpos : 0 < s.queues.launches) : (s.queues.create n rest).Genuine n
      { object := (s.queues.names n).next, launch := s.queues.launches, placed := true } := by
  refine ⟨?_, fun _ => ⟨Epochs.created_create_new, hpos⟩⟩
  rw [Epochs.names_create_self hfree]
  exact Nat.lt_succ_self _

/-- A message that is sent is right. -/
theorem right_sent {msg : IpcMessage} (h : Sound qs s) (hheld : s.Held n hd) :
    Right (s.afterSend n hd msg).queues n hd.object
      { msg := msg, sentIn := s.queues.launches, via := some hd } := by
  have hg := h.held n hd hheld
  have hnext : ((s.afterSend n hd msg).queues.names n).next = (s.queues.names n).next := by
    show ((s.queues.put n _).names n).next = _
    rw [Epochs.names_put_self]
    rfl
  have hlt : hd.object < ((s.afterSend n hd msg).queues.names n).next := hnext ▸ hg.created
  refine ⟨hlt, h.fresh.created_le n hd.object, fun hno => ?_, fun hd' hvia => ?_⟩
  · cases hno
  · obtain rfl : hd = hd' := Option.some.inj hvia
    exact ⟨rfl, hlt, hg.launch⟩

/-- **Every step keeps the invariant.** -/
theorem sound_step {e : LaunchEvent} (h : Sound qs s) (hqs : (queueNames qs).Nodup)
    (hs : s.step qs e = some t) : Sound qs t := by
  cases step_spec hs with
  | launched =>
    refine h.advance hqs .launch (fun m hd hh => ?_) (fun _ _ _ hin => .inl hin) fun _ hr => .inl hr
    cases hh with
    | process hp hh => exact .inl (.process hp hh)
    | manager hm => cases hm
  | @removed n rest htodo =>
    refine h.advance hqs (.remove htodo) (fun m hd hh => ?_) (fun m o parcel hin => ?_)
      fun _ hr => .inl hr
    · cases hh with
      | process hp hh => exact .inl (.process hp hh)
      | manager hm => exact .inl (.manager hm)
    · rw [contents_remove] at hin
      exact .inl hin
  | @created n rest hremoved htodo =>
    have hin : n ∈ s.queues.toCreate := by
      rw [htodo]
      exact List.mem_cons_self
    have hfree := h.fresh.vacant hremoved hin
    have hqueues : (s.create qs n rest).queues = s.queues.create n rest := by rw [create, hfree]
    refine h.advance hqs (hqueues ▸ .create hremoved htodo) (fun m hd hh => ?_)
      (fun m o parcel hin => .inl (mem_contents_create hfree hin)) fun r hr => .inl ?_
    · rcases held_create hfree hh with hold | ⟨rfl, rfl⟩
      · exact .inl hold
      · rw [hqueues]
        exact .inr (genuine_created hfree (h.fresh.begun m hin))
    · rw [create, hfree] at hr
      exact hr
  | spawned =>
    refine h.advance hqs .same (fun m hd hh => ?_) (fun _ _ _ hin => .inl hin) fun _ hr => .inl hr
    refine held_update (fun proc' hproc hh' => ?_) hh
    obtain rfl := Option.some.inj hproc
    cases hh'
  | @opened p proc n rest hd hp hopen =>
    refine h.advance hqs .same (fun m hd' hh => ?_) (fun _ _ _ hin => .inl hin) fun _ hr => .inl hr
    refine held_update (fun proc' hproc hh' => ?_) hh
    obtain rfl := Option.some.inj hproc
    change Function.update proc.handles n (some hd) m = some hd' at hh'
    by_cases hm : m = n
    · rw [hm, Function.update_self] at hh'
      obtain rfl := Option.some.inj hh'
      rw [hm]
      exact .inr (Epochs.genuine_opened h.fresh hopen)
    · rw [Function.update_of_ne hm] at hh'
      exact .inl (.process hp hh')
  | ended =>
    refine h.advance hqs .same (fun m hd hh => ?_) (fun _ _ _ hin => .inl hin) fun _ hr => .inl hr
    exact held_update (fun _ hproc => by cases hproc) hh
  | @sent n hd msg e hheld =>
    refine h.advance hqs (.put rfl rfl) (fun m hd' hh => ?_) (fun m o parcel hin => ?_)
      fun _ hr => .inl hr
    · cases hh with
      | process hp hh => exact .inl (.process hp hh)
      | manager hm => exact .inl (.manager hm)
    · change parcel ∈ ((s.queues.put n _).names m).contents o at hin
      by_cases hm : m = n
      · subst hm
        rw [Epochs.names_put_self] at hin
        rcases NamedQueue.mem_send hin with hold | ⟨rfl, rfl⟩
        · exact .inl hold
        · exact .inr (right_sent h hheld)
      · rw [Epochs.names_put_other hm] at hin
        exact .inl hin
  | @received p n hd parcel rest hheld hcontents =>
    have hu : s.queues.Use (queueNames qs) (s.queues.put n ((s.queues.names n).pop hd.object)) :=
      .put rfl rfl
    refine h.advance hqs hu (fun m hd' hh => ?_) (fun m o parcel' hin => ?_) fun r hr => ?_
    · cases hh with
      | process hp hh => exact .inl (.process hp hh)
      | manager hm => exact .inl (.manager hm)
    · change parcel' ∈ ((s.queues.put n _).names m).contents o at hin
      by_cases hm : m = n
      · subst hm
        rw [Epochs.names_put_self] at hin
        exact .inl (NamedQueue.mem_pop hin)
      · rw [Epochs.names_put_other hm] at hin
        exact .inl hin
    · rcases List.mem_cons.mp hr with rfl | hold
      · have hin : parcel ∈ s.contents n hd.object := by
          rw [hcontents]
          exact List.mem_cons_self
        exact .inr ⟨(h.held n hd hheld).step hu h.fresh,
          (h.parcels n hd.object parcel hin).step hu h.fresh⟩
      · exact .inl hold

/-- What may be there before the first launch: queues of these names, and messages that
nobody is known to have sent. -/
structure Leftover (names : Str → NamedQueue Parcel) : Prop where
  numbered : ∀ n, (names n).Numbered
  found : ∀ n o parcel, parcel ∈ (names n).contents o →
    o < (names n).next ∧ parcel.via = none ∧ parcel.sentIn = 0

theorem sound_start {names : Str → NamedQueue Parcel} (h : Leftover names) :
    Sound qs { queues := { names := names } } where
  fresh := Epochs.fresh_start names h.numbered
  held n hd hh := by cases hh <;> contradiction
  parcels n o parcel hin := by
    obtain ⟨hlt, hvia, hsent⟩ := h.found n o parcel hin
    refine ⟨hlt, Nat.zero_le _, fun _ => hsent, fun hd hsome => ?_⟩
    rw [hvia] at hsome
    cases hsome
  receipts r hr := by cases hr

theorem sound_of_reaches {names : Str → NamedQueue Parcel} (hqs : (queueNames qs).Nodup)
    (hleft : Leftover names)
    (h : Reaches (step qs) anyEvent { queues := { names := names } } t) : Sound qs t :=
  h.invariant (sound_start hleft) fun hs _ hstep => sound_step hs hqs hstep

/-- **No message gets from one launch to another**, whatever was left in the queues and
whenever supervisors and workers come and go: two processes that have opened a queue after
the supervisor of the time had created it share the queue exactly if they did so in the
same launch; and what such a process receives was sent after this launch had begun, through
a handle of the same queue, and if the sender too had opened it after the supervisor of its
time had created it, it did so in the same launch. (A process that opens the queue of the
last launch while the next supervisor has begun, but has not yet removed it, is no such
sender: it shares the old queue.) -/
theorem launches_apart (qs : List QueueDescriptor) (hqs : (queueNames qs).Nodup)
    (names : Str → NamedQueue Parcel) (hleft : Leftover names) (t : Launches)
    (h : Reaches (step qs) anyEvent { queues := { names := names } } t) :
    (∀ n hd hd', t.Held n hd → t.Held n hd' → hd.placed = true → hd'.placed = true →
      (hd.object = hd'.object ↔ hd.launch = hd'.launch)) ∧
    ∀ r ∈ t.received, r.handle.placed = true →
      r.handle.launch ≤ r.parcel.sentIn ∧
      ∃ hd, r.parcel.via = some hd ∧ hd.object = r.handle.object ∧
        (hd.placed = true → hd.launch = r.handle.launch) := by
  have hs := sound_of_reaches hqs hleft h
  refine ⟨fun n hd hd' hh hh' hp hp' => ?_, fun r hr hp => ?_⟩
  · exact (hs.held n hd hh).object_iff hs.fresh (hs.held n hd' hh') hp hp'
  · obtain ⟨hg, hright⟩ := hs.receipts r hr
    obtain ⟨hcreated, hpos⟩ := hg.launch hp
    have hsent : r.handle.launch ≤ r.parcel.sentIn := hcreated ▸ hright.sentIn
    refine ⟨hsent, ?_⟩
    cases hvia : r.parcel.via with
    | none =>
      -- what was found in the queues is of no launch
      have hzero := hright.found hvia
      omega
    | some hd =>
      obtain ⟨hobject, hgenuine⟩ := hright.via hd hvia
      exact ⟨hd, rfl, hobject, fun hp' => (hgenuine.object_iff hs.fresh hg hp' hp).mp hobject⟩

/-- A pill that the last supervisor before all launches has left in the queue of detect. -/
def stalePill (n : Str) : NamedQueue Parcel :=
  if n = Binary.queue .detect then
    { bound := some 0
      contents := fun o => if o = 0 then [{ msg := .poisonPill }] else []
      next := 1 }
  else {}

theorem leftover_stalePill : Leftover stalePill where
  numbered n o ho := by
    unfold stalePill at ho ⊢
    split at ho
    · next hn =>
      rw [if_pos hn, ← Option.some.inj ho]
      exact Nat.one_pos
    · cases ho
  found n o parcel hin := by
    unfold stalePill at hin ⊢
    split at hin
    · next hn =>
      rw [if_pos hn]
      dsimp only at hin
      split at hin
      · next ho =>
        obtain rfl := List.mem_singleton.mp hin
        exact ⟨ho ▸ Nat.one_pos, rfl, rfl⟩
      · cases hin
    · cases hin

/-- The handle of process `p` for queue `n`. -/
def handle? (t : Launches) (p : Nat) (n : Str) : Option Epochs.Handle :=
  (t.process p).bind fun proc => proc.handles n

theorem held_of_handle? {p : Nat} (h : t.handle? p n = some hd) : t.Held n hd := by
  obtain ⟨proc, hp, hh⟩ := Option.bind_eq_some_iff.mp h
  exact .process hp hh

/-- Two launches with a detect each; the second supervisor stops detect. -/
def twoLaunches : List LaunchEvent :=
  .launch :: List.replicate 6 .setup ++
  [.spawn 0 (.service .detect), .openQueue 0, .openQueue 0, .launch] ++ List.replicate 6 .setup ++
  [.spawn 1 (.service .detect), .openQueue 1, .openQueue 1, .stopJob (Binary.queue .detect),
    .receive 1]

/-- The stale pill reaches neither of them, and they do not share a queue. -/
theorem launches_apart_twice : ∃ t hd hd',
    run (step Supervisor.mainQueues) { queues := { names := stalePill } } twoLaunches = some t ∧
    t.handle? 0 (Binary.queue .detect) = some hd ∧ t.handle? 1 (Binary.queue .detect) = some hd' ∧
    hd.object ≠ hd'.object ∧ t.received.length = 1 ∧
    ∀ r ∈ t.received, r.handle.placed = true → r.handle.launch ≤ r.parcel.sentIn := by
  obtain ⟨t, ht⟩ := Option.isSome_iff_exists.mp
    (show (run (step Supervisor.mainQueues) { queues := { names := stalePill } }
      twoLaunches).isSome = true by rfl)
  have hval : (run (step Supervisor.mainQueues) { queues := { names := stalePill } }
      twoLaunches).map (fun t => (t.handle? 0 (Binary.queue .detect),
        t.handle? 1 (Binary.queue .detect), t.received.length)) =
      some (some ⟨1, 1, true⟩, some ⟨2, 2, true⟩, 1) := by rfl
  rw [ht, Option.map_some, Option.some.injEq, Prod.mk.injEq, Prod.mk.injEq] at hval
  obtain ⟨hfirst, hsecond, hlength⟩ := hval
  obtain ⟨hshare, hreceived⟩ := launches_apart Supervisor.mainQueues (by decide) stalePill
    leftover_stalePill t (reaches_of_run (runOk_of_forall fun _ _ _ => trivial) ht)
  refine ⟨t, _, _, ht, hfirst, hsecond, fun hno => ?_, hlength, fun r hr hp =>
    (hreceived r hr hp).1⟩
  have hlaunch := (hshare _ _ _ (held_of_handle? hfirst) (held_of_handle? hsecond) rfl rfl).mp hno
  exact absurd hlaunch (by decide)

/-! ## What the supervisor holds -/

/-- The current supervisor has thrown nothing and holds what it has created. -/
structure Manages (qs : List QueueDescriptor) (s : Launches) : Prop where
  thrown : s.thrown = false
  placed : ∀ n, s.queues.Placed (queueNames qs) n →
    ∃ hd, s.manager n = some hd ∧ hd.placed = true ∧ hd.launch = s.queues.launches

theorem manages_step {e : LaunchEvent} (hsound : Sound qs s) (h : Manages qs s)
    (hs : s.step qs e = some t) : Manages qs t := by
  cases step_spec hs with
  | launched => exact ⟨rfl, fun n hp => absurd hp.2.1 hp.2.2⟩
  | removed htodo => exact ⟨h.thrown, h.placed⟩
  | @created n rest hremoved htodo =>
    have hin : n ∈ s.queues.toCreate := by
      rw [htodo]
      exact List.mem_cons_self
    have hfree := hsound.fresh.vacant hremoved hin
    rw [create, hfree]
    refine ⟨h.thrown, fun m hp => ?_⟩
    show ∃ hd, Function.update s.manager n _ m = some hd ∧ _
    by_cases hm : m = n
    · rw [hm, Function.update_self]
      exact ⟨_, rfl, rfl, rfl⟩
    · rw [Function.update_of_ne hm]
      refine h.placed m ⟨hp.1, hp.2.1, fun hno => ?_⟩
      rw [htodo] at hno
      exact (List.mem_cons.mp hno).elim hm hp.2.2
  | spawned => exact ⟨h.thrown, h.placed⟩
  | opened hp hopen => exact ⟨h.thrown, h.placed⟩
  | ended => exact ⟨h.thrown, h.placed⟩
  | sent hheld => exact ⟨h.thrown, h.placed⟩
  | received hheld hcontents => exact ⟨h.thrown, h.placed⟩

/-- The queues of the supervisor, as the rest of the model sees them. -/
def view (s : Launches) : QueueManager where
  queues n := (s.manager n).map fun hd =>
    { maxMessages := (s.described n hd.object).maxMessages
      messageSize := (s.described n hd.object).messageSize
      messages := (s.contents n hd.object).map Parcel.msg }

/-- The pill is sent as the rest of the model says. -/
theorem view_stopJob (h : s.step qs (.stopJob n) = some t) :
    s.view.sendStopJob n = .ok t.view := by
  simp only [step] at h
  split at h
  · split at h
    · cases h
    · next hd hmanager =>
      have hview : s.view.queues n = some
          { maxMessages := (s.described n hd.object).maxMessages
            messageSize := (s.described n hd.object).messageSize
            messages := (s.contents n hd.object).map Parcel.msg } := by
        show (s.manager n).map _ = _
        rw [hmanager]
        rfl
      have hfits : ipcMessageSize ≤ (s.described n hd.object).messageSize ∧
          (s.contents n hd.object).length < (s.described n hd.object).maxMessages := by
        by_contra hno
        simp [sendVia, hno] at h
      rw [sendVia_eq h, QueueManager.sendStopJob, hview]
      simp only [List.length_map]
      rw [if_neg (Nat.not_lt.mpr hfits.1), if_neg (Nat.not_le.mpr hfits.2)]
      congr 1
      show QueueManager.mk _ = QueueManager.mk _
      congr 1
      funext m
      show Function.update s.view.queues n _ m = (s.manager m).map _
      by_cases hm : m = n
      · subst hm
        rw [Function.update_self, hmanager]
        simp [contents, afterSend, Epochs.names_put_self, NamedQueue.send]
      · rw [Function.update_of_ne hm]
        show (s.manager m).map _ = _
        simp [contents, afterSend, Epochs.names_put_other hm]
  · cases h

/-- A name has one descriptor. -/
theorem descriptorOf_mem (hqs : (queueNames qs).Nodup) {d : QueueDescriptor} (hd : d ∈ qs) :
    descriptorOf qs d.name = d := by
  induction qs with
  | nil => cases hd
  | cons q qs ih =>
    obtain ⟨hnot, hqs⟩ := List.nodup_cons.mp hqs
    rcases List.mem_cons.mp hd with rfl | hin
    · simp [descriptorOf]
    · have hne : q.name ≠ d.name := fun heq => hnot (heq ▸ List.mem_map_of_mem hin)
      have hskip : descriptorOf (q :: qs) d.name = descriptorOf qs d.name := by
        simp [descriptorOf, hne]
      rw [hskip, ih hqs hin]

theorem view_remove {rest : List Str} :
    { s with queues := s.queues.remove n rest }.view = s.view := by
  show QueueManager.mk _ = QueueManager.mk _
  congr 1
  funext m
  show (s.manager m).map _ = (s.manager m).map _
  simp only [contents_remove]

/-- `create` as the rest of the model says. -/
theorem view_create {rest : List Str} {d : QueueDescriptor}
    (hfree : (s.queues.names d.name).bound = none) (hmanager : s.manager d.name = none)
    (hd : descriptorOf qs d.name = d) :
    s.view.create d = .ok (s.create qs d.name rest).view := by
  have hview : s.view.queues d.name = none := by
    show (s.manager d.name).map _ = _
    rw [hmanager]
    rfl
  rw [QueueManager.create, hview, create, hfree]
  dsimp only
  congr 1
  show QueueManager.mk _ = QueueManager.mk _
  congr 1
  funext m
  show Function.update s.view.queues d.name _ m = (Function.update s.manager d.name _ m).map _
  by_cases hm : m = d.name
  · subst hm
    simp only [Function.update_self, Option.map_some, contents, hd]
    rw [Epochs.names_create_self hfree]
    simp
  · rw [Function.update_of_ne hm, Function.update_of_ne hm]
    show (s.manager m).map _ = _
    simp only [Function.update_of_ne hm, contents, Epochs.names_create_other hm]

/-- The queues of `done` have been created, those of `rest` have not. -/
structure SettingUp (qs : List QueueDescriptor) (s : Launches)
    (done rest : List QueueDescriptor) : Prop where
  split : qs = done ++ rest
  toCreate : s.queues.toCreate = queueNames rest
  created : done.foldlM QueueManager.create {} = .ok s.view
  free : ∀ d ∈ rest, s.manager d.name = none

theorem settingUp_setup {done rest : List QueueDescriptor} (hqs : (queueNames qs).Nodup)
    (hsound : Sound qs s) (h : SettingUp qs s done rest) (hs : s.setup qs = some t) :
    ∃ done rest, SettingUp qs t done rest := by
  rcases setup_cases hs with ⟨n, left, htodo, rfl⟩ | ⟨n, left, hremoved, htodo, rfl⟩
  · refine ⟨done, rest, h.split, h.toCreate, ?_, h.free⟩
    rw [view_remove]
    exact h.created
  · cases rest with
    | nil =>
      rw [h.toCreate] at htodo
      cases htodo
    | cons d rest =>
      obtain ⟨rfl, rfl⟩ := List.cons.inj (h.toCreate.symm.trans htodo)
      have hfree := hsound.fresh.vacant hremoved (htodo ▸ List.mem_cons_self)
      have hmem : d ∈ qs := by
        rw [h.split]
        exact List.mem_append_right _ List.mem_cons_self
      have hcreate : s.view.create d = .ok (s.create qs d.name (queueNames rest)).view :=
        view_create hfree (h.free d List.mem_cons_self) (descriptorOf_mem hqs hmem)
      have hnodup : (d :: rest).Pairwise fun a b => a.name ≠ b.name := by
        have hall : (queueNames (done ++ d :: rest)).Nodup := h.split ▸ hqs
        rw [queueNames, List.map_append] at hall
        exact List.pairwise_map.mp (List.nodup_append.mp hall).2.1
      refine ⟨done ++ [d], rest, ?_, ?_, ?_, fun d' hd' => ?_⟩
      · rw [h.split, List.append_assoc]
        rfl
      · rw [create, hfree]
        rfl
      · rw [List.foldlM_append, h.created]
        show s.view.create d >>= _ = _
        rw [hcreate]
        rfl
      · rw [create, hfree]
        show Function.update s.manager d.name _ d'.name = none
        rw [Function.update_of_ne ((List.pairwise_cons.mp hnodup).1 d' hd').symm]
        exact h.free d' (List.mem_cons_of_mem d hd')

/-- **A launch binds every queue anew, and once**: whatever was left behind and whoever
comes in between, the `create_only` of a launch never throws; and when a queue has been
created, its name is bound to the object that the supervisor holds, which is the one that
everybody who has opened it in this launch holds. -/
theorem launch_binds (qs : List QueueDescriptor) (hqs : (queueNames qs).Nodup)
    (names : Str → NamedQueue Parcel) (hleft : Leftover names) (t : Launches)
    (h : Reaches (step qs) anyEvent { queues := { names := names } } t) :
    t.thrown = false ∧
    ∀ n, t.queues.Placed (queueNames qs) n → ∃ hd, t.manager n = some hd ∧
      (t.queues.names n).bound = some hd.object ∧
      ∀ hd', t.Held n hd' → hd'.placed = true → hd'.launch = t.queues.launches →
        hd'.object = hd.object := by
  have hmanages : Manages qs t := by
    refine (h.invariant (P := fun t => Sound qs t ∧ Manages qs t)
      ⟨sound_start hleft, rfl, fun _ hp => absurd hp.1 (Nat.lt_irrefl 0)⟩ ?_).2
    exact fun hs _ hstep => ⟨sound_step hs.1 hqs hstep, manages_step hs.1 hs.2 hstep⟩
  have hs := sound_of_reaches hqs hleft h
  refine ⟨hmanages.thrown, fun n hplaced => ?_⟩
  obtain ⟨hd, hmanager, hp, hlaunch⟩ := hmanages.placed n hplaced
  have hg := hs.held n hd (.manager hmanager)
  obtain ⟨o, hbound, hcreated⟩ := hs.fresh.placed n hplaced
  refine ⟨hd, hmanager, ?_, fun hd' hh hp' hlaunch' => ?_⟩
  · have ho : o = hd.object := by
      refine hs.fresh.once n o hd.object (hs.fresh.numbered n o hbound) hg.created ?_ ?_
      · rw [hcreated]
        exact hplaced.1
      · rw [hcreated, (hg.launch hp).1, hlaunch]
    rw [hbound, ho]
  · exact ((hs.held n hd' hh).object_iff hs.fresh hg hp' hp).mpr (hlaunch'.trans hlaunch.symm)

/-- The first launch after the stale pill. -/
theorem launch_binds_stalePill : ∃ t hd,
    run (step Supervisor.mainQueues) { queues := { names := stalePill } }
      (.launch :: List.replicate 6 .setup) = some t ∧
    t.manager (Binary.queue .detect) = some hd ∧
    (t.queues.names (Binary.queue .detect)).bound = some hd.object := by
  have hval : (run (step Supervisor.mainQueues) { queues := { names := stalePill } }
      (.launch :: List.replicate 6 .setup)).map (fun t => decide (t.queues.Placed
        (queueNames Supervisor.mainQueues) (Binary.queue .detect))) = some true := by rfl
  obtain ⟨t, ht, hplaced⟩ := Option.map_eq_some_iff.mp hval
  obtain ⟨-, hbinds⟩ := launch_binds Supervisor.mainQueues (by decide) stalePill
    leftover_stalePill t (reaches_of_run (runOk_of_forall fun _ _ _ => trivial) ht)
  obtain ⟨hd, hmanager, hbound, -⟩ := hbinds _ (of_decide_eq_true hplaced)
  exact ⟨t, hd, ht, hmanager, hbound⟩

/-- **The supervisor's queues are those of the rest of the model**: when a supervisor that
nobody interrupts has removed and created its queues, from whatever state it found, its
queue manager is the one that `createQueues` makes, and every `send_stop_job` does to it
what `sendStopJob` does. -/
theorem launch_refines (qs : List QueueDescriptor) (hqs : (queueNames qs).Nodup)
    (names : Str → NamedQueue Parcel) (hleft : Leftover names) (t : Launches)
    (h : Reaches (step qs) anyEvent { queues := { names := names } } t) :
    (∀ u₀ u, t.step qs .launch = some u₀ → Reaches (step qs) (fun _ e => e = .setup) u₀ u →
      u.queues.toCreate = [] → ∀ factories : List ProcessFactory,
        (Supervisor.new factories qs).createQueues
          = .ok { Supervisor.new factories qs with queueMgr := u.view }) ∧
    ∀ n u, t.step qs (.stopJob n) = some u → t.view.sendStopJob n = .ok u.view := by
  refine ⟨fun u₀ u hlaunch hsetup hdone factories => ?_, fun n u => view_stopJob⟩
  have hsound := sound_step (sound_of_reaches hqs hleft h) hqs hlaunch
  cases hlaunch
  obtain ⟨-, done, rest, hu⟩ := hsetup.invariant
    (P := fun u => Sound qs u ∧ ∃ done rest, SettingUp qs u done rest)
    ⟨hsound, [], qs, rfl, rfl, rfl, fun _ _ => rfl⟩ fun {a b e} ha he hs => by
      obtain ⟨hsa, done, rest, hsetting⟩ := ha
      refine ⟨sound_step hsa hqs hs, settingUp_setup hqs hsa hsetting ?_⟩
      rw [he] at hs
      exact hs
  -- nothing is left to be created
  have hnil : rest = [] := List.map_eq_nil_iff.mp (hu.toCreate.symm.trans hdone)
  have hall : qs = done := by rw [hu.split, hnil, List.append_nil]
  show (qs.foldlM QueueManager.create {} >>= _) = _
  rw [hall, hu.created]
  rfl

theorem launch_refines_stalePill : ∃ u,
    run (step Supervisor.mainQueues) { queues := { names := stalePill } }
      (.launch :: List.replicate 6 .setup) = some u ∧
    (Supervisor.new Supervisor.mainFactories Supervisor.mainQueues).createQueues
      = .ok { Supervisor.new Supervisor.mainFactories Supervisor.mainQueues with
          queueMgr := u.view } := by
  have hval : (run (step Supervisor.mainQueues) { queues := { names := stalePill } }
      (.launch :: List.replicate 6 .setup)).map (fun t => t.queues.toCreate) = some [] := by rfl
  obtain ⟨u, hu, hdone⟩ := Option.map_eq_some_iff.mp hval
  obtain ⟨u₀, hu₀, hsetup⟩ := Option.bind_eq_some_iff.mp hu
  refine ⟨u, hu, ?_⟩
  exact (launch_refines Supervisor.mainQueues (by decide) stalePill leftover_stalePill _ .refl).1
    u₀ u hu₀ (reaches_of_run (runOk_of_forall fun _ he _ => List.eq_of_mem_replicate he) hsetup)
    hdone Supervisor.mainFactories

end Launches

end Fika
