import Fika.Lib.Outcome
import Fika.Supervisor.Pills

/-!
# Commands with a service name (`supervisor.cpp`, `commands.h`)

A command that fails is not undone: an exception or an endless wait leaves the
supervisor as far as it had come. So a command is given here an `Outcome`: the
state it leaves behind, the queues it has called `send_stop_job` for, and the
fault that ended it; with the first two forgotten it is `handleCommand`
(`toExcept_commandOutcome`).

- `EntryFrame`, `Frame`: what a command addressed to one name leaves of an entry and of
  the supervisor.
- `event_frame`, `stopTurn_frame`, `start_frame`: events and the turns of the two
  loops keep the frame.
- `targeted_commands`: start, stop and restart with a non-empty name touch no
  worker of another name and no queue but the one of that name.
-/

namespace Fika

open Lib

/-! ## Commands that may fail half-way -/

/-- What a command leaves behind; the record holds the queues a stop job was sent
to. -/
abbrev CommandOutcome := Outcome Supervisor Str Fault

namespace Supervisor

/-- `start_workers`, as far as it gets. -/
def startOutcome (s : Supervisor) (serviceName : Str) : CommandOutcome :=
  let o : Outcome (List WorkerEntity) Str Fault := Outcome.mapEach (startTurn serviceName) s.workers
  { left := { s with workers := o.left }, fault := o.fault }

/-- The pill and the wait for one worker, as far as they get. -/
def stopEntityOutcome (s : Supervisor) (w : Waits) (queue : Str) (i : Nat) : CommandOutcome :=
  let called := s.events w.sending
  (Outcome.ofExcept called [queue] (called.trySendStopJob queue)).andThen fun t =>
    let waited := t.events w.waiting
    Outcome.ofExcept waited [] (waited.reap i)

/-- One turn of the loop of `stop_workers`, as far as it gets. -/
def stopTurnOutcome (serviceName : Str) (waits : Nat → Waits) (s : Supervisor) (i : Nat) :
    CommandOutcome :=
  match s.workers[i]? with
  | none => { left := s }
  | some e =>
    match e.w.name with
    | .error f => { left := s, fault := some f }
    | .ok name =>
      if name = serviceName ∨ serviceName = [] then
        match queueOf name with
        | some queue => s.stopEntityOutcome (waits i) queue i
        | none => { left := s }
      else { left := s }

/-- `stop_workers`, as far as it gets. -/
def stopOutcome (s : Supervisor) (serviceName : Str) (waits : Nat → Waits) : CommandOutcome :=
  Outcome.each (stopTurnOutcome serviceName waits) s (List.range s.workers.length)

/-- `handle_command`, as far as it gets. -/
def commandOutcome (s : Supervisor) (cmdType : CommandType) (serviceName : Str)
    (waits : Nat → Waits) : CommandOutcome :=
  if cmdType ∈ s.commands then
    match cmdType with
    | .start => s.startOutcome serviceName
    | .stop => s.stopOutcome serviceName waits
    | .restart => (s.stopOutcome serviceName waits).andThen fun t => t.startOutcome serviceName
    | .ping =>
      let called := s.events (waits 0).sending
      Outcome.ofExcept called [] (s.sendPong pong (waits 0))
    | _ => { left := s }
  else { left := s }

variable {s t : Supervisor} {serviceName queue : Str} {waits : Nat → Waits} {i : Nat}

theorem toExcept_startOutcome (s : Supervisor) (serviceName : Str) :
    (s.startOutcome serviceName).toExcept = s.startWorkers serviceName := by
  have hloop : (Outcome.mapEach (startTurn serviceName) s.workers :
      Outcome (List WorkerEntity) Str Fault).toExcept = s.workers.mapM (startTurn serviceName) :=
    Outcome.toExcept_mapEach _ _
  unfold startWorkers
  rw [← hloop]
  unfold startOutcome Outcome.toExcept
  cases (Outcome.mapEach (startTurn serviceName) s.workers :
    Outcome (List WorkerEntity) Str Fault).fault with
  | none => rfl
  | some f => rfl

theorem toExcept_stopEntityOutcome (s : Supervisor) (w : Waits) (queue : Str) (i : Nat) :
    (s.stopEntityOutcome w queue i).toExcept = s.stopEntity w queue i := by
  unfold stopEntityOutcome stopEntity
  rw [Outcome.toExcept_andThen]
  cases (s.events w.sending).trySendStopJob queue with
  | error f => rfl
  | ok t =>
    exact Outcome.toExcept_ofExcept (t.events w.waiting) ([] : List Str) _

theorem toExcept_stopTurnOutcome (s : Supervisor) (i : Nat) :
    (stopTurnOutcome serviceName waits s i).toExcept = stopTurn serviceName waits s i := by
  unfold stopTurnOutcome stopTurn
  cases s.workers[i]? with
  | none => rfl
  | some e =>
    cases hname : e.w.name with
    | error f =>
      simp only [hname]
      rfl
    | ok name =>
      simp only [hname, bind, Except.bind]
      split
      · cases queueOf name with
        | none => rfl
        | some queue => exact toExcept_stopEntityOutcome s (waits i) queue i
      · rfl

theorem toExcept_stopOutcome (s : Supervisor) (serviceName : Str) (waits : Nat → Waits) :
    (s.stopOutcome serviceName waits).toExcept = s.stopWorkers serviceName waits := by
  unfold stopOutcome stopWorkers
  rw [Outcome.toExcept_each]
  congr 1
  funext t i
  exact toExcept_stopTurnOutcome t i

/-- Forgetting what a failed command has done gives `handle_command`. -/
theorem toExcept_commandOutcome (s : Supervisor) (cmdType : CommandType) (serviceName : Str)
    (waits : Nat → Waits) :
    (s.commandOutcome cmdType serviceName waits).toExcept
      = s.handleCommand cmdType serviceName waits := by
  unfold commandOutcome handleCommand
  split
  · cases cmdType with
    | start => exact toExcept_startOutcome s serviceName
    | stop => exact toExcept_stopOutcome s serviceName waits
    | restart =>
      show (Outcome.andThen _ _).toExcept = s.stopWorkers serviceName waits >>= _
      rw [Outcome.toExcept_andThen, toExcept_stopOutcome]
      congr 1
      funext t
      exact toExcept_startOutcome t serviceName
    | ping => exact Outcome.toExcept_ofExcept _ _ _
    | _ => rfl
  · rfl

/-! ## The frame of a command with a service name -/

end Supervisor

/-- What a command addressed to `target` leaves of an entry: the factory in any
case; of an entry with another name the child, the spawn count and the state, and
all of it when nothing happened to its child meanwhile. -/
structure EntryFrame (target : Str) (quiet : Prop) (e e' : WorkerEntity) : Prop where
  factory : e'.w.factory = e.w.factory
  other : e.w.name ≠ .ok target → Untouched e e'
  same : quiet → e.w.name ≠ .ok target → e' = e

namespace EntryFrame

variable {target : Str} {quiet quiet' : Prop} {e e' e'' : WorkerEntity}

theorem refl (target : Str) (quiet : Prop) (e : WorkerEntity) : EntryFrame target quiet e e :=
  ⟨rfl, fun _ => .refl e, fun _ _ => rfl⟩

theorem trans (h : EntryFrame target quiet e e') (h' : EntryFrame target quiet e' e'') :
    EntryFrame target quiet e e'' := by
  have hname : e.w.name ≠ .ok target → e'.w.name ≠ .ok target := fun hne =>
    (h.other hne).1.name ▸ hne
  exact {
    factory := h'.factory.trans h.factory
    other := fun hne => (h.other hne).trans (h'.other (hname hne))
    same := fun hq hne => (h'.same hq (hname hne)).trans (h.same hq hne) }

theorem weaken (h : EntryFrame target quiet e e') (hq : quiet' → quiet) :
    EntryFrame target quiet' e e' :=
  ⟨h.factory, h.other, fun hquiet => h.same (hq hquiet)⟩

/-- The entry the command is addressed to may change. -/
theorem of_target (hname : e.w.name = .ok target) (hfactory : e'.w.factory = e.w.factory) :
    EntryFrame target quiet e e' :=
  ⟨hfactory, fun hne => absurd hname hne, fun _ hne => absurd hname hne⟩

end EntryFrame

namespace Supervisor

/-- What a command addressed to `target` leaves of the supervisor. -/
structure Frame (target : Str) (quiet : Nat → Prop) (s t : Supervisor) : Prop where
  length : t.workers.length = s.workers.length
  entries : ∀ {j : Nat} {e : WorkerEntity}, s.workers[j]? = some e →
    ∃ e', t.workers[j]? = some e' ∧ EntryFrame target (quiet j) e e'
  pills : ∀ q, queueOf target ≠ some q → t.queueMgr.pills q ≤ s.queueMgr.pills q

variable {target : Str} {quiet : Nat → Prop} {s t u : Supervisor} {queue : Str} {i j : Nat}

theorem Frame.refl (target : Str) (quiet : Nat → Prop) (s : Supervisor) :
    Frame target quiet s s :=
  ⟨rfl, fun he => ⟨_, he, .refl ..⟩, fun _ _ => Nat.le_refl _⟩

theorem Frame.trans (h : Frame target quiet s t) (h' : Frame target quiet t u) :
    Frame target quiet s u where
  length := h'.length.trans h.length
  entries he := by
    obtain ⟨e', he', hkept⟩ := h.entries he
    obtain ⟨e'', he'', hkept'⟩ := h'.entries he'
    exact ⟨e'', he'', hkept.trans hkept'⟩
  pills q hq := Nat.le_trans (h'.pills q hq) (h.pills q hq)

/-! ## Events keep the frame -/

/-- An event that is about another child leaves the entry alone. -/
theorem event_other {ev : ExternalEvent} (hdie : ev ≠ .die j) (hreceive : ev ≠ .receive j) :
    (s.event ev).workers[j]? = s.workers[j]? := by
  generalize hs' : s.event ev = s'
  have hspec := hs' ▸ event_spec s ev
  cases hspec with
  | nothing hw hm => rw [hw]
  | died i =>
    have hij : i ≠ j := fun h => hdie (by rw [h])
    simp [exit, hij]
  | tookJob hr hm => rfl
  | @tookPill i queue rest hr hm =>
    have hij : i ≠ j := fun h => hreceive (by rw [h])
    simp [exit, setMessages, hij]
  | arrived hq => rfl

/-- No event puts a pill on a queue. -/
theorem event_pills_le (s : Supervisor) (ev : ExternalEvent) (q : Str) :
    (s.event ev).queueMgr.pills q ≤ s.queueMgr.pills q := by
  generalize hs' : s.event ev = s'
  have hspec := hs' ▸ event_spec s ev
  cases hspec with
  | nothing hw hm => rw [hm]
  | died i => exact Nat.le_refl _
  | tookJob hr hm => exact (pills_of_messages hm q).trans_le (Nat.sub_le ..)
  | tookPill hr hm => exact (pills_of_messages hm q).trans_le (Nat.sub_le ..)
  | arrived hq => exact (pills_arrived hq _ q).le

theorem event_frame {ev : ExternalEvent} (h : ∀ j, quiet j → ev ≠ .die j ∧ ev ≠ .receive j)
    (s : Supervisor) : Frame target quiet s (s.event ev) where
  length := (event_untouched s ev).length_eq.symm
  entries {j e} he := by
    obtain ⟨e', he', hun⟩ := forall₂_getElem? (event_untouched s ev) he
    refine ⟨e', he', hun.1.factory, fun _ => hun, fun hq _ => ?_⟩
    rw [event_other (h j hq).1 (h j hq).2, he] at he'
    exact (Option.some.inj he').symm
  pills q _ := event_pills_le s ev q

theorem events_frame {evs : List ExternalEvent}
    (h : ∀ ev ∈ evs, ∀ j, quiet j → ev ≠ .die j ∧ ev ≠ .receive j) (s : Supervisor) :
    Frame target quiet s (s.events evs) :=
  events_invariant (.refl target quiet s) fun t ht ev hev => ht.trans (event_frame (h ev hev) t)

/-! ## The turns of `stop_workers` -/

/-- How far `stop_workers(target)` has changed `s`: within the frame, and without
replacing a child. -/
structure StopFrame (target : Str) (quiet : Nat → Prop) (s t : Supervisor) : Prop where
  frame : Frame target quiet s t
  sameChild : Entrywise SameChild s t

/-- The waits leave the children of the quiet entries alone. -/
def Quiet (waits : Nat → Waits) (j : Nat) : Prop :=
  ∀ i, ∀ ev ∈ (waits i).sending ++ (waits i).waiting, ev ≠ .die j ∧ ev ≠ .receive j

variable {waits : Nat → Waits} {e : WorkerEntity}

theorem stopFrame_events (h : StopFrame target quiet s t) {evs : List ExternalEvent}
    (hevs : ∀ ev ∈ evs, ∀ j, quiet j → ev ≠ .die j ∧ ev ≠ .receive j) :
    StopFrame target quiet s (t.events evs) :=
  ⟨h.frame.trans (events_frame hevs t),
    h.sameChild.trans SameChild.trans (events_sameChild t evs)⟩

/-- The pill goes to the queue of the target. -/
theorem trySendStopJob_stopFrame (h : StopFrame target quiet s t)
    (hq : queueOf target = some queue) :
    Ensures (· ≠ .nullChild) (StopFrame target quiet s) (t.trySendStopJob queue) := by
  have hfault := trySendStopJob_ensures t queue
  cases hsend : t.trySendStopJob queue with
  | error f => exact hfault.of_error hsend
  | ok u =>
    have hworkers : u.workers = t.workers := hfault.of_ok hsend
    have hframe : Frame target quiet t u := by
      refine ⟨by rw [hworkers], fun he => ⟨_, hworkers ▸ he, .refl ..⟩, fun q hother => ?_⟩
      have hne : q ≠ queue := by
        rintro rfl
        exact hother hq
      obtain ⟨mq, -, ⟨-, rfl⟩ | ⟨-, rfl⟩⟩ := trySendStopJob_ok hsend
      · exact Nat.le_refl _
      · exact (QueueManager.pills_setMessages_other _ hne).le
    refine ⟨h.frame.trans hframe, ?_⟩
    unfold Entrywise
    rw [hworkers]
    exact h.sameChild

/-- The wait marks the entry it is for, and that is the target. -/
theorem reap_stopFrame (h : StopFrame target quiet s t) (he : s.workers[i]? = some e)
    (hname : e.w.name = .ok target) :
    Ensures (· ≠ .nullChild) (StopFrame target quiet s) (t.reap i) := by
  have hfault := reap_ensures t i
  cases hreap : t.reap i with
  | error f => exact hfault.of_error hreap
  | ok u =>
    obtain ⟨e₁, he₁, hsame⟩ := forall₂_getElem? h.sameChild he
    obtain ⟨-, rfl⟩ := reap_ok he₁ hreap
    refine ⟨h.frame.trans ⟨List.length_modify .., fun {j e₂} he₂ => ?_, fun q _ => Nat.le_refl _⟩,
      h.sameChild.trans SameChild.trans (hfault.of_ok hreap)⟩
    by_cases hij : i = j
    · subst hij
      rw [he₁] at he₂
      obtain rfl := Option.some.inj he₂
      refine ⟨{ e₁ with state := .stopped }, by simp [he₁], .of_target ?_ rfl⟩
      rw [hsame.name, hname]
    · exact ⟨e₂, by simp [hij, he₂], .refl ..⟩

/-- The target's own turn. -/
theorem stopEntity_frame (h : StopFrame target (Quiet waits) s t) (he : s.workers[i]? = some e)
    (hname : e.w.name = .ok target) (hq : queueOf target = some queue) :
    Outcome.Keeps (StopFrame target (Quiet waits) s) (fun q => queueOf target = some q)
      (· ≠ .nullChild) (t.stopEntityOutcome (waits i) queue i) := by
  have hsending : ∀ ev ∈ (waits i).sending, ∀ j, Quiet waits j → ev ≠ .die j ∧ ev ≠ .receive j :=
    fun ev hev j hj => hj i ev (List.mem_append_left _ hev)
  have hwaiting : ∀ ev ∈ (waits i).waiting, ∀ j, Quiet waits j → ev ≠ .die j ∧ ev ≠ .receive j :=
    fun ev hev j hj => hj i ev (List.mem_append_right _ hev)
  have hcalled := stopFrame_events h hsending
  have hsent : Outcome.Keeps (StopFrame target (Quiet waits) s) (fun q => queueOf target = some q)
      (· ≠ .nullChild)
      (Outcome.ofExcept (t.events (waits i).sending) [queue]
        ((t.events (waits i).sending).trySendStopJob queue)) :=
    Outcome.keeps_ofExcept hcalled (trySendStopJob_stopFrame hcalled hq)
      fun q hmem => List.mem_singleton.mp hmem ▸ hq
  unfold stopEntityOutcome
  refine hsent.andThen (fun _ => id) fun u hu => ?_
  have hwaited := stopFrame_events hu hwaiting
  exact Outcome.keeps_ofExcept hwaited (reap_stopFrame hwaited he hname)
    fun q hmem => absurd hmem List.not_mem_nil

/-- A turn of `stop_workers(target)`. -/
theorem stopTurn_frame (htarget : target ≠ []) (hholds : ∀ e ∈ s.workers, e.w.Holds)
    (h : StopFrame target (Quiet waits) s t) :
    Outcome.Keeps (StopFrame target (Quiet waits) s) (fun q => queueOf target = some q)
      (· ≠ .nullChild) (stopTurnOutcome target waits t i) := by
  unfold stopTurnOutcome
  cases he : t.workers[i]? with
  | none => exact Outcome.keeps_done h
  | some e =>
    obtain ⟨e₀, he₀, hsame⟩ := forall₂_getElem?' h.sameChild he
    have hold : e.w.Holds := hsame.holds.mpr (hholds e₀ (List.mem_of_getElem? he₀))
    obtain ⟨child, -, hname⟩ := Worker.name_of_holds hold
    simp only [hname]
    split
    · next hsel =>
      -- the empty name, which would select every worker, is not the target
      have hchild : child.name = target := hsel.resolve_right htarget
      cases hq : queueOf child.name with
      | none => exact Outcome.keeps_done h
      | some queue =>
        have hname₀ : e₀.w.name = .ok target := by rw [← hsame.name, hname, hchild]
        exact stopEntity_frame h he₀ hname₀ (hchild ▸ hq)
    · exact Outcome.keeps_done h

theorem stop_frame (htarget : target ≠ []) (hholds : ∀ e ∈ s.workers, e.w.Holds) :
    Outcome.Keeps (StopFrame target (Quiet waits) s) (fun q => queueOf target = some q)
      (· ≠ .nullChild) (s.stopOutcome target waits) :=
  Outcome.Keeps.each (fun _ _ ht => stopTurn_frame htarget hholds ht) _
    ⟨.refl target (Quiet waits) s, .refl SameChild.refl s⟩

/-! ## The turns of `start_workers` -/

theorem startTurn_frame (htarget : target ≠ []) (hhold : e.w.Holds) :
    Ensures (· ≠ .nullChild) (EntryFrame target True e) (startTurn target e) := by
  obtain ⟨child, -, hname⟩ := Worker.name_of_holds hhold
  unfold startTurn
  rw [if_neg htarget, hname]
  show Ensures _ _ (if child.name = target then startEntity e else .ok e)
  split
  · next hchild =>
    have hspec : Ensures (· ≠ .nullChild) (fun w' => w'.factory = e.w.factory) e.w.start :=
      (e.w.start_ensures.mono fun w' hw' => hw'.2.1).weaken fun f hf => by
        obtain ⟨what, rfl⟩ := hf
        exact fun h => by cases h
    exact hspec.bind fun w' hfactory => EntryFrame.of_target (hchild ▸ hname) hfactory
  · exact EntryFrame.refl target True e

theorem start_frame (htarget : target ≠ []) (hholds : ∀ e ∈ t.workers, e.w.Holds) :
    Outcome.Keeps (Frame target quiet t) (fun q => queueOf target = some q) (· ≠ .nullChild)
      (t.startOutcome target) := by
  have hturns : Outcome.Keeps (List.Forall₂ (EntryFrame target True) t.workers)
      (fun q => queueOf target = some q) (· ≠ .nullChild)
      (Outcome.mapEach (startTurn target) t.workers : Outcome (List WorkerEntity) Str Fault) :=
    Outcome.keeps_mapEach (EntryFrame.refl target True) fun e he =>
      startTurn_frame htarget (hholds e he)
  refine ⟨⟨hturns.left.length_eq.symm, fun he => ?_, fun q _ => Nat.le_refl _⟩,
    fun q hmem => absurd hmem List.not_mem_nil, hturns.fault⟩
  obtain ⟨e', he', hkept⟩ := forall₂_getElem? hturns.left he
  exact ⟨e', he', hkept.weaken fun _ => trivial⟩

/-! ## Commands -/

/-- A command with a non-empty name stays within the frame of that name, however it
ends. -/
theorem command_frame (cmdType : CommandType) (htarget : target ≠ [])
    (hholds : ∀ e ∈ s.workers, e.w.Holds) :
    Outcome.Keeps (Frame target (Quiet waits) s) (fun q => queueOf target = some q)
      (· ≠ .nullChild) (s.commandOutcome cmdType target waits) := by
  have hdone : Outcome.Keeps (Frame target (Quiet waits) s) (fun q => queueOf target = some q)
      (· ≠ .nullChild) ({ left := s } : CommandOutcome) :=
    Outcome.keeps_done (.refl target (Quiet waits) s)
  unfold commandOutcome
  split
  · cases cmdType with
    | start => exact start_frame htarget hholds
    | stop => exact (stop_frame htarget hholds).mono fun _ ht => ht.frame
    | restart =>
      refine (stop_frame htarget hholds).andThen (fun _ ht => ht.frame) fun t ht => ?_
      have hstill : ∀ e ∈ t.workers, e.w.Holds := by
        intro e he
        obtain ⟨i, hi⟩ := List.mem_iff_getElem?.mp he
        obtain ⟨e₀, he₀, hsame⟩ := forall₂_getElem?' ht.sameChild hi
        exact hsame.holds.mpr (hholds e₀ (List.mem_of_getElem? he₀))
      exact (start_frame htarget hstill).mono fun u hu => ht.frame.trans hu
    | ping =>
      have hcalled : Frame target (Quiet waits) s (s.events (waits 0).sending) :=
        events_frame (fun ev hev j hj => hj 0 ev (List.mem_append_left _ hev)) s
      refine Outcome.keeps_ofExcept hcalled ?_ fun q hmem => absurd hmem List.not_mem_nil
      unfold sendPong
      dsimp only
      split
      · exact fun h => by cases h
      · exact hcalled.trans ⟨rfl, fun he => ⟨_, he, .refl ..⟩, fun q _ => Nat.le_refl _⟩
    | _ => exact hdone
  · exact hdone

end Supervisor

/-- **Targeted commands touch only their target**: a command whose service name is
the non-empty, NUL-free `service` is executed for the first 63 bytes of it, never
for all workers. However it ends, it asks no missing child for its name, has sent
stop jobs to the queue of that name only, and leaves the workers as many and in
the order they were; a worker with another name keeps its child, its spawn count
and its state, and is the very same when nothing happened to its child meanwhile;
and no other queue holds more pills than before. -/
theorem targeted_commands (s : Supervisor) (hholds : ∀ e ∈ s.workers, e.w.Holds) (service : Str)
    (hne : service ≠ []) (hnul : 0 ∉ service) (cmd : CommandType) (waits : Nat → Waits) :
    let target := service.take (serviceNameMaxLen - 1)
    let o := s.commandOutcome cmd (CommandMessage.make cmd service).service waits
    (CommandMessage.make cmd service).service = target ∧ target ≠ [] ∧
    s.handleCommand cmd (CommandMessage.make cmd service).service waits = o.toExcept ∧
    o.fault ≠ some .nullChild ∧
    (∀ q ∈ o.log, queueOf target = some q) ∧
    o.left.workers.length = s.workers.length ∧
    (∀ j e, s.workers[j]? = some e → ∃ e', o.left.workers[j]? = some e' ∧
      e'.w.factory = e.w.factory ∧
      (e.w.name ≠ .ok target → Untouched e e' ∧ (Supervisor.Quiet waits j → e' = e))) ∧
    (∀ q, queueOf target ≠ some q → o.left.queueMgr.pills q ≤ s.queueMgr.pills q) := by
  intro target o
  have hdecoded : (CommandMessage.make cmd service).service = target := by
    rw [CommandMessage.service_make]
    exact cStr_of_nul_not_mem (nul_not_mem_take hnul _)
  have htarget : target ≠ [] := by
    cases service with
    | nil => exact absurd rfl hne
    | cons b bs => exact List.cons_ne_nil b _
  have hkeeps : Outcome.Keeps (Supervisor.Frame target (Supervisor.Quiet waits) s)
      (fun q => queueOf target = some q) (· ≠ .nullChild) (s.commandOutcome cmd target waits) :=
    Supervisor.command_frame cmd htarget hholds
  rw [← hdecoded] at hkeeps
  refine ⟨hdecoded, htarget, (Supervisor.toExcept_commandOutcome s cmd _ waits).symm,
    fun h => hkeeps.fault _ h rfl, fun q hq => hdecoded ▸ hkeeps.log q hq, hkeeps.left.length,
    fun j e he => ?_, fun q hq => hkeeps.left.pills q (hdecoded ▸ hq)⟩
  obtain ⟨e', he', hkept⟩ := hkeeps.left.entries he
  rw [hdecoded] at hkept
  exact ⟨e', he', hkept.factory, fun hother => ⟨hkept.other hother, fun hq => hkept.same hq hother⟩⟩

/-- `fika restart detect` on the deployed supervisor leaves the entry of `parse`
exactly as it was. -/
theorem targeted_commands_detect :
    ∃ s s', Supervisor.deployedAfter [Supervisor.startAll] = some s ∧
      s.handleCommand .restart (CommandMessage.make .restart (lit "detect")).service
        (fun _ => { waiting := [.receive 2] }) = .ok s' ∧
      (∃ e, s.workers[3]? = some e ∧ e.w.name = .ok (lit "parse") ∧ s'.workers[3]? = some e) := by
  obtain ⟨s, hs⟩ := Option.isSome_iff_exists.mp
    (show (Supervisor.deployedAfter [Supervisor.startAll]).isSome = true by rfl)
  have hentry : (s.workers[3]?.map fun e => e.w.name) = some (.ok (lit "parse")) :=
    Supervisor.deployed_eval (f := fun s => s.workers[3]?.map fun e => e.w.name) hs (by rfl)
  have hfault : (s.commandOutcome .restart (CommandMessage.make .restart (lit "detect")).service
      fun _ => { waiting := [.receive 2] }).fault = none :=
    Supervisor.deployed_eval (f := fun s =>
      (s.commandOutcome .restart (CommandMessage.make .restart (lit "detect")).service
        fun _ => { waiting := [.receive 2] }).fault) hs (by rfl)
  obtain ⟨e, he, hname⟩ := Option.map_eq_some_iff.mp hentry
  obtain ⟨-, -, hcommand, -, -, -, hentries, -⟩ := targeted_commands s
    (Supervisor.deployed_holds hs) (lit "detect") (by decide) (by decide) .restart
    fun _ => { waiting := [.receive 2] }
  obtain ⟨e', he', -, hother⟩ := hentries 3 e he
  have hquiet : Supervisor.Quiet (fun _ => { waiting := [.receive 2] }) 3 := by
    intro i ev hev
    obtain rfl := List.mem_singleton.mp hev
    decide
  have hsame := (hother (by rw [hname]; decide)).2 hquiet
  refine ⟨s, _, hs, ?_, e, he, hname, hsame ▸ he'⟩
  rw [hcommand, Outcome.toExcept, hfault]

end Fika
