import Fika.Pipeline.OrderlyStop
import Fika.Pipeline.Refinement

/-!
# The supervisor's view of the services (`supervisor::stop_workers`)

The supervisor's own model knows the services as children that take messages from the
queues and may exit, and leaves open what they do with them. The bounded pipeline knows
what they do, and leaves the supervisor out. Here both are one system: the supervisor
holds the queues and the children of the pipeline, and each step of the pipeline is for
the supervisor one of the events it has to reckon with, or none at all.

- `Outlook`, `outlook`: what can be seen of the services from outside.
- `Mirrors`: the queues and children of a supervisor are those of the services.
- `mirrors_step`: each step of the pipeline is an event for the supervisor, `seenAll`
  what it has to reckon with during a stop.
- `Stops`, `stop_follows`: a stop that comes to its end, as the supervisor sees it;
  `stop_returns`: so does the loop of `stop_workers`.
- `stop_refines`: whenever the stop of all services comes to its end, `stop_workers`
  returns; `mirrors_deployed`: what `main` and `fika start` make.
-/

namespace Fika

open Lib Network Pipeline

universe u

/-! ## The services among the workers -/

/-- The service whose binary has the name. -/
def serviceOf (name : Str) : Option Binary :=
  [Binary.qm, .detect, .parse].find? fun b => b.name == name

theorem serviceOf_name (b : Binary) : serviceOf b.name = some b := by
  cases b <;> decide

theorem name_of_serviceOf {name : Str} {b : Binary} (h : serviceOf name = some b) :
    b.name = name :=
  beq_iff_eq.mp (List.find?_some (p := fun b : Binary => b.name == name) h)

theorem Binary.name_injective {b b' : Binary} (h : b.name = b'.name) : b = b' := by
  have hsome := serviceOf_name b
  rw [h, serviceOf_name] at hsome
  exact (Option.some.inj hsome).symm

theorem ne_of_serviceOf {name : Str} (h : serviceOf name = none) (b : Binary) : b.name ≠ name := by
  rintro rfl
  rw [serviceOf_name] at h
  cases h

/-- Exactly the services have a queue for a pill. -/
theorem queueOf_eq (name : Str) : queueOf name = (serviceOf name).map Binary.queue := by
  cases hs : serviceOf name with
  | some b =>
    obtain rfl := name_of_serviceOf hs
    exact queueOf_name b
  | none =>
    have hne := ne_of_serviceOf hs
    have hfind : (binaryToQueue.find? fun entry => entry.1 == name) = none := by
      refine List.find?_eq_none.mpr fun entry hentry heq => ?_
      simp only [binaryToQueue, List.mem_cons, List.not_mem_nil, or_false] at hentry
      rcases hentry with rfl | rfl | rfl
      · exact hne .detect (beq_iff_eq.mp heq)
      · exact hne .parse (beq_iff_eq.mp heq)
      · exact hne .qm (beq_iff_eq.mp heq)
    rw [queueOf, hfind]
    rfl

/-- The workers of the supervisor by the names of their binaries: each service is one of
them, and none is there twice. -/
structure Staffed (names : List Str) : Prop where
  nodup : names.Nodup
  all : ∀ b : Binary, b.name ∈ names

/-- The services in the order of the workers. -/
def stopOrder (names : List Str) : List Binary := names.filterMap serviceOf

/-- The position of a service among the workers. -/
def placeOf (names : List Str) (b : Binary) : Nat := names.idxOf b.name

theorem staffed_configuredWorkers : Staffed Supervisor.configuredWorkers where
  nodup := by decide
  all b := by cases b <;> decide

theorem Staffed.placed {names : List Str} (h : Staffed names) (b : Binary) :
    names[placeOf names b]? = some b.name := by
  have hlt : names.idxOf b.name < names.length := List.idxOf_lt_length_of_mem (h.all b)
  rw [placeOf, List.getElem?_eq_getElem hlt, List.getElem_idxOf hlt]

theorem Staffed.place_eq {names : List Str} (h : Staffed names) {b : Binary} {i : Nat}
    (hi : names[i]? = some b.name) : i = placeOf names b := by
  obtain ⟨hlt, -⟩ := List.getElem?_eq_some_iff.mp hi
  exact (List.getElem?_inj hlt h.nodup).mp (hi.trans (h.placed b).symm)

theorem Staffed.mem_stopOrder (h : Staffed names) (b : Binary) : b ∈ stopOrder names :=
  List.mem_filterMap.mpr ⟨b.name, h.all b, serviceOf_name b⟩

theorem Staffed.nodup_stopOrder (h : Staffed names) : (stopOrder names).Nodup := by
  refine h.nodup.filterMap ?_
  intro name name' b hb hb'
  rw [← name_of_serviceOf hb, ← name_of_serviceOf hb']

/-- What happens while one service is stopped. -/
def Waits.all (w : Waits) : List ExternalEvent := w.sending ++ w.waiting

namespace Bounded

/-! ## What can be seen of the services -/

/-- What is in the queue of each service, and whether it takes messages from it. -/
@[ext] structure Outlook where
  box : Binary → List IpcMessage
  up : Binary → Bool

variable {P : Type u} {d : Deployment P} {l : Limits} {names : List Str} {s : Supervisor}
  {t t' : State P} {v : Outlook} {b : Binary}

def outlook (t : State P) : Outlook where
  box b := (t.node b).box.map ipcMail
  up b := decide ((t.node b).stage = .receiving)

/-- The supervisor's queues are those of the services, and its children are the
processes; a service that takes no more messages counts as a child that has exited. -/
structure Mirrors (l : Limits) (names : List Str) (s : Supervisor) (v : Outlook) : Prop where
  queue : ∀ b : Binary, ∃ mq, s.queueMgr.queues b.queue = some mq ∧ mq.messages = v.box b ∧
    mq.maxMessages = l.capacity b ∧ ipcMessageSize ≤ mq.messageSize
  length : s.workers.length = names.length
  child : ∀ {i : Nat} {name : Str} {e : WorkerEntity}, names[i]? = some name →
    s.workers[i]? = some e → ∃ child, e.w.process = some child ∧ child.name = name ∧
      ∀ b : Binary, b.name = name → child.running = v.up b

theorem Mirrors.messages (h : Mirrors l names s v) (b : Binary) :
    s.queueMgr.messages b.queue = v.box b := by
  obtain ⟨mq, hq, hmessages, -⟩ := h.queue b
  rw [QueueManager.messages_of_queue hq, hmessages]

/-- The messages of a queue are replaced. -/
theorem Mirrors.setMessages (h : Mirrors l names s v) (b : Binary) (msgs : List IpcMessage) :
    Mirrors l names (s.setMessages b.queue msgs) { v with
      box := Function.update v.box b msgs } where
  queue b' := by
    obtain ⟨mq, hq, hmessages, hmax, hsize⟩ := h.queue b'
    by_cases hb : b' = b
    · subst hb
      refine ⟨{ mq with messages := msgs }, ?_, ?_, hmax, hsize⟩
      · show Function.update s.queueMgr.queues b'.queue _ b'.queue = _
        rw [Function.update_self, hq]
        rfl
      · show msgs = Function.update v.box b' msgs b'
        rw [Function.update_self]
    · refine ⟨mq, ?_, hmessages.trans (Function.update_of_ne hb ..).symm, hmax, hsize⟩
      show Function.update s.queueMgr.queues b.queue _ b'.queue = _
      rw [Function.update_of_ne fun heq => hb (Binary.queue_injective heq), hq]
  length := h.length
  child := h.child

/-- The child of a service exits. -/
theorem Mirrors.exit (h : Mirrors l names s v) (hn : Staffed names) (b : Binary) :
    Mirrors l names (s.exit (placeOf names b)) { v with up := Function.update v.up b false } where
  queue := h.queue
  length := (List.length_modify ..).trans h.length
  child := by
    intro i name e hi he
    by_cases hplace : placeOf names b = i
    · subst hplace
      obtain rfl : b.name = name := Option.some.inj ((hn.placed b).symm.trans hi)
      obtain ⟨e', he', rfl⟩ := Option.map_eq_some_iff.mp
        ((List.getElem?_modify_eq ..).symm.trans he)
      obtain ⟨child, hchild, hname, -⟩ := h.child hi he'
      refine ⟨{ child with running := false }, ?_, hname, fun b' hb' => ?_⟩
      · rw [Worker.exited, hchild]
        rfl
      · obtain rfl : b' = b := Binary.name_injective hb'
        show false = Function.update v.up b' false b'
        rw [Function.update_self]
    · rw [Supervisor.exit, List.getElem?_modify_ne _ _ hplace] at he
      obtain ⟨child, hchild, hname, hrunning⟩ := h.child hi he
      refine ⟨child, hchild, hname, fun b' hb' => (hrunning b' hb').trans ?_⟩
      have hne : b' ≠ b := by
        rintro rfl
        exact hplace (hn.place_eq (hi.trans (congrArg some hb'.symm))).symm
      exact (Function.update_of_ne hne ..).symm

/-- Another process puts a job on a queue with room. -/
theorem Mirrors.put (h : Mirrors l names s v) (b : Binary) (m : FileJobShm)
    (hroom : (v.box b).length < l.capacity b) :
    Mirrors l names (s.put b.queue m)
      { v with box := Function.update v.box b (v.box b ++ [.fileJobShm m]) } := by
  obtain ⟨mq, hq, hmessages, hmax, -⟩ := h.queue b
  have hput : s.put b.queue m = s.setMessages b.queue (v.box b ++ [.fileJobShm m]) := by
    rw [Supervisor.put, hq]
    simp only [hmessages, hmax, if_pos hroom]
  rw [hput]
  exact h.setMessages b _

/-- The child of a service. -/
theorem Mirrors.entry (h : Mirrors l names s v) (hn : Staffed names) (b : Binary) :
    ∃ e child, s.workers[placeOf names b]? = some e ∧ e.w.process = some child ∧
      child.name = b.name ∧ child.running = v.up b := by
  obtain ⟨hlt, -⟩ := List.getElem?_eq_some_iff.mp (hn.placed b)
  have he := List.getElem?_eq_getElem (h.length ▸ hlt : placeOf names b < s.workers.length)
  obtain ⟨child, hchild, hname, hrunning⟩ := h.child (hn.placed b) he
  exact ⟨_, child, he, hchild, hname, hrunning b rfl⟩

/-- A child that runs takes the first message of its queue. -/
theorem Mirrors.receive (h : Mirrors l names s v) (hn : Staffed names) {b : Binary}
    (hup : v.up b = true) {msg : IpcMessage} {rest : List IpcMessage}
    (hbox : v.box b = msg :: rest) :
    Mirrors l names (s.receive (placeOf names b)) {
      box := Function.update v.box b rest
      up := if msg = .poisonPill then Function.update v.up b false else v.up } := by
  have hreceives : s.receivesFrom (placeOf names b) = some b.queue := by
    obtain ⟨e, child, he, hchild, hname, hrunning⟩ := h.entry hn b
    rw [Supervisor.receivesFrom, he, Option.bind_eq_bind, Option.bind_some, hchild,
      Option.bind_eq_bind, Option.bind_some, if_pos (hrunning.trans hup), hname, queueOf_name]
  have hmessages := (h.messages b).trans hbox
  cases msg with
  | poisonPill =>
    have heq : s.receive (placeOf names b)
        = (s.setMessages b.queue rest).exit (placeOf names b) := by
      simp only [Supervisor.receive, hreceives, hmessages]
    rw [heq, if_pos rfl]
    exact (h.setMessages b rest).exit hn b
  | fileJobShm m =>
    have heq : s.receive (placeOf names b) = s.setMessages b.queue rest := by
      simp only [Supervisor.receive, hreceives, hmessages]
    rw [heq, if_neg IpcMessage.noConfusion]
    exact h.setMessages b rest

/-! ## The steps of the pipeline as events -/

theorem outlook_set (t : State P) (b : Binary) (node : Node Binary FileJobShm) :
    outlook (t.set b node) = {
      box := Function.update (outlook t).box b (node.box.map ipcMail)
      up := Function.update (outlook t).up b (decide (node.stage = .receiving)) } :=
  Outlook.ext
    (funext fun b' => Function.apply_update
      (fun _ (node : Node Binary FileJobShm) => node.box.map ipcMail) t.node b node b')
    (funext fun b' => Function.apply_update
      (fun _ (node : Node Binary FileJobShm) => decide (node.stage = .receiving)) t.node b node b')

/-- What a service does inside cannot be seen. -/
theorem outlook_set_same {node : Node Binary FileJobShm} (hbox : node.box = (t.node b).box)
    (hstage : node.stage = .receiving ↔ (t.node b).stage = .receiving) :
    outlook (t.set b node) = outlook t := by
  have hup : decide (node.stage = .receiving) = (outlook t).up b := by
    show _ = decide ((t.node b).stage = .receiving)
    rw [decide_eq_decide]
    exact hstage
  have hmail : node.box.map ipcMail = (outlook t).box b := congrArg (List.map ipcMail) hbox
  rw [outlook_set, hup, hmail, Function.update_eq_self, Function.update_eq_self]

theorem outlook_put (t : State P) (b : Binary) (mail : Mail FileJobShm) :
    outlook (t.put b mail) = { outlook t with
      box := Function.update (outlook t).box b ((outlook t).box b ++ [ipcMail mail]) } := by
  have hmail : ((t.node b).box ++ [mail]).map ipcMail = (outlook t).box b ++ [ipcMail mail] :=
    List.map_append
  have hup : decide ((t.node b).stage = .receiving) = (outlook t).up b := rfl
  rw [State.put, outlook_set]
  show Outlook.mk (Function.update _ b (((t.node b).box ++ [mail]).map ipcMail))
    (Function.update _ b (decide ((t.node b).stage = .receiving))) = _
  rw [hmail, hup, Function.update_eq_self]

/-- What the supervisor has to reckon with when the pipeline takes a step. -/
def seen (names : List Str) (t : State P) : Event → List ExternalEvent
  | .accept i =>
    match t.outside[i]? with
    | some (b, .work m) => [.put b.queue m]
    | _ => []
  | .receive b => [.receive (placeOf names b)]
  | .send b i =>
    match (t.node b).busy[i]? with
    | some (_, p :: _) => [.put p.1.queue p.2]
    | _ => []
  | .crash b => [.die (placeOf names b)]
  | _ => []

theorem Mirrors.putMail (h : Mirrors l names s (outlook t)) {m : FileJobShm}
    (hroom : (network d l).Room t b) :
    Mirrors l names (s.put b.queue m) (outlook (t.put b (.work m))) := by
  rw [outlook_put]
  refine h.put b m ?_
  rw [outlook, List.length_map]
  exact hroom

/-- **Each step of the pipeline is an event for the supervisor**, or cannot be seen. -/
theorem mirrors_step {e : Event} (hn : Staffed names) (h : Mirrors l names s (outlook t))
    (hpills : Unannounced t) (he : ∀ b, e ≠ .relaunch b) (hs : (network d l).step t e = some t') :
    Mirrors l names (s.events (seen names t e)) (outlook t') := by
  cases step_spec hs with
  | client | abandoned => exact h
  | @accepted i b mail hi hroom =>
    cases mail with
    | halt => exact absurd rfl (hpills _ (List.mem_of_getElem? hi))
    | work m =>
      have hseen : seen names t (.accept i) = [.put b.queue m] := by
        simp only [seen, hi]
      rw [hseen]
      exact Mirrors.putMail (t := { t with outside := t.outside.eraseIdx i }) h hroom
  | @posted b m rest hstage hbox =>
    have hup : (outlook t).up b = true := decide_eq_true hstage
    have hmail : (outlook t).box b = .fileJobShm m :: rest.map ipcMail :=
      congrArg (List.map ipcMail) hbox
    have hreceive := h.receive hn hup hmail
    rw [if_neg IpcMessage.noConfusion] at hreceive
    have hsame : decide ((t.node b).stage = .receiving) = (outlook t).up b := rfl
    rw [outlook_set]
    show Mirrors l names _ (Outlook.mk _ (Function.update _ b (decide ((t.node b).stage = _))))
    rw [hsame, Function.update_eq_self]
    exact hreceive
  | @halted b rest hstage hbox =>
    have hup : (outlook t).up b = true := decide_eq_true hstage
    have hmail : (outlook t).box b = .poisonPill :: rest.map ipcMail :=
      congrArg (List.map ipcMail) hbox
    have hreceive := h.receive hn hup hmail
    rw [if_pos rfl] at hreceive
    rw [outlook_set]
    exact hreceive
  | @invoked b i c m hpool hthread =>
    have hsame : outlook (t.set b { t.node b with
        pool := (t.node b).pool.eraseIdx i
        busy := (t.node b).busy ++ [(m, ((network d l).handle b c t.shared m).2)] })
        = outlook t := outlook_set_same rfl Iff.rfl
    exact hsame ▸ h
  | @sent b b' i m m' rest hbusy hroom =>
    have hseen : seen names t (.send b i) = [.put b'.queue m'] := by
      simp only [seen, hbusy]
    have hsame : outlook (t.set b { t.node b with busy := (t.node b).busy.set i (m, rest) })
        = outlook t := outlook_set_same rfl Iff.rfl
    have hroom' : (network d l).Room
        (t.set b { t.node b with busy := (t.node b).busy.set i (m, rest) }) b' := by
      unfold Room at hroom ⊢
      by_cases hb : b' = b
      · subst hb
        rwa [set_self]
      · rwa [set_other _ hb]
    rw [hseen]
    exact Mirrors.putMail (hsame ▸ h) hroom'
  | @finished b i m hbusy =>
    have hsame : outlook (t.set b { t.node b with busy := (t.node b).busy.eraseIdx i })
        = outlook t := outlook_set_same rfl Iff.rfl
    exact hsame ▸ h
  | @joined b hstage hpool hbusy =>
    have hsame : outlook (t.set b { t.node b with stage := .exited }) = outlook t :=
      outlook_set_same rfl ⟨Stage.noConfusion, fun hx => by rw [hstage] at hx; cases hx⟩
    exact hsame ▸ h
  | @relaunched b hstage => exact absurd rfl (he b)
  | @crashed b hstage =>
    have hexit := h.exit hn b
    have hset : outlook (t.set b { box := (t.node b).box, stage := .exited }) = { outlook t with
        up := Function.update (outlook t).up b false } := by
      have hmail : ((t.node b).box.map ipcMail) = (outlook t).box b := rfl
      rw [outlook_set]
      show Outlook.mk (Function.update _ b ((t.node b).box.map ipcMail)) _ = _
      rw [hmail, Function.update_eq_self]
      rfl
    show Mirrors l names (s.exit (placeOf names b))
      (outlook (t.set b { box := (t.node b).box, stage := .exited }))
    rw [hset]
    exact hexit

/-! ## The stop as a sequence of events and operations -/

/-- The supervisor has stopped the services one after the other, and the events are what
happened while it waited. -/
inductive Stops (names : List Str) :
    Supervisor → List Binary → List ExternalEvent → Supervisor → Prop where
  | done (s : Supervisor) : Stops names s [] [] s
  | stopped {s s₁ s' : Supervisor} {b : Binary} {rest : List Binary} {evs : List ExternalEvent}
      (w : Waits) (hstop : s.stopEntity w b.queue (placeOf names b) = .ok s₁)
      (hrest : Stops names s₁ rest evs s') : Stops names s (b :: rest) (w.all ++ evs) s'

/-- The same, from where the stop has got to. -/
inductive StopsFrom (names : List Str) (s : Supervisor) (p : StopState P) :
    List ExternalEvent → Supervisor → Prop where
  | untold {evs : List ExternalEvent} {s' : Supervisor} (htold : p.told = false)
      (hstops : Stops names s p.todo evs s') : StopsFrom names s p evs s'
  | told {b : Binary} {rest : List Binary} {evs : List ExternalEvent} {s₁ s' : Supervisor}
      (waited : List ExternalEvent) (htold : p.told = true) (htodo : p.todo = b :: rest)
      (hreap : (s.events waited).reap (placeOf names b) = .ok s₁)
      (hrest : Stops names s₁ rest evs s') : StopsFrom names s p (waited ++ evs) s'

theorem events_append (s : Supervisor) (evs evs' : List ExternalEvent) :
    s.events (evs ++ evs') = (s.events evs).events evs' := List.foldl_append

/-- Events before the rest of a stop belong to its next wait; if nothing is left to be
stopped they come after it. -/
theorem StopsFrom.after {p p' : StopState P} {s' : Supervisor} {evs : List ExternalEvent}
    (before : List ExternalEvent) (h : StopsFrom names (s.events before) p' evs s')
    (htodo : p'.todo = p.todo) (htold : p'.told = p.told) :
    ∃ s'' evs' later, StopsFrom names s p evs' s'' ∧ s' = s''.events later ∧
      evs' ++ later = before ++ evs ∧ (p.todo ≠ [] → later = []) := by
  cases h with
  | untold hnot hstops =>
    rw [htodo] at hstops
    generalize hs : s.events before = s₀ at hstops
    generalize hp : p.todo = todo at hstops
    cases hstops with
    | done =>
      refine ⟨s, [], before, .untold (htold ▸ hnot) (hp ▸ .done s), hs.symm, ?_, absurd rfl⟩
      rw [List.nil_append, List.append_nil]
    | @stopped _ _ _ _ _ evs w hstop hrest =>
      refine ⟨s', before ++ (w.all ++ evs), [], .untold (htold ▸ hnot) ?_, rfl, List.append_nil _,
        fun _ => rfl⟩
      rw [hp, ← List.append_assoc, Waits.all, ← List.append_assoc]
      refine .stopped { w with sending := before ++ w.sending } ?_ hrest
      rw [Supervisor.stopEntity, events_append, hs]
      exact hstop
  | @told _ _ evs _ _ waited hyes hcons hreap hrest =>
    refine ⟨s', before ++ (waited ++ evs), [], ?_, rfl, List.append_nil _, fun _ => rfl⟩
    rw [← List.append_assoc]
    refine .told (before ++ waited) (htold ▸ hyes) (htodo ▸ hcons) ?_ hrest
    rw [events_append]
    exact hreap

/-- `send_stop_job` with room in the queue. -/
theorem Mirrors.tell (h : Mirrors l names s (outlook t)) (hroom : (network d l).Room t b) :
    ∃ s₁, s.trySendStopJob b.queue = .ok s₁ ∧ Mirrors l names s₁ (outlook (t.tell b)) := by
  obtain ⟨mq, hq, hmessages, hmax, hsize⟩ := h.queue b
  have hfree : ¬ mq.maxMessages ≤ ((outlook t).box b).length := by
    rw [hmax, outlook, List.length_map]
    exact Nat.not_le.mpr hroom
  refine ⟨s.setMessages b.queue ((outlook t).box b ++ [.poisonPill]), ?_, ?_⟩
  · rw [Supervisor.trySendStopJob, QueueManager.sendStopJob, hq]
    simp only [if_neg (Nat.not_lt.mpr hsize), if_neg hfree, Supervisor.setMessages,
      QueueManager.setMessages, hq, hmessages, Option.map_some]
  · have htell : outlook (t.tell b) = { outlook t with
        box := Function.update (outlook t).box b ((outlook t).box b ++ [.poisonPill]) } :=
      outlook_put { t with entered := (b, .halt) :: t.entered } b .halt
    rw [htell]
    exact h.setMessages b _

/-- The wait for a child that has exited. -/
theorem Mirrors.reap (h : Mirrors l names s v) (hn : Staffed names) (hdown : v.up b = false) :
    ∃ s₁, s.reap (placeOf names b) = .ok s₁ ∧ Mirrors l names s₁ v := by
  obtain ⟨e₁, child, he, hchild, -, hrunning⟩ := h.entry hn b
  have hdead : ¬ e₁.w.isAlive = true := by
    rw [Worker.isAlive, hchild]
    show ¬ child.running = true
    rw [hrunning, hdown]
    exact Bool.false_ne_true
  refine ⟨{ s with workers := s.workers.modify (placeOf names b) fun e => { e with
    state := .stopped } }, ?_, h.queue, (List.length_modify ..).trans h.length,
    fun {i name e} hi he' => ?_⟩
  · simp only [Supervisor.reap, he, if_neg hdead]
  · by_cases hplace : placeOf names b = i
    · subst hplace
      obtain ⟨e₀, he₀, rfl⟩ := Option.map_eq_some_iff.mp
        ((List.getElem?_modify_eq ..).symm.trans he')
      obtain ⟨child₀, hchild₀⟩ := h.child hi he₀
      exact ⟨child₀, hchild₀⟩
    · rw [List.getElem?_modify_ne _ _ hplace] at he'
      exact h.child hi he'

/-- Nobody else sends a pill. -/
def PillFree : Event → Prop
  | .client (.pill _) => False
  | _ => True

theorem PillFree.silent {e : Event} (h : PillFree e) : Silent (network d l) t e := by
  cases e with
  | client op =>
    intro q hq
    rcases client_sends hq with ⟨req, m, -, -, rfl⟩ | ⟨b, rfl, -⟩
    · exact work_ne_halt m
    · exact h.elim
  | _ => trivial

/-- Nobody else sends a pill during the stop, and nobody launches a service. -/
def Alone : StopAction → Prop
  | .net (.relaunch _) => False
  | .net e => PillFree e
  | .tell | .reap => True

theorem Alone.pillFree {e : Event} (h : Alone (.net e)) : PillFree e := by
  cases e with
  | relaunch => trivial
  | client op => exact h
  | _ => trivial

/-- The operations of the stop itself are no events. -/
def seenStop (names : List Str) (t : State P) : StopAction → List ExternalEvent
  | .net e => seen names t e
  | .tell | .reap => []

/-- What the supervisor has to reckon with during a stop. -/
def seenAll (d : Deployment P) (l : Limits) (names : List Str) :
    StopState P → List StopAction → List ExternalEvent
  | _, [] => []
  | p, ev :: es =>
    seenStop names p.net ev ++
      ((stopStep (network d l) p ev).elim [] fun p' => seenAll d l names p' es)

/-- **A stop that comes to its end** is a sequence of operations of the supervisor, with
the steps of the services as the events while it waits, and after it if its last wait is
not the last step. -/
theorem stop_follows (hn : Staffed names) {es : List StopAction} {p q : StopState P}
    (hm : Mirrors l names s (outlook p.net)) (hpills : Unannounced p.net)
    (htold : p.told = true → p.todo ≠ []) (hes : ∀ ev ∈ es, Alone ev)
    (hrun : run (stopStep (network d l)) p es = some q) (hdone : q.todo = []) :
    ∃ s' evs later, StopsFrom names s p evs s' ∧ evs ++ later = seenAll d l names p es ∧
      ((∀ x ∈ es.getLast?, x = .reap) → later = []) ∧
      Mirrors l names (s'.events later) (outlook q.net) := by
  induction es generalizing p s with
  | nil =>
    obtain rfl : p = q := Option.some.inj hrun
    have hnot : p.told = false := Bool.eq_false_iff.mpr fun hx => htold hx hdone
    exact ⟨s, [], [], .untold hnot (hdone ▸ .done s), rfl, fun _ => rfl, hm⟩
  | cons ev es ih =>
    obtain ⟨p', hs, hrest⟩ := Option.bind_eq_some_iff.mp hrun
    have hends : (∀ x ∈ (ev :: es).getLast?, x = .reap) → ∀ x ∈ es.getLast?, x = .reap := by
      intro h x hx
      obtain ⟨ev', es', rfl⟩ : ∃ ev' es', es = ev' :: es' := by
        cases es with
        | nil => cases hx
        | cons ev' es' => exact ⟨ev', es', rfl⟩
      refine h x ?_
      rwa [List.getLast?_cons_cons]
    have halone := hes ev List.mem_cons_self
    have hes' : ∀ ev ∈ es, Alone ev := fun ev hev => hes ev (List.mem_cons_of_mem _ hev)
    cases stop_spec hs with
    | @net e net hnet =>
      have hrelaunch : ∀ b, e ≠ .relaunch b := by
        rintro b rfl
        exact halone
      obtain ⟨s₁, evs, later, hfrom, hseen, hnone, hm'⟩ := ih (p := { p with net := net })
        (mirrors_step hn hm hpills hrelaunch hnet)
        (unannounced_step hpills halone.pillFree.silent hnet) htold hes' hrest
      obtain ⟨s', evs', later', hfrom', rfl, hevs, hnone'⟩ :=
        hfrom.after (p := p) (seen names p.net e) rfl rfl
      refine ⟨s', evs', later' ++ later, hfrom', ?_, fun hlast => ?_,
        (events_append s' later' later).symm ▸ hm'⟩
      · rw [seenAll, hs, Option.elim_some, ← hseen, ← List.append_assoc, hevs, List.append_assoc]
        rfl
      · have hreap : (StopEvent.net e :: es).getLast? = some .reap := by
          rw [List.getLast?_eq_some_getLast (List.cons_ne_nil _ _)] at hlast ⊢
          exact congrArg some (hlast _ rfl)
        rw [hnone (hends hlast), hnone' (todo_of_reap hrun hreap)]
        rfl
    | @told b rest htodo hnot hroom =>
      obtain ⟨s₁, hsend, hm₁⟩ := hm.tell hroom
      obtain ⟨s', evs, later, hfrom, hseen, hnone, hm'⟩ := ih
        (p := { p with net := p.net.tell b, told := true }) hm₁ hpills
        (fun _ => htodo ▸ List.cons_ne_nil b rest) hes' hrest
      refine ⟨s', evs, later, .untold hnot ?_, ?_, fun hlast => hnone (hends hlast), hm'⟩
      · cases hfrom with
        | untold hx => exact absurd hx Bool.noConfusion
        | told waited _ htodo' hreap hrest' =>
          obtain ⟨rfl, rfl⟩ := List.cons.inj (htodo.symm.trans htodo')
          rw [htodo]
          exact .stopped { waiting := waited } (bind_eq_ok.mpr ⟨s₁, hsend, hreap⟩) hrest'
      · rw [seenAll, hs]
        exact hseen
    | @reaped b rest htodo hyes hexited =>
      have hdown : (outlook p.net).up b = false :=
        decide_eq_false (by rw [hexited]; exact Stage.noConfusion)
      obtain ⟨s₁, hreap, hm₁⟩ := hm.reap hn hdown
      obtain ⟨s', evs, later, hfrom, hseen, hnone, hm'⟩ := ih
        (p := { p with todo := rest, told := false }) hm₁ hpills
        (fun hx => absurd hx Bool.false_ne_true) hes' hrest
      refine ⟨s', evs, later, ?_, ?_, fun hlast => hnone (hends hlast), hm'⟩
      · cases hfrom with
        | untold _ hstops => exact .told [] hyes htodo hreap hstops
        | told _ hx => exact absurd hx Bool.false_ne_true
      · rw [seenAll, hs]
        exact hseen

/-! ## The loop of `stop_workers` -/

/-- The workers have the names, in this order. -/
structure Named (names : List Str) (s : Supervisor) : Prop where
  length : s.workers.length = names.length
  name : ∀ {i : Nat} {name : Str} {e : WorkerEntity}, names[i]? = some name →
    s.workers[i]? = some e → e.w.name = .ok name

theorem Mirrors.named (h : Mirrors l names s v) : Named names s where
  length := h.length
  name hi he := by
    obtain ⟨child, hchild, hname, -⟩ := h.child hi he
    rw [Worker.name, hchild]
    exact congrArg Except.ok hname

theorem Named.sameChild {s' : Supervisor} (h : Named names s)
    (hsame : Supervisor.Entrywise SameChild s s') : Named names s' where
  length := hsame.length_eq.symm.trans h.length
  name hi he' := by
    obtain ⟨e, he, hchild⟩ := forall₂_getElem?' hsame he'
    exact hchild.name.trans (h.name hi he)

/-- A turn of the loop, by the name of its worker. -/
theorem Named.stopTurn_eq (h : Named names s) {i : Nat} {name : Str} (hi : names[i]? = some name)
    (waits : Nat → Waits) :
    Supervisor.stopTurn [] waits s i = ((serviceOf name).map fun b =>
      s.stopEntity (waits i) b.queue i).getD (.ok s) := by
  obtain ⟨hlt, -⟩ := List.getElem?_eq_some_iff.mp hi
  have he := List.getElem?_eq_getElem (h.length ▸ hlt : i < s.workers.length)
  have hname := h.name hi he
  simp only [Supervisor.stopTurn, he, hname]
  show (if name = [] ∨ True then _ else _) = _
  rw [if_pos (.inr trivial), queueOf_eq]
  cases serviceOf name <;> rfl

theorem stopTurn_update (waits : Nat → Waits) (w : Waits) {i k : Nat} (h : k ≠ i) :
    Supervisor.stopTurn [] (Function.update waits i w) s k = Supervisor.stopTurn [] waits s k := by
  unfold Supervisor.stopTurn
  rw [Function.update_of_ne h]

/-- What a turn waits for does not matter to the other turns. -/
theorem foldlM_stopTurn_update (waits : Nat → Waits) (w : Waits) {i : Nat} {ks : List Nat}
    (h : ∀ k ∈ ks, k ≠ i) :
    ks.foldlM (Supervisor.stopTurn [] (Function.update waits i w)) s
      = ks.foldlM (Supervisor.stopTurn [] waits) s := by
  induction ks generalizing s with
  | nil => rfl
  | cons k ks ih =>
    have hks : ∀ k' ∈ ks, k' ≠ i := by
      intro k' hk'
      exact h k' (List.mem_cons_of_mem _ hk')
    rw [List.foldlM_cons, List.foldlM_cons, stopTurn_update waits w (h k List.mem_cons_self)]
    apply bind_congr
    intro s'
    exact ih hks

/-- What is waited for in one turn is no part of what the others wait for. -/
theorem flatMap_update (waits : Nat → Waits) (w : Waits) {i : Nat} {ks : List Nat}
    (h : ∀ k ∈ ks, k ≠ i) :
    ks.flatMap (fun k => (Function.update waits i w k).all) = ks.flatMap fun k => (waits k).all :=
  List.flatMap_congr fun k hk => by rw [Function.update_of_ne (h k hk)]

/-- The loop passes over the workers that are no services. -/
theorem stops_foldlM {s' : Supervisor} {evs : List ExternalEvent} (hn : Staffed names)
    {rest : List Str} {k : Nat} (hdrop : names.drop k = rest) (hnamed : Named names s)
    (h : Stops names s (rest.filterMap serviceOf) evs s') :
    ∃ waits : Nat → Waits, (List.range' k rest.length).flatMap (fun i => (waits i).all) = evs ∧
      (List.range' k rest.length).foldlM (Supervisor.stopTurn [] waits) s = .ok s' := by
  induction rest generalizing k s evs with
  | nil =>
    cases h
    exact ⟨fun _ => {}, rfl, rfl⟩
  | cons name rest ih =>
    have hk : names[k]? = some name := by
      have hget := congrArg (fun l => l[0]?) hdrop
      rwa [List.getElem?_drop] at hget
    have hrest : names.drop (k + 1) = rest := by
      rw [← List.tail_drop, hdrop, List.tail_cons]
    have hlater : ∀ k' ∈ List.range' (k + 1) rest.length, k' ≠ k := by
      intro k' hk'
      exact Nat.ne_of_gt (List.mem_range'_1.mp hk').1
    cases hs : serviceOf name with
    | none =>
      rw [List.filterMap_cons_none hs] at h
      obtain ⟨waits, hevs, hfold⟩ := ih hrest hnamed h
      refine ⟨Function.update waits k {}, ?_, ?_⟩
      · rw [List.length_cons, List.range'_succ, List.flatMap_cons, Function.update_self,
          flatMap_update waits {} hlater]
        exact hevs
      · rw [List.length_cons, List.range'_succ, List.foldlM_cons, hnamed.stopTurn_eq hk, hs]
        refine bind_eq_ok.mpr ⟨s, rfl, ?_⟩
        rw [foldlM_stopTurn_update waits {} hlater]
        exact hfold
    | some b =>
      rw [List.filterMap_cons_some hs] at h
      cases h with
      | @stopped _ s₁ _ _ _ evs w hstop hstops =>
        obtain rfl := name_of_serviceOf hs
        obtain rfl := hn.place_eq hk
        have hsame := (Supervisor.stopEntity_ensures _ w b.queue _).of_ok hstop
        obtain ⟨waits, hevs, hfold⟩ := ih hrest (hnamed.sameChild hsame) hstops
        refine ⟨Function.update waits (placeOf names b) w, ?_, ?_⟩
        · rw [List.length_cons, List.range'_succ, List.flatMap_cons, Function.update_self,
            flatMap_update waits w hlater, hevs]
        · rw [List.length_cons, List.range'_succ, List.foldlM_cons, hnamed.stopTurn_eq hk, hs,
            Function.update_self]
          refine bind_eq_ok.mpr ⟨s₁, hstop, ?_⟩
          rw [foldlM_stopTurn_update waits w hlater]
          exact hfold

/-- `stop_workers` of a supervisor that holds these services and queues follows the stop of
the bounded pipeline; nothing is left to happen when its last wait is the last step. -/
theorem stop_returns (hn : Staffed names) (hm : Mirrors l names s (outlook t))
    (hpills : Unannounced t) {es : List StopAction} (hes : ∀ ev ∈ es, Alone ev) {q : StopState P}
    (hrun : run (stopStep (network d l)) { net := t, todo := stopOrder names } es = some q)
    (hdone : q.todo = []) :
    ∃ (waits : Nat → Waits) (later : List ExternalEvent) (s' : Supervisor),
      s.stopWorkers [] waits = .ok s' ∧
      (List.range names.length).flatMap (fun i => (waits i).all) ++ later
        = seenAll d l names { net := t, todo := stopOrder names } es ∧
      ((∀ x ∈ es.getLast?, x = .reap) → later = []) ∧
      Mirrors l names (s'.events later) (outlook q.net) := by
  obtain ⟨s', evs, later, hfrom, hseen, hnone, hm'⟩ := stop_follows hn
    (p := { net := t, todo := stopOrder names }) hm hpills
    (fun hx => absurd hx Bool.false_ne_true) hes hrun hdone
  have hstops : Stops names s (stopOrder names) evs s' := by
    cases hfrom with
    | untold _ hstops => exact hstops
    | told _ hx => exact absurd hx Bool.false_ne_true
  obtain ⟨waits, hevs, hfold⟩ := stops_foldlM hn List.drop_zero hm.named hstops
  refine ⟨waits, later, s', ?_, ?_, hnone, hm'⟩
  · rw [Supervisor.stopWorkers, hm.length, List.range_eq_range']
    exact hfold
  · rw [List.range_eq_range', hevs]
    exact hseen

/-- **Refinement of the stop**: whenever the stop of all services of the bounded pipeline
comes to its end, with uploads, full queues, kills and throwing detectors on the way, the
`stop_workers` of a supervisor that holds these services and queues returns. The events
while it waits, and after it, are those of the run in their order, and then its queues
and children are those of the pipeline. -/
theorem stop_refines (d : Deployment P) (l : Limits) (names : List Str) (hn : Staffed names)
    (s : Supervisor) (t : State P) (hm : Mirrors l names s (outlook t)) (hpills : Unannounced t)
    (es : List StopAction) (hes : ∀ ev ∈ es, Alone ev) (q : StopState P)
    (hrun : run (stopStep (network d l)) { net := t, todo := stopOrder names } es = some q)
    (hdone : q.todo = []) :
    ∃ (waits : Nat → Waits) (later : List ExternalEvent) (s' : Supervisor),
      s.stopWorkers [] waits = .ok s' ∧
      (List.range names.length).flatMap (fun i => (waits i).all) ++ later
        = seenAll d l names { net := t, todo := stopOrder names } es ∧
      Mirrors l names (s'.events later) (outlook q.net) := by
  obtain ⟨waits, later, s', hstop, hseen, -, hm'⟩ := stop_returns hn hm hpills hes hrun hdone
  exact ⟨waits, later, s', hstop, hseen, hm'⟩

/-- After `main` and `fika start` the supervisor holds services that have just begun. -/
theorem mirrors_deployed {hardwareConcurrency : Nat}
    (hs : Supervisor.deployedAfter [Supervisor.startAll] = some s)
    (hbox : ∀ b, (t.node b).box = []) (hstage : ∀ b, (t.node b).stage = .receiving) :
    Mirrors (mainLimits hardwareConcurrency) Supervisor.configuredWorkers s (outlook t) where
  queue b := by
    refine ⟨{ maxMessages := 100, messageSize := ipcMessageSize }, ?_, ?_,
      (mainLimits_capacity hardwareConcurrency b).symm, Nat.le_refl _⟩
    · refine Supervisor.deployed_eval (f := fun s => s.queueMgr.queues b.queue) hs ?_
      cases b <;> rfl
    · show [] = (t.node b).box.map ipcMail
      rw [hbox, List.map_nil]
  length := Supervisor.deployed_eval (f := fun s => s.workers.length) hs rfl
  child := by
    intro i name e hi he
    have hprocesses : s.workers.map (fun e => e.w.process)
        = Supervisor.configuredWorkers.map fun name => some { name := name } :=
      Supervisor.deployed_eval (f := fun s => s.workers.map fun e => e.w.process) hs rfl
    have hchild := congrArg (fun l => l[i]?) hprocesses
    simp only [List.getElem?_map, he, hi, Option.map_some, Option.some.injEq] at hchild
    refine ⟨{ name := name }, hchild, rfl, fun b _ => ?_⟩
    exact (decide_eq_true (hstage b)).symm

/-- The stop of all services while detect has the sample job in its hands. -/
def stopAllEvents : List StopAction := [
  .tell, .net (.receive .qm), .net (.join .qm), .reap,
  .tell, .net (.send .detect 0), .net (.finish .detect 0), .net (.receive .detect),
  .net (.join .detect), .reap,
  .tell, .net (.receive .parse), .net (.join .parse), .reap]

theorem alone_stopAllEvents : ∀ ev ∈ stopAllEvents, Alone ev := by
  intro ev hev
  simp only [stopAllEvents, List.mem_cons, List.not_mem_nil, or_false] at hev
  rcases hev with rfl | rfl | rfl | rfl | rfl | rfl | rfl | rfl | rfl | rfl | rfl | rfl | rfl | rfl
  all_goals trivial

/-- All services receive, and nobody has anything in a queue or for one. -/
structure Idle (t : State P) : Prop where
  outside : t.outside = []
  box : ∀ b, (t.node b).box = []
  stage : ∀ b, (t.node b).stage = .receiving

/-- Detect has taken the sample job from its queue. -/
theorem sampleBounded_idle {t : State Unit} (ht : sampleBounded 8 = some t) : Idle t := by
  have houtside : (sampleBounded 8).map (fun t => t.outside) = some [] := by rfl
  have hnode : ∀ b, (sampleBounded 8).map (fun t => ((t.node b).box, (t.node b).stage))
      = some ([], .receiving) := by
    intro b
    cases b <;> rfl
  simp only [ht, Option.map_some, Option.some.injEq, Prod.mk.injEq] at houtside hnode
  exact ⟨houtside, fun b => (hnode b).1, fun b => (hnode b).2⟩

/-- The answer of detect is left in the qm inbox, and the supervisor has stopped all. -/
theorem stop_refines_detecting :
    ∃ s t q, Supervisor.deployedAfter [Supervisor.startAll] = some s ∧ sampleBounded 8 = some t ∧
      run (stopStep (network sampleDeployment (mainLimits 4)))
        { net := t, todo := stopOrder Supervisor.configuredWorkers } stopAllEvents = some q ∧
      (q.net.node .qm).box.length = 1 ∧
      ∃ (waits : Nat → Waits) (later : List ExternalEvent) (s' : Supervisor),
        s.stopWorkers [] waits = .ok s' ∧
        (List.range Supervisor.configuredWorkers.length).flatMap (fun i => (waits i).all) ++ later
          = seenAll sampleDeployment (mainLimits 4) Supervisor.configuredWorkers
            { net := t, todo := stopOrder Supervisor.configuredWorkers } stopAllEvents ∧
        Mirrors (mainLimits 4) Supervisor.configuredWorkers (s'.events later) (outlook q.net) := by
  obtain ⟨s, hs⟩ := Option.isSome_iff_exists.mp
    (show (Supervisor.deployedAfter [Supervisor.startAll]).isSome = true by rfl)
  obtain ⟨t, ht⟩ := Option.isSome_iff_exists.mp (show (sampleBounded 8).isSome = true by rfl)
  have hidle := sampleBounded_idle ht
  have hend : ((sampleBounded 8).bind fun t =>
      run (stopStep (network sampleDeployment (mainLimits 4)))
        { net := t, todo := stopOrder Supervisor.configuredWorkers } stopAllEvents).map
      (fun q => (q.todo, (q.net.node .qm).box.length)) = some ([], 1) := by rfl
  rw [ht, Option.bind_some] at hend
  obtain ⟨q, hq, hpair⟩ := Option.map_eq_some_iff.mp hend
  obtain ⟨hdone, hlength⟩ := Prod.mk.inj hpair
  refine ⟨s, t, q, hs, ht, hq, hlength, stop_refines sampleDeployment (mainLimits 4)
    Supervisor.configuredWorkers staffed_configuredWorkers s t
    (mirrors_deployed hs hidle.box hidle.stage) (fun p hp => ?_) stopAllEvents
    alone_stopAllEvents q hq hdone⟩
  rw [hidle.outside] at hp
  cases hp

end Bounded

end Fika
