import Fika.Pipeline.Reference

/-!
# The pipeline runs dry

A job message is worth the number of handlers that may still run for it: five
when it is new, four in detect's hands, three back at qm with a type, two in
parse's hands, one when it is finished. Every handler emits at most one message,
and one that is worth less; so without new submissions the handlers stop, and
what they leave is nothing.

- `weight`: what a message is worth; `Tariff`: what is paid for it, in a queue and
  in a pool, and what a receive and a handler cost.
- `load`: what all the messages in flight are worth.
- `Draining`: the invariant of a pipeline without submissions and pills;
  `draining_step`: every step pays its cost from the load.
- `pipeline_terminates`: bounds on the steps of every interleaving, and what is
  left when nothing can run.
-/

namespace Fika

open Lib

universe u

/-! ## What a message is worth -/

/-- How many handlers may still run for a message with this status in the hands of
the binary. -/
def weight : Binary → Status → Nat
  | .qm, .new => 5
  | .qm, .detecting => 3
  | .qm, _ => 1
  | .detect, _ => 4
  | .parse, _ => 2

theorem weight_pos (b : Binary) (status : Status) : 0 < weight b status := by
  cases b with
  | qm => cases status <;> decide
  | detect => exact Nat.succ_pos 3
  | parse => exact Nat.succ_pos 1

/-- A price for a message in a queue and in a pool, by its weight, from which a
receive and a handler can be paid. -/
structure Tariff where
  queued : Nat → Nat
  posted : Nat → Nat
  receiveCost : Nat
  handleCost : Nat
  receive : ∀ w, 0 < w → posted w + receiveCost ≤ queued w
  handle : ∀ w w', w' < w → queued w' + handleCost ≤ posted w

/-- Only handlers cost. -/
def handlerTariff : Tariff where
  queued w := w
  posted w := w
  receiveCost := 0
  handleCost := 1
  receive w _ := Nat.le_refl w
  handle _ _ h := h

/-- Receives and handlers cost the same. -/
def stepTariff : Tariff where
  queued w := 2 * w
  posted w := 2 * w - 1
  receiveCost := 1
  handleCost := 1
  receive w h := by omega
  handle w w' h := by omega

/-- The steps of services that work off their queues. -/
def Action.Serving : Action → Prop
  | .receive _ => True
  | .runQm _ => True
  | .runDetect _ _ => True
  | .runParse _ => True
  | _ => False

/-- What a step costs. -/
def Tariff.cost (T : Tariff) : Action → Nat
  | .receive _ => T.receiveCost
  | .runQm _ => T.handleCost
  | .runDetect _ _ => T.handleCost
  | .runParse _ => T.handleCost
  | _ => 0

theorem cost_serving {a : Action} (h : a.Serving) : stepTariff.cost a = 1 := by
  cases a with
  | receive b => rfl
  | runQm i => rfl
  | runDetect i detectors => rfl
  | runParse i => rfl
  | _ => exact absurd h id

/-- How many handlers a list of steps runs. -/
def executions (as : List Action) : Nat := (as.map handlerTariff.cost).sum

/-- What a handler sends for a message: nothing, or one message that is worth
less. -/
inductive Emits (b : Binary) (m : FileJobShm) : List (Binary × IpcMessage) → Prop where
  | nothing : Emits b m []
  | one {b' : Binary} {r : FileJobShm} (hdisc : Pipeline.Discipline b' r)
      (hless : weight b' r.status < weight b m.status) : Emits b m [(b', .fileJobShm r)]

/-! ## What the handlers send -/

section

variable {P : Type u} {m : FileJobShm}

theorem emits_qm (q : Qm) (h : Pipeline.Discipline .qm m) :
    Emits .qm m (processResults q m).sent := by
  cases h with
  | submitted hs =>
    rw [(processResults_new hs).1]
    refine .one (.detecting rfl rfl) ?_
    rw [hs]
    exact Nat.lt_succ_self 4
  | detected hs ht =>
    rw [(processResults_detecting hs).1]
    refine .one (.parsing rfl rfl) ?_
    rw [hs]
    exact Nat.lt_succ_self 2
  | parsed hs ht =>
    rw [(processResults_done hs).1]
    exact .nothing
  | failed hs =>
    rw [(processResults_failed hs).1]
    exact .nothing

/-- Whatever the detectors say, and also when one of them throws. -/
theorem emits_detect (detectors : List FileDetector) (h : Pipeline.Discipline .detect m) :
    Emits .detect m (detectReplies detectors m) := by
  by_cases hquiet : QuietChain detectors m.path.str
  · rw [detectReplies_quiet hquiet]
    have hdisc : Pipeline.Discipline .qm (detectReply detectors m) :=
      Pipeline.discipline_detectReply h
    refine .one hdisc ?_
    show weight .qm (if (verdict detectors m.path.str).isSome then Status.detecting else .failed) < 4
    split <;> decide
  · rw [detectReplies_loud hquiet]
    exact .nothing

/-- Whatever the registry holds: the reply is DONE or FAILED. -/
theorem emits_parse (create : MimeType → Option P) (registry : ParserRegistry P)
    (h : Pipeline.Discipline .parse m) : Emits .parse m (parseHandle create registry m).1 := by
  have hsent : (parseHandle create registry m).1 = [(.qm, .fileJobShm { m with
      status := if (findParser create registry m.mime).1.isSome then .done else .failed })] :=
    deliver_parse_qm _
  rw [hsent]
  cases h with
  | parsing hs ht =>
    cases (findParser create registry m.mime).1.isSome with
    | true => exact .one (.parsed rfl ht) (Nat.lt_succ_self 1)
    | false => exact .one (.failed rfl) (Nat.lt_succ_self 1)

end

namespace Pipeline

variable {P : Type u} {d : Deployment P} {s s' u : Pipeline P} {b b' : Binary} {m : FileJobShm}
  {T : Tariff}

/-! ## The load -/

/-- The price of a message in flight. -/
def price (T : Tariff) : Place × FileJobShm → Nat
  | (.queue b, m) => T.queued (weight b m.status)
  | (.pool b, m) => T.posted (weight b m.status)

/-- What the messages in flight are worth. -/
def load (T : Tariff) (s : Pipeline P) : Nat := (s.located.map (price T)).sum

/-- What the messages in the hands of `b` are worth. -/
def loadAt (T : Tariff) (s : Pipeline P) (b : Binary) : Nat :=
  ((s.messagesAt (.queue b)).map fun m => price T (.queue b, m)).sum +
    ((s.messagesAt (.pool b)).map fun m => price T (.pool b, m)).sum

theorem load_eq (T : Tariff) (s : Pipeline P) :
    s.load T = s.loadAt T .qm + s.loadAt T .detect + s.loadAt T .parse := by
  simp only [load, located, places, loadAt, List.flatMap_cons, List.flatMap_nil, List.append_nil,
    List.map_append, List.map_map, Function.comp_def, List.sum_append]
  omega

/-- What one binary gains is what the pipeline gains. -/
theorem load_of_loadAt {x y : Nat} (hb : s'.loadAt T b + x = s.loadAt T b + y)
    (hother : ∀ b', b' ≠ b → s'.loadAt T b' = s.loadAt T b') :
    s'.load T + x = s.load T + y := by
  rw [load_eq, load_eq]
  cases b with
  | qm =>
    rw [hother .detect (by decide), hother .parse (by decide)]
    omega
  | detect =>
    rw [hother .qm (by decide), hother .parse (by decide)]
    omega
  | parse =>
    rw [hother .qm (by decide), hother .detect (by decide)]
    omega

theorem load_congr (hq : u.queue = s.queue) (hsv : u.service = s.service) :
    u.load T = s.load T := by
  have hat : ∀ b, u.loadAt T b = s.loadAt T b := by
    intro b
    rw [loadAt, loadAt, messagesAt, messagesAt, messagesAt, messagesAt, hq, hsv]
  rw [load_eq, load_eq, hat, hat, hat]

theorem load_send_job :
    (s.send b (.fileJobShm m)).load T = s.load T + T.queued (weight b m.status) := by
  refine load_of_loadAt (x := 0) (b := b) ?_ fun b' hb' => ?_
  · simp only [loadAt, messagesAt, send_queue_self, List.filterMap_append, List.map_append,
      List.sum_append]
    show _ + [price T (.queue b, m)].sum + _ + 0 = _
    rw [List.sum_singleton]
    show _ = _ + _ + price T (.queue b, m)
    have hpool : ((s.send b (.fileJobShm m)).service b).pool = (s.service b).pool := rfl
    rw [hpool]
    omega
  · simp only [loadAt, messagesAt, send_queue_other _ hb']
    rfl

theorem load_receive_job {rest : List IpcMessage} (hq : s.queue b = .fileJobShm m :: rest) :
    (s.receive b (.fileJobShm m) rest).load T + T.queued (weight b m.status)
      = s.load T + T.posted (weight b m.status) := by
  refine load_of_loadAt (b := b) ?_ fun b' hb' => ?_
  · simp only [loadAt, messagesAt, receive_queue_self, receive_service_self, hq,
      ServiceState.onMessage, List.filterMap_cons, IpcMessage.job?, List.map_cons, List.sum_cons,
      List.map_append, List.sum_append, List.map_nil, List.sum_nil, price]
    omega
  · simp only [loadAt, messagesAt, receive_queue_other _ _ hb', receive_service_other _ _ hb']

theorem load_unpost {i : Nat} (hpool : (s.service b).pool[i]? = some m) :
    (s.unpost b i).load T + T.posted (weight b m.status) = s.load T := by
  refine load_of_loadAt (y := 0) (b := b) ?_ fun b' hb' => ?_
  · obtain ⟨hi, hm⟩ := List.getElem?_eq_some_iff.mp hpool
    -- the pool without its `i`-th handler is the pool less that job
    have hperm : (m :: (s.service b).pool.eraseIdx i).Perm (s.service b).pool := by
      rw [← hm]
      exact List.getElem_cons_eraseIdx_perm hi
    have hsum := (hperm.map fun m => price T (.pool b, m)).sum_nat
    rw [List.map_cons, List.sum_cons] at hsum
    simp only [loadAt, messagesAt, unpost, setService_service_self, ← hsum]
    show _ + _ + price T (.pool b, m) = _ + (price T (.pool b, m) + _) + 0
    have hqueue : (s.setService b { s.service b with pool := (s.service b).pool.eraseIdx i }).queue b
        = s.queue b := rfl
    rw [hqueue]
    omega
  · simp only [loadAt, messagesAt, unpost, setService_service_other _ hb']
    rfl

/-! ## Steps -/

/-- Every message keeps the discipline, there is no pill, and so every service
keeps receiving. -/
structure Draining (s : Pipeline P) : Prop where
  discipline : ∀ {b : Binary} {m : FileJobShm}, s.Holds b m → Discipline b m
  noPill : ∀ b, .poisonPill ∉ s.queue b
  receiving : ∀ b, (s.service b).phase = .receiving

theorem Draining.congr (h : s.Draining) (hq : u.queue = s.queue)
    (hsv : u.service = s.service) : u.Draining where
  discipline {b m} hm := h.discipline (by rwa [Holds, hq, hsv] at hm)
  noPill := hq ▸ h.noPill
  receiving := hsv ▸ h.receiving

theorem Draining.send (h : s.Draining) (hdisc : Discipline b m) :
    (s.send b (.fileJobShm m)).Draining where
  discipline {b' m'} hm := by
    rcases holds_send hm with hold | heq
    · exact h.discipline hold
    · cases heq
      exact hdisc
  noPill b' hmem := by
    by_cases hb : b' = b
    · subst hb
      rw [send_queue_self] at hmem
      rcases List.mem_append.mp hmem with hold | hnew
      · exact h.noPill b' hold
      · cases List.mem_singleton.mp hnew
    · rw [send_queue_other _ hb] at hmem
      exact h.noPill b' hmem
  receiving := h.receiving

theorem Draining.unpost (h : s.Draining) (b : Binary) (i : Nat) : (s.unpost b i).Draining where
  discipline hm := h.discipline (holds_unpost hm)
  noPill := h.noPill
  receiving b' := by
    by_cases hb : b' = b
    · subst hb
      rw [Pipeline.unpost, setService_service_self]
      exact h.receiving b'
    · rw [Pipeline.unpost, setService_service_other _ hb]
      exact h.receiving b'

theorem Draining.receive {rest : List IpcMessage} (h : s.Draining)
    (hq : s.queue b = .fileJobShm m :: rest) :
    (s.receive b (.fileJobShm m) rest).Draining where
  discipline hm := h.discipline (holds_receive hq hm)
  noPill b' hmem := by
    by_cases hb : b' = b
    · subst hb
      rw [receive_queue_self] at hmem
      exact h.noPill b' (hq ▸ List.mem_cons_of_mem _ hmem)
    · rw [receive_queue_other _ _ hb] at hmem
      exact h.noPill b' hmem
  receiving b' := by
    by_cases hb : b' = b
    · subst hb
      rw [receive_service_self]
      exact h.receiving b'
    · rw [receive_service_other _ _ hb]
      exact h.receiving b'

/-- A handler pays from its message for itself and for what it sends. -/
theorem draining_handler {i : Nat} {msgs : List (Binary × IpcMessage)} (h : s.Draining)
    (hpool : (s.service b).pool[i]? = some m) (hq : u.queue = (s.unpost b i).queue)
    (hsv : u.service = (s.unpost b i).service) (hemits : Emits b m msgs) :
    (u.sendAll msgs).Draining ∧ (u.sendAll msgs).load T + T.handleCost ≤ s.load T := by
  have hu : u.Draining := (h.unpost b i).congr hq hsv
  have hload : u.load T + T.posted (weight b m.status) = s.load T := by
    rw [load_congr hq hsv]
    exact load_unpost hpool
  cases hemits with
  | nothing =>
    refine ⟨hu, ?_⟩
    show u.load T + T.handleCost ≤ s.load T
    have hpaid := T.handle _ 0 (weight_pos b m.status)
    omega
  | @one b' r hdisc hless =>
    refine ⟨hu.send hdisc, ?_⟩
    show (u.send b' (.fileJobShm r)).load T + T.handleCost ≤ s.load T
    rw [load_send_job]
    have hpaid := T.handle _ _ hless
    omega

/-- **Every step pays its cost**, and keeps the pipeline draining. -/
theorem draining_step {a : Action} (h : s.Draining) (ha : a.Serving)
    (hs : step d s a = some s') : s'.Draining ∧ s'.load T + T.cost a ≤ s.load T := by
  cases step_spec hs with
  | accepted hsent => exact absurd ha id
  | refused hsent => exact absurd ha id
  | pill b => exact absurd ha id
  | joined hphase hpool => exact absurd ha id
  | restarted hphase => exact absurd ha id
  | @received b msg rest hphase hqueue =>
    cases msg with
    | poisonPill => exact absurd (hqueue ▸ List.mem_cons_self) (h.noPill b)
    | fileJobShm m =>
      refine ⟨h.receive hqueue, ?_⟩
      have hload := load_receive_job (T := T) hqueue
      have hpaid := T.receive _ (weight_pos b m.status)
      show _ + T.receiveCost ≤ _
      omega
  | @ranQm i m hpool =>
    have hdisc := h.discipline (.inr (List.mem_of_getElem? hpool))
    exact draining_handler h hpool rfl rfl (emits_qm _ hdisc)
  | @ranDetect i detectors m hpool =>
    have hdisc := h.discipline (.inr (List.mem_of_getElem? hpool))
    exact draining_handler h hpool rfl rfl (emits_detect detectors hdisc)
  | @ranParse i m hpool =>
    have hdisc := h.discipline (.inr (List.mem_of_getElem? hpool))
    exact draining_handler h hpool rfl rfl (emits_parse d.create _ hdisc)

/-- While there is a message, some service can serve. -/
theorem exists_serving (d : Deployment P) (h : s.Draining) (hne : s.located ≠ []) :
    ∃ a, a.Serving ∧ ∃ s', step d s a = some s' := by
  obtain ⟨⟨p, m⟩, hp⟩ := List.exists_mem_of_ne_nil _ hne
  obtain ⟨p', -, hmem⟩ := List.mem_flatMap.mp hp
  obtain ⟨m', hm', heq⟩ := List.mem_map.mp hmem
  clear hp hmem heq
  cases p' with
  | queue b =>
    refine ⟨.receive b, trivial, ?_⟩
    cases hq : s.queue b with
    | nil =>
      rw [messagesAt, hq] at hm'
      cases hm'
    | cons msg rest =>
      refine ⟨s.receive b msg rest, ?_⟩
      simp only [step, h.receiving b, hq]
  | pool b =>
    obtain ⟨i, hi⟩ := List.mem_iff_getElem?.mp hm'
    have hpool : (s.service b).pool[i]? = some m' := hi
    cases b with
    | qm => exact ⟨.runQm i, trivial, _, by rw [step, hpool]; rfl⟩
    | detect => exact ⟨.runDetect i [], trivial, _, by rw [step, hpool]; rfl⟩
    | parse => exact ⟨.runParse i, trivial, _, by rw [step, hpool]; rfl⟩

/-! ## Interleavings -/

/-- `n` new jobs, as ingestd writes them, in qm's inbox; the worker queues are
empty and every service is receiving with an empty pool. The rest of the state
is free. -/
structure Loaded (n : Nat) (s : Pipeline P) : Prop where
  inbox : ∃ jobs : List FileJobShm, s.queue .qm = jobs.map .fileJobShm ∧ jobs.length = n ∧
    ∀ m ∈ jobs, ∃ uuid dst, m = newJob uuid dst
  workers : ∀ b, b ≠ .qm → s.queue b = []
  services : ∀ b, s.service b = {}

theorem Loaded.draining {n : Nat} (h : s.Loaded n) : s.Draining := by
  obtain ⟨jobs, hq, -, hjobs⟩ := h.inbox
  have hcases : ∀ {b : Binary} {msg : IpcMessage}, msg ∈ s.queue b →
      b = .qm ∧ ∃ m ∈ jobs, msg = .fileJobShm m := by
    intro b msg hmsg
    by_cases hb : b = .qm
    · subst hb
      rw [hq] at hmsg
      obtain ⟨m, hm, rfl⟩ := List.mem_map.mp hmsg
      exact ⟨rfl, m, hm, rfl⟩
    · rw [h.workers b hb] at hmsg
      cases hmsg
  refine ⟨fun {b m} hm => ?_, fun b hmem => ?_, fun b => by rw [h.services b]⟩
  · rcases hm with hm | hm
    · obtain ⟨rfl, m', hm', heq⟩ := hcases hm
      obtain ⟨uuid, dst, hnew⟩ := hjobs m' hm'
      rw [IpcMessage.fileJobShm.inj heq, hnew]
      exact .submitted rfl
    · rw [h.services b] at hm
      cases hm
  · obtain ⟨-, m, -, heq⟩ := hcases hmem
    cases heq

/-- A new job is worth five handlers. -/
theorem Loaded.load_eq {n : Nat} (h : s.Loaded n) (T : Tariff) :
    s.load T = n * T.queued 5 := by
  obtain ⟨jobs, hq, hlen, hjobs⟩ := h.inbox
  have hempty : ∀ b, b ≠ .qm → s.loadAt T b = 0 := by
    intro b hb
    rw [loadAt, messagesAt, messagesAt, h.workers b hb, h.services b]
    rfl
  have hfilter : (jobs.map IpcMessage.fileJobShm).filterMap IpcMessage.job? = jobs := by
    rw [List.filterMap_map]
    exact List.filterMap_some
  have hprice : jobs.map (fun m => price T (.queue .qm, m)) = List.replicate n (T.queued 5) := by
    rw [← hlen]
    refine List.map_eq_replicate_iff.mpr fun m hm => ?_
    obtain ⟨uuid, dst, rfl⟩ := hjobs m hm
    rfl
  rw [Pipeline.load_eq, hempty .detect (by decide), hempty .parse (by decide), loadAt, messagesAt,
    messagesAt, h.services, hq, hfilter, hprice, List.sum_replicate_nat]
  rfl

/-- Without pills a complete pipeline has nothing in its queues. -/
theorem Draining.queue_nil (h : s.Draining) (hcomplete : s.Complete) (b : Binary) :
    s.queue b = [] := by
  refine List.eq_nil_iff_forall_not_mem.mpr fun msg hmsg => ?_
  cases msg with
  | poisonPill => exact h.noPill b hmsg
  | fileJobShm m =>
    have hloc : (Place.queue b, m) ∈ s.located := by
      refine List.mem_flatMap.mpr ⟨.queue b, by cases b <;> decide, ?_⟩
      exact List.mem_map.mpr ⟨m, List.mem_filterMap.mpr ⟨_, hmsg, rfl⟩, rfl⟩
    have hnil : s.located = [] := hcomplete
    rw [hnil] at hloc
    cases hloc

/-- The services can always go on until nothing is left. -/
theorem Draining.finishes (d : Deployment P) (h : s.Draining) :
    ∃ as, (∀ a ∈ as, Action.Serving a) ∧ ∃ t, run (step d) s as = some t ∧ t.Complete := by
  -- every step costs one, so the load is a bound on what is left to do
  induction hn : s.load stepTariff using Nat.strong_induction_on generalizing s with
  | _ n ih =>
    by_cases hne : s.located = []
    · exact ⟨[], fun _ ha => (nomatch ha), s, rfl, hne⟩
    · obtain ⟨a, ha, s', hs⟩ := exists_serving d h hne
      obtain ⟨h', hpaid⟩ := draining_step (T := stepTariff) h ha hs
      have hcost : stepTariff.cost a = 1 := cost_serving ha
      obtain ⟨as, has, t, hrun, hcomplete⟩ := ih (s'.load stepTariff) (by omega) h' rfl
      refine ⟨a :: as, List.forall_mem_cons.mpr ⟨ha, has⟩, t, ?_, hcomplete⟩
      rw [run, hs]
      exact hrun

/-- **The pipeline terminates**: from `n` new jobs and without submissions, every
interleaving of receives and handlers, whatever the detectors say or throw and
whatever parsers there are, runs at most `5 * n` handlers and takes at most
`10 * n` steps; it can always be continued to the end; and where no service can
go on, no queue and no pool holds a message. -/
theorem pipeline_terminates (d : Deployment P) (n : Nat) (s : Pipeline P) (h : s.Loaded n)
    (as : List Action) (has : ∀ a ∈ as, a.Serving) (t : Pipeline P)
    (hrun : run (step d) s as = some t) :
    executions as ≤ 5 * n ∧ as.length ≤ 10 * n ∧
      (∃ more, (∀ a ∈ more, Action.Serving a) ∧
        ∃ t', run (step d) t more = some t' ∧ t'.Complete) ∧
      ((∀ a, a.Serving → step d t a = none) → t.Complete ∧ ∀ b, t.queue b = []) := by
  have hpaid : ∀ T : Tariff, t.Draining ∧ t.load T + (as.map T.cost).sum ≤ s.load T := fun T =>
    run_potential (fun hd ha hs => draining_step hd ha hs) h.draining has hrun
  have hdrain : t.Draining := (hpaid stepTariff).1
  have hhandlers := (hpaid handlerTariff).2
  have hsteps := (hpaid stepTariff).2
  have hlength : as.map stepTariff.cost = List.replicate as.length 1 :=
    List.map_eq_replicate_iff.mpr fun a ha => cost_serving (has a ha)
  rw [h.load_eq] at hhandlers hsteps
  rw [hlength, List.sum_replicate_nat] at hsteps
  refine ⟨?_, ?_, hdrain.finishes d, fun hstuck => ?_⟩
  · have hfive : handlerTariff.queued 5 = 5 := rfl
    rw [hfive] at hhandlers
    unfold executions
    omega
  · have hten : stepTariff.queued 5 = 10 := rfl
    rw [hten] at hsteps
    omega
  · have hcomplete : t.Complete := by
      by_contra hne
      obtain ⟨a, ha, t', ht'⟩ := exists_serving d hdrain hne
      rw [hstuck a ha] at ht'
      cases ht'
    exact ⟨hcomplete, hdrain.queue_nil hcomplete⟩

/-- One new job in the inbox, over no files. -/
def oneJob : Pipeline Unit where
  queue := fun b => if b = .qm then
    [.fileJobShm (newJob (generateUniqueId 1700000000123 7) (lit "/spool/new/upload_1700000000"))]
    else []
  fs := fun _ => none

theorem loaded_oneJob : oneJob.Loaded 1 where
  inbox := ⟨[newJob (generateUniqueId 1700000000123 7) (lit "/spool/new/upload_1700000000")],
    rfl, rfl, fun _ hm => ⟨_, _, List.mem_singleton.mp hm⟩⟩
  workers _ hb := if_neg hb
  services _ := rfl

/-- A recognised job takes all ten steps, five of them handlers. -/
theorem pipeline_terminates_oneJob :
    ∃ t, run (step sampleDeployment) oneJob sampleRun.tail = some t ∧
      executions sampleRun.tail = 5 ∧ executions sampleRun.tail ≤ 5 * 1 ∧
      sampleRun.tail.length ≤ 10 * 1 := by
  obtain ⟨t, ht⟩ := Option.isSome_iff_exists.mp
    (show (run (step sampleDeployment) oneJob sampleRun.tail).isSome = true by rfl)
  have hserving : ∀ a ∈ sampleRun.tail, a.Serving := by
    intro a ha
    simp only [sampleRun, List.tail_cons, List.mem_cons, List.not_mem_nil, or_false] at ha
    rcases ha with rfl | rfl | rfl | rfl | rfl | rfl | rfl | rfl | rfl | rfl
    all_goals trivial
  obtain ⟨hhandlers, hsteps, -⟩ :=
    pipeline_terminates sampleDeployment 1 oneJob loaded_oneJob _ hserving t ht
  exact ⟨t, ht, rfl, hhandlers, hsteps⟩

end Pipeline

end Fika
