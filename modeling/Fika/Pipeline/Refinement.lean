import Fika.Pipeline.Faults
import Fika.Pipeline.Reference

/-!
# The bounded pipeline is a pipeline
(`service.cpp`, `ipc_client.h`)

In `Pipeline` a handler runs in one step and a send never waits. In the bounded pipeline
a handler begins, waits for room, sends and returns, and an upload waits for room too. As
long as nothing is killed this makes no difference: a handler that sends nothing runs when
it begins, any other runs when its message goes out, and an upload happens when its job is
accepted.

- `Emits`: what a handler sends, whatever state it runs in; `Emits.run`: it can run in the
  pipeline at any later time and sends the same.
- `Matches`: the pipeline that a state of the bounded pipeline stands for.
- `bounded_refines`: every run without kills stands for a run of the pipeline.
- `bounded_reference`: so when nothing can go on any more, each job has ended as the
  sequential reference says.
-/

namespace Fika

open Lib Network Pipeline

universe u

/-- A piece of mail as a message of a queue. -/
def ipcMail : Mail FileJobShm → IpcMessage
  | .work m => .fileJobShm m
  | .halt => .poisonPill

/-- The stage of a process as a phase of its service. -/
def phaseOf : Stage → Phase
  | .receiving => .receiving
  | .draining => .joining
  | .exited => .exited

namespace Bounded

variable {P : Type u} {d : Deployment P} {l : Limits} {t t' : State P} {s s' : Pipeline P}
  {m : FileJobShm} {b : Binary} {chains : List FileDetector → Prop} {fs : FileSystem}

/-! ## What a handler sends, and when -/

/-- The messages of a handler as they go on the queues. -/
def ipcJobs (outs : List (Binary × FileJobShm)) : List (Binary × IpcMessage) :=
  outs.map fun p => (p.1, .fileJobShm p.2)

/-- A handler of `b` sends `outs` for `m`, whatever its service has done before. -/
inductive Emits (d : Deployment P) (chains : List FileDetector → Prop) :
    Binary → FileJobShm → List (Binary × FileJobShm) → Prop where
  | qm {m : FileJobShm} {outs : List (Binary × FileJobShm)}
      (h : ∀ q, (processResults q m).sent = ipcJobs outs) : Emits d chains .qm m outs
  | detect {m : FileJobShm} {outs : List (Binary × FileJobShm)} (detectors : List FileDetector)
      (hchain : chains detectors) (h : detectReplies detectors m = ipcJobs outs) :
      Emits d chains .detect m outs
  | parse (m : FileJobShm) : Emits d chains .parse m [(.qm, parseReply d.create m)]

theorem emits_handle (h : WellFormed b m) {detectors : List FileDetector} {o : Objects P}
    (hcached : o.parsers.Cached d.create) (hchain : b = .detect → chains detectors) :
    Emits d chains b m ((network d l).handle b detectors o m).2 := by
  cases b with
  | qm =>
    show Emits d chains .qm m (jobs (processResults o.qm m).sent)
    refine .qm fun q => ?_
    cases h.discipline with
    | submitted hs =>
      rw [(processResults_new hs).1, (processResults_new hs).1]
      rfl
    | detected hs ht =>
      rw [(processResults_detecting hs).1, (processResults_detecting hs).1]
      rfl
    | parsed hs ht =>
      rw [(processResults_done hs).1, (processResults_done hs).1]
      rfl
    | failed hs =>
      rw [(processResults_failed hs).1, (processResults_failed hs).1]
      rfl
  | detect =>
    show Emits d chains .detect m (handleDetect detectors o m).2
    refine .detect detectors (hchain rfl) ?_
    rw [handleDetect_sent]
    split
    · next hquiet => exact detectReplies_quiet hquiet
    · next hloud => exact detectReplies_loud hloud
  | parse =>
    show Emits d chains .parse m (handleParse d.create o m).2
    rw [handleParse_sent, findParser_isSome hcached]
    exact .parse m

/-- What a handler leaves behind in the pipeline. -/
structure Ran (s s' : Pipeline P) (b : Binary) (i : Nat) (m : FileJobShm)
    (outs : List (Binary × FileJobShm)) : Prop where
  queue : s'.queue = (s.sendAll (ipcJobs outs)).queue
  service : s'.service = (s.unpost b i).service
  submitted : s'.submitted = s.submitted
  handled : s'.handled.filter (fun r => r.Finished)
    = (if b = .qm ∧ m.Finished then [m] else []) ++ s.handled.filter fun r => r.Finished
  removed : s'.removed
    = (if b = .qm ∧ m.status = .done then [m.path.str] else []) ++ s.removed

theorem sendAll_queue (h : s.queue = s'.queue) (msgs : List (Binary × IpcMessage)) :
    (s.sendAll msgs).queue = (s'.sendAll msgs).queue := by
  induction msgs generalizing s s' with
  | nil => exact h
  | cons p rest ih =>
    have hsent : (s.send p.1 p.2).queue = (s'.send p.1 p.2).queue := by
      show Function.update s.queue p.1 _ = Function.update s'.queue p.1 _
      rw [h]
    exact ih hsent

/-- A handler that has begun can run at any later time. -/
theorem Emits.run {outs : List (Binary × FileJobShm)} (he : Emits d chains b m outs)
    (hcached : s.parsers.Cached d.create) {i : Nat} (hpool : (s.service b).pool[i]? = some m) :
    ∃ a s', Pipeline.Chains chains s a ∧ Pipeline.step d s a = some s' ∧ Ran s s' b i m outs := by
  cases he with
  | qm hsent =>
    refine ⟨.runQm i, (s.unpost .qm i).handleQm m, trivial, ?_, ?_⟩
    · rw [Pipeline.step, hpool, Option.map_some]
    · refine ⟨?_, sendAll_service _, sendAll_submitted _, ?_, ?_⟩
      · rw [Pipeline.handleQm, ← hsent (s.unpost .qm i).qm]
        exact sendAll_queue (by rfl) _
      · rw [Pipeline.handleQm, sendAll_handled]
        show ((m :: s.handled).filter _) = _
        rw [List.filter_cons]
        by_cases hm : m.Finished
        · rw [if_pos (decide_eq_true hm), if_pos ⟨rfl, hm⟩]
          rfl
        · rw [if_neg (by simpa using hm), if_neg (fun h => hm h.2)]
          rfl
      · rw [Pipeline.handleQm, sendAll_removed]
        show (processResults _ m).removeFile.toList ++ s.removed = _
        rw [processResults_removeFile]
        by_cases hm : m.status = .done
        · rw [if_pos hm, if_pos ⟨rfl, hm⟩]
          rfl
        · rw [if_neg hm, if_neg (fun h => hm h.2)]
          rfl
  | detect detectors hchain hsent =>
    refine ⟨.runDetect i detectors, (s.unpost .detect i).handleDetect detectors m, hchain, ?_, ?_⟩
    · rw [Pipeline.step, hpool, Option.map_some]
    · refine ⟨?_, sendAll_service _, sendAll_submitted _, ?_, ?_⟩
      · rw [Pipeline.handleDetect, ← hsent]
        exact sendAll_queue (by rfl) _
      · rw [Pipeline.handleDetect, sendAll_handled]
        rfl
      · rw [Pipeline.handleDetect, sendAll_removed]
        rfl
  | parse =>
    refine ⟨.runParse i, (s.unpost .parse i).handleParse d.create m, trivial, ?_, ?_⟩
    · rw [Pipeline.step, hpool, Option.map_some]
    · have hsent : (parseHandle d.create (s.unpost .parse i).parsers m).1
          = ipcJobs [(.qm, parseReply d.create m)] := parseHandle_sent hcached m
      refine ⟨?_, sendAll_service _, sendAll_submitted _, ?_, ?_⟩
      · rw [Pipeline.handleParse, ← hsent]
        exact sendAll_queue (by rfl) _
      · rw [Pipeline.handleParse, sendAll_handled]
        rfl
      · rw [Pipeline.handleParse, sendAll_removed]
        rfl

/-! ## What the bounded pipeline has ready -/

/-- A handler under way has sent everything, or has its one message still to send. -/
def Waiting (d : Deployment P) (chains : List FileDetector → Prop) (b : Binary) (m : FileJobShm)
    (outs : List (Binary × FileJobShm)) : Prop :=
  outs = [] ∨ ∃ p, outs = [p] ∧ Emits d chains b m [p]

/-- Whoever waits to send a job has accepted an upload. -/
def FromUploads (d : Deployment P) (t : State P) : Prop :=
  ∀ b m, (b, .work m) ∈ t.outside → b = .qm ∧ ∃ req : UploadRequest, req.body ≠ [] ∧
    m = newJob (generateUniqueId req.millis req.rand) (spoolPath d.config req.now)

/-- What every state without kills satisfies. -/
structure Prepared (d : Deployment P) (l : Limits) (chains : List FileDetector → Prop)
    (t : State P) : Prop where
  sound : Sound d l t
  cached : t.shared.parsers.Cached d.create
  begun : Begun (Waiting d chains) t
  outside : FromUploads d t

theorem records_cached : (network d l).Records (fun _ => True) WellFormed
    fun _ _ (o : Objects P) => o.parsers.Cached d.create where
  client op entered retired o _ h := by
    cases op with
    | upload req =>
      show (Bounded.ingest o req _).1.parsers.Cached d.create
      unfold Bounded.ingest
      split <;> exact h
    | pill b => exact h
  handle b i c entered retired o m _ _ h := by
    cases b with
    | qm => exact h
    | detect => exact h
    | parse => exact cached_parseHandle h m
  fresh b entered retired o h := by
    cases b with
    | qm => exact h
    | detect => exact h
    | parse => exact cached_empty d.create

/-- An accepted upload has a body. -/
theorem upload_sent_body {c : Config} {req : UploadRequest} {fs : FileSystem}
    (h : (Fika.upload c req fs).sent = some m) : req.body ≠ [] := by
  intro hbody
  rw [(upload_empty fs hbody).2] at h
  cases h

theorem fromUploads_step {e : Event} (h : FromUploads d t)
    (hs : (network d l).step t e = some t') : FromUploads d t' := by
  cases step_spec hs with
  | client op =>
    intro b m hm
    rcases List.mem_append.mp hm with hm | hm
    · exact h b m hm
    · rcases client_sends hm with ⟨req, m', -, hsent, heq⟩ | ⟨b', -, heq⟩
      · cases heq
        exact ⟨rfl, req, upload_sent_body hsent, upload_sent hsent⟩
      · cases heq
  | accepted | abandoned => exact fun b m hm => h b m (List.mem_of_mem_eraseIdx hm)
  | posted | halted | invoked | sent | finished | joined | relaunched | crashed => exact h

/-- What a handler that begins sends. -/
theorem Prepared.emits (h : Prepared d l chains t) {kills : Prop} {i : Nat}
    {detectors : List FileDetector} (hok : Faults kills chains (.invoke b i detectors))
    (hpool : (t.node b).pool[i]? = some m) :
    Emits d chains b m ((network d l).handle b detectors t.shared m).2 ∧
      (((network d l).handle b detectors t.shared m).2 = [] ∨
        ∃ p, ((network d l).handle b detectors t.shared m).2 = [p]) := by
  have hm := (h.sound.wellFormed.node b).pool m (List.mem_of_getElem? hpool)
  refine ⟨emits_handle hm h.cached fun hb => ?_, ?_⟩
  · subst hb
    exact hok
  · have hf := handle_forwards (d := d) (l := l) b detectors t.shared hm
    generalize ((network d l).handle b detectors t.shared m).2 = outs at hf
    cases hf with
    | nothing => exact .inl rfl
    | one => exact .inr ⟨_, rfl⟩

theorem Prepared.step {e : Event} (h : Prepared d l chains t) {kills : Prop}
    (hok : Faults kills chains e) (hs : (network d l).step t e = some t') :
    Prepared d l chains t' := by
  refine ⟨h.sound.step hs, ?_, ?_, fromUploads_step h.outside hs⟩
  · exact records_step (R := fun _ _ o => o.parsers.Cached d.create) records_cached
      h.sound.wellFormed h.cached trivial hs
  · refine begun_step (fun b i detectors m he hpool => ?_) (fun b m p rest hq => ?_) h.begun hs
    · obtain ⟨hemits, hnone | ⟨p, hone⟩⟩ := h.emits (he ▸ hok) hpool
      · exact .inl hnone
      · exact .inr ⟨p, hone, hone ▸ hemits⟩
    · rcases hq with hq | ⟨p', hq, -⟩
      · cases hq
      · exact .inl (List.cons.inj hq).2

/-! ## The pipeline a state stands for -/

/-- The handlers that have begun and not sent their message. -/
def unsent (node : Node Binary FileJobShm) : List FileJobShm :=
  (node.busy.filter fun h => !h.2.isEmpty).map Prod.fst

/-- A node as a queue and a service. -/
structure NodeMatches (node : Node Binary FileJobShm) (queue : List IpcMessage)
    (service : ServiceState) : Prop where
  queue : queue = node.box.map ipcMail
  phase : service.phase = phaseOf node.stage
  pool : service.pool.Perm (node.pool ++ unsent node)

/-- The jobs among the mail that waits for room. -/
def outsideJobs (outside : List (Binary × Mail FileJobShm)) : Multiset FileJobShm :=
  (outside.filterMap fun p => p.2.message? : List FileJobShm)

/-- The pipeline a state stands for: a job is submitted once its queue has taken it, and a
handler has not run before it has sent its message. -/
structure Matches (t : State P) (s : Pipeline P) : Prop where
  node : ∀ b, NodeMatches (t.node b) (s.queue b) (s.service b)
  submitted : ((s.submitted.map Submission.msg : List FileJobShm) : Multiset FileJobShm)
      + outsideJobs t.outside = (t.shared.submitted.map Submission.msg : List FileJobShm)
  handled : s.handled.filter (fun r => r.Finished) = t.shared.handled.filter fun r => r.Finished
  removed : s.removed = t.shared.removed

/-- Nodes that match queues and services. -/
def NodesMatch (t : State P) (queue : Binary → List IpcMessage)
    (service : Binary → ServiceState) : Prop :=
  ∀ b, NodeMatches (t.node b) (queue b) (service b)

theorem NodesMatch.set {queue : Binary → List IpcMessage} {service : Binary → ServiceState}
    (h : NodesMatch t queue service) {node : Node Binary FileJobShm} {q : List IpcMessage}
    {sv : ServiceState} (hnode : NodeMatches node q sv) :
    NodesMatch (t.set b node) (Function.update queue b q) (Function.update service b sv) := by
  intro b'
  by_cases hb : b' = b
  · subst hb
    rw [set_self, Function.update_self, Function.update_self]
    exact hnode
  · rw [set_other _ hb, Function.update_of_ne hb, Function.update_of_ne hb]
    exact h b'

/-- A node that keeps its mailbox. -/
theorem NodesMatch.set_service {queue : Binary → List IpcMessage} {service : Binary → ServiceState}
    (h : NodesMatch t queue service) {node : Node Binary FileJobShm} {sv : ServiceState}
    (hnode : NodeMatches node (queue b) sv) :
    NodesMatch (t.set b node) queue (Function.update service b sv) := by
  have hset := h.set (b := b) hnode
  rwa [Function.update_eq_self] at hset

/-- A node whose handlers have only moved on. -/
theorem NodesMatch.set_node {queue : Binary → List IpcMessage} {service : Binary → ServiceState}
    (h : NodesMatch t queue service) {node : Node Binary FileJobShm}
    (hnode : NodeMatches node (queue b) (service b)) : NodesMatch (t.set b node) queue service := by
  have hset := h.set (b := b) hnode
  rwa [Function.update_eq_self, Function.update_eq_self] at hset

theorem NodesMatch.put {queue : Binary → List IpcMessage} {service : Binary → ServiceState}
    (h : NodesMatch t queue service) (b : Binary) (mail : Mail FileJobShm) :
    NodesMatch (t.put b mail) (Function.update queue b (queue b ++ [ipcMail mail])) service := by
  have hnode : NodeMatches { t.node b with box := (t.node b).box ++ [mail] }
      (queue b ++ [ipcMail mail]) (service b) := by
    refine ⟨?_, (h b).phase, (h b).pool⟩
    rw [(h b).queue, List.map_append]
    rfl
  have hset := h.set (b := b) hnode
  rw [Function.update_eq_self b service] at hset
  exact hset

/-- The position of a posted message in a pool with the same messages. -/
theorem exists_unpost {pool : List FileJobShm} {rest : List FileJobShm}
    (h : pool.Perm (m :: rest)) :
    ∃ j, pool[j]? = some m ∧ (pool.eraseIdx j).Perm rest := by
  obtain ⟨j, hj⟩ := List.mem_iff_getElem?.mp (h.mem_iff.mpr List.mem_cons_self)
  obtain ⟨hlt, hget⟩ := List.getElem?_eq_some_iff.mp hj
  refine ⟨j, hj, List.Perm.cons_inv (a := m) ?_⟩
  have hperm := List.getElem_cons_eraseIdx_perm hlt
  rw [hget] at hperm
  exact hperm.trans h

theorem unsent_append (node : Node Binary FileJobShm) (pool : List FileJobShm)
    (outs : List (Binary × FileJobShm)) :
    unsent { node with pool := pool, busy := node.busy ++ [(m, outs)] }
      = unsent node ++ if outs = [] then [] else [m] := by
  unfold unsent
  rw [List.filter_append, List.map_append]
  cases outs <;> rfl

theorem perm_unsent_sent {node : Node Binary FileJobShm} {i : Nat} {p : Binary × FileJobShm}
    (h : node.busy[i]? = some (m, [p])) :
    (unsent node).Perm (m :: unsent { node with busy := node.busy.set i (m, []) }) := by
  obtain ⟨hi, hget⟩ := List.getElem?_eq_some_iff.mp h
  have hold := ((List.getElem_cons_eraseIdx_perm hi).filter fun h => !h.2.isEmpty).map Prod.fst
  have hnew := ((List.set_perm_cons_eraseIdx hi (m, [])).filter fun h => !h.2.isEmpty).map Prod.fst
  rw [hget] at hold
  exact hold.symm.trans (List.Perm.cons m hnew.symm)

theorem perm_unsent_finished {node : Node Binary FileJobShm} {i : Nat}
    (h : node.busy[i]? = some (m, [])) :
    (unsent node).Perm (unsent { node with busy := node.busy.eraseIdx i }) := by
  obtain ⟨hi, hget⟩ := List.getElem?_eq_some_iff.mp h
  have hold := ((List.getElem_cons_eraseIdx_perm hi).filter fun h => !h.2.isEmpty).map Prod.fst
  rw [hget] at hold
  exact hold.symm

/-- The pipeline runs a handler whose message has just gone out, or that has none. -/
theorem Matches.ran (h : Matches t s) {i : Nat} {outs : List (Binary × FileJobShm)}
    {node : Node Binary FileJobShm} (hran : Ran s s' b i m outs)
    (hbox : node.box = (t.node b).box) (hstage : node.stage = (t.node b).stage)
    (hpool : ((s.service b).pool.eraseIdx i).Perm (node.pool ++ unsent node)) :
    NodesMatch (t.set b node) s.queue s'.service := by
  rw [hran.service]
  refine NodesMatch.set_service h.node ⟨?_, ?_, hpool⟩
  · rw [hbox]
    exact (h.node b).queue
  · rw [hstage]
    exact (h.node b).phase

/-- What a handler notes of the job it handles. -/
theorem handle_notes (b : Binary) (detectors : List FileDetector) (o : Objects P)
    (m : FileJobShm) :
    let r := ((network d l).handle b detectors o m).1
    r.submitted = o.submitted ∧
    r.handled.filter (fun r => r.Finished)
      = (if b = .qm ∧ m.Finished then [m] else []) ++ o.handled.filter (fun r => r.Finished) ∧
    r.removed = (if b = .qm ∧ m.status = .done then [m.path.str] else []) ++ o.removed := by
  cases b with
  | qm =>
    refine ⟨rfl, ?_, ?_⟩
    · show (m :: o.handled).filter _ = _
      rw [List.filter_cons]
      by_cases hm : m.Finished
      · rw [if_pos (decide_eq_true hm), if_pos ⟨rfl, hm⟩]
        rfl
      · rw [if_neg (by simpa using hm), if_neg (fun h => hm h.2)]
        rfl
    · show (processResults o.qm m).removeFile.toList ++ o.removed = _
      rw [processResults_removeFile]
      by_cases hm : m.status = .done
      · rw [if_pos hm, if_pos ⟨rfl, hm⟩]
        rfl
      · rw [if_neg hm, if_neg (fun h => hm h.2)]
        rfl
  | detect => exact ⟨rfl, rfl, rfl⟩
  | parse => exact ⟨rfl, rfl, rfl⟩

/-- A handler that has a message to send is not one of qm for a finished job. -/
theorem Emits.not_finished {p : Binary × FileJobShm} (h : Emits d chains b m [p]) :
    ¬ (b = .qm ∧ m.Finished) := by
  rintro ⟨rfl, hfin⟩
  cases h with
  | qm hsent =>
    have hnone : (processResults {} m).sent = [] := by
      rcases hfin with hs | hs
      · exact (processResults_done hs).1
      · exact (processResults_failed hs).1
    rw [hsent {}] at hnone
    cases hnone

theorem outsideJobs_append (outside outside' : List (Binary × Mail FileJobShm)) :
    outsideJobs (outside ++ outside') = outsideJobs outside + outsideJobs outside' := by
  rw [outsideJobs, List.filterMap_append, ← Multiset.coe_add]
  rfl

theorem outsideJobs_erase {outside : List (Binary × Mail FileJobShm)} {i : Nat}
    {mail : Mail FileJobShm} (hi : outside[i]? = some (b, mail)) :
    outsideJobs [(b, mail)] + outsideJobs (outside.eraseIdx i) = outsideJobs outside := by
  obtain ⟨hlt, hget⟩ := List.getElem?_eq_some_iff.mp hi
  have hperm := (List.getElem_cons_eraseIdx_perm hlt).filterMap fun p => p.2.message?
  rw [hget] at hperm
  rw [← outsideJobs_append]
  exact Multiset.coe_eq_coe.mpr hperm

/-- A client only adds to what waits outside. -/
theorem matches_client (h : Matches t s) (op : ClientOp) :
    Matches { t with
      shared := ((network d l).client op t.shared).1
      outside := t.outside ++ ((network d l).client op t.shared).2
      entered := ((network d l).client op t.shared).2 ++ t.entered } s := by
  have hsubmitted : (((network d l).client op t.shared).1.submitted.map Submission.msg :
      List FileJobShm) = outsideJobs ((network d l).client op t.shared).2
        + (t.shared.submitted.map Submission.msg : List FileJobShm) ∧
      ((network d l).client op t.shared).1.handled = t.shared.handled ∧
      ((network d l).client op t.shared).1.removed = t.shared.removed := by
    cases op with
    | pill b => exact ⟨(zero_add _).symm, rfl, rfl⟩
    | upload req =>
      change (((Bounded.ingest t.shared req _).1.submitted.map Submission.msg : List FileJobShm) :
          Multiset FileJobShm) = outsideJobs (Bounded.ingest t.shared req _).2 + _ ∧
        (Bounded.ingest t.shared req _).1.handled = _ ∧
        (Bounded.ingest t.shared req _).1.removed = _
      unfold Bounded.ingest
      split
      · exact ⟨(zero_add _).symm, rfl, rfl⟩
      · exact ⟨rfl, rfl, rfl⟩
  obtain ⟨hsub, hhandled, hremoved⟩ := hsubmitted
  refine ⟨h.node, ?_, ?_, ?_⟩
  · show _ + outsideJobs (t.outside ++ _) = _
    rw [hsub, ← h.submitted, outsideJobs_append]
    abel
  · rw [hhandled]
    exact h.handled
  · rw [hremoved]
    exact h.removed

/-- The queue that takes a job takes it from an upload, and a pill from a supervisor. -/
theorem matches_accepted (hp : Prepared d l chains t) (h : Matches t s) {i : Nat}
    {mail : Mail FileJobShm} (hi : t.outside[i]? = some (b, mail)) :
    ∃ a s', Pipeline.Chains chains s a ∧ Pipeline.step d s a = some s' ∧
      Matches ({ t with outside := t.outside.eraseIdx i }.put b mail) s' := by
  have herase := outsideJobs_erase hi
  have hput := NodesMatch.put (t := { t with outside := t.outside.eraseIdx i }) h.node b mail
  cases mail with
  | halt =>
    refine ⟨.pill b, s.send b .poisonPill, trivial, rfl, hput, ?_, h.handled, h.removed⟩
    show _ + outsideJobs (t.outside.eraseIdx i) = (t.shared.submitted.map _ : List FileJobShm)
    rw [← h.submitted, ← herase]
    exact congrArg (_ + ·) (zero_add _).symm
  | work m =>
    obtain ⟨rfl, req, hbody, rfl⟩ := hp.outside b m (List.mem_of_getElem? hi)
    -- the same upload, with files that can be written
    have hio : IoOutcome.Succeeds {} := ⟨rfl, rfl, rfl⟩
    have hsent : (upload d.config { req with io := {} } s.fs).sent
        = some (newJob (generateUniqueId req.millis req.rand) (spoolPath d.config req.now)) :=
      (@upload_succeeds d.config { req with io := {} } s.fs hio hbody).2.2
    refine ⟨.upload { req with io := {} }, _, trivial, rfl, ?_⟩
    rw [Pipeline.ingest, hsent]
    refine ⟨hput, ?_, h.handled, h.removed⟩
    show (outsideJobs [(.qm, .work (newJob _ _))] + (s.submitted.map _ : List FileJobShm))
      + outsideJobs (t.outside.eraseIdx i) = (t.shared.submitted.map _ : List FileJobShm)
    rw [← h.submitted, ← herase, add_right_comm, add_comm]

/-- A handler that sends nothing runs when it begins; any other waits for its send. -/
theorem matches_invoked (hp : Prepared d l chains t) (hcached : s.parsers.Cached d.create)
    (h : Matches t s) {i : Nat} {detectors : List FileDetector}
    (hok : Faults False chains (.invoke b i detectors))
    (hpool : (t.node b).pool[i]? = some m) :
    let r := (network d l).handle b detectors t.shared m
    let t' := { t.set b { t.node b with
        pool := (t.node b).pool.eraseIdx i
        busy := (t.node b).busy ++ [(m, r.2)] } with
      shared := r.1
      retired := if r.2 = [] then m :: t.retired else t.retired }
    Matches t' s ∨
      ∃ a s', Pipeline.Chains chains s a ∧ Pipeline.step d s a = some s' ∧ Matches t' s' := by
  obtain ⟨hsub, hhandled, hremoved⟩ := handle_notes (d := d) (l := l) b detectors t.shared m
  have hposted : (s.service b).pool.Perm
      (m :: ((t.node b).pool.eraseIdx i ++ unsent (t.node b))) := by
    obtain ⟨hlt, hget⟩ := List.getElem?_eq_some_iff.mp hpool
    have hperm := List.getElem_cons_eraseIdx_perm hlt
    rw [hget] at hperm
    exact (h.node b).pool.trans (hperm.symm.append_right _)
  obtain ⟨hemits, hnone | ⟨p, hone⟩⟩ := hp.emits hok hpool
  · rw [hnone] at hemits
    obtain ⟨j, hj, hrest⟩ := exists_unpost hposted
    obtain ⟨a, s', hchain, hstep, hran⟩ := hemits.run hcached hj
    refine .inr ⟨a, s', hchain, hstep, ?_, ?_, ?_, ?_⟩
    · rw [hnone]
      have hqueue : s'.queue = s.queue := hran.queue
      rw [hqueue]
      refine h.ran hran rfl rfl ?_
      rwa [unsent_append, if_pos rfl, List.append_nil]
    · rw [hran.submitted]
      exact h.submitted.trans (congrArg _ (congrArg _ hsub.symm))
    · exact hran.handled.trans ((congrArg _ h.handled).trans hhandled.symm)
    · exact hran.removed.trans ((congrArg _ h.removed).trans hremoved.symm)
  · have hnot := (hone ▸ hemits : Emits d chains b m [p]).not_finished
    rw [if_neg hnot] at hhandled
    rw [if_neg fun hdone => hnot ⟨hdone.1, .inl hdone.2⟩] at hremoved
    refine .inl ⟨NodesMatch.set_node h.node ⟨(h.node b).queue, (h.node b).phase, ?_⟩, ?_, ?_, ?_⟩
    · rw [hone, unsent_append, if_neg (List.cons_ne_nil _ _)]
      refine hposted.trans ?_
      rw [← List.append_assoc]
      exact (List.perm_append_singleton m _).symm
    · exact h.submitted.trans (congrArg _ (congrArg _ hsub.symm))
    · exact h.handled.trans hhandled.symm
    · exact h.removed.trans hremoved.symm

/-- A handler with a message runs when the message goes out. -/
theorem matches_sent (hp : Prepared d l chains t) (hcached : s.parsers.Cached d.create)
    (h : Matches t s) {i : Nat} {b' : Binary} {r : FileJobShm} {rest : List (Binary × FileJobShm)}
    (hbusy : (t.node b).busy[i]? = some (m, (b', r) :: rest)) :
    ∃ a s', Pipeline.Chains chains s a ∧ Pipeline.step d s a = some s' ∧
      Matches ((t.set b { t.node b with busy := (t.node b).busy.set i (m, rest) }).put b'
        (.work r)) s' := by
  have hbegun := hp.begun b _ (List.mem_of_getElem? hbusy)
  rcases hbegun with hnil | ⟨p, hone, hemits⟩
  · cases hnil
  · obtain ⟨rfl, rfl⟩ := List.cons.inj hone
    have hposted : (s.service b).pool.Perm (m :: ((t.node b).pool ++
        unsent { t.node b with busy := (t.node b).busy.set i (m, []) })) :=
      (h.node b).pool.trans ((List.Perm.append_left _ (perm_unsent_sent hbusy)).trans
        List.perm_middle)
    obtain ⟨j, hj, hrest⟩ := exists_unpost hposted
    obtain ⟨a, s', hchain, hstep, hran⟩ := hemits.run hcached hj
    have hnot := hemits.not_finished
    have hhandled := hran.handled
    have hremoved := hran.removed
    rw [if_neg hnot] at hhandled
    rw [if_neg fun hdone => hnot ⟨hdone.1, .inl hdone.2⟩] at hremoved
    refine ⟨a, s', hchain, hstep, ?_, ?_, hhandled.trans h.handled, hremoved.trans h.removed⟩
    · have hnodes : NodesMatch (t.set b { t.node b with busy := (t.node b).busy.set i (m, []) })
          s.queue s'.service := h.ran hran rfl rfl hrest
      rw [hran.queue]
      exact hnodes.put b' (.work r)
    · rw [hran.submitted]
      exact h.submitted

/-- **One step of the bounded pipeline** is one step of the pipeline it stands for, or
none. -/
theorem matches_step {e : Event} (hp : Prepared d l chains t) (hcached : s.parsers.Cached d.create)
    (h : Matches t s) (hok : Faults False chains e) (hs : (network d l).step t e = some t') :
    Matches t' s ∨
      ∃ a s', Pipeline.Chains chains s a ∧ Pipeline.step d s a = some s' ∧ Matches t' s' := by
  cases step_spec hs with
  | client op => exact .inl (matches_client h op)
  | abandoned => exact hok.elim
  | crashed => exact hok.elim
  | accepted hi hroom => exact .inr (matches_accepted hp h hi)
  | @posted n r rest hstage hbox =>
    have hqueue : s.queue n = .fileJobShm r :: rest.map ipcMail := by
      rw [(h.node n).queue, hbox]
      rfl
    have hphase : (s.service n).phase = .receiving := by
      rw [(h.node n).phase, hstage]
      rfl
    refine .inr ⟨.receive n, s.receive n (.fileJobShm r) (rest.map ipcMail), trivial, ?_, ?_,
      h.submitted, h.handled, h.removed⟩
    · simp only [Pipeline.step, hphase, hqueue]
    · refine NodesMatch.set h.node ⟨rfl, (h.node n).phase, ?_⟩
      refine ((h.node n).pool.append_right [r]).trans ?_
      show List.Perm ((_ ++ unsent (t.node n)) ++ [r]) ((_ ++ [r]) ++ unsent (t.node n))
      rw [List.append_assoc, List.append_assoc]
      exact List.Perm.append_left _ List.perm_append_comm
  | @halted n rest hstage hbox =>
    have hqueue : s.queue n = .poisonPill :: rest.map ipcMail := by
      rw [(h.node n).queue, hbox]
      rfl
    have hphase : (s.service n).phase = .receiving := by
      rw [(h.node n).phase, hstage]
      rfl
    refine .inr ⟨.receive n, s.receive n .poisonPill (rest.map ipcMail), trivial, ?_, ?_,
      h.submitted, h.handled, h.removed⟩
    · simp only [Pipeline.step, hphase, hqueue]
    · exact NodesMatch.set h.node ⟨rfl, rfl, (h.node n).pool⟩
  | invoked hpool hthread => exact matches_invoked hp hcached h hok hpool
  | sent hbusy hroom => exact .inr (matches_sent hp hcached h hbusy)
  | @finished n i r hbusy =>
    refine .inl ⟨NodesMatch.set_node h.node ⟨(h.node n).queue, (h.node n).phase, ?_⟩, h.submitted,
      h.handled, h.removed⟩
    exact (h.node n).pool.trans (List.Perm.append_left _ (perm_unsent_finished hbusy))
  | @joined n hstage hpool hbusy =>
    have hphase : (s.service n).phase = .joining := by
      rw [(h.node n).phase, hstage]
      rfl
    have hempty : (s.service n).pool = [] := by
      have hperm := (h.node n).pool
      rw [hpool, unsent, hbusy] at hperm
      exact hperm.eq_nil
    refine .inr ⟨.join n, s.setService n { phase := .exited }, trivial, ?_, ?_, h.submitted,
      h.handled, h.removed⟩
    · rw [Pipeline.step, if_pos ⟨hphase, hempty⟩]
    · refine NodesMatch.set_service h.node ⟨(h.node n).queue, rfl, ?_⟩
      show List.Perm [] ((t.node n).pool ++ unsent (t.node n))
      rw [hpool, unsent, hbusy]
      exact List.Perm.refl _
  | @relaunched n hstage =>
    have hphase : (s.service n).phase = .exited := by
      rw [(h.node n).phase, hstage]
      rfl
    refine .inr ⟨.restart n, s.relaunch n, trivial, if_pos hphase, ?_⟩
    have hnode : NodesMatch (t.set n { box := (t.node n).box }) s.queue
        (Function.update s.service n {}) :=
      NodesMatch.set_service h.node ⟨(h.node n).queue, rfl, List.Perm.refl _⟩
    cases n <;> exact ⟨hnode, h.submitted, h.handled, h.removed⟩

theorem matches_init (fs : FileSystem) : Matches (init fs : State P) (Pipeline.init fs) where
  node _ := ⟨rfl, rfl, List.Perm.refl _⟩
  submitted := rfl
  handled := rfl
  removed := rfl

theorem prepared_init (fs : FileSystem) : Prepared d l chains (init fs : State P) where
  sound := sound_init fs
  cached := cached_empty d.create
  begun _ _ hh := (nomatch hh)
  outside _ _ hm := (nomatch hm)

/-- The pipeline a reached state stands for can be reached. -/
theorem matches_of_reaches
    (h : Reaches (network d l).step (fun _ => Faults False chains) (init fs) t) :
    Prepared d l chains t ∧ ∃ s,
      Reaches (Pipeline.step d) (Pipeline.Chains chains) (Pipeline.init fs) s ∧ Matches t s := by
  refine h.invariant (P := fun t => Prepared d l chains t ∧
    ∃ s, Reaches (Pipeline.step d) (Pipeline.Chains chains) (Pipeline.init fs) s ∧ Matches t s)
    ⟨prepared_init fs, Pipeline.init fs, .refl, matches_init fs⟩ ?_
  rintro a a' e ⟨hp, s, hr, hm⟩ hok hs
  refine ⟨hp.step hok hs, ?_⟩
  have hcached := Pipeline.Reachable.cached (show Pipeline.Reachable d chains s from ⟨fs, hr⟩)
  rcases matches_step hp hcached hm hok hs with hstay | ⟨act, s', hchain, hstep, hm'⟩
  · exact ⟨s, hr, hstay⟩
  · exact ⟨s', hr.tail hchain hstep, hm'⟩

/-- **The bounded pipeline is a pipeline**: whatever state it reaches, with full queues,
busy threads and handlers that wait to send, as long as nothing is killed, the pipeline of
unbounded queues and handlers in one step can reach a state with the same queues, phases,
outcomes and removed files, in which the handlers that have not sent their message have
not run and the uploads that wait for room have not happened. -/
theorem bounded_refines (d : Deployment P) (l : Limits) (chains : List FileDetector → Prop)
    (fs : FileSystem) (t : State P)
    (h : Reaches (network d l).step (fun _ => Faults False chains) (init fs) t) :
    ∃ s, Pipeline.Reachable d chains s ∧ Matches t s := by
  obtain ⟨-, s, hr, hm⟩ := matches_of_reaches h
  exact ⟨s, ⟨fs, hr⟩, hm⟩

theorem decide_sampleDetectors : Decide (fun _ => some (lit "application/pdf")) sampleDetectors :=
  ⟨nonThrowing_sampleDetectors, fun _ => by rfl⟩

/-- No event of the sample run kills, and its detectors call everything a PDF document. -/
theorem faults_sampleEvents {n : Nat} :
    ∀ e ∈ sampleEvents.take n, Faults False (Decide fun _ => some (lit "application/pdf")) e := by
  intro e he
  have hmem := List.mem_of_mem_take he
  simp only [sampleEvents, List.mem_cons, List.not_mem_nil, or_false] at hmem
  rcases hmem with rfl | rfl | rfl | rfl | rfl | rfl | rfl | rfl | rfl | rfl | rfl | rfl | rfl |
    rfl | rfl | rfl | rfl | rfl | rfl | rfl | rfl
  all_goals first | trivial | exact decide_sampleDetectors

theorem reaches_sampleBounded {n : Nat} {t : State Unit} (h : sampleBounded n = some t) :
    Reaches (network sampleDeployment (mainLimits 4)).step
      (fun _ => Faults False (Decide fun _ => some (lit "application/pdf")))
      (init fun _ => none) t :=
  reaches_of_run (runOk_of_forall fun e he _ => faults_sampleEvents e he) h

/-- While detect has a reply in its hands, its handler has not run in the pipeline. -/
theorem bounded_refines_detecting :
    ∃ t s, sampleBounded 8 = some t ∧ Matches t s ∧
      Pipeline.Reachable sampleDeployment (Decide fun _ => some (lit "application/pdf")) s ∧
      (s.service .detect).pool.length = 1 := by
  obtain ⟨t, ht⟩ := Option.isSome_iff_exists.mp (show (sampleBounded 8).isSome = true by rfl)
  have hview : (sampleBounded 8).map (fun t => ((t.node .detect).pool ++
      unsent (t.node .detect)).length) = some 1 := by rfl
  rw [ht, Option.map_some, Option.some.injEq] at hview
  obtain ⟨s, hr, hm⟩ := bounded_refines sampleDeployment (mainLimits 4) _ _ t
    (reaches_sampleBounded ht)
  exact ⟨t, s, ht, hm, hr, (hm.node .detect).pool.length_eq.trans hview⟩

/-! ## What a run has computed when it has come to rest -/

/-- What qm has made of the job: the statuses of the messages it finished the job with. -/
def outcomes (t : State P) (sub : Submission) : List Status :=
  (t.shared.handled.filter fun m => m.Finished ∧ m.key = sub.msg.key).map FileJobShm.status

/-- With nothing on its way in the bounded pipeline, nothing is on its way in the pipeline
it stands for. -/
theorem Matches.complete (h : Matches t s) (hq : Quiet t) : s.Complete := by
  refine List.flatMap_eq_nil_iff.mpr fun place _ => List.map_eq_nil_iff.mpr ?_
  cases place with
  | queue b =>
    show (s.queue b).filterMap IpcMessage.job? = []
    rw [(h.node b).queue, (hq.node b).1]
    rfl
  | pool b =>
    have hperm := (h.node b).pool
    rw [(hq.node b).2.1, unsent, (hq.node b).2.2] at hperm
    exact hperm.eq_nil

/-- A complete run of the pipeline has finished each job once. -/
theorem finished_once {v : Str → Option Str} (h : Pipeline.Reachable d (Decide v) s)
    (hids : s.submittedKeys.Nodup) (hcomplete : s.Complete) {sub : Submission}
    (hsub : sub ∈ s.submitted) :
    ∃ m, s.handled.filter (fun m => m.Finished ∧ m.key = sub.msg.key) = [m] ∧
      m.status = reference v d.create sub.msg.path.str := by
  have hnt : Pipeline.Reachable d NonThrowing s := by
    obtain ⟨fs, hr⟩ := h
    refine ⟨fs, hr.mono fun {_ a} hok => ?_⟩
    cases a with
    | runDetect i detectors => exact Decide.nonThrowing hok
    | _ => trivial
  have hretired : s.ledger.retired = s.ledger.minted := by
    have hcustody : s.ledger.custody = 0 := by
      show (s.located.map Prod.snd : Multiset FileJobShm).map FileJobShm.key = 0
      rw [show s.located = [] from hcomplete]
      rfl
    have hsum : s.ledger.custody + s.ledger.retired = s.ledger.minted := hnt.balanced
    rwa [hcustody, zero_add] at hsum
  have hcount : s.ledger.retired.count sub.msg.key = 1 := by
    rw [hretired]
    exact Multiset.count_eq_one_of_mem (Multiset.coe_nodup.mpr hids)
      (Multiset.mem_coe.mpr (List.mem_map_of_mem (f := fun sub => sub.msg.key) hsub))
  have hlength : (s.handled.filter fun m => m.Finished ∧ m.key = sub.msg.key).length = 1 := by
    rw [← hcount, Multiset.count, show s.ledger.retired = s.finishedKeys from rfl,
      Multiset.coe_countP, finishedKeys, List.countP_map, List.countP_filter,
      ← List.countP_eq_length_filter]
    refine List.countP_congr fun m _ => ?_
    simp only [Function.comp, Bool.and_eq_true, decide_eq_true_eq]
    exact ⟨fun hm => ⟨hm.2.symm, hm.1⟩, fun hm => ⟨hm.2, hm.1.symm⟩⟩
  obtain ⟨m, hm⟩ := List.length_eq_one_iff.mp hlength
  have hmem : m ∈ s.handled.filter fun m => m.Finished ∧ m.key = sub.msg.key := by
    rw [hm]
    exact List.mem_singleton_self m
  obtain ⟨hhandled, hp⟩ := List.mem_filter.mp hmem
  obtain ⟨hfin, hkey⟩ := of_decide_eq_true hp
  exact ⟨m, hm, (reference_of_handled h hids hsub hhandled hkey hfin).2⟩

/-- **The bounded pipeline computes the sequential reference**: when nothing was killed,
no two uploads got the same id, and the detectors do not throw and give a verdict `v` on
each path, then wherever all services take messages and nothing can go on any more qm has
finished each submitted job exactly once, with the status of the reference, and removed
exactly the files of the DONE ones. -/
theorem bounded_reference (d : Deployment P) (l : Limits) (hl : l.Positive)
    (v : Str → Option Str) (fs : FileSystem) (t : State P)
    (h : Reaches (network d l).step (fun _ => Faults False (Decide v)) (init fs) t)
    (hids : (t.shared.submitted.map fun sub => sub.msg.key).Nodup)
    (hall : ∀ b, (t.node b).stage = .receiving) (hstuck : (network d l).Stuck t) :
    (∀ sub ∈ t.shared.submitted,
      outcomes t sub = [reference v d.create sub.msg.path.str]) ∧
    ∀ path, path ∈ t.shared.removed ↔
      ∃ sub ∈ t.shared.submitted, sub.msg.path.str = path ∧ reference v d.create path = .done := by
  have hquiet := hstuck.quiet hl.capacity hl.threads hall
  obtain ⟨-, s, hr, hm⟩ := matches_of_reaches h
  have hreach : Pipeline.Reachable d (Decide v) s := ⟨fs, hr⟩
  have hcomplete := hm.complete hquiet
  -- every job has been accepted
  have hmsgs : ((s.submitted.map Submission.msg : List FileJobShm) : Multiset FileJobShm)
      = (t.shared.submitted.map Submission.msg : List FileJobShm) := by
    have hsub := hm.submitted
    rw [hquiet.outside] at hsub
    exact (add_zero _).symm.trans hsub
  have hperm := Multiset.coe_eq_coe.mp hmsgs
  have hkeys : s.submittedKeys.Nodup := by
    have hmap := (hperm.map FileJobShm.key).nodup_iff
    rw [List.map_map, List.map_map] at hmap
    exact hmap.mpr hids
  have hcomp := hreach.computed hkeys hcomplete
  have hfind : ∀ {sub : Submission}, sub ∈ t.shared.submitted →
      ∃ sub' ∈ s.submitted, sub'.msg = sub.msg := fun hsub =>
    List.mem_map.mp (hperm.symm.subset (List.mem_map_of_mem hsub))
  refine ⟨fun sub hsub => ?_, fun path => ?_⟩
  · obtain ⟨sub', hsub', hmsg⟩ := hfind hsub
    obtain ⟨r, hone, hstatus⟩ := finished_once hreach hkeys hcomplete hsub'
    have hsame : t.shared.handled.filter (fun m => m.Finished ∧ m.key = sub.msg.key)
        = s.handled.filter fun m => m.Finished ∧ m.key = sub.msg.key := by
      have hfilter := congrArg (List.filter fun m => m.key = sub.msg.key) hm.handled
      simp only [List.filter_filter] at hfilter
      simpa only [Bool.decide_and, Bool.and_comm] using hfilter.symm
    rw [hmsg] at hone hstatus
    rw [outcomes, hsame, hone, List.map_singleton, hstatus]
  · rw [← hm.removed, hcomp.removed]
    constructor
    · rintro ⟨sub, hsub, hpath, hdone⟩
      obtain ⟨sub', hsub', hmsg⟩ := List.mem_map.mp (hperm.subset (List.mem_map_of_mem hsub))
      exact ⟨sub', hsub', hmsg ▸ hpath, hdone⟩
    · rintro ⟨sub, hsub, hpath, hdone⟩
      obtain ⟨sub', hsub', hmsg⟩ := hfind hsub
      exact ⟨sub', hsub', hmsg ▸ hpath, hdone⟩

/-- The sample job ends as DONE. -/
theorem bounded_reference_done :
    ∃ t : State Unit, sampleBounded 21 = some t ∧ t.shared.submitted.length = 1 ∧
      ∀ sub ∈ t.shared.submitted, outcomes t sub = [.done] := by
  obtain ⟨t, ht⟩ := Option.isSome_iff_exists.mp (show (sampleBounded 21).isSome = true by rfl)
  have hlen : (sampleBounded 21).map (fun t => (t.shared.submitted.length, t.outside))
      = some (1, []) := by rfl
  have hnode : ∀ b, (sampleBounded 21).map (fun t => ((t.node b).stage, (t.node b).box,
      (t.node b).pool, (t.node b).busy)) = some (.receiving, [], [], []) := by
    intro b
    cases b <;> rfl
  simp only [ht, Option.map_some, Option.some.injEq, Prod.mk.injEq] at hlen hnode
  have hquiet : Quiet t := ⟨hlen.2, fun b => (hnode b).2⟩
  have hids : (t.shared.submitted.map fun sub => sub.msg.key).Nodup := by
    obtain ⟨sub, hsub⟩ := List.length_eq_one_iff.mp hlen.1
    rw [hsub]
    exact List.nodup_singleton _
  exact ⟨t, ht, hlen.1, (bounded_reference sampleDeployment (mainLimits 4)
    (positive_mainLimits (by decide)) _ _ t (reaches_sampleBounded ht) hids
    (fun b => (hnode b).1) (hquiet.stuck fun b => (hnode b).1)).1⟩

end Bounded

end Fika
