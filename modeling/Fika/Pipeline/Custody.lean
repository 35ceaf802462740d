import Mathlib.Algebra.Order.Group.Multiset
import Mathlib.Tactic.Abel
import Fika.Lib.Ledger
import Fika.Pipeline.Messages

/-!
# Job conservation

The pipeline as a custody ledger: an accepted upload mints its job's id, the
messages in flight hold the ids in custody, and qm retires an id when it handles
the job as DONE or FAILED. Every step of the pipeline with detectors that do not
throw is a step of the ledger or leaves it alone.

- `Place`, `located`, `carriers`: the messages in flight and where they are.
- `Drained`: a process that has exited left nothing in its pool, so a restart
  loses nothing.
- `ledger`, `ledger_step`: the simulation of the pipeline by its ledger.
- `job_conservation`: an unfinished job is carried by exactly one message, a
  finished one by none.
-/

namespace Fika

open Lib

universe u

/-- The job a message carries, if it is one. -/
def IpcMessage.job? : IpcMessage → Option FileJobShm
  | .fileJobShm job => some job
  | .poisonPill => none

/-- The id a message is known by, as `to_file_job` reads it. -/
def FileJobShm.key (m : FileJobShm) : Str := m.jobId.str

/-- qm is done with the job: it handles it as DONE or FAILED. -/
def FileJobShm.Finished (m : FileJobShm) : Prop := m.status = .done ∨ m.status = .failed

instance (m : FileJobShm) : Decidable m.Finished :=
  inferInstanceAs (Decidable (m.status = .done ∨ m.status = .failed))

namespace Pipeline

variable {P : Type u} {d : Deployment P} {s s' : Pipeline P} {b b' : Binary} {m : FileJobShm}

/-! ## Where the messages are -/

/-- Where a job message can be: in a queue or in a service's pool. -/
inductive Place where
  | queue (b : Binary)
  | pool (b : Binary)
deriving DecidableEq, Repr

/-- The six places. -/
def places : List Place :=
  [.queue .qm, .pool .qm, .queue .detect, .pool .detect, .queue .parse, .pool .parse]

/-- The job messages at a place. -/
def messagesAt (s : Pipeline P) : Place → List FileJobShm
  | .queue b => (s.queue b).filterMap IpcMessage.job?
  | .pool b => (s.service b).pool

/-- The job messages in flight, each with its place. -/
def located (s : Pipeline P) : List (Place × FileJobShm) :=
  places.flatMap fun p => (s.messagesAt p).map fun m => (p, m)

/-- The messages that carry the job with the given id, and where they are. -/
def carriers (s : Pipeline P) (id : Str) : List (Place × FileJobShm) :=
  s.located.filter fun c => c.2.key = id

/-- The job messages in flight. -/
def inflight (s : Pipeline P) : Multiset FileJobShm := (s.located.map Prod.snd : List FileJobShm)

/-- The job messages `b` holds. -/
def held (s : Pipeline P) (b : Binary) : Multiset FileJobShm :=
  (s.messagesAt (.queue b) : Multiset FileJobShm) + (s.messagesAt (.pool b) : List FileJobShm)

theorem inflight_eq (s : Pipeline P) :
    s.inflight = s.held .qm + s.held .detect + s.held .parse := by
  simp only [inflight, located, places, held, List.flatMap_cons, List.flatMap_nil,
    List.map_append, List.map_map, Function.comp_def, List.map_id', List.append_nil,
    ← Multiset.coe_add, Multiset.add_assoc]

/-- What one binary gains is what the pipeline gains. -/
theorem inflight_of_held {t : Multiset FileJobShm} (hb : s'.held b = t + s.held b)
    (hother : ∀ b', b' ≠ b → s'.held b' = s.held b') : s'.inflight = t + s.inflight := by
  rw [inflight_eq, inflight_eq]
  cases b with
  | qm =>
    rw [hb, hother .detect (by decide), hother .parse (by decide)]
    abel
  | detect =>
    rw [hb, hother .qm (by decide), hother .parse (by decide)]
    abel
  | parse =>
    rw [hb, hother .qm (by decide), hother .detect (by decide)]
    abel

theorem held_send_other {msg : IpcMessage} (h : b' ≠ b) :
    (s.send b msg).held b' = s.held b' := by
  simp only [held, messagesAt, send_queue_other msg h]
  rfl

theorem held_setService_other {sv : ServiceState} (h : b' ≠ b) :
    (s.setService b sv).held b' = s.held b' := by
  simp only [held, messagesAt, setService_service_other sv h]
  rfl

/-- Sending a job puts it into flight. -/
theorem inflight_send_job : (s.send b (.fileJobShm m)).inflight = m ::ₘ s.inflight := by
  refine inflight_of_held (t := {m}) ?_ fun _ => held_send_other
  simp only [held, messagesAt, send_queue_self, List.filterMap_append]
  show ((_ ++ [m] : List FileJobShm) : Multiset FileJobShm) + _ = _
  rw [← Multiset.coe_add, Multiset.coe_singleton]
  abel

/-- A pill is not a job. -/
theorem inflight_send_pill : (s.send b .poisonPill).inflight = s.inflight := by
  refine (inflight_of_held (t := 0) ?_ fun _ => held_send_other).trans (Multiset.zero_add _)
  simp only [held, messagesAt, send_queue_self, List.filterMap_append]
  show ((_ ++ [] : List FileJobShm) : Multiset FileJobShm) + _ = _
  rw [List.append_nil, Multiset.zero_add]
  rfl

/-- Receiving moves a job from the queue to the pool of the same binary. -/
theorem inflight_receive {msg : IpcMessage} {rest : List IpcMessage}
    (hq : s.queue b = msg :: rest) : (s.receive b msg rest).inflight = s.inflight := by
  refine (inflight_of_held (t := 0) (b := b) ?_ fun b' hb' => ?_).trans (Multiset.zero_add _)
  · simp only [held, messagesAt, receive_queue_self, receive_service_self, hq, Multiset.zero_add]
    cases msg with
    | poisonPill => rfl
    | fileJobShm job =>
      show _ + ((_ ++ [job] : List FileJobShm) : Multiset FileJobShm)
        = ((job :: _ : List FileJobShm) : Multiset FileJobShm) + _
      rw [← Multiset.coe_add, Multiset.coe_singleton, ← Multiset.cons_coe,
        ← Multiset.singleton_add]
      abel
  · simp only [held, messagesAt, receive_queue_other _ _ hb', receive_service_other _ _ hb']

/-- A handler that starts takes its job out of flight. -/
theorem inflight_unpost {i : Nat} (hpool : (s.service b).pool[i]? = some m) :
    s.inflight = m ::ₘ (s.unpost b i).inflight := by
  refine inflight_of_held (t := {m}) (b := b) ?_ fun b' hb' => (held_setService_other hb').symm
  obtain ⟨hi, hm⟩ := List.getElem?_eq_some_iff.mp hpool
  -- the pool without its `i`-th handler is the pool less that job
  have hperm : (s.service b).pool.Perm (m :: (s.service b).pool.eraseIdx i) := by
    rw [← hm]
    exact (List.getElem_cons_eraseIdx_perm hi).symm
  simp only [held, messagesAt, unpost, setService_service_self]
  rw [Multiset.coe_eq_coe.mpr hperm, ← Multiset.cons_coe, ← Multiset.singleton_add]
  show _ = {m} + (((s.queue b).filterMap IpcMessage.job? : Multiset FileJobShm) + _)
  abel

/-- Replacing a service that has nothing in its pool by one that has nothing. -/
theorem inflight_setService {sv : ServiceState} (hold : (s.service b).pool = [])
    (hnew : sv.pool = []) : (s.setService b sv).inflight = s.inflight := by
  refine (inflight_of_held (t := 0) (b := b) ?_
    fun b' hb' => held_setService_other hb').trans (Multiset.zero_add _)
  simp only [held, messagesAt, setService_service_self, hold, hnew, Multiset.zero_add]
  rfl

theorem inflight_relaunch (hempty : (s.service b).pool = []) :
    (s.relaunch b).inflight = s.inflight := by
  cases b <;> exact inflight_setService hempty rfl

/-! ## Drain before exit -/

/-- A process that has exited has nothing left in its pool. -/
def Drained (s : Pipeline P) : Prop :=
  ∀ b, (s.service b).phase = .exited → (s.service b).pool = []

theorem drained_of_service {sv : ServiceState} (h : s.Drained)
    (hb : s'.service = Function.update s.service b sv) (hsv : sv.phase = .exited → sv.pool = []) :
    s'.Drained := by
  intro b' hphase
  rw [hb] at hphase ⊢
  by_cases heq : b' = b
  · subst heq
    rw [Function.update_self] at hphase ⊢
    exact hsv hphase
  · rw [Function.update_of_ne heq] at hphase ⊢
    exact h b' hphase

theorem drained_unpost {i : Nat} (h : s.Drained) : (s.unpost b i).Drained :=
  drained_of_service h rfl fun hphase => by
    show (s.service b).pool.eraseIdx i = []
    rw [h b hphase]
    rfl

theorem drained_of_service_eq (h : s.Drained) (heq : s'.service = s.service) : s'.Drained := by
  intro b hphase
  rw [heq] at hphase ⊢
  exact h b hphase

theorem drained_step {a : Action} (h : s.Drained) (hs : step d s a = some s') : s'.Drained := by
  cases step_spec hs with
  | accepted hsent => exact h
  | refused hsent => exact h
  | pill b => exact h
  | @received b msg rest hphase hqueue =>
    refine drained_of_service h rfl fun hexit => ?_
    cases msg with
    | poisonPill => cases hexit
    | fileJobShm job =>
      -- the service was receiving when it took the message
      have hexit' : (s.service b).phase = .exited := hexit
      rw [hphase] at hexit'
      cases hexit'
  | ranQm hpool => exact drained_of_service_eq (drained_unpost h) (sendAll_service _)
  | ranDetect hpool => exact drained_of_service_eq (drained_unpost h) (sendAll_service _)
  | ranParse hpool => exact drained_of_service_eq (drained_unpost h) (sendAll_service _)
  | joined hphase hpool => exact drained_of_service h rfl fun _ => rfl
  | @restarted b hphase => cases b <;> exact drained_of_service h rfl fun _ => rfl

theorem Reachable.drained {chains : List FileDetector → Prop} (h : Reachable d chains s) :
    s.Drained := by
  obtain ⟨fs, hr⟩ := h
  exact hr.invariant (fun _ _ => rfl) fun hd _ hs => drained_step hd hs

/-! ## The ledger of a pipeline -/

/-- The ids ingestd has submitted. -/
def submittedKeys (s : Pipeline P) : List Str := s.submitted.map fun sub => sub.msg.key

/-- The ids of the jobs qm has handled as DONE or FAILED. -/
def finishedKeys (s : Pipeline P) : List Str :=
  (s.handled.filter fun m => m.Finished).map FileJobShm.key

/-- Minted at submission, in custody in flight, retired at the last handling. -/
def ledger (s : Pipeline P) : Ledger Str where
  minted := s.submittedKeys
  custody := s.inflight.map FileJobShm.key
  retired := s.finishedKeys

theorem key_forwarded (h : m.Terminated) (status : Status) (type : JobType) :
    (forwarded m status type).key = m.key :=
  FileJobShm.reencode_jobId_str h

/-- A handler that passes its job on, under the same id, moves no token. -/
theorem ledger_exchange {i : Nat} {r : FileJobShm} (hpool : (s.service b).pool[i]? = some m)
    (hkey : r.key = m.key) (hsub : s'.submitted = s.submitted)
    (hfin : s'.finishedKeys = s.finishedKeys)
    (hfl : s'.inflight = r ::ₘ (s.unpost b i).inflight) : s'.ledger = s.ledger := by
  have hcustody : s'.inflight.map FileJobShm.key = s.inflight.map FileJobShm.key := by
    rw [hfl, inflight_unpost hpool, Multiset.map_cons, Multiset.map_cons, hkey]
  simp only [ledger, submittedKeys, hsub, hfin, hcustody]

/-- qm passes an unfinished job on and keeps a finished one. -/
theorem ledger_handleQm {i : Nat} (hpool : (s.service .qm).pool[i]? = some m)
    (h : WellFormed .qm m) :
    Ledger.Step s.ledger ((s.unpost .qm i).handleQm m).ledger ∨
      ((s.unpost .qm i).handleQm m).ledger = s.ledger := by
  have hsub : ((s.unpost .qm i).handleQm m).submitted = s.submitted := by
    rw [handleQm, sendAll_submitted]
    rfl
  have hfin : ((s.unpost .qm i).handleQm m).finishedKeys
      = if m.Finished then m.key :: s.finishedKeys else s.finishedKeys := by
    rw [finishedKeys, handleQm, sendAll_handled, List.filter_cons]
    by_cases hm : m.Finished
    · rw [if_pos (decide_eq_true hm), if_pos hm]
      rfl
    · rw [if_neg (by simpa using hm), if_neg hm]
      rfl
  -- qm forwards one message under the same id: no token moves
  have pass : ∀ {b : Binary} {r : FileJobShm}, ¬ m.Finished → r.key = m.key →
      (processResults s.qm m).sent = [(b, .fileJobShm r)] →
      ((s.unpost .qm i).handleQm m).ledger = s.ledger := by
    intro b r hm hkey hsent
    rw [if_neg hm] at hfin
    refine ledger_exchange hpool hkey hsub hfin ?_
    have hsent' : (processResults (s.unpost .qm i).qm m).sent = [(b, .fileJobShm r)] := hsent
    rw [handleQm, hsent']
    exact inflight_send_job
  -- qm sends nothing on: the token is retired
  have keep : m.Finished → (processResults s.qm m).sent = [] →
      Ledger.Step s.ledger ((s.unpost .qm i).handleQm m).ledger := by
    intro hm hsent
    rw [if_pos hm] at hfin
    have hsent' : (processResults (s.unpost .qm i).qm m).sent = [] := hsent
    have hfl : ((s.unpost .qm i).handleQm m).inflight = (s.unpost .qm i).inflight := by
      rw [handleQm, hsent']
      rfl
    simp only [ledger, submittedKeys, hsub, hfin, hfl, inflight_unpost hpool, Multiset.map_cons,
      ← Multiset.cons_coe]
    exact .retire m.key
  cases h.discipline with
  | submitted hs =>
    exact .inr (pass (by simp [FileJobShm.Finished, hs]) (key_forwarded h.terminated _ _)
      (processResults_new hs).1)
  | detected hs ht =>
    exact .inr (pass (by simp [FileJobShm.Finished, hs]) (key_forwarded h.terminated _ _)
      (processResults_detecting hs).1)
  | parsed hs ht => exact .inl (keep (.inl hs) (processResults_done hs).1)
  | failed hs => exact .inl (keep (.inr hs) (processResults_failed hs).1)

/-- **The pipeline is simulated by its ledger**: with detectors that do not
throw, each step mints one id, retires one, or moves none. -/
theorem ledger_step {a : Action} (hcached : s.parsers.Cached d.create) (hdrained : s.Drained)
    (hwf : EveryMessage (fun _ b m => WellFormed b m) s) (hok : Chains NonThrowing s a)
    (hs : step d s a = some s') : Ledger.Step s.ledger s'.ledger ∨ s'.ledger = s.ledger := by
  cases step_spec hs with
  | @accepted req m hsent =>
    refine .inl ?_
    simp only [ledger, inflight_send_job, Multiset.map_cons]
    exact .mint m.key
  | refused hsent => exact .inr rfl
  | pill b =>
    refine .inr ?_
    simp only [ledger, inflight_send_pill]
    rfl
  | received hphase hqueue =>
    refine .inr ?_
    simp only [ledger, inflight_receive hqueue]
    rfl
  | ranQm hpool => exact ledger_handleQm hpool (hwf.held (.inr (List.mem_of_getElem? hpool)))
  | @ranDetect i detectors m hpool =>
    have hquiet : QuietChain detectors m.path.str := NonThrowing.quiet hok _
    refine .inr (ledger_exchange (r := detectReply detectors m) hpool rfl ?_ ?_ ?_)
    · rw [handleDetect, sendAll_submitted]
      rfl
    · rw [finishedKeys, handleDetect, sendAll_handled]
      rfl
    · rw [handleDetect, detectReplies_quiet hquiet]
      exact inflight_send_job
  | @ranParse i m hpool =>
    have hsent : (parseHandle d.create (s.unpost .parse i).parsers m).1
        = [(.qm, .fileJobShm (parseReply d.create m))] := parseHandle_sent hcached m
    refine .inr (ledger_exchange (r := parseReply d.create m) hpool rfl ?_ ?_ ?_)
    · rw [handleParse, sendAll_submitted]
      rfl
    · rw [finishedKeys, handleParse, sendAll_handled]
      rfl
    · rw [handleParse, hsent]
      exact inflight_send_job
  | joined hphase hpool =>
    refine .inr ?_
    simp only [ledger, inflight_setService hpool]
    rfl
  | @restarted b hphase =>
    refine .inr ?_
    -- the old process left nothing behind that a restart could lose
    have hfl := inflight_relaunch (hdrained b hphase)
    cases b <;> simp only [ledger, hfl] <;> rfl

/-- Every submitted job is accounted for in every reachable state. -/
theorem Reachable.balanced (h : Reachable d NonThrowing s) : s.ledger.Balanced := by
  obtain ⟨fs, hr⟩ := h
  have hinit : (init fs : Pipeline P).ledger.Balanced := rfl
  refine hinit.run (hr.simulate ledger fun hra hok hs => ?_)
  have hreach : Reachable d NonThrowing _ := ⟨fs, hra⟩
  exact ledger_step hreach.cached hreach.drained hreach.wellFormed hok hs

/-! ## Conservation -/

theorem length_carriers (s : Pipeline P) (id : Str) :
    (s.carriers id).length = s.ledger.custody.count id := by
  show _ = Multiset.count id ((s.located.map Prod.snd : Multiset FileJobShm).map FileJobShm.key)
  rw [Multiset.map_coe, Multiset.count, Multiset.coe_countP, List.map_map, List.countP_map,
    carriers, ← List.countP_eq_length_filter]
  exact List.countP_congr fun c _ => by simp [eq_comm]

/-- **Job conservation**: in every reachable state, under any interleaving of
uploads, receives, handlers, pills, exits and restarts, a submitted job that qm
has not handled as DONE or FAILED is carried by exactly one message, at one
place; a finished job is carried by none, and no other job is carried at all. -/
theorem job_conservation (d : Deployment P) (s : Pipeline P) (h : Reachable d NonThrowing s)
    (hids : s.submittedKeys.Nodup) :
    ∀ id,
      (id ∈ s.submittedKeys → id ∉ s.finishedKeys → ∃ place m, s.carriers id = [(place, m)]) ∧
      (id ∈ s.finishedKeys → s.carriers id = []) ∧
      (id ∉ s.submittedKeys → s.carriers id = []) := by
  intro id
  have hb := h.balanced
  have hnd : s.ledger.minted.Nodup := Multiset.coe_nodup.mpr hids
  refine ⟨fun hsub hfin => ?_, fun hfin => ?_, fun hsub => ?_⟩
  · have hone := hb.custody_of_not_retired hnd (Multiset.mem_coe.mpr hsub)
      (fun hr => hfin (Multiset.mem_coe.mp hr))
    rw [← length_carriers] at hone
    obtain ⟨c, hc⟩ := List.length_eq_one_iff.mp hone
    exact ⟨c.1, c.2, hc⟩
  · have hzero := hb.custody_of_retired hnd (Multiset.mem_coe.mpr hfin)
    rw [← length_carriers] at hzero
    exact List.length_eq_zero_iff.mp hzero
  · -- an id that was never minted is neither in custody nor retired
    have hsum := hb.count_add id
    have hzero : s.ledger.minted.count id = 0 :=
      Multiset.count_eq_zero_of_notMem fun hm => hsub (Multiset.mem_coe.mp hm)
    rw [hzero, ← length_carriers] at hsum
    exact List.length_eq_zero_iff.mp (Nat.eq_zero_of_add_eq_zero_right hsum)

/-- One of two jobs is finished, and nothing carries it any more; the other one is still
being detected, and one message carries it. -/
theorem job_conservation_detecting :
    ∃ s : Pipeline Unit, crossedState 15 = some s ∧ s.submittedKeys.length = 2 ∧
      s.finishedKeys.length = 1 ∧ (s.service .detect).pool.length = 1 ∧
      ∀ id, (id ∈ s.submittedKeys → id ∉ s.finishedKeys →
          ∃ place m, s.carriers id = [(place, m)]) ∧
        (id ∈ s.finishedKeys → s.carriers id = []) := by
  obtain ⟨s, hs⟩ := Option.isSome_iff_exists.mp (show (crossedState 15).isSome = true by rfl)
  have hview : (crossedState 15).map (fun s => (s.submittedKeys.length, s.finishedKeys.length,
      (s.service .detect).pool.length, decide s.submittedKeys.Nodup)) = some (2, 1, 1, true) := by
    rfl
  simp only [hs, Option.map_some, Option.some.injEq, Prod.mk.injEq, decide_eq_true_eq] at hview
  obtain ⟨hsubmitted, hfinished, hpool, hids⟩ := hview
  refine ⟨s, hs, hsubmitted, hfinished, hpool, fun id => ?_⟩
  have hid := job_conservation sampleDeployment s
    (crossedState_reachable nonThrowing_sampleDetectors hs) hids id
  exact ⟨hid.1, hid.2.1⟩

end Pipeline

end Fika
