import Fika.Pipeline.Reference

/-!
# Recognised documents (`parser_registry.cpp`, `parse_service.cpp`)

`create_parser` has a case of its own for three document types, and each of them
returns null: the parsers the type table names do not exist yet. Everything
behind a successful lookup is therefore out of reach, in the parse service (the
DONE reply, the cache) as in qm (the branch that removes the spool file).

- `registryAfter`: the states of the parse service, by the jobs it has handled.
- `parse_replies_failed`: every job is answered FAILED, whatever was looked up
  before.
- `neverDone_reachable`: no message of the pipeline is ever DONE.
- `recognised_documents_fail`: no recognised document completes, and no spool
  file is removed.
-/

namespace Fika

open Lib

universe u

/-! ## The parse service -/

/-- The types `create_parser` has a case of its own for. -/
def Recognised (mimeType : MimeType) : Prop :=
  mimeType = .pdf ∨ mimeType = .textPlain ∨ mimeType = .imageJpeg

/-- The registry of a parse service that has handled these jobs, in order. -/
def registryAfter {P : Type u} (create : MimeType → Option P) (jobs : List FileJobShm) :
    ParserRegistry P :=
  jobs.foldl (fun registry job => (parseHandle create registry job).2) {}

/-- The parse service that has handled `jobs` answers `m` with the status DONE. -/
def RepliesDone (P : Type u) (jobs : List FileJobShm) (m : FileJobShm) : Prop :=
  (parseHandle (createParser P) (registryAfter (createParser P) jobs) m).1 =
    [(.qm, .fileJobShm { m with status := .done })]

theorem createParser_eq_none (P : Type u) (mimeType : MimeType) :
    createParser P mimeType = none := by
  cases mimeType <;> rfl

/-- The cache stays faithful over any history of jobs. -/
theorem cached_foldl {P : Type u} {create : MimeType → Option P} (jobs : List FileJobShm)
    {registry : ParserRegistry P} (h : registry.Cached create) :
    (jobs.foldl (fun registry job => (parseHandle create registry job).2) registry).Cached
      create := by
  induction jobs generalizing registry with
  | nil => exact h
  | cons job jobs ih => exact ih (cached_parseHandle h job)

theorem cached_registryAfter {P : Type u} (create : MimeType → Option P)
    (jobs : List FileJobShm) : (registryAfter create jobs).Cached create :=
  cached_foldl jobs (cached_empty create)

/-- Without parsers the reply is FAILED. -/
theorem parseReply_createParser (P : Type u) (m : FileJobShm) :
    parseReply (createParser P) m = { m with status := .failed } := by
  rw [parseReply, createParser_eq_none]
  rfl

/-- The reply of the parse service, in any state it can be in. -/
theorem parse_replies_failed (P : Type u) (jobs : List FileJobShm) (m : FileJobShm) :
    (parseHandle (createParser P) (registryAfter (createParser P) jobs) m).1 =
      [(.qm, .fileJobShm { m with status := .failed })] := by
  rw [parseHandle_sent (cached_registryAfter _ jobs), parseReply_createParser]

theorem not_repliesDone (P : Type u) (jobs : List FileJobShm) (m : FileJobShm) :
    ¬ RepliesDone P jobs m := by
  intro h
  rw [RepliesDone, parse_replies_failed] at h
  have hmsg : ({ m with status := .failed } : FileJobShm) = { m with status := .done } :=
    IpcMessage.fileJobShm.inj (Prod.mk.inj (List.cons.inj h).1).2
  have hstatus := congrArg FileJobShm.status hmsg
  cases hstatus

/-! ## The pipeline -/

/-- A deployment with the parsers of the source. -/
def sourceDeployment (P : Type u) (config : Config) : Deployment P where
  config := config
  create := createParser P

/-- The reference without parsers. -/
theorem reference_createParser (P : Type u) (v : Str → Option Str) (path : Str) :
    reference v (createParser P) path = .failed := by
  rw [reference]
  cases v path with
  | none => rfl
  | some mime =>
    show (if (createParser P (mapType mime)).isSome then Status.done else .failed) = .failed
    rw [createParser_eq_none]
    rfl

namespace Pipeline

variable {P : Type u} {config : Config} {s : Pipeline P} {chains : List FileDetector → Prop}

/-- A message keeps the discipline of its queue and is not DONE. -/
structure NeverDone (b : Binary) (m : FileJobShm) : Prop where
  discipline : Discipline b m
  notDone : m.status ≠ .done

/-- No writer produces the status DONE: the one that could finds no parser. -/
theorem localInvariant_neverDone (config : Config) (chains : List FileDetector → Prop) :
    LocalInvariant (sourceDeployment P config) chains fun _ b m => NeverDone b m where
  mono _ h := h
  ingest hsent _ := by
    rw [upload_sent hsent]
    exact ⟨.submitted rfl, nofun⟩
  qm h hr := by
    rcases mem_qm_sent h.discipline hr with ⟨-, rfl, rfl⟩ | ⟨-, rfl, rfl⟩
    · exact ⟨.detecting rfl rfl, nofun⟩
    · exact ⟨.parsing rfl rfl, nofun⟩
  detect {_ detectors m _ _} _ _ h hr := by
    obtain ⟨rfl, -, rfl⟩ := mem_detectReplies hr
    refine ⟨discipline_detectReply h.discipline, ?_⟩
    show (if (verdict detectors m.path.str).isSome then Status.detecting else .failed) ≠ .done
    split <;> decide
  parse h := by
    refine ⟨discipline_parseReply h.discipline, ?_⟩
    show (parseReply (createParser P) _).status ≠ .done
    rw [parseReply_createParser]
    nofun

theorem neverDone_reachable (h : Reachable (sourceDeployment P config) chains s) :
    EveryMessage (fun _ b m => NeverDone b m) s :=
  (localInvariant_neverDone config chains).reachable h

/-- No spool file is removed. -/
theorem removed_nil (h : Reachable (sourceDeployment P config) chains s) : s.removed = [] := by
  have hnone : s.handled.filter (fun m => m.status = .done) = [] := by
    refine List.filter_eq_nil_iff.mpr fun m hm hdone => ?_
    exact ((neverDone_reachable h).handled hm).notDone (of_decide_eq_true hdone)
  rw [removed_eq h, hnone]
  rfl

/-- Every job of a complete run has failed. -/
theorem lastStatus_failed {v : Str → Option Str}
    (h : Reachable (sourceDeployment P config) (Decide v) s) (hids : s.submittedKeys.Nodup)
    (hcomplete : s.Complete) : ∀ sub ∈ s.submitted, s.lastStatus sub.msg.key = some .failed := by
  intro sub hsub
  rw [(h.computed hids hcomplete).lastStatus sub hsub]
  exact congrArg some (reference_createParser P v _)

/-- **No recognised document completes**: in every state of the parse service, a
job of a recognised type is answered FAILED; and in every reachable state of the
pipeline, whatever the detectors say, qm has handled no DONE message, none is on
its way, and no spool file has been removed. -/
theorem recognised_documents_fail (P : Type u) :
    (∀ (mime : Str) (jobs : List FileJobShm) (m : FileJobShm), Recognised (mapType mime) →
      m.mime = mapType mime → ¬ RepliesDone P jobs m ∧
        (parseHandle (createParser P) (registryAfter (createParser P) jobs) m).1 =
          [(.qm, .fileJobShm { m with status := .failed })]) ∧
    (∀ (config : Config) (s : Pipeline P),
      Reachable (sourceDeployment P config) (fun _ => True) s →
        (∀ m ∈ s.handled, m.status ≠ .done) ∧ (∀ b m, s.Holds b m → m.status ≠ .done) ∧
          s.removed = []) := by
  refine ⟨fun _ jobs m _ _ => ⟨not_repliesDone P jobs m, parse_replies_failed P jobs m⟩,
    fun config s h => ⟨fun m hm => ?_, fun b m hm => ?_, removed_nil h⟩⟩
  · exact ((neverDone_reachable h).handled hm).notDone
  · exact ((neverDone_reachable h).held hm).notDone

/-- The run of `sampleRun` with the parsers of the source. -/
def unparsedState : Option (Pipeline Unit) :=
  run (step (sourceDeployment Unit { fikaSpoolDir := lit "/spool" })) (init fun _ => none) sampleRun

/-- A PDF document goes all the way through the pipeline and its file stays. -/
theorem recognised_documents_fail_pdf :
    (∃ s, unparsedState = some s ∧ s.Complete ∧ s.handled.length = 3 ∧ s.removed = []) ∧
      ¬ RepliesDone Unit [] { mime := mapType (lit "application/pdf") } := by
  obtain ⟨s, hs⟩ := Option.isSome_iff_exists.mp (show unparsedState.isSome = true by rfl)
  have hlen : unparsedState.map (fun s => (s.located, s.handled.length)) = some ([], 3) := by rfl
  rw [hs, Option.map_some, Option.some.injEq, Prod.mk.injEq] at hlen
  have hreach : Reachable (sourceDeployment Unit { fikaSpoolDir := lit "/spool" })
      (fun _ => True) s :=
    ⟨_, reaches_of_run (runOk_of_forall fun a _ _ => by cases a <;> trivial) hs⟩
  obtain ⟨hreplies, hruns⟩ := recognised_documents_fail Unit
  exact ⟨⟨s, hs, hlen.1, hlen.2, (hruns _ s hreach).2.2⟩,
    (hreplies (lit "application/pdf") [] _ (.inl (by decide)) rfl).1⟩

/-- A PDF document is recognised and not completed. -/
theorem recognised_pdf_not_done :
    ¬ ∀ (mime : Str) (jobs : List FileJobShm) (m : FileJobShm), Recognised (mapType mime) →
      m.mime = mapType mime → RepliesDone Unit jobs m := fun h =>
  not_repliesDone Unit [] _
    (h (lit "application/pdf") [] { mime := .pdf } (.inl (by decide)) (by decide))

end Pipeline

end Fika
