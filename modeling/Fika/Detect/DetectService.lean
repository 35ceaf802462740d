import Mathlib.Data.List.TakeWhile
import Fika.Global.Service

/-!
# Detection (`detector.cpp`, `detect_service.cpp`, `detect/src/main.cpp`)

The detect service asks a chain of detectors for the MIME type of a job's file
and replies to qm. A detector returns any string or throws (`magic_handle`
throws when libmagic returns no string).

- `detectFile`: the chain, which an exception of a detector leaves at once.
- `detectHandle`, `detectReplies`: `detect_service::handle`, and what it has put
  on queues once the posted lambda has swallowed an exception.
- `detectReplies_quiet`, `detectReplies_loud`: a chain in which no detector
  throws before the first usable verdict answers with that verdict; any other
  chain sends nothing.
- `answered_iff`: so a job is answered exactly on the quiet chains.
-/

namespace Fika

open Lib

/-- `file_detector`: a source identifier, and a verdict or an exception for
each file. -/
structure FileDetector where
  name : Str
  detect : Str → Except Str Str

/-- `detect::detection_result`. -/
structure DetectionResult where
  mimeType : Str
  source : Str
  confidence : Rat := 1

/-- A verdict the chain stops at: not empty and not the fallback type. -/
def usable (mime : Str) : Bool := mime ≠ [] && mime ≠ octetStream

/-- `detector::detect_file`. -/
def detectFile : List FileDetector → Str → Except Str DetectionResult
  | [], _ => .ok { mimeType := octetStream, source := lit "none" }
  | det :: detectors, file => do
    let mime ← det.detect file
    if usable mime then
      return { mimeType := mime, source := det.name }
    detectFile detectors file

/-- The senders `main` of detect registers. -/
def detectSenders : Senders := addSender [] (lit "qm") (.msgQueueSender .qm)

/-- `detect_service::handle` on a job message. -/
def detectHandle (detectors : List FileDetector) (fileJob : FileJobShm) :
    Except Str (List (Binary × IpcMessage)) := do
  let result ← detectFile detectors fileJob.path.str
  let jobFromMsg : FileJobShm :=
    { fileJob with
      mime := mapType result.mimeType
      status := if result.mimeType ≠ octetStream then .detecting else .failed }
  return deliver detectSenders (lit "qm") (.fileJobShm jobFromMsg)

/-- The messages on queues after the posted handler of a job message has run. -/
def detectReplies (detectors : List FileDetector) (fileJob : FileJobShm) :
    List (Binary × IpcMessage) :=
  posted (detectHandle detectors fileJob)

@[simp] theorem deliver_detect_qm (msg : IpcMessage) :
    deliver detectSenders (lit "qm") msg = [(.qm, msg)] := by
  have h : getSender detectSenders (lit "qm") = some (.msgQueueSender .qm) := by decide
  rw [deliver, h]

/-! ## What a chain knows about a file -/

namespace FileDetector

/-- The detector returns a usable verdict on `file`. -/
def hasVerdict (file : Str) (det : FileDetector) : Bool :=
  match det.detect file with
  | .ok mime => usable mime
  | .error _ => false

/-- The detector throws on `file`. -/
def throws (file : Str) (det : FileDetector) : Bool :=
  match det.detect file with
  | .ok _ => false
  | .error _ => true

end FileDetector

/-- The first usable verdict of the chain, a throwing detector having none. -/
def verdict (detectors : List FileDetector) (file : Str) : Option Str :=
  (detectors.filterMap fun det => (det.detect file).toOption).find? usable

/-- The type a reply carries: that of the verdict, or of the fallback. -/
def verdictType (detectors : List FileDetector) (file : Str) : MimeType :=
  mapType ((verdict detectors file).getD octetStream)

/-- No detector of the chain throws before the first usable verdict. -/
def QuietChain (detectors : List FileDetector) (file : Str) : Prop :=
  ∀ det ∈ detectors.takeWhile (fun det => !det.hasVerdict file), det.throws file = false

instance (detectors : List FileDetector) (file : Str) : Decidable (QuietChain detectors file) :=
  inferInstanceAs (Decidable (∀ det ∈ _, _))

/-- Detectors that return a string on every file. -/
def NonThrowing (detectors : List FileDetector) : Prop :=
  ∀ det ∈ detectors, ∀ file, det.throws file = false

theorem NonThrowing.quiet {detectors : List FileDetector} (h : NonThrowing detectors)
    (file : Str) : QuietChain detectors file := fun det hdet =>
  h det (List.takeWhile_sublist _ |>.subset hdet) file

theorem usable_of_verdict {detectors : List FileDetector} {file mime : Str}
    (h : verdict detectors file = some mime) : usable mime = true :=
  List.find?_some h

theorem not_usable_octetStream : usable octetStream = false := by decide

/-- A chain has a verdict exactly when one of its detectors has. -/
theorem verdict_isSome (detectors : List FileDetector) (file : Str) :
    (verdict detectors file).isSome = detectors.any (·.hasVerdict file) := by
  induction detectors with
  | nil => rfl
  | cons det detectors ih =>
    rw [List.any_cons, ← ih]
    unfold verdict FileDetector.hasVerdict
    cases hd : det.detect file with
    | error e => simp [hd, Except.toOption]
    | ok mime =>
      cases hu : usable mime <;> simp [hd, hu, Except.toOption]

/-! ## What the chain returns -/

/-- A quiet chain returns its verdict, or the fallback when it has none. -/
theorem detectFile_quiet {detectors : List FileDetector} {file : Str}
    (h : QuietChain detectors file) :
    ∃ r, detectFile detectors file = .ok r ∧
      r.mimeType = (verdict detectors file).getD octetStream := by
  induction detectors with
  | nil => exact ⟨_, rfl, rfl⟩
  | cons det detectors ih =>
    -- a throwing head is before the first verdict, so the chain is not quiet
    cases hd : det.detect file with
    | error e =>
      have hv : det.hasVerdict file = false := by rw [FileDetector.hasVerdict, hd]
      have ht := h det (by rw [List.takeWhile_cons_of_pos (by simp [hv])]; exact List.mem_cons_self)
      rw [FileDetector.throws, hd] at ht
      cases ht
    | ok mime =>
      have hdf : detectFile (det :: detectors) file
          = if usable mime then .ok { mimeType := mime, source := det.name }
            else detectFile detectors file := by
        rw [detectFile, hd]
        rfl
      have hvd : verdict (det :: detectors) file
          = if usable mime then some mime else verdict detectors file := by
        unfold verdict
        rw [List.filterMap_cons, hd]
        show List.find? usable (mime :: _) = _
        rw [List.find?_cons]
        cases usable mime <;> rfl
      -- the loop returns at a usable verdict and goes on otherwise, as `find?` does
      cases hu : usable mime with
      | true =>
        rw [hdf, hvd, hu]
        exact ⟨_, rfl, rfl⟩
      | false =>
        have hv : det.hasVerdict file = false := by rw [FileDetector.hasVerdict, hd]; exact hu
        have hrest : QuietChain detectors file := fun d hmem =>
          h d (by rw [List.takeWhile_cons_of_pos (by simp [hv])]; exact List.mem_cons_of_mem _ hmem)
        rw [hdf, hvd, hu]
        exact ih hrest

/-- A chain with a detector that throws before the first verdict throws. -/
theorem detectFile_loud {detectors : List FileDetector} {file : Str}
    (h : ¬ QuietChain detectors file) : ∃ e, detectFile detectors file = .error e := by
  induction detectors with
  | nil => exact absurd (fun _ hmem => nomatch hmem) h
  | cons det detectors ih =>
    cases hd : det.detect file with
    | error e => exact ⟨e, by rw [detectFile, hd]; rfl⟩
    | ok mime =>
      have ht : det.throws file = false := by rw [FileDetector.throws, hd]
      have hv : det.hasVerdict file = usable mime := by rw [FileDetector.hasVerdict, hd]
      cases hu : usable mime with
      | true =>
        refine absurd (fun d hmem => ?_) h
        rw [List.takeWhile_cons_of_neg (by simp [hv, hu])] at hmem
        cases hmem
      | false =>
        -- the head is passed over: the throw comes later in the chain
        have hrest : ¬ QuietChain detectors file := fun hq => h fun d hmem => by
          rw [List.takeWhile_cons_of_pos (by simp [hv, hu])] at hmem
          rcases List.mem_cons.mp hmem with rfl | hmem
          · exact ht
          · exact hq d hmem
        obtain ⟨e, he⟩ := ih hrest
        refine ⟨e, ?_⟩
        rw [detectFile, hd]
        show (if usable mime = true then _ else _) = _
        rw [hu]
        exact he

/-! ## What the service sends -/

/-- The reply of a quiet chain. -/
def detectReply (detectors : List FileDetector) (m : FileJobShm) : FileJobShm :=
  { m with
    mime := verdictType detectors m.path.str
    status := if (verdict detectors m.path.str).isSome then .detecting else .failed }

/-- A quiet chain answers each job with one message. -/
theorem detectReplies_quiet {detectors : List FileDetector} {m : FileJobShm}
    (h : QuietChain detectors m.path.str) :
    detectReplies detectors m = [(.qm, .fileJobShm (detectReply detectors m))] := by
  obtain ⟨r, hr, hmime⟩ := detectFile_quiet h
  have hstatus : (if r.mimeType ≠ octetStream then Status.detecting else Status.failed)
      = if (verdict detectors m.path.str).isSome then .detecting else .failed := by
    rw [hmime]
    cases hv : verdict detectors m.path.str with
    | none => rfl
    | some mime =>
      -- a usable verdict is not the fallback, so the status test of `handle` succeeds
      have hne : mime ≠ octetStream := by
        rintro rfl
        exact Bool.false_ne_true (not_usable_octetStream.symm.trans (usable_of_verdict hv))
      rw [Option.getD_some, if_pos hne]
      rfl
  rw [detectReplies, detectHandle, hr]
  show deliver detectSenders (lit "qm") (.fileJobShm { m with
    mime := mapType r.mimeType
    status := if r.mimeType ≠ octetStream then .detecting else .failed }) = _
  rw [deliver_detect_qm, hstatus, hmime]
  rfl

/-- Any other chain throws, and the exception swallows the reply. -/
theorem detectReplies_loud {detectors : List FileDetector} {m : FileJobShm}
    (h : ¬ QuietChain detectors m.path.str) : detectReplies detectors m = [] := by
  obtain ⟨e, he⟩ := detectFile_loud h
  rw [detectReplies, detectHandle, he]
  rfl

/-- The job is answered: exactly one message, on the qm inbox, with the job's
id and path and the status that the verdicts of all detectors call for. -/
def Answered (detectors : List FileDetector) (m : FileJobShm) : Prop :=
  ∃ r : FileJobShm, detectReplies detectors m = [(.qm, .fileJobShm r)] ∧
    r.jobId = m.jobId ∧ r.path = m.path ∧
    r.status = if detectors.any (·.hasVerdict m.path.str) then .detecting else .failed

/-- **A dispatched job is answered exactly when no detector throws before the
first usable verdict.** -/
theorem answered_iff (detectors : List FileDetector) (m : FileJobShm) :
    Answered detectors m ↔ QuietChain detectors m.path.str := by
  constructor
  · rintro ⟨r, hr, -, -, -⟩
    by_contra hloud
    rw [detectReplies_loud hloud] at hr
    cases hr
  · intro hquiet
    refine ⟨detectReply detectors m, detectReplies_quiet hquiet, rfl, rfl, ?_⟩
    rw [← verdict_isSome]
    rfl

/-- A chain whose first detector throws, with a second one that knows the file. -/
theorem unanswered_after_throw :
    ¬ ∀ (detectors : List FileDetector) (m : FileJobShm), Answered detectors m := by
  intro h
  have hans := h
    [{ name := lit "libmagic", detect := fun _ => .error (lit "cannot open") },
      { name := lit "custom", detect := fun _ => .ok (lit "application/pdf") }] {}
  obtain ⟨r, hr, -⟩ := hans
  cases hr

end Fika
