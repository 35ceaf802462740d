import Fika.Ingestd.Ingestd

/-!
# What an upload's answer says (`ingestd::run`, `ingestd::handle_file`)

The handler of `/upload` writes a temporary file without looking at the stream,
lets `handle_file` rename it, and answers "Job submitted" whatever came of the
two: `handle_file` returns nothing, a failed rename is only logged.

- `Queued`: the complete body is at the destination, and the one message sent
  names it.
- `Acknowledged`: the answer is the success response exactly when the upload is
  queued, and an error with nothing sent otherwise.
- `acknowledged_iff`: that holds exactly for an empty body and for an upload
  whose temporary file is complete, whose rename succeeds and whose path fits
  the message.
-/

namespace Fika

open Lib

variable {c : Config} {req : UploadRequest} {fs : FileSystem}

/-! ## Answers -/

/-- The answer is the success response. -/
def UploadResult.Success (r : UploadResult) : Prop :=
  r.response = { status := 200, content := lit "Job submitted\n" }

/-- The answer is an HTTP error. -/
def UploadResult.ReportsError (r : UploadResult) : Prop := 400 ≤ r.response.status

theorem UploadResult.Success.not_reportsError {r : UploadResult} (h : r.Success) :
    ¬ r.ReportsError := by
  rw [UploadResult.ReportsError, h]
  decide

/-- The body is stored at the destination, and one message that names it is sent. -/
def Queued (c : Config) (req : UploadRequest) (fs : FileSystem) : Prop :=
  (upload c req fs).fs (spoolPath c req.now) = some req.body ∧
    ∃ m, (upload c req fs).sent = some m ∧ m.path.str = spoolPath c req.now

/-- Acknowledged means queued, and anything else is an error without a message. -/
structure Acknowledged (c : Config) (req : UploadRequest) (fs : FileSystem) : Prop where
  success_iff : (upload c req fs).Success ↔ Queued c req fs
  otherwise : ¬ Queued c req fs → (upload c req fs).ReportsError ∧ (upload c req fs).sent = none

/-! ## The file operations -/

/-- The temporary file is the whole body when it comes to the rename: it was
opened and written to the end, or it could not be opened and already held the
same bytes. -/
def TmpComplete (c : Config) (req : UploadRequest) (fs : FileSystem) : Prop :=
  if req.io.opened then ∀ n, req.io.written = some n → req.body.length ≤ n
  else fs (incommingPath c req.now) = some req.body

theorem tmpComplete_iff :
    TmpComplete c req fs ↔
      writeTmp (incommingPath c req.now) req fs (incommingPath c req.now) = some req.body := by
  rw [TmpComplete, writeTmp]
  cases req.io.opened with
  | false => exact Iff.rfl
  | true =>
    simp only [if_true]
    cases req.io.written with
    | none =>
      constructor
      · intro _
        rfl
      · intro _ n hn
        cases hn
    | some n =>
      -- a truncated write stores the whole body when nothing was cut off
      rw [Option.some_inj]
      constructor
      · intro h
        exact List.take_of_length_le (h n rfl)
      · intro h k hk
        cases hk
        have htake : req.body.take n = req.body := h
        rw [← htake]
        exact List.length_take_le n req.body

/-- The answer to a non-empty body does not depend on the file operations. -/
theorem upload_success (h : req.body ≠ []) : (upload c req fs).Success := by
  rw [UploadResult.Success, upload, if_neg h]

/-- An empty body is refused before any file is touched. -/
theorem upload_refused (h : req.body = []) :
    (upload c req fs).ReportsError ∧ (upload c req fs).sent = none := by
  refine ⟨?_, (upload_empty fs h).2⟩
  rw [UploadResult.ReportsError, upload, if_pos h]

/-- A rename that fails, or has nothing to rename, submits no job. -/
theorem upload_sent_of_not_moved {e : Str} (h : req.body ≠ [])
    (hmove : moveFile req.io.renamed (incommingPath c req.now) (spoolPath c req.now)
      (writeTmp (incommingPath c req.now) req fs) = .error e) :
    (upload c req fs).sent = none := by
  rw [incommingPath, spoolPath] at hmove
  rw [upload, if_neg h]
  simp only [handleFile, hmove]

/-- A rename that succeeds puts the temporary file at the destination and submits
the job. -/
theorem upload_of_moved {content : Str} (h : req.body ≠ []) (hren : req.io.renamed = true)
    (htmp : writeTmp (incommingPath c req.now) req fs (incommingPath c req.now) = some content) :
    (upload c req fs).fs (spoolPath c req.now) = some content ∧
      (upload c req fs).sent =
        some (newJob (generateUniqueId req.millis req.rand) (spoolPath c req.now)) := by
  rw [incommingPath] at htmp
  rw [upload, if_neg h]
  simp only [handleFile, moveFile, htmp, hren, if_true]
  exact ⟨if_pos rfl, rfl⟩

/-- A non-empty upload is queued exactly when each step before the send worked. -/
theorem queued_iff (h : req.body ≠ []) :
    Queued c req fs ↔
      TmpComplete c req fs ∧ req.io.renamed = true ∧ FitsPath (spoolPath c req.now) := by
  rw [tmpComplete_iff]
  cases hsrc : writeTmp (incommingPath c req.now) req fs (incommingPath c req.now) with
  | none =>
    have hmove : moveFile req.io.renamed (incommingPath c req.now) (spoolPath c req.now)
        (writeTmp (incommingPath c req.now) req fs)
          = .error (lit "No such file or directory") := by
      simp only [moveFile, hsrc]
    constructor
    · rintro ⟨-, m, hm, -⟩
      rw [upload_sent_of_not_moved h hmove] at hm
      cases hm
    · rintro ⟨htmp, -⟩
      cases htmp
  | some content =>
    cases hren : req.io.renamed with
    | false =>
      have hmove : moveFile req.io.renamed (incommingPath c req.now) (spoolPath c req.now)
          (writeTmp (incommingPath c req.now) req fs) = .error (lit "rename failed") := by
        simp only [moveFile, hsrc, hren, Bool.false_eq_true, if_false]
      constructor
      · rintro ⟨-, m, hm, -⟩
        rw [upload_sent_of_not_moved h hmove] at hm
        cases hm
      · rintro ⟨-, hr, -⟩
        cases hr
    | true =>
      obtain ⟨hfs, hsent⟩ := upload_of_moved h hren hsrc
      rw [Queued, hfs, hsent]
      constructor
      · rintro ⟨hbody, m, hm, hpath⟩
        cases hm
        exact ⟨hbody, rfl, newJob_path_str_iff.mp hpath⟩
      · rintro ⟨hbody, -, hfits⟩
        exact ⟨hbody, _, rfl, newJob_path_str_iff.mpr hfits⟩

/-! ## The answer and the queue -/

/-- The exact uploads whose answer tells what became of them. -/
theorem acknowledged_iff (c : Config) (req : UploadRequest) (fs : FileSystem) :
    Acknowledged c req fs ↔
      req.body = [] ∨
        TmpComplete c req fs ∧ req.io.renamed = true ∧ FitsPath (spoolPath c req.now) := by
  by_cases h : req.body = []
  · obtain ⟨herr, hsent⟩ : (upload c req fs).ReportsError ∧ (upload c req fs).sent = none :=
      upload_refused h
    have hnot : ¬ Queued c req fs := by
      rintro ⟨-, m, hm, -⟩
      rw [hsent] at hm
      cases hm
    constructor
    · intro _
      exact .inl h
    · intro _
      exact ⟨⟨fun hs => absurd herr hs.not_reportsError, fun hq => absurd hq hnot⟩,
        fun _ => ⟨herr, hsent⟩⟩
  · have hsucc : (upload c req fs).Success := upload_success h
    rw [← queued_iff h]
    constructor
    · intro hack
      exact .inr (hack.success_iff.mp hsucc)
    · rintro (hnil | hq)
      · exact absurd hnil h
      · exact ⟨⟨fun _ => hq, fun _ => hsucc⟩, fun hnot => absurd hq hnot⟩

/-- The rename fails, nothing is queued, and the client is told that its job was
submitted. -/
theorem acknowledged_without_job :
    ¬ ∀ (c : Config) (req : UploadRequest) (fs : FileSystem), Acknowledged c req fs := by
  intro h
  let c : Config := { fikaSpoolDir := lit "/var/spool/fika" }
  let req : UploadRequest :=
    { body := lit "x", now := 0, millis := 0, rand := 0, io := { renamed := false } }
  have hsent : (upload c req fun _ => none).sent = none := rfl
  obtain ⟨-, m, hm, -⟩ := (h c req fun _ => none).success_iff.mp rfl
  rw [hsent] at hm
  cases hm

end Fika
