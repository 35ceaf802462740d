import Fika.Lib.CharArray

/-!
# Jobs and their wire format (`file_job.h`, `file_job.cpp`, `mime_type.h`)

A job lives in a process as a `FileJob` with strings, and travels through the
message queues as a `FileJobShm` with fixed-size arrays.

- `mapType`: the detector's MIME string to the internal enumeration.
- `toFileJob`, `fromFileJob`: the two directions of the codec.
- `reencode`: one hop through a process that decodes and encodes again; it keeps
  both C strings of a terminated message (`reencode_jobId_str`,
  `reencode_path_str`) and zeroes what follows them (`reencode_jobId_padded`,
  `reencode_path_padded`).
-/

namespace Fika

open Lib

/-! ## MIME types -/

/-- `mime::Type`. -/
inductive MimeType where
  | unknown
  | msOfficeWord
  | msOfficeExcel
  | msOfficePowerPoint
  | pdf
  | imageJpeg
  | imagePng
  | textPlain
deriving DecidableEq, Repr

/-- `mime::detectorMap`. -/
def detectorMap : List (Str × MimeType) := [
  (lit "application/msword", .msOfficeWord),
  (lit "application/vnd.ms-word", .msOfficeWord),
  (lit "application/vnd.openxmlformats-officedocument.wordprocessingml.document",
    .msOfficeWord),
  (lit "application/vnd.ms-excel", .msOfficeExcel),
  (lit "application/pdf", .pdf),
  (lit "image/jpeg", .imageJpeg)]

/-- `mime::map_type`. -/
def mapType (detectedMime : Str) : MimeType :=
  match detectorMap.find? fun entry => entry.1 == detectedMime with
  | some entry => entry.2
  | none => .unknown

/-- What detectors report when they do not know. -/
def octetStream : Str := lit "application/octet-stream"

/-! ## Jobs -/

/-- `Status`. -/
inductive Status where
  | new
  | detecting
  | parsing
  | done
  | failed
deriving DecidableEq, Repr

/-- `Event`. -/
inductive Event where
  | submit
  | detectionOk
  | detectionFail
  | parseOk
  | parseFail
deriving DecidableEq, Repr

/-- `JobType`. -/
inductive JobType where
  | detector
  | parser
  | none
deriving DecidableEq, Repr

/-- `file_job`: a job inside a process. -/
structure FileJob where
  jobId : Str := []
  path : Str := []
  attempts : Int := 0
  status : Status := .new
  type : JobType := .detector
  mime : MimeType := .unknown
  stop : Bool := false
deriving DecidableEq

/-- `MAX_ID_SIZE`. -/
abbrev maxIdSize : Nat := 64

/-- `MAX_PATH_SIZE`. -/
abbrev maxPathSize : Nat := 256

/-- `file_job_shm`: a job on the wire. -/
structure FileJobShm where
  jobId : CharArray maxIdSize := CharArray.zero maxIdSize
  path : CharArray maxPathSize := CharArray.zero maxPathSize
  attempts : Int := 0
  status : Status := .new
  type : JobType := .detector
  mime : MimeType := .unknown
deriving DecidableEq

/-- `ipc_message`: what a message queue carries. -/
inductive IpcMessage where
  | fileJobShm (job : FileJobShm)
  | poisonPill
deriving DecidableEq

/-- `to_file_job`. -/
def toFileJob (jobShm : FileJobShm) : FileJob where
  jobId := jobShm.jobId.str
  path := jobShm.path.str
  attempts := jobShm.attempts
  status := jobShm.status
  type := jobShm.type
  mime := jobShm.mime

/-- `from_file_job`: both strings go through `strncpy` into zeroed arrays. -/
def fromFileJob (fjob : FileJob) : FileJobShm where
  jobId := (CharArray.zero maxIdSize).strncpy fjob.jobId (maxIdSize - 1) (Nat.sub_le _ 1)
  path := (CharArray.zero maxPathSize).strncpy fjob.path (maxPathSize - 1) (Nat.sub_le _ 1)
  attempts := fjob.attempts
  status := fjob.status
  type := fjob.type
  mime := fjob.mime

namespace FileJobShm

/-- Both arrays hold a NUL, so every C-string read of them stays inside. -/
structure Terminated (m : FileJobShm) : Prop where
  jobId : m.jobId.Terminated
  path : m.path.Terminated

/-- The message with the decoded and encoded-again arrays of `m`: what `m`
becomes when a process takes it through `file_job` and changes nothing. -/
def reencode (m : FileJobShm) : FileJobShm := fromFileJob (toFileJob m)

end FileJobShm

/-- Everything `from_file_job` writes is terminated. -/
theorem terminated_fromFileJob (j : FileJob) : (fromFileJob j).Terminated where
  jobId := CharArray.terminated_strncpy_zero (by decide) j.jobId
  path := CharArray.terminated_strncpy_zero (by decide) j.path

namespace FileJobShm

variable {m : FileJobShm}

theorem reencode_jobId_padded (h : m.Terminated) :
    m.reencode.jobId =
      CharArray.padded maxIdSize m.jobId.str
        (Nat.le_of_lt (CharArray.str_length_lt h.jobId)) :=
  CharArray.strncpy_str (by decide) h.jobId

theorem reencode_path_padded (h : m.Terminated) :
    m.reencode.path =
      CharArray.padded maxPathSize m.path.str
        (Nat.le_of_lt (CharArray.str_length_lt h.path)) :=
  CharArray.strncpy_str (by decide) h.path

/-- A hop keeps the id a terminated message is read with. -/
theorem reencode_jobId_str (h : m.Terminated) : m.reencode.jobId.str = m.jobId.str := by
  rw [reencode_jobId_padded h, CharArray.str_padded, CharArray.cStr_str]

/-- A hop keeps the path a terminated message is read with. -/
theorem reencode_path_str (h : m.Terminated) : m.reencode.path.str = m.path.str := by
  rw [reencode_path_padded h, CharArray.str_padded, CharArray.cStr_str]

end FileJobShm

end Fika
