import Mathlib.Logic.Function.Iterate
import Fika.Global.FileJob

/-!
# The laws of the job codec (`file_job.cpp`)

`from_file_job` is lossy: it stops at the first NUL of a string, it keeps one
byte of each array for the terminator, and `stop` has no slot on the wire.

- `FileJob.onWire`: what is left of a job, and `toFileJob_fromFileJob`: a round
  trip through the wire format leaves exactly that.
- `FileJob.Fits`: the jobs the wire format can hold, which are the jobs a round
  trip keeps (`onWire_eq_iff`).
- `FileJobShm.Cleared`: the other round trip zeroes whatever stood behind the
  terminators (`cleared_reencode`), once and for all (`reencode_iterate`).
-/

namespace Fika

open Lib

namespace FileJob

/-- The job with both strings stopped at their first NUL and cut to the arrays,
and without `stop`. -/
def onWire (j : FileJob) : FileJob :=
  { j with
    jobId := (cStr j.jobId).take (maxIdSize - 1)
    path := (cStr j.path).take (maxPathSize - 1)
    stop := false }

/-- The job loses nothing on the wire. -/
structure Fits (j : FileJob) : Prop where
  jobId_nulFree : 0 ∉ j.jobId
  jobId_length : j.jobId.length ≤ maxIdSize - 1
  path_nulFree : 0 ∉ j.path
  path_length : j.path.length ≤ maxPathSize - 1
  stop : j.stop = false

end FileJob

/-! ## From a process to the wire and back -/

theorem toFileJob_fromFileJob (j : FileJob) : toFileJob (fromFileJob j) = j.onWire := by
  have hid : (fromFileJob j).jobId.str = (cStr j.jobId).take (maxIdSize - 1) :=
    CharArray.str_strncpy_zero (by decide) j.jobId
  have hpath : (fromFileJob j).path.str = (cStr j.path).take (maxPathSize - 1) :=
    CharArray.str_strncpy_zero (by decide) j.path
  unfold toFileJob FileJob.onWire
  rw [hid, hpath]
  rfl

/-- A string survives the cut exactly when it is NUL-free and short enough. -/
theorem cStr_take_eq_iff {s : Str} {k : Nat} : (cStr s).take k = s ↔ 0 ∉ s ∧ s.length ≤ k := by
  constructor
  · intro h
    refine ⟨fun h0 => ?_, ?_⟩
    · rw [← h] at h0
      exact nul_not_mem_take (nul_not_mem_cStr s) k h0
    · rw [← h]
      exact List.length_take_le k _
  · rintro ⟨h0, hlen⟩
    rw [cStr_of_nul_not_mem h0, List.take_of_length_le hlen]

/-- The round trip keeps exactly the jobs that fit. -/
theorem FileJob.onWire_eq_iff {j : FileJob} : j.onWire = j ↔ j.Fits := by
  constructor
  · intro h
    obtain ⟨hidNul, hidLen⟩ := cStr_take_eq_iff.mp (congrArg FileJob.jobId h)
    obtain ⟨hpathNul, hpathLen⟩ := cStr_take_eq_iff.mp (congrArg FileJob.path h)
    exact ⟨hidNul, hidLen, hpathNul, hpathLen, (congrArg FileJob.stop h).symm⟩
  · intro h
    unfold onWire
    rw [cStr_take_eq_iff.mpr ⟨h.jobId_nulFree, h.jobId_length⟩,
      cStr_take_eq_iff.mpr ⟨h.path_nulFree, h.path_length⟩, ← h.stop]

/-! ## From the wire to a process and back -/

namespace FileJobShm

variable {s : FileJobShm}

/-- `t` is `s` with both arrays zeroed behind their first NUL. -/
structure Cleared (s t : FileJobShm) : Prop where
  jobId : CharArray.ClearedFrom s.jobId t.jobId
  path : CharArray.ClearedFrom s.path t.path
  attempts : t.attempts = s.attempts
  status : t.status = s.status
  type : t.type = s.type
  mime : t.mime = s.mime

theorem cleared_reencode (h : s.Terminated) : s.Cleared s.reencode where
  jobId := reencode_jobId_padded h ▸ CharArray.clearedFrom_padded h.jobId
  path := reencode_path_padded h ▸ CharArray.clearedFrom_padded h.path
  attempts := rfl
  status := rfl
  type := rfl
  mime := rfl

/-- Clearing keeps exactly the messages that were zero behind the terminators. -/
theorem Cleared.eq_iff {t : FileJobShm} (h : s.Cleared t) :
    t = s ↔ s.jobId.ZeroTail ∧ s.path.ZeroTail := by
  constructor
  · rintro rfl
    exact ⟨h.jobId.zero, h.path.zero⟩
  · rintro ⟨hid, hpath⟩
    cases s
    cases t
    obtain rfl := h.jobId.eq_iff.mpr hid
    obtain rfl := h.path.eq_iff.mpr hpath
    obtain rfl := h.attempts
    obtain rfl := h.status
    obtain rfl := h.type
    obtain rfl := h.mime
    rfl

/-- A second hop finds nothing left to clear, whatever the message was. -/
theorem reencode_reencode (s : FileJobShm) : s.reencode.reencode = s.reencode := by
  have hterm : s.reencode.Terminated := terminated_fromFileJob (toFileJob s)
  have hid : s.reencode.reencode.jobId = s.reencode.jobId :=
    (CharArray.canonical_strncpy_zero (by decide) _).eq_of_str_eq
      (CharArray.canonical_strncpy_zero (by decide) _) (reencode_jobId_str hterm)
  have hpath : s.reencode.reencode.path = s.reencode.path :=
    (CharArray.canonical_strncpy_zero (by decide) _).eq_of_str_eq
      (CharArray.canonical_strncpy_zero (by decide) _) (reencode_path_str hterm)
  calc s.reencode.reencode
      = { s.reencode with
          jobId := s.reencode.reencode.jobId
          path := s.reencode.reencode.path } := rfl
    _ = s.reencode := by rw [hid, hpath]

theorem reencode_iterate (s : FileJobShm) (k : Nat) : reencode^[k] s.reencode = s.reencode :=
  Function.iterate_fixed (reencode_reencode s) k

end FileJobShm

/-- **Job codec laws**: a job comes back from the wire stopped at its first NULs
and cut to the arrays, so it comes back whole exactly when it fits; a terminated
message comes back cleared behind its terminators, so it comes back whole
exactly when it was clear, and further hops change nothing. -/
theorem codec_laws (j : FileJob) (s : FileJobShm) (hs : s.Terminated) :
    (toFileJob (fromFileJob j) = j.onWire ∧ (toFileJob (fromFileJob j) = j ↔ j.Fits)) ∧
    s.Cleared (fromFileJob (toFileJob s)) ∧
    (fromFileJob (toFileJob s) = s ↔ s.jobId.ZeroTail ∧ s.path.ZeroTail) ∧
    ∀ k : Nat, (fun m => fromFileJob (toFileJob m))^[k] (fromFileJob (toFileJob s))
      = fromFileJob (toFileJob s) := by
  have hcleared : s.Cleared (fromFileJob (toFileJob s)) := FileJobShm.cleared_reencode hs
  refine ⟨⟨toFileJob_fromFileJob j, ?_⟩, hcleared, hcleared.eq_iff, ?_⟩
  · rw [toFileJob_fromFileJob]
    exact FileJob.onWire_eq_iff
  · exact FileJobShm.reencode_iterate s

/-- A job that asks to stop, and a message with a byte left over behind the
terminator of its empty id: neither comes back as it was. -/
theorem codec_laws_lossy :
    toFileJob (fromFileJob { jobId := lit "job_1", stop := true }) ≠
      { jobId := lit "job_1", stop := true } ∧
    fromFileJob (toFileJob { jobId := (CharArray.zero maxIdSize).set 5 88 }) ≠
      { jobId := (CharArray.zero maxIdSize).set 5 88 } := by
  have hlaws := codec_laws { jobId := lit "job_1", stop := true }
    { jobId := (CharArray.zero maxIdSize).set 5 88 }
    ⟨by decide +kernel, by decide +kernel⟩
  constructor
  · intro h
    exact absurd (hlaws.1.2.mp h).stop (by decide)
  · intro h
    exact absurd (hlaws.2.2.1.mp h).1 (by decide +kernel)

end Fika
