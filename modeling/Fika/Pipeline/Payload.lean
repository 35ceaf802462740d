import Fika.Pipeline.Custody

/-!
# Payload integrity

A job's message is rewritten several times on its way: qm decodes the arrays
into strings and encodes them again, detect and parse copy the struct. What
survives all of them is stated as one local invariant.

- `FileJobShm.Canonical`: both arrays are zero after their first NUL. ingestd
  writes such messages when the spool directory has no NUL in its name, and
  every other writer keeps them so.
- `Payload`: a message is terminated, canonical, and traces back to a submission
  whose id, path and attempts it has; its MIME type is the one the detect call
  for that job found.
- `payload_integrity`: so every message that carries a job has the very arrays
  ingestd wrote.
-/

namespace Fika

open Lib

universe u

/-! ## Canonical messages -/

/-- Both arrays are strings without NUL, followed by zeros. -/
structure FileJobShm.Canonical (m : FileJobShm) : Prop where
  jobId : m.jobId.Canonical
  path : m.path.Canonical

/-- The name of the file of an upload adds no NUL to the spool directory's. -/
theorem nul_mem_spoolPath {c : Config} {now : Int} : 0 ∈ spoolPath c now ↔ 0 ∈ c.fikaSpoolDir := by
  rw [spoolPath_eq, List.append_assoc, List.mem_append]
  refine ⟨fun h => h.resolve_right fun h => ?_, .inl⟩
  rcases List.mem_append.mp h with h | h
  · exact absurd h (by decide)
  · exact nul_not_mem_decimalInt now h

theorem canonical_newJob {uuid dst : Str} (hid : 0 ∉ uuid) (hdst : 0 ∉ dst) :
    (newJob uuid dst).Canonical where
  jobId := CharArray.canonical_assign hid
  path := CharArray.canonical_assign hdst

theorem canonical_forwarded (m : FileJobShm) (status : Status) (type : JobType) :
    (forwarded m status type).Canonical where
  jobId := CharArray.canonical_strncpy_zero (by decide) m.jobId.str
  path := CharArray.canonical_strncpy_zero (by decide) m.path.str

namespace Pipeline

variable {P : Type u} {d : Deployment P} {s s' : Pipeline P} {b : Binary} {m : FileJobShm}
  {sub : Submission} {chains : List FileDetector → Prop}

/-! ## What was submitted -/

/-- The message of the submission is the one `handle_file` builds for it. -/
def FromUpload (d : Deployment P) (sub : Submission) : Prop :=
  sub.msg = newJob (generateUniqueId sub.req.millis sub.req.rand)
    (spoolPath d.config sub.req.now)

/-- The submissions of a state are accepted uploads. -/
theorem Reachable.fromUpload (h : Reachable d chains s) :
    ∀ sub ∈ s.submitted, FromUpload d sub := by
  obtain ⟨fs, hr⟩ := h
  refine hr.invariant (P := fun s => ∀ sub ∈ s.submitted, FromUpload d sub)
    (fun _ hsub => nomatch hsub) fun {a b _} hinv _ hs sub hsub => ?_
  rcases submitted_cases hs with heq | ⟨req, m, -, hsent, heq⟩
  · exact hinv sub (heq ▸ hsub)
  · rw [heq] at hsub
    rcases List.mem_cons.mp hsub with rfl | hsub
    · exact upload_sent hsent
    · exact hinv sub hsub

/-! ## The payload invariant -/

/-- `m` carries the job that was submitted as `sub`. -/
structure Carries (m : FileJobShm) (sub : Submission) : Prop where
  key : m.key = sub.msg.key
  path : m.path.str = sub.msg.path.str

/-- The job has not been through detect yet. -/
def Undetected (b : Binary) (m : FileJobShm) : Prop := b = .detect ∨ m.status = .new

/-- `mime` is what the detect call for the job of `sub` found. -/
def DetectedType (chains : List FileDetector → Prop) (h : History) (sub : Submission)
    (mime : MimeType) : Prop :=
  ∃ c ∈ h.detections, chains c.detectors ∧ Carries c.job sub ∧
    mime = verdictType c.detectors sub.msg.path.str

/-- What `m` tells about the job of `sub`. -/
structure Traced (chains : List FileDetector → Prop) (h : History) (b : Binary)
    (m : FileJobShm) (sub : Submission) : Prop where
  carries : Carries m sub
  attempts : m.attempts = sub.msg.attempts
  undetected : Undetected b m → m.mime = .unknown
  detected : ¬ Undetected b m → DetectedType chains h sub m.mime

/-- The payload of a message in flight. -/
structure Payload (d : Deployment P) (chains : List FileDetector → Prop) (h : History)
    (b : Binary) (m : FileJobShm) : Prop where
  wellFormed : WellFormed b m
  canonical : 0 ∉ d.config.fikaSpoolDir → m.Canonical
  origin : ∃ sub ∈ h.submitted, Traced chains h b m sub

theorem carries_forwarded (h : m.Terminated) (hc : Carries m sub) (status : Status)
    (type : JobType) : Carries (forwarded m status type) sub where
  key := (key_forwarded h status type).trans hc.key
  path := (FileJobShm.reencode_path_str h).trans hc.path

theorem DetectedType.mono {h h' : History} {mime : MimeType} (hle : h.Le h')
    (hd : DetectedType chains h sub mime) : DetectedType chains h' sub mime := by
  obtain ⟨c, hc, hrest⟩ := hd
  exact ⟨c, hle.detections hc, hrest⟩

/-- The four writers keep the payload. -/
theorem localInvariant_payload (d : Deployment P) (chains : List FileDetector → Prop) :
    LocalInvariant d chains (Payload d chains) where
  mono hle h := by
    obtain ⟨sub, hsub, ht⟩ := h.origin
    exact ⟨h.wellFormed, h.canonical, sub, hle.submitted hsub, ht.carries, ht.attempts,
      ht.undetected, fun hd => (ht.detected hd).mono hle⟩
  ingest hsent hsub := by
    refine ⟨(localInvariant_wellFormed d chains).ingest hsent hsub, fun hnul => ?_, _, hsub, ?_⟩
    · rw [upload_sent hsent]
      exact canonical_newJob (nul_not_mem_generateUniqueId _ _) (mt nul_mem_spoolPath.mp hnul)
    · refine ⟨⟨rfl, rfl⟩, rfl, fun _ => ?_, fun hd => absurd (.inr ?_) hd⟩
      all_goals rw [upload_sent hsent]; rfl
  qm {hist _ _ _ _} h hr := by
    obtain ⟨sub, hsub, ht⟩ := h.origin
    refine ⟨(localInvariant_wellFormed d chains).qm (h := hist) h.wellFormed hr,
      fun _ => ?_, sub, hsub, ?_⟩
    · -- `from_file_job` zeroes what follows the strings
      rcases mem_qm_sent h.wellFormed.discipline hr with ⟨-, -, rfl⟩ | ⟨-, -, rfl⟩
      all_goals exact canonical_forwarded _ _ _
    · -- a new job is on its way to detect, a detected one on its way to parse
      rcases mem_qm_sent h.wellFormed.discipline hr with ⟨hs, rfl, rfl⟩ | ⟨hs, rfl, rfl⟩
      · exact ⟨carries_forwarded h.wellFormed.terminated ht.carries _ _, ht.attempts,
          fun _ => ht.undetected (.inr hs), fun hd => absurd (.inl rfl) hd⟩
      · refine ⟨carries_forwarded h.wellFormed.terminated ht.carries _ _, ht.attempts,
          fun hu => ?_, fun _ => ht.detected ?_⟩
        · rcases hu with hu | hu <;> cases hu
        · rintro (hu | hu)
          · cases hu
          · rw [hs] at hu
            cases hu
  detect {_ detectors m _ _} hD hdet h hr := by
    obtain ⟨sub, hsub, ht⟩ := h.origin
    refine ⟨(localInvariant_wellFormed d chains).detect hD hdet h.wellFormed hr,
      fun hnul => ?_, sub, hsub, ?_⟩
    · obtain ⟨-, -, rfl⟩ := mem_detectReplies hr
      exact ⟨(h.canonical hnul).jobId, (h.canonical hnul).path⟩
    · obtain ⟨rfl, -, rfl⟩ := mem_detectReplies hr
      refine ⟨⟨ht.carries.key, ht.carries.path⟩, ht.attempts, fun hu => ?_, fun _ => ?_⟩
      · rcases hu with hu | hu
        · cases hu
        · change (if _ then Status.detecting else Status.failed) = .new at hu
          split at hu <;> cases hu
      · -- the call that was just recorded is the one that found the type
        refine ⟨_, hdet, hD, ht.carries, ?_⟩
        rw [← ht.carries.path]
        rfl
  parse {hist _} h := by
    obtain ⟨sub, hsub, ht⟩ := h.origin
    refine ⟨(localInvariant_wellFormed d chains).parse (h := hist) h.wellFormed,
      fun hnul => ⟨(h.canonical hnul).jobId, (h.canonical hnul).path⟩, sub, hsub,
      ⟨ht.carries.key, ht.carries.path⟩, ht.attempts, fun hu => ?_, fun _ => ht.detected ?_⟩
    · rcases hu with hu | hu
      · cases hu
      · change (if _ then Status.done else Status.failed) = .new at hu
        split at hu <;> cases hu
    · -- a message in parse's hands has been through detect
      cases h.wellFormed.discipline with
      | parsing hs =>
        rintro (hu | hu)
        · cases hu
        · rw [hs] at hu
          cases hu

theorem Reachable.payload (h : Reachable d chains s) : EveryMessage (Payload d chains) s :=
  (localInvariant_payload d chains).reachable h

/-! ## Payload integrity -/

/-- `m`, held by `b`, is the message ingestd sent for `sub` up to what detect has
found since. -/
structure Intact (chains : List FileDetector → Prop) (h : History) (b : Binary)
    (m : FileJobShm) (sub : Submission) : Prop where
  jobId : m.jobId = sub.msg.jobId
  path : m.path = sub.msg.path
  attempts : m.attempts = sub.msg.attempts
  undetected : Undetected b m → m.mime = .unknown
  detected : ¬ Undetected b m → DetectedType chains h sub m.mime

/-- Two submissions carried by one message are detected alike. -/
theorem DetectedType.congr {h : History} {sub' : Submission} {mime : MimeType}
    (hc : Carries m sub) (hc' : Carries m sub') (hd : DetectedType chains h sub mime) :
    DetectedType chains h sub' mime := by
  obtain ⟨c, hmem, hchain, hcar, hmime⟩ := hd
  -- the verdict depends on the path alone
  have hpath : sub.msg.path.str = sub'.msg.path.str := hc.path.symm.trans hc'.path
  refine ⟨c, hmem, hchain, ⟨?_, hcar.path.trans hpath⟩, hpath ▸ hmime⟩
  exact hcar.key.trans (hc.key.symm.trans hc'.key)

/-- A message that carries a job with a NUL-free path is intact. -/
theorem Reachable.intact (h : Reachable d chains s) (hsub : sub ∈ s.submitted)
    (hnul : 0 ∉ spoolPath d.config sub.req.now) (hm : s.Holds b m) (hc : Carries m sub) :
    Intact chains s.history b m sub := by
  have hpay := h.payload.held hm
  have hmsg : sub.msg = newJob _ _ := h.fromUpload sub hsub
  have hcan : sub.msg.Canonical := by
    rw [hmsg]
    exact canonical_newJob (nul_not_mem_generateUniqueId _ _) hnul
  have hcanm := hpay.canonical (mt nul_mem_spoolPath.mpr hnul)
  obtain ⟨origin, horigin, ht⟩ := hpay.origin
  refine ⟨hcanm.jobId.eq_of_str_eq hcan.jobId hc.key, hcanm.path.eq_of_str_eq hcan.path hc.path,
    ?_, ht.undetected, fun hd => (ht.detected hd).congr ht.carries hc⟩
  rw [ht.attempts, show origin.msg = newJob _ _ from h.fromUpload origin horigin, hmsg]
  rfl

/-- Distinct ids identify the submission a message carries. -/
theorem Payload.carries_of_key (h : Payload d chains s.history b m)
    (hids : s.submittedKeys.Nodup) (hsub : sub ∈ s.submitted) (hkey : m.key = sub.msg.key) :
    Carries m sub := by
  obtain ⟨origin, horigin, ht⟩ := h.origin
  have heq : origin = sub :=
    List.inj_on_of_nodup_map hids horigin hsub (ht.carries.key.symm.trans hkey)
  exact heq ▸ ht.carries

/-- **Payload integrity**: in every reachable state, whatever chains of detectors
were used, every message in flight has terminated arrays and carries a submitted
job; and a message that carries a job whose destination path has no NUL has the
id and path arrays ingestd wrote, byte for byte, the same attempts, and the MIME
type of the verdict of that job's detect call, or Unknown before it. When ids are
distinct, the id of a message tells which job it carries. -/
theorem payload_integrity (d : Deployment P) (chains : List FileDetector → Prop)
    (s : Pipeline P) (h : Reachable d chains s) :
    (∀ b m, s.Holds b m → m.Terminated) ∧
    (∀ b m, s.Holds b m → ∃ sub ∈ s.submitted, Carries m sub) ∧
    (∀ sub ∈ s.submitted, 0 ∉ spoolPath d.config sub.req.now →
      ∀ b m, s.Holds b m → Carries m sub → Intact chains s.history b m sub) ∧
    (s.submittedKeys.Nodup →
      ∀ sub ∈ s.submitted, ∀ b m, s.Holds b m → m.key = sub.msg.key → Carries m sub) := by
  refine ⟨fun b m hm => (h.payload.held hm).wellFormed.terminated, fun b m hm => ?_,
    fun sub hsub hnul b m hm hc => h.intact hsub hnul hm hc,
    fun hids sub hsub b m hm hkey => (h.payload.held hm).carries_of_key hids hsub hkey⟩
  obtain ⟨sub, hsub, ht⟩ := (h.payload.held hm).origin
  exact ⟨sub, hsub, ht.carries⟩

/-- The sample job on its way to parse still has the path ingestd wrote. -/
theorem payload_integrity_parsing :
    ∃ s : Pipeline Unit, sampleState 7 = some s ∧ (s.queue .parse).length = 1 ∧
      ∀ m, .fileJobShm m ∈ s.queue .parse → ∃ sub ∈ s.submitted, m.path = sub.msg.path := by
  obtain ⟨s, hs⟩ := Option.isSome_iff_exists.mp (show (sampleState 7).isSome = true by rfl)
  have hlen : (sampleState 7).map (fun s => (s.queue .parse).length) = some 1 := by rfl
  have hnul : (sampleState 7).all (fun s => s.submitted.all fun sub =>
      decide (0 ∉ spoolPath sampleDeployment.config sub.req.now)) = true := by rfl
  rw [hs] at hlen hnul
  obtain ⟨-, horigin, hintact, -⟩ :=
    payload_integrity sampleDeployment (· = sampleDetectors) s (sampleState_reachable rfl hs)
  refine ⟨s, hs, Option.some.inj hlen, fun m hm => ?_⟩
  obtain ⟨sub, hsub, hc⟩ := horigin .parse m (.inl hm)
  have hfree := of_decide_eq_true (List.all_eq_true.mp hnul sub hsub)
  exact ⟨sub, hsub, (hintact sub hsub hfree .parse m (.inl hm) hc).path⟩

end Pipeline

end Fika
