import Fika.Lib.Decimal
import Fika.Global.FileJob

/-!
# Ingestion (`ingestd.cpp`, `pickup.cpp`)

`ingestd` writes the body of an upload to a file in the incoming directory,
renames it into the spool directory and submits a job that names it to qm.

- `FileSystem`, `moveFile`, `removeFile`: the files, and the two operations of
  `pickup_service`.
- `generateUniqueId`, `handleFile`, `upload`: the ids, `ingestd::handle_file`
  and the `/upload` handler, for every outcome of the file operations.
- `upload_sent`: the message of an accepted upload names its spool path, and the
  file there is the body.
-/

namespace Fika

open Lib

/-! ## Files -/

/-- The contents of the existing files. -/
abbrev FileSystem := Str → Option Str

/-- `std::filesystem::path::operator/`. -/
def pathAppend (a b : Str) : Str :=
  if b.head? = some 47 then b
  else if a = [] ∨ a.getLast? = some 47 then a ++ b
  else a ++ lit "/" ++ b

/-- `pickup_service::move_file`; `ok` tells whether the system lets the rename
of an existing file succeed. An existing destination is replaced. -/
def moveFile (ok : Bool) (src dst : Str) (fs : FileSystem) : Except Str FileSystem :=
  match fs src with
  | none => .error (lit "No such file or directory")
  | some content =>
    if ok then
      .ok fun p => if p = dst then some content else if p = src then none else fs p
    else .error (lit "rename failed")

/-- `pickup_service::remove_file`, whose result qm ignores. -/
def removeFile (file : Str) (fs : FileSystem) : FileSystem :=
  fun p => if p = file then none else fs p

/-! ## Uploads -/

/-- The directories of `config.h`. -/
structure Config where
  fikaSpoolDir : Str

namespace Config

/-- `FIKA_SPOOL_NEW_DIR`, which `main` passes to `ingestd` as `spool_dir_`. -/
def fikaSpoolNewDir (c : Config) : Str := c.fikaSpoolDir ++ lit "/new"

/-- `FIKA_SPOOL_INCOMMING_DIR`. -/
def fikaSpoolIncommingDir (c : Config) : Str := c.fikaSpoolDir ++ lit "/incomming"

end Config

/-- How the file operations of one upload go: whether the temporary file can be
opened, how many bytes of the body reach it, and whether the rename succeeds. -/
structure IoOutcome where
  opened : Bool := true
  written : Option Nat := none
  renamed : Bool := true
deriving DecidableEq

/-- One `/upload` request, with the clock readings and the random draw its
handler makes. -/
structure UploadRequest where
  body : Str
  now : Int
  millis : Int
  rand : Nat
  io : IoOutcome := {}
deriving DecidableEq

/-- `httplib::Response`. -/
structure Response where
  status : Nat := 200
  content : Str
deriving DecidableEq

/-- `generate_unique_id` for a clock reading and a random number. -/
def generateUniqueId (millis : Int) (rand : Nat) : Str :=
  lit "job_" ++ decimalInt millis ++ decimal rand

/-- The name of the upload's file. -/
def uploadFilename (now : Int) : Str := lit "upload_" ++ decimalInt now

/-- The path of an upload's file in the spool directory. -/
def spoolPath (c : Config) (now : Int) : Str :=
  pathAppend c.fikaSpoolNewDir (uploadFilename now)

/-- The path of an upload's temporary file. -/
def incommingPath (c : Config) (now : Int) : Str :=
  pathAppend c.fikaSpoolIncommingDir (uploadFilename now)

/-- The job message `ingestd::handle_file` builds. -/
def newJob (uuid dst : Str) : FileJobShm where
  jobId := CharArray.assign maxIdSize uuid
  path := CharArray.assign maxPathSize dst

/-- `ingestd::handle_file`: the files after it, and the message it sends. -/
def handleFile (spoolDir tmpPath filename : Str) (req : UploadRequest) (fs : FileSystem) :
    FileSystem × Option FileJobShm :=
  let dst := pathAppend spoolDir filename
  match moveFile req.io.renamed tmpPath dst fs with
  | .ok fs' => (fs', some (newJob (generateUniqueId req.millis req.rand) dst))
  | .error _ => (fs, none)

/-- `std::ofstream ofs(tmp); ofs.write(body); ofs.close()`. -/
def writeTmp (tmp : Str) (req : UploadRequest) (fs : FileSystem) : FileSystem :=
  if req.io.opened then
    let content := match req.io.written with
      | none => req.body
      | some n => req.body.take n
    fun p => if p = tmp then some content else fs p
  else fs

/-- What the `/upload` handler does: the answer, the files, the message sent. -/
structure UploadResult where
  response : Response
  fs : FileSystem
  sent : Option FileJobShm

/-- The `/upload` handler of `ingestd::run`. -/
def upload (c : Config) (req : UploadRequest) (fs : FileSystem) : UploadResult :=
  if req.body = [] then
    { response := { status := 400, content := lit "No data in request\n" }, fs := fs, sent := none }
  else
    let filename := uploadFilename req.now
    let tmp := pathAppend c.fikaSpoolIncommingDir filename
    let handled := handleFile c.fikaSpoolNewDir tmp filename req (writeTmp tmp req fs)
    -- the answer is the same whether or not the job was submitted
    { response := { content := lit "Job submitted\n" }, fs := handled.1, sent := handled.2 }

/-! ## The paths of an upload -/

/-- A directory of the configuration and a file name make a plain path. -/
theorem pathAppend_dir (dir name : Str) (hd : dir ≠ []) (hl : dir.getLast? ≠ some 47)
    (hn : name.head? ≠ some 47) : pathAppend dir name = dir ++ lit "/" ++ name := by
  rw [pathAppend, if_neg hn, if_neg]
  rintro (h | h)
  · exact hd h
  · exact hl h

theorem head_uploadFilename (now : Int) : (uploadFilename now).head? ≠ some 47 := by
  rw [uploadFilename, show lit "upload_" = 117 :: lit "pload_" by decide, List.cons_append,
    List.head?_cons]
  decide

theorem getLast_newDir (s : Str) : (s ++ lit "/new").getLast? = some 119 := by
  rw [show lit "/new" = lit "/ne" ++ [119] by decide, ← List.append_assoc,
    List.getLast?_concat]

theorem getLast_incommingDir (s : Str) : (s ++ lit "/incomming").getLast? = some 103 := by
  rw [show lit "/incomming" = lit "/incommin" ++ [103] by decide, ← List.append_assoc,
    List.getLast?_concat]

theorem spoolPath_eq (c : Config) (now : Int) :
    spoolPath c now = c.fikaSpoolDir ++ lit "/new/upload_" ++ decimalInt now := by
  have hne : c.fikaSpoolNewDir ≠ [] := fun h =>
    absurd (List.append_eq_nil_iff.mp h).2 (by decide)
  have hlast : c.fikaSpoolNewDir.getLast? ≠ some 47 := by
    rw [Config.fikaSpoolNewDir, getLast_newDir]
    decide
  rw [spoolPath, pathAppend_dir _ _ hne hlast (head_uploadFilename now), Config.fikaSpoolNewDir,
    uploadFilename, show lit "/new/upload_" = lit "/new" ++ (lit "/" ++ lit "upload_") by decide]
  simp only [List.append_assoc]

theorem incommingPath_eq (c : Config) (now : Int) :
    incommingPath c now = c.fikaSpoolDir ++ lit "/incomming/upload_" ++ decimalInt now := by
  have hne : c.fikaSpoolIncommingDir ≠ [] := fun h =>
    absurd (List.append_eq_nil_iff.mp h).2 (by decide)
  have hlast : c.fikaSpoolIncommingDir.getLast? ≠ some 47 := by
    rw [Config.fikaSpoolIncommingDir, getLast_incommingDir]
    decide
  rw [incommingPath, pathAppend_dir _ _ hne hlast (head_uploadFilename now),
    Config.fikaSpoolIncommingDir, uploadFilename,
    show lit "/incomming/upload_" = lit "/incomming" ++ (lit "/" ++ lit "upload_") by decide]
  simp only [List.append_assoc]

/-- Uploads in different seconds have different spool paths. -/
theorem spoolPath_injective {c : Config} {n n' : Int} (h : spoolPath c n = spoolPath c n') :
    n = n' := by
  rw [spoolPath_eq, spoolPath_eq] at h
  exact decimalInt_injective (List.append_cancel_left h)

/-- Temporary files are never spool files. -/
theorem incommingPath_ne_spoolPath (c : Config) (n n' : Int) :
    incommingPath c n ≠ spoolPath c n' := by
  intro h
  rw [incommingPath_eq, spoolPath_eq, List.append_assoc, List.append_assoc] at h
  have htail := List.append_cancel_left h
  rw [show lit "/incomming/upload_" = lit "/" ++ 105 :: lit "ncomming/upload_" by decide,
    show lit "/new/upload_" = lit "/" ++ 110 :: lit "ew/upload_" by decide,
    List.append_assoc, List.append_assoc] at htail
  -- the names differ in the first letter after the directory
  have hhead := (List.cons.inj (List.append_cancel_left htail)).1
  exact absurd hhead (by decide)

/-! ## What an upload does -/

/-- An id is a C string. -/
theorem nul_not_mem_generateUniqueId (millis : Int) (rand : Nat) :
    0 ∉ generateUniqueId millis rand := by
  intro h
  rcases List.mem_append.mp h with h | h
  · rcases List.mem_append.mp h with h | h
    · exact absurd h (by decide)
    · exact nul_not_mem_decimalInt millis h
  · exact nul_not_mem_decimal rand h

theorem terminated_newJob (uuid dst : Str) : (newJob uuid dst).Terminated where
  jobId := CharArray.terminated_assign (by decide) uuid
  path := CharArray.terminated_assign (by decide) dst

/-- The message of an accepted upload. -/
theorem upload_sent {c : Config} {req : UploadRequest} {fs : FileSystem} {m : FileJobShm}
    (h : (upload c req fs).sent = some m) :
    m = newJob (generateUniqueId req.millis req.rand) (spoolPath c req.now) := by
  unfold upload at h
  split at h
  · cases h
  · simp only [handleFile] at h
    split at h
    · exact (Option.some.inj h).symm
    · cases h

/-- The path fits the array of a job message: it is short enough and has no NUL. -/
structure FitsPath (dst : Str) : Prop where
  length : dst.length < maxPathSize
  nul : 0 ∉ dst

/-- The path of a new job is read back exactly when it fits its array. -/
theorem newJob_path_str_iff {uuid dst : Str} :
    (newJob uuid dst).path.str = dst ↔ FitsPath dst := by
  constructor
  · intro h
    rw [← h]
    exact ⟨CharArray.str_length_lt (terminated_newJob uuid dst).path, CharArray.nul_not_mem_str _⟩
  · intro h
    show (CharArray.assign maxPathSize dst).str = dst
    rw [CharArray.str_assign, List.take_of_length_le (Nat.le_sub_one_of_lt h.length),
      cStr_of_nul_not_mem h.nul]

/-- All file operations of the upload succeed. -/
structure IoOutcome.Succeeds (io : IoOutcome) : Prop where
  opened : io.opened = true
  written : io.written = none
  renamed : io.renamed = true

theorem upload_empty {c : Config} {req : UploadRequest} (fs : FileSystem) (h : req.body = []) :
    (upload c req fs).fs = fs ∧ (upload c req fs).sent = none := by
  rw [upload, if_pos h]
  exact ⟨rfl, rfl⟩

/-- **A successful upload** leaves its body at the spool path, submits its job and
touches no file but that one and its temporary one. -/
theorem upload_succeeds {c : Config} {req : UploadRequest} (fs : FileSystem)
    (hio : req.io.Succeeds) (h : req.body ≠ []) :
    (upload c req fs).fs (spoolPath c req.now) = some req.body ∧
      (∀ p, p ≠ spoolPath c req.now → p ≠ incommingPath c req.now →
        (upload c req fs).fs p = fs p) ∧
      (upload c req fs).sent =
        some (newJob (generateUniqueId req.millis req.rand) (spoolPath c req.now)) := by
  have hwrite : writeTmp (incommingPath c req.now) req fs
      = fun p => if p = incommingPath c req.now then some req.body else fs p := by
    rw [writeTmp, hio.opened, hio.written]
    rfl
  -- the temporary file is there, so the rename finds it
  have hhandle : handleFile c.fikaSpoolNewDir (incommingPath c req.now) (uploadFilename req.now)
        req (writeTmp (incommingPath c req.now) req fs)
      = (fun p => if p = spoolPath c req.now then some req.body
          else if p = incommingPath c req.now then none
          else writeTmp (incommingPath c req.now) req fs p,
        some (newJob (generateUniqueId req.millis req.rand) (spoolPath c req.now))) := by
    have hsrc : writeTmp (incommingPath c req.now) req fs (incommingPath c req.now)
        = some req.body := by
      rw [hwrite]
      exact if_pos rfl
    simp only [handleFile, moveFile, hsrc, hio.renamed, if_true]
    rfl
  have hupload : (upload c req fs).fs = (handleFile c.fikaSpoolNewDir (incommingPath c req.now)
        (uploadFilename req.now) req (writeTmp (incommingPath c req.now) req fs)).1 ∧
      (upload c req fs).sent = (handleFile c.fikaSpoolNewDir (incommingPath c req.now)
        (uploadFilename req.now) req (writeTmp (incommingPath c req.now) req fs)).2 := by
    rw [upload, if_neg h]
    exact ⟨rfl, rfl⟩
  rw [hupload.1, hupload.2, hhandle]
  refine ⟨if_pos rfl, fun p hdst htmp => ?_, rfl⟩
  show (if p = spoolPath c req.now then _ else if p = incommingPath c req.now then _ else _) = _
  rw [if_neg hdst, if_neg htmp, hwrite]
  exact if_neg htmp

end Fika
