import Mathlib.Logic.Function.Basic
import Fika.Global.FileJob
import Fika.Lib.Decimal
import Fika.Lib.Fallible

/-!
# The PDF parser (`pdf_parser.cpp`, `parser.h`)

`pdf_parser::parse` clears what it has reported so far and extracts the next
document; the getters return what it has put into its four members. A poppler
document is a record here, its texts given in UTF-8, and `load_from_file` any function
from file names to documents. Every text is read as a C string from `to_utf8().data()`:
the vector that `to_utf8()` returns has no terminator of its own, and an empty one has
no bytes to point at. What a read finds is therefore a parameter, and `ReadsBytes` says
what is relied on about it.

- `PdfDocument`, `PdfParser`: the document and the members.
- `Utf8Data`, `ReadsBytes`: what `to_utf8().data()` reads as.
- `extractKey`, `extractPage`, `listAttachments`: the bodies of the loops, with what
  they print; `parse`: the whole function, with the exception it ends in.
- `parse_failed`, `parse_loaded`, `parse_returns`: what a call leaves in the members,
  whatever was there before, and when it returns.
- `ReportsLast`: what a call should leave; `Extractable`: the documents for which it
  does (`reports_iff`).
- `parsed_results_iff`: the same after any history of calls; `attachment_lost`.
-/

namespace Fika

open Lib

/-! ## Documents -/

/-- `poppler::embedded_file`. -/
structure EmbeddedFile where
  name : Str
  data : Str

/-- `poppler::document`: the values of the info dictionary (a missing key has the empty
value), the pages, each with its text unless it cannot be created, and the embedded
files. -/
structure PdfDocument where
  infoKey : Str → Str := fun _ => []
  pages : List (Option Str) := []
  embeddedFiles : List EmbeddedFile := []

/-- `keys` of `pdf_parser::parse`. -/
def infoKeys : List Str := [
  lit "Title", lit "Author", lit "Subject", lit "Keywords", lit "Creator", lit "Producer",
  lit "CreationDate", lit "ModDate"]

/-! ## Reading through `data()` -/

/-- The calls of `to_utf8()` in one `parse`: the value that is stored for a key, the one
that is printed for it, and the text of a page. Each returns a vector of its own. -/
inductive Utf8Call
  | info (key : Str)
  | printed (key : Str)
  | page (i : Nat)

/-- What `to_utf8().data()` points at, read as a C string: `none` is the null pointer. -/
abbrev Utf8Data := Utf8Call → Str → Option Str

/-- What the standard library and poppler leave to a reader of `data()`. -/
structure ReadsBytes (data : Utf8Data) : Prop where
  /-- `data()` of an empty vector is null (libstdc++). -/
  empty : ∀ call, data call [] = none
  /-- A NUL among the bytes ends the C string. -/
  inside : ∀ call s, 0 ∈ s → data call s = some (cStr s)
  /-- Otherwise it goes on through whatever lies behind the vector, up to the next NUL. -/
  behind : ∀ call s, s ≠ [] → 0 ∉ s → ∃ rest, 0 ∉ rest ∧ data call s = some (s ++ rest)

/-- The bytes are read as they are. -/
def ReadBack (data : Utf8Data) (call : Utf8Call) (s : Str) : Prop := data call s = some s

namespace ReadsBytes

variable {data : Utf8Data} {call : Utf8Call} {s r : Str}

theorem read_of_ne_nil (h : ReadsBytes data) (call : Utf8Call) (hs : s ≠ []) :
    ∃ r, data call s = some r := by
  by_cases h0 : 0 ∈ s
  · exact ⟨_, h.inside call s h0⟩
  · obtain ⟨rest, -, hread⟩ := h.behind call s hs h0
    exact ⟨_, hread⟩

theorem ne_nil (h : ReadsBytes data) (hread : data call s = some r) : s ≠ [] := by
  rintro rfl
  rw [h.empty call] at hread
  cases hread

/-- What is read holds no NUL. -/
theorem nul_not_mem (h : ReadsBytes data) (hread : data call s = some r) : 0 ∉ r := by
  by_cases h0 : 0 ∈ s
  · obtain rfl := Option.some.inj ((h.inside call s h0).symm.trans hread)
    exact nul_not_mem_cStr s
  · obtain ⟨rest, hrest, hsome⟩ := h.behind call s (h.ne_nil hread) h0
    obtain rfl := Option.some.inj (hsome.symm.trans hread)
    exact fun hmem => (List.mem_append.mp hmem).elim h0 hrest

/-- Bytes without a NUL are all read. -/
theorem isPrefix (h : ReadsBytes data) (h0 : 0 ∉ s) (hread : data call s = some r) : s <+: r := by
  obtain ⟨rest, -, hsome⟩ := h.behind call s (h.ne_nil hread) h0
  exact ⟨rest, Option.some.inj (hsome.symm.trans hread)⟩

/-- Bytes are read as they are when there are some, none of them is a NUL, and a NUL
lies right behind them. -/
theorem readBack_iff (h : ReadsBytes data) :
    ReadBack data call s ↔
      s ≠ [] ∧ 0 ∉ s ∧ ∀ rest, data call s = some (s ++ rest) → rest = [] := by
  constructor
  · intro hread
    refine ⟨h.ne_nil hread, h.nul_not_mem hread, fun rest hrest => ?_⟩
    exact List.self_eq_append_right.mp (Option.some.inj (Eq.trans (Eq.symm hread) hrest))
  · rintro ⟨hne, h0, hend⟩
    obtain ⟨rest, -, hread⟩ := h.behind call s hne h0
    rw [ReadBack, hread, hend rest hread, List.append_nil]

end ReadsBytes

/-! ## The parser -/

/-- `class pdf_parser`. -/
structure PdfParser where
  metadata : Str → Option Str := fun _ => none
  text : Str := []
  embeddedFiles : List Str := []
  warnings : List Str := []

/-- What keeps `pdf_parser::parse` from returning: the exception it throws itself, the
one of `std::string` for a null pointer (libstdc++), and the assignment or output of a null
pointer, which is undefined. -/
inductive ParseFault
  | runtimeError (what : Str)
  | logicError
  | nullRead

/-- The members, and what `parse` has written to `std::cout`. -/
structure ParseState where
  parser : PdfParser
  printed : Str := []

/-- What `pdf_parser::parse` leaves. -/
structure ParseResult extends ParseState where
  thrown : Option ParseFault := none

namespace PdfParser

/-- The four `clear()` calls. -/
def clear (p : PdfParser) : PdfParser :=
  { p with metadata := fun _ => none, text := [], embeddedFiles := [], warnings := [] }

/-- `std::cout << s`. -/
def print (st : ParseState) (s : Str) : ParseState := { st with printed := st.printed ++ s }

/-- The body of the metadata loop. -/
def extractKey (data : Utf8Data) (doc : PdfDocument) (st : ParseState) (key : Str) :
    Except ParseResult ParseState :=
  let value := doc.infoKey key
  if value ≠ [] then
    match data (.info key) value with
    | none => .error { st with thrown := some .nullRead }
    | some read =>
      let st := { st with
        parser := { st.parser with
          metadata := Function.update st.parser.metadata key (some read) } }
      match data (.printed key) value with
      | none => .error { print st (key ++ lit ": ") with thrown := some .nullRead }
      | some shown => .ok (print st (key ++ lit ": " ++ shown ++ lit "\n"))
  else .ok st

/-- The body of the page loop. -/
def extractPage (data : Utf8Data) (st : ParseState) :
    Option Str × Nat → Except ParseResult ParseState
  | (some text, i) =>
    match data (.page i) text with
    | none => .error { st with thrown := some .logicError }
    | some read =>
      .ok { st with
        parser := { st.parser with text := st.parser.text ++ (read ++ lit "\n") } }
  | (none, _) => .ok st

/-- What is printed about the attachments. -/
def listAttachments (attachments : List EmbeddedFile) : Str :=
  if attachments ≠ [] then
    lit "Embedded files:\n" ++ attachments.flatMap fun att =>
      att.name ++ lit " (" ++ decimal att.data.length ++ lit " bytes)\n"
  else lit "No embedded files found.\n"

/-- `pdf_parser::parse`, from the metadata on. -/
def extract (data : Utf8Data) (doc : PdfDocument) (p : PdfParser) :
    Except ParseResult ParseState := do
  let keyed ← infoKeys.foldlM (extractKey data doc) { parser := p }
  let paged ← doc.pages.zipIdx.foldlM (extractPage data) (print keyed (lit "Text content:\n"))
  -- the attachments are printed; `embedded_files_` stays as it was cleared
  return print paged (listAttachments doc.embeddedFiles)

/-- `pdf_parser::parse`. -/
def parse (p : PdfParser) (load : Str → Option PdfDocument) (data : Utf8Data)
    (job : FileJobShm) : ParseResult :=
  let cleared := p.clear
  match load (toFileJob job).path with
  | none =>
    { parser := cleared, thrown := some (.runtimeError (lit "Poppler failed to open PDF")) }
  | some doc =>
    match extract data doc cleared with
    | .error result => result
    | .ok st => { st with thrown := none }

/-- `get_metadata`, `get_text`, `get_embedded_files`, `get_warnings`. -/
def getMetadata (p : PdfParser) : Str → Option Str := p.metadata

def getText (p : PdfParser) : Str := p.text

def getEmbeddedFiles (p : PdfParser) : List Str := p.embeddedFiles

def getWarnings (p : PdfParser) : List Str := p.warnings

/-- A call of `parse`: the files and the memory as they are then, and the job. -/
structure Call where
  load : Str → Option PdfDocument
  data : Utf8Data
  job : FileJobShm

/-- A sequence of `parse` calls. -/
def parseAll (p : PdfParser) (calls : List Call) : PdfParser :=
  calls.foldl (fun p call => (p.parse call.load call.data call.job).parser) p

/-! ## What a call leaves in the members -/

/-- What a page should add to the text. -/
def pageText : Option Str → Str
  | some text => text ++ lit "\n"
  | none => []

/-- What the page loop adds for a page it gets through. -/
def pageRead (data : Utf8Data) : Option Str × Nat → Str
  | (some text, i) => (data (.page i) text).getD [] ++ lit "\n"
  | (none, _) => []

/-- The text of the page, if it has one, is not read from a null pointer. -/
def PageReads (data : Utf8Data) (page : Option Str × Nat) : Prop :=
  ∀ text, page.1 = some text → ∃ read, data (.page page.2) text = some read

/-- The metadata after the loop over `keys`. -/
def metadataRead (data : Utf8Data) (doc : PdfDocument) (keys : List Str)
    (before : Str → Option Str) (key : Str) : Option Str :=
  if key ∈ keys ∧ doc.infoKey key ≠ [] then data (.info key) (doc.infoKey key) else before key

section

variable {data : Utf8Data} {doc : PdfDocument}

theorem metadataRead_cons (key : Str) (keys : List Str) (before : Str → Option Str) :
    metadataRead data doc (key :: keys) before =
      metadataRead data doc keys (metadataRead data doc [key] before) := by
  funext k
  unfold metadataRead
  by_cases hk : k = key
  · subst hk
    by_cases hvalue : doc.infoKey k = [] <;> simp [hvalue]
  · simp [hk]

/-- One turn of the metadata loop: no value that is stored or printed is empty, so
neither read meets a null pointer. -/
theorem extractKey_ok (hdata : ReadsBytes data) (doc : PdfDocument) (key : Str) (st : ParseState) :
    ∃ printed, extractKey data doc st key = .ok {
      parser := { st.parser with metadata := metadataRead data doc [key] st.parser.metadata }
      printed := printed } := by
  by_cases hvalue : doc.infoKey key = []
  · have hsame : metadataRead data doc [key] st.parser.metadata = st.parser.metadata := by
      funext k
      by_cases hk : k = key
      · simp [metadataRead, hk, hvalue]
      · simp [metadataRead, hk]
    rw [hsame]
    exact ⟨st.printed, by simp [extractKey, hvalue]⟩
  · obtain ⟨read, hread⟩ := hdata.read_of_ne_nil (.info key) hvalue
    obtain ⟨shown, hshown⟩ := hdata.read_of_ne_nil (.printed key) hvalue
    have hupdate : Function.update st.parser.metadata key (some read) =
        metadataRead data doc [key] st.parser.metadata := by
      funext k
      rw [Function.update_apply, metadataRead]
      by_cases hk : k = key
      · subst hk
        simp [hvalue, hread]
      · simp [hk]
    refine ⟨st.printed ++ (key ++ lit ": " ++ shown ++ lit "\n"), ?_⟩
    simp only [extractKey, ne_eq, hvalue, not_false_eq_true, if_true, hread, hshown, hupdate]
    rfl

/-- The metadata loop gets through every key, and changes nothing but the metadata. -/
theorem foldlM_extractKey (hdata : ReadsBytes data) (doc : PdfDocument) (keys : List Str)
    (st : ParseState) : ∃ printed, keys.foldlM (extractKey data doc) st = .ok {
      parser := { st.parser with metadata := metadataRead data doc keys st.parser.metadata }
      printed := printed } := by
  induction keys generalizing st with
  | nil => exact ⟨st.printed, by simp; rfl⟩
  | cons key keys ih =>
    obtain ⟨shown, hstep⟩ := extractKey_ok hdata doc key st
    obtain ⟨printed, hrest⟩ := ih {
      parser := { st.parser with metadata := metadataRead data doc [key] st.parser.metadata }
      printed := shown }
    refine ⟨printed, ?_⟩
    rw [List.foldlM_cons, hstep, metadataRead_cons key keys]
    exact hrest

/-- The page loop gets through pages that it can read, and changes nothing but the text. -/
theorem foldlM_extractPage {pages : List (Option Str × Nat)}
    (h : ∀ page ∈ pages, PageReads data page) (st : ParseState) :
    pages.foldlM (extractPage data) st = .ok { st with
      parser := { st.parser with text := st.parser.text ++ pages.flatMap (pageRead data) } } := by
  induction pages generalizing st with
  | nil =>
    rw [List.flatMap_nil, List.append_nil]
    rfl
  | cons page pages ih =>
    obtain ⟨hpage, hpages⟩ := List.forall_mem_cons.mp h
    rw [List.foldlM_cons, List.flatMap_cons, ← List.append_assoc]
    obtain ⟨text | text, i⟩ := page
    · refine Eq.trans (ih hpages st) ?_
      rw [pageRead, List.append_nil]
    · obtain ⟨read, hread⟩ := hpage text rfl
      have hstep : extractPage data st (some text, i) = .ok { st with
          parser := { st.parser with text := st.parser.text ++ (read ++ lit "\n") } } := by
        simp only [extractPage, hread]
      rw [hstep, pageRead, hread]
      exact ih hpages _

/-- It stops at the first page that it cannot read. -/
theorem reads_of_foldlM_extractPage {pages : List (Option Str × Nat)} {st st' : ParseState}
    (h : pages.foldlM (extractPage data) st = .ok st') : ∀ page ∈ pages, PageReads data page := by
  induction pages generalizing st with
  | nil => exact List.forall_mem_nil _
  | cons page pages ih =>
    rw [List.foldlM_cons] at h
    obtain ⟨mid, hstep, hrest⟩ := bind_eq_ok.mp h
    refine List.forall_mem_cons.mpr ⟨?_, ih hrest⟩
    obtain ⟨text | text, i⟩ := page
    · exact fun text htext => by cases htext
    · intro text' htext
      obtain rfl := Option.some.inj htext
      cases hread : data (.page i) text with
      | none =>
        simp only [extractPage, hread] at hstep
        cases hstep
      | some read => exact ⟨read, rfl⟩

end

variable {p : PdfParser} {load : Str → Option PdfDocument} {data : Utf8Data} {job : FileJobShm}
  {doc : PdfDocument}

/-- A failed load leaves everything cleared. -/
theorem parse_failed (h : load (toFileJob job).path = none) :
    (p.parse load data job).parser = {} ∧
      (p.parse load data job).thrown =
        some (.runtimeError (lit "Poppler failed to open PDF")) := by
  unfold parse
  rw [h]
  exact ⟨rfl, rfl⟩

/-- A `parse` that stops on the way leaves an exception. -/
theorem extract_thrown (data : Utf8Data) (doc : PdfDocument) (p : PdfParser) :
    Ensures (fun result => result.thrown ≠ none) (fun _ => True) (extract data doc p) := by
  have hkey : ∀ st key, Ensures (fun result => result.thrown ≠ none) (fun _ => True)
      (extractKey data doc st key) := by
    intro st key
    unfold extractKey
    by_cases hvalue : doc.infoKey key = []
    · simp [hvalue, Ensures]
    · simp only [ne_eq, hvalue, not_false_eq_true, if_true]
      cases data (.info key) (doc.infoKey key) with
      | none => exact Option.some_ne_none _
      | some read =>
        cases data (.printed key) (doc.infoKey key) with
        | none => exact Option.some_ne_none _
        | some shown => exact trivial
  have hpage : ∀ st page, Ensures (fun result => result.thrown ≠ none) (fun _ => True)
      (extractPage data st page) := by
    rintro st ⟨text | text, i⟩
    · exact trivial
    · cases hread : data (.page i) text with
      | none =>
        simp only [extractPage, hread]
        exact Option.some_ne_none _
      | some read =>
        simp only [extractPage, hread]
        exact trivial
  unfold extract
  refine (Ensures.foldlM trivial fun st _ key _ => hkey st key).bind fun keyed _ => ?_
  refine (Ensures.foldlM trivial fun st _ page _ => hpage st page).bind fun paged _ => ?_
  exact trivial

/-- What the loops have read of a document whose pages can all be read: no attachment is
among it. -/
theorem extract_ok (hdata : ReadsBytes data) (p : PdfParser)
    (hpages : ∀ page ∈ doc.pages.zipIdx, PageReads data page) :
    ∃ printed, extract data doc p = .ok {
      parser := { p with
        metadata := metadataRead data doc infoKeys p.metadata
        text := p.text ++ doc.pages.zipIdx.flatMap (pageRead data) }
      printed := printed } := by
  obtain ⟨printed, hkeys⟩ := foldlM_extractKey hdata doc infoKeys { parser := p }
  refine ⟨printed ++ lit "Text content:\n" ++ listAttachments doc.embeddedFiles, ?_⟩
  unfold extract
  refine bind_eq_ok.mpr ⟨_, hkeys, ?_⟩
  exact bind_eq_ok.mpr ⟨_, foldlM_extractPage hpages _, rfl⟩

theorem reads_of_extract {st : ParseState} (h : extract data doc p = .ok st) :
    ∀ page ∈ doc.pages.zipIdx, PageReads data page := by
  obtain ⟨keyed, -, hrest⟩ := bind_eq_ok.mp h
  obtain ⟨paged, hloop, -⟩ := bind_eq_ok.mp hrest
  exact reads_of_foldlM_extractPage hloop

/-- The call returns exactly when the load succeeds and every page can be read. -/
theorem parse_returns (hdata : ReadsBytes data) :
    (p.parse load data job).thrown = none ↔
      ∃ doc, load (toFileJob job).path = some doc ∧
        ∀ page ∈ doc.pages.zipIdx, PageReads data page := by
  cases hload : load (toFileJob job).path with
  | none => simp [parse, hload]
  | some doc =>
    cases hextract : extract data doc p.clear with
    | error result =>
      simp only [parse, hload, hextract]
      have hthrown := (extract_thrown data doc p.clear).of_error hextract
      refine iff_of_false hthrown ?_
      rintro ⟨doc', hdoc', hpages⟩
      obtain rfl := Option.some.inj hdoc'
      obtain ⟨printed, hok⟩ := extract_ok hdata p.clear hpages
      rw [hextract] at hok
      cases hok
    | ok st =>
      simp only [parse, hload, hextract]
      exact iff_of_true trivial ⟨doc, rfl, reads_of_extract hextract⟩

/-- What a call that returns leaves of a document, whatever the parser held before. -/
theorem parse_loaded (hdata : ReadsBytes data) (h : load (toFileJob job).path = some doc)
    (hpages : ∀ page ∈ doc.pages.zipIdx, PageReads data page) :
    (p.parse load data job).parser =
      { metadata := metadataRead data doc infoKeys fun _ => none
        text := doc.pages.zipIdx.flatMap (pageRead data)
        embeddedFiles := []
        warnings := [] } := by
  obtain ⟨printed, hok⟩ := extract_ok hdata p.clear hpages
  unfold parse
  simp only [h, hok]
  rfl

end PdfParser

/-! ## What the getters should return -/

/-- The getters return exactly what is in the document. -/
structure Reports (p : PdfParser) (doc : PdfDocument) : Prop where
  metadata : ∀ key, p.getMetadata key =
    if key ∈ infoKeys ∧ doc.infoKey key ≠ [] then some (doc.infoKey key) else none
  text : p.getText = doc.pages.flatMap PdfParser.pageText
  embeddedFiles : p.getEmbeddedFiles = doc.embeddedFiles.map EmbeddedFile.name
  warnings : p.getWarnings = []

/-- The call has returned and the getters return the document that was loaded, or
nothing when none was. -/
def ReportsLast (result : ParseResult) : Option PdfDocument → Prop
  | some doc => result.thrown = none ∧ Reports result.parser doc
  | none => (∀ key, result.parser.getMetadata key = none) ∧ result.parser.getText = [] ∧
      result.parser.getEmbeddedFiles = [] ∧ result.parser.getWarnings = []

/-- The document has no attachments, and what is extracted is read as it is: an info
value when there is one, and the text of every page that can be created, which must
therefore not be empty. -/
structure Extractable (data : Utf8Data) (doc : PdfDocument) : Prop where
  embeddedFiles : doc.embeddedFiles = []
  info : ∀ key ∈ infoKeys, doc.infoKey key ≠ [] → ReadBack data (.info key) (doc.infoKey key)
  pages : ∀ text i, (some text, i) ∈ doc.pages.zipIdx → ReadBack data (.page i) text

theorem length_flatMap_le {α β : Type} {f g : α → List β} {l : List α}
    (h : ∀ a ∈ l, (f a).length ≤ (g a).length) : (l.flatMap f).length ≤ (l.flatMap g).length := by
  induction l with
  | nil => exact Nat.le_refl _
  | cons a l ih =>
    obtain ⟨hhead, htail⟩ := List.forall_mem_cons.mp h
    rw [List.flatMap_cons, List.flatMap_cons, List.length_append, List.length_append]
    exact Nat.add_le_add hhead (ih htail)

/-- Chunk by chunk: when no chunk of the first list is longer than its counterpart, the
two concatenations only agree if all chunks do. -/
theorem flatMap_eq_iff {α β : Type} {f g : α → List β} {l : List α}
    (h : ∀ a ∈ l, (f a).length ≤ (g a).length) :
    l.flatMap f = l.flatMap g ↔ ∀ a ∈ l, f a = g a := by
  induction l with
  | nil => simp
  | cons a l ih =>
    obtain ⟨hhead, htail⟩ := List.forall_mem_cons.mp h
    have hrest := length_flatMap_le htail
    rw [List.flatMap_cons, List.flatMap_cons, List.forall_mem_cons]
    constructor
    · intro heq
      have hsum := congrArg List.length heq
      rw [List.length_append, List.length_append] at hsum
      obtain ⟨hfirst, hlast⟩ := List.append_inj heq (by omega)
      exact ⟨hfirst, (ih htail).mp hlast⟩
    · rintro ⟨hfirst, hall⟩
      rw [hfirst, (ih htail).mpr hall]

section

variable {data : Utf8Data} {doc : PdfDocument}

/-- The pages, each with its index. -/
theorem flatMap_pageText (pages : List (Option Str)) :
    pages.flatMap PdfParser.pageText =
      pages.zipIdx.flatMap fun page => PdfParser.pageText page.1 := by
  conv_lhs => rw [← List.zipIdx_map_fst 0 pages, List.flatMap_map]

/-- What the page loop has read holds no NUL. -/
theorem nul_not_mem_pageRead (hdata : ReadsBytes data) {pages : List (Option Str × Nat)}
    (hreads : ∀ page ∈ pages, PdfParser.PageReads data page) :
    0 ∉ pages.flatMap (PdfParser.pageRead data) := by
  intro h0
  obtain ⟨⟨text | text, i⟩, hmem, hpage⟩ := List.mem_flatMap.mp h0
  · exact List.not_mem_nil hpage
  · obtain ⟨read, hread⟩ := hreads _ hmem text rfl
    rw [PdfParser.pageRead, hread] at hpage
    rcases List.mem_append.mp hpage with hpage | hpage
    · exact hdata.nul_not_mem hread hpage
    · exact absurd hpage (by decide)

/-- The text comes out as it should exactly when every page does. What is read holds no
NUL, so no text with one comes out; of the others nothing is missing, so that no page
can make up for another. -/
theorem text_iff (hdata : ReadsBytes data)
    (hreads : ∀ page ∈ doc.pages.zipIdx, PdfParser.PageReads data page) :
    doc.pages.zipIdx.flatMap (PdfParser.pageRead data) = doc.pages.flatMap PdfParser.pageText ↔
      ∀ text i, (some text, i) ∈ doc.pages.zipIdx → ReadBack data (.page i) text := by
  rw [flatMap_pageText]
  constructor
  · intro heq
    have hnul : ∀ text i, (some text, i) ∈ doc.pages.zipIdx → 0 ∉ text := by
      intro text i hmem h0
      refine nul_not_mem_pageRead hdata hreads ?_
      rw [heq]
      exact List.mem_flatMap.mpr ⟨_, hmem, List.mem_append_left _ h0⟩
    have hlonger : ∀ page ∈ doc.pages.zipIdx,
        (PdfParser.pageText page.1).length ≤ (PdfParser.pageRead data page).length := by
      rintro ⟨text | text, i⟩ hmem
      · exact Nat.le_refl _
      · obtain ⟨read, hread⟩ := hreads _ hmem text rfl
        simp only [PdfParser.pageText, PdfParser.pageRead, hread, Option.getD_some,
          List.length_append]
        exact Nat.add_le_add_right (hdata.isPrefix (hnul text i hmem) hread).length_le _
    intro text i hmem
    obtain ⟨read, hread⟩ := hreads _ hmem text rfl
    have hsame := (flatMap_eq_iff hlonger).mp heq.symm _ hmem
    simp only [PdfParser.pageText, PdfParser.pageRead, hread, Option.getD_some] at hsame
    rw [ReadBack, hread, List.append_cancel_right hsame]
  · intro hback
    refine List.flatMap_congr fun page hmem => ?_
    obtain ⟨text | text, i⟩ := page
    · rfl
    · rw [PdfParser.pageRead, hback text i hmem]
      rfl

/-- The metadata comes out as it should exactly when every value does. -/
theorem metadata_iff :
    (∀ key, PdfParser.metadataRead data doc infoKeys (fun _ => none) key =
        if key ∈ infoKeys ∧ doc.infoKey key ≠ [] then some (doc.infoKey key) else none) ↔
      ∀ key ∈ infoKeys, doc.infoKey key ≠ [] → ReadBack data (.info key) (doc.infoKey key) := by
  refine forall_congr' fun key => ?_
  unfold PdfParser.metadataRead
  by_cases hkey : key ∈ infoKeys
  · by_cases hvalue : doc.infoKey key = [] <;> simp [hkey, hvalue, ReadBack]
  · simp [hkey]

/-- A call leaves the document it has loaded exactly when that is extractable. -/
theorem reports_iff (hdata : ReadsBytes data) {p : PdfParser} {load : Str → Option PdfDocument}
    {job : FileJobShm} (h : load (toFileJob job).path = some doc) :
    ReportsLast (p.parse load data job) (some doc) ↔ Extractable data doc := by
  constructor
  · rintro ⟨hreturns, hr⟩
    obtain ⟨doc', hdoc', hreads⟩ := (PdfParser.parse_returns hdata).mp hreturns
    obtain rfl := Option.some.inj (h.symm.trans hdoc')
    rw [PdfParser.parse_loaded hdata h hreads] at hr
    refine ⟨?_, metadata_iff.mp hr.metadata, (text_iff hdata hreads).mp hr.text⟩
    have hnone : doc.embeddedFiles.map EmbeddedFile.name = [] := hr.embeddedFiles.symm
    exact List.map_eq_nil_iff.mp hnone
  · intro he
    have hreads : ∀ page ∈ doc.pages.zipIdx, PdfParser.PageReads data page := by
      rintro ⟨_, i⟩ hmem text rfl
      exact ⟨text, he.pages text i hmem⟩
    refine ⟨(PdfParser.parse_returns hdata).mpr ⟨doc, h, hreads⟩, ?_⟩
    rw [PdfParser.parse_loaded hdata h hreads]
    refine ⟨metadata_iff.mpr he.info, (text_iff hdata hreads).mpr he.pages, ?_, rfl⟩
    rw [he.embeddedFiles]
    rfl

end

/-- **Parsed results are those of the last document** exactly when that document is
extractable: for any parser, any calls before the last one, and any files. When the
last load failed nothing is reported, without any condition. -/
theorem parsed_results_iff (p : PdfParser) (history : List PdfParser.Call)
    (load : Str → Option PdfDocument) (data : Utf8Data) (hdata : ReadsBytes data)
    (job : FileJobShm) :
    ReportsLast ((p.parseAll history).parse load data job) (load (toFileJob job).path) ↔
      ∀ doc, load (toFileJob job).path = some doc → Extractable data doc := by
  cases hload : load (toFileJob job).path with
  | none =>
    refine iff_of_true ?_ fun doc hdoc => (by cases hdoc)
    rw [ReportsLast, (PdfParser.parse_failed hload).1]
    exact ⟨fun _ => rfl, rfl, rfl, rfl⟩
  | some doc =>
    constructor
    · intro hr doc' hdoc'
      obtain rfl := Option.some.inj hdoc'
      exact (reports_iff hdata hload).mp hr
    · intro he
      exact (reports_iff hdata hload).mpr (he doc rfl)

/-! ## Bytes with a NUL behind them -/

/-- A memory in which a NUL lies right behind every vector. -/
def nulBehind : Utf8Data := fun _ s => if s = [] then none else some (cStr s)

theorem nulBehind_reads : ReadsBytes nulBehind where
  empty _ := rfl
  inside _ s h0 := if_neg (List.ne_nil_of_mem h0)
  behind _ s hne h0 := ⟨[], List.not_mem_nil, by
    rw [nulBehind, if_neg hne, cStr_of_nul_not_mem h0, List.append_nil]⟩

/-- The name of the only attachment of a document is not reported. -/
theorem attachment_lost :
    ReadsBytes nulBehind ∧
      ¬ ReportsLast (PdfParser.parse {}
          (fun _ => some { embeddedFiles := [{ name := lit "invoice.xml", data := [] }] })
          nulBehind {})
        (some { embeddedFiles := [{ name := lit "invoice.xml", data := [] }] }) :=
  ⟨nulBehind_reads, fun h => absurd h.2.embeddedFiles (by decide)⟩

/-- A titled document of two pages and one that cannot be created. -/
def minutes : PdfDocument where
  infoKey key := if key = lit "Title" then lit "Minutes" else []
  pages := [some (lit "Present"), none, some (lit "Decided")]

/-- It is reported, after a document with an attachment. -/
theorem parsed_results_minutes :
    ReportsLast
      ((PdfParser.parseAll {} [{
          load := fun _ => some { embeddedFiles := [{ name := lit "invoice.xml", data := [] }] }
          data := nulBehind
          job := {} }]).parse (fun _ => some minutes) nulBehind {})
      (some minutes) := by
  refine (parsed_results_iff {} _ (fun _ => some minutes) nulBehind nulBehind_reads {}).mpr ?_
  intro doc hdoc
  obtain rfl := Option.some.inj hdoc
  refine ⟨rfl, fun key _ hvalue => ?_, fun text i hmem => ?_⟩
  · by_cases htitle : key = lit "Title"
    · subst htitle
      rfl
    · exact absurd (if_neg htitle) hvalue
  · simp only [minutes, List.zipIdx_cons, List.zipIdx_nil, List.mem_cons, List.not_mem_nil,
      Prod.mk.injEq, or_false, Option.some.injEq] at hmem
    rcases hmem with ⟨rfl, -⟩ | ⟨h, -⟩ | ⟨rfl, -⟩
    · rfl
    · cases h
    · rfl

end Fika
