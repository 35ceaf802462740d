import Fika.Global.Service

/-!
# Parsing (`parser_registry.cpp`, `parse_service.cpp`, `parse/src/main.cpp`)

The parse service looks up a parser for the job's MIME type and replies to qm.
The lookup goes through a cache that is filled on demand by `create_parser`; the
table of `create_parser` is a parameter `create` here, so that what is proved
holds for any set of available parsers, and `createParser` is the table of the
source, which creates none yet. `P` stands for the abstract class `parser`,
whose objects the service only compares with null.

- `findParser_isSome`: the cache never changes which types have a parser.
- `parseReply`, `parseHandle_sent`: each job gets exactly one reply.
-/

namespace Fika

open Lib

universe u

/-- `create_parser`: every case of the source returns null. -/
def createParser (P : Type u) : MimeType → Option P
  | .pdf => none
  | .textPlain => none
  | .imageJpeg => none
  | _ => none

/-- `class parser_registry`: the parsers created so far. -/
structure ParserRegistry (P : Type u) where
  parsers : MimeType → Option P := fun _ => none

section

variable {P : Type u}

/-- `parser_registry::find_parser`. -/
def findParser (create : MimeType → Option P) (registry : ParserRegistry P)
    (mimeType : MimeType) : Option P × ParserRegistry P :=
  match registry.parsers mimeType with
  | some psr => (some psr, registry)
  | none =>
    match create mimeType with
    | some psr =>
      (some psr,
        { parsers := fun m => if m = mimeType then some psr else registry.parsers m })
    | none => (none, registry)

/-- `process_job` of the parse service. -/
def processJob (create : MimeType → Option P) (registry : ParserRegistry P)
    (job : FileJobShm) : FileJobShm × ParserRegistry P :=
  let found := findParser create registry job.mime
  ({ job with status := if found.1.isSome then .done else .failed }, found.2)

/-- The senders `main` of parse registers. -/
def parseSenders : Senders := addSender [] (lit "qm") (.msgQueueSender .qm)

/-- `parse_service::handle` on a job message. -/
def parseHandle (create : MimeType → Option P) (registry : ParserRegistry P)
    (fileJob : FileJobShm) : List (Binary × IpcMessage) × ParserRegistry P :=
  let processed := processJob create registry fileJob
  (deliver parseSenders (lit "qm") (.fileJobShm processed.1), processed.2)

@[simp] theorem deliver_parse_qm (msg : IpcMessage) :
    deliver parseSenders (lit "qm") msg = [(.qm, msg)] := by
  have h : getSender parseSenders (lit "qm") = some (.msgQueueSender .qm) := by decide
  rw [deliver, h]

/-- A registry that only caches what `create` makes. -/
def ParserRegistry.Cached (create : MimeType → Option P) (registry : ParserRegistry P) : Prop :=
  ∀ m psr, registry.parsers m = some psr → create m = some psr

theorem cached_empty (create : MimeType → Option P) :
    ParserRegistry.Cached create ({} : ParserRegistry P) := fun _ _ h => nomatch h

variable {create : MimeType → Option P} {registry : ParserRegistry P}

/-- A lookup keeps the cache faithful. -/
theorem cached_findParser (h : registry.Cached create) (mimeType : MimeType) :
    (findParser create registry mimeType).2.Cached create := by
  unfold findParser
  cases hp : registry.parsers mimeType with
  | some psr => exact h
  | none =>
    cases hc : create mimeType with
    | none => exact h
    | some psr =>
      -- the new entry is what `create` has just made; the others were there
      intro m psr' hm
      change (if m = mimeType then some psr else registry.parsers m) = some psr' at hm
      split at hm
      · next heq => rw [heq, hc, hm]
      · exact h m psr' hm

/-- A lookup succeeds for exactly the types that have a parser, whatever was
looked up before. -/
theorem findParser_isSome (h : registry.Cached create) (mimeType : MimeType) :
    (findParser create registry mimeType).1.isSome = (create mimeType).isSome := by
  unfold findParser
  cases hp : registry.parsers mimeType with
  | some psr => rw [h mimeType psr hp]
  | none => cases hc : create mimeType <;> rfl

/-- The reply to a job. -/
def parseReply (create : MimeType → Option P) (m : FileJobShm) : FileJobShm :=
  { m with status := if (create m.mime).isSome then .done else .failed }

/-- The parse service answers each job with one message. -/
theorem parseHandle_sent (h : registry.Cached create) (m : FileJobShm) :
    (parseHandle create registry m).1 = [(.qm, .fileJobShm (parseReply create m))] := by
  show deliver parseSenders (lit "qm") (.fileJobShm { m with
    status := if (findParser create registry m.mime).1.isSome then .done else .failed }) = _
  rw [deliver_parse_qm, findParser_isSome h]
  rfl

theorem cached_parseHandle (h : registry.Cached create) (m : FileJobShm) :
    (parseHandle create registry m).2.Cached create :=
  cached_findParser h m.mime

end

end Fika
