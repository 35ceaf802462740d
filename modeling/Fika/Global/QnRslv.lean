import Fika.Lib.Search
import Fika.Global.Service

/-!
# Queue names read back (`qn_rslv.cpp`)

`get_direct_queue` joins two names with `.to.`; `parse_direct_queue` splits at
the first `.to.` after the prefix. The two agree only on names whose sender has
no `.to.` before the separator, also not across the seam.

- `parseDirectQueue`, `parseInboxQueue`: the parsers.
- `parseDirectQueue_eq_some_iff`: a name parses to a pair exactly when it is the
  encoding of the pair, both parts are non-empty and the sender followed by a
  dot has no `.to.`.
- `direct_queue_names_decode`: the same, with re-encoding and decoding as its two
  directions.
- `parseInboxQueue_eq_some_iff`: inbox names have no such ambiguity.
-/

namespace Fika

open Lib

/-- The `prefix` of `parse_direct_queue`. -/
def directPrefix : Str := lit "fika.direct."

/-- The `sep` of `parse_direct_queue`. -/
def directSep : Str := lit ".to."

/-- The `prefix` of `parse_inbox_queue`. -/
def inboxPrefix : Str := lit "fika.inbox."

/-- `util::parse_direct_queue`. -/
def parseDirectQueue (queueName : Str) : Option (Str × Str) :=
  -- `rfind(prefix, 0)` looks at position 0 only
  if directPrefix <+: queueName then
    match findFrom directSep queueName directPrefix.length with
    | none => none
    | some pos =>
      let sender := (queueName.drop directPrefix.length).take (pos - directPrefix.length)
      let receiver := queueName.drop (pos + directSep.length)
      if sender = [] ∨ receiver = [] then none else some (sender, receiver)
  else none

/-- `util::parse_inbox_queue`. -/
def parseInboxQueue (queueName : Str) : Option Str :=
  if inboxPrefix <+: queueName then
    let binary := queueName.drop inboxPrefix.length
    if binary = [] then none else some binary
  else none

/-- Behind the prefix the parser is a split of the rest at its first separator. -/
theorem parseDirectQueue_append (rest : Str) :
    parseDirectQueue (directPrefix ++ rest) = (find directSep rest).bind fun i =>
      if rest.take i = [] ∨ rest.drop (i + directSep.length) = [] then none
      else some (rest.take i, rest.drop (i + directSep.length)) := by
  rw [parseDirectQueue, if_pos (List.prefix_append _ _), findFrom, if_pos (by simp),
    List.drop_left]
  cases find directSep rest with
  | none => rfl
  | some i =>
    simp only [Option.map_some, Option.bind_some, Nat.add_sub_cancel_left, Nat.add_assoc,
      List.drop_length_add_append]

/-- Without the prefix nothing is parsed; behind it, what is parsed splits the
rest. -/
theorem parseDirectQueue_cases {q s r : Str} (h : parseDirectQueue q = some (s, r)) :
    ∃ rest i, q = directPrefix ++ rest ∧ find directSep rest = some i ∧
      s = rest.take i ∧ r = rest.drop (i + directSep.length) ∧ s ≠ [] ∧ r ≠ [] := by
  by_cases hpre : directPrefix <+: q
  · obtain ⟨rest, rfl⟩ := hpre
    rw [parseDirectQueue_append] at h
    obtain ⟨i, hfind, h⟩ := Option.bind_eq_some_iff.mp h
    split at h
    · cases h
    · rename_i hne
      rw [not_or] at hne
      cases h
      exact ⟨rest, i, rfl, hfind, rfl, rfl, hne.1, hne.2⟩
  · rw [parseDirectQueue, if_neg hpre] at h
    cases h

/-- An encoded name, as what `parseDirectQueue_append` splits. -/
theorem getDirectQueue_eq (s r : Str) :
    getDirectQueue s r = directPrefix ++ (s ++ directSep ++ r) := by
  simp only [getDirectQueue, directPrefix, directSep, List.append_assoc]

/-- The parser on an encoded name stops at the first separator of the rest. -/
theorem parseDirectQueue_getDirectQueue {s r : Str}
    (hfind : find directSep (s ++ directSep ++ r) = some s.length) (hs : s ≠ []) (hr : r ≠ []) :
    parseDirectQueue (getDirectQueue s r) = some (s, r) := by
  have hrecv : (s ++ directSep ++ r).drop (s.length + directSep.length) = r := by
    rw [← List.length_append, List.drop_left]
  have hsend : (s ++ directSep ++ r).take s.length = s := by
    rw [List.append_assoc, List.take_left]
  rw [getDirectQueue_eq, parseDirectQueue_append, hfind, Option.bind_some, hrecv, hsend,
    if_neg (not_or.mpr ⟨hs, hr⟩)]

/-- The only overlap of `.to.` with itself is one dot, so the seam adds a dot to
the sender and no more. -/
theorem seam_iff (s : Str) :
    directSep <:+: s ++ directSep.dropLast ↔ directSep <:+: s ++ lit "." := by
  have htail : (46 : UInt8) ∉ lit "to" := by decide
  have hsplit : s ++ directSep.dropLast = (s ++ lit ".") ++ lit "to" := by
    rw [List.append_assoc]
    rfl
  have hsep : directSep = lit ".to" ++ [(46 : UInt8)] := by decide
  rw [hsplit, hsep]
  exact infix_append_iff htail

/-- The first separator of `s ++ ".to." ++ r` is the one that was put there. -/
theorem find_directSep_iff (s r : Str) :
    find directSep (s ++ directSep ++ r) = some s.length ↔ ¬ directSep <:+: s ++ lit "." := by
  have hne : directSep ≠ [] := by decide
  rw [find_append_iff, seam_iff]
  exact ⟨fun h => (h.resolve_left fun hn => hne hn.1).2, fun h => .inr ⟨hne, h⟩⟩

/-- What `parse_direct_queue` accepts, and what it returns. -/
theorem parseDirectQueue_eq_some_iff (q s r : Str) :
    parseDirectQueue q = some (s, r) ↔
      q = getDirectQueue s r ∧ s ≠ [] ∧ r ≠ [] ∧ ¬ directSep <:+: s ++ lit "." := by
  constructor
  · intro h
    obtain ⟨rest, i, rfl, hfind, rfl, rfl, hs, hr⟩ := parseDirectQueue_cases h
    have hrest := eq_of_find hfind
    have hi : (rest.take i).length = i := by
      rw [List.length_take]
      exact Nat.min_eq_left (find_eq_some_iff.mp hfind).1
    refine ⟨by rw [getDirectQueue_eq, ← hrest], hs, hr, ?_⟩
    rw [← find_directSep_iff _ (rest.drop (i + directSep.length)), ← hrest, hi]
    exact hfind
  · rintro ⟨rfl, hs, hr, hsep⟩
    exact parseDirectQueue_getDirectQueue ((find_directSep_iff s r).mpr hsep) hs hr

/-- A `.to.` in the sender followed by a dot is one in the sender, or its end. -/
theorem directSep_infix_iff (s : Str) :
    directSep <:+: s ++ lit "." ↔ directSep <:+: s ∨ lit ".to" <:+ s := by
  have hdot : lit "." = [(46 : UInt8)] := by decide
  have hsep : directSep = lit ".to" ++ [(46 : UInt8)] := by decide
  rw [hdot, List.infix_concat_iff, or_comm]
  refine or_congr_right ?_
  rw [hsep, List.suffix_concat_iff]
  constructor
  · rintro (hnil | ⟨t, ht, hsuf⟩)
    · simp at hnil
    · rwa [(List.append_inj' ht rfl).1]
  · exact fun hsuf => .inr ⟨lit ".to", rfl, hsuf⟩

/-- Direct queue names decode exactly what was encoded. -/
theorem direct_queue_names_decode :
    (∀ q s r : Str, parseDirectQueue q = some (s, r) ↔
      q = getDirectQueue s r ∧ s ≠ [] ∧ r ≠ [] ∧ ¬ lit ".to." <:+: s ++ lit ".") ∧
    (∀ s : Str, lit ".to." <:+: s ++ lit "." ↔ lit ".to." <:+: s ∨ lit ".to" <:+ s) ∧
    (∀ (q : Str) (p : Str × Str), parseDirectQueue q = some p → getDirectQueue p.1 p.2 = q) ∧
    (∀ s r : Str, parseDirectQueue (getDirectQueue s r) = some (s, r) ↔
      s ≠ [] ∧ r ≠ [] ∧ ¬ lit ".to." <:+: s ++ lit ".") := by
  refine ⟨parseDirectQueue_eq_some_iff, directSep_infix_iff, fun q p h => ?_, fun s r => ?_⟩
  · exact ((parseDirectQueue_eq_some_iff q p.1 p.2).mp h).1.symm
  · rw [parseDirectQueue_eq_some_iff]
    exact ⟨fun h => h.2, fun h => ⟨rfl, h⟩⟩

/-- The sender's own `.to` takes part in the first match: the name parses, to
another pair. -/
example : parseDirectQueue (getDirectQueue (lit "a.to") (lit "b")) =
    some (lit "a", lit "to.b") := by decide

/-- Inbox names are read back without a condition on what the name holds. -/
theorem parseInboxQueue_eq_some_iff (q b : Str) :
    parseInboxQueue q = some b ↔ q = getInboxQueue b ∧ b ≠ [] := by
  constructor
  · intro h
    by_cases hpre : inboxPrefix <+: q
    · obtain ⟨rest, rfl⟩ := hpre
      rw [parseInboxQueue, if_pos (List.prefix_append _ _), List.drop_left] at h
      by_cases hnil : rest = []
      · rw [if_pos hnil] at h
        cases h
      · rw [if_neg hnil] at h
        cases h
        exact ⟨rfl, hnil⟩
    · rw [parseInboxQueue, if_neg hpre] at h
      cases h
  · rintro ⟨rfl, hne⟩
    have hq : getInboxQueue b = inboxPrefix ++ b := rfl
    rw [hq, parseInboxQueue, if_pos (List.prefix_append _ _), List.drop_left, if_neg hne]

end Fika
