import Fika.Lib.CharArray
import Fika.Lib.Handles

/-!
# The libmagic handle (`magic_handle.cpp`, `magic_api.h`)

`magic_handle` opens a libmagic handle in its constructor and closes it in its
destructor. C++ runs the destructor of fully constructed objects only, so what the
constructor has opened when it throws is closed by nobody.

- `MagicApi`: any behaviour of the interface; what a call returns may depend on all
  calls before it.
- `MagicHandle.construct`, `detect`, `destroy`: the three members, each with the
  calls it makes; `lifetime`: an object from its construction to its end.
- `lifetime_null`, `lifetime_failed`, `lifetime_loaded`: the three shapes of the
  calls of a lifetime.
- `handles_balanced_iff`: the calls are balanced exactly when `open` returned null
  or `load` succeeded; `failed_load_leaks`.
-/

namespace Fika

open Lib

universe u

/-! ## The interface -/

/-- A call of `magic_api` with what it returned; a pointer is null or not. -/
inductive MagicCall (H : Type u) where
  | open (flags : Int) (result : Option H)
  | load (handle : Option H) (result : Int)
  | file (handle : Option H) (path : Str) (result : Option Str)
  | error (handle : Option H) (text : Str)
  | close (handle : Option H)
deriving DecidableEq

/-- `magic_api`: what each call returns after the calls made so far. -/
structure MagicApi (H : Type u) where
  openResult : List (MagicCall H) → Int → Option H
  loadResult : List (MagicCall H) → Option H → Int
  fileResult : List (MagicCall H) → Option H → Str → Option Str
  errorText : List (MagicCall H) → Option H → Str

/-- How the interface deals with handles. -/
def magicProtocol (H : Type u) : Protocol (MagicCall H) H where
  returns
    | .open _ result => some result
    | _ => none
  takes
    | .open _ _ => none
    | .load handle _ => some handle
    | .file handle _ _ => some handle
    | .error handle _ => some handle
    | .close handle => some handle
  releases
    | .close _ => true
    | _ => false

/-! ## The class -/

/-- `class magic_handle`: the member `handle_`. -/
structure MagicHandle (H : Type u) where
  handle : Option H

namespace MagicHandle

variable {H : Type u} (api : MagicApi H)

/-- The constructor. -/
def construct (flags : Int) (calls : List (MagicCall H)) :
    Except Str (MagicHandle H) × List (MagicCall H) :=
  let handle := api.openResult calls flags
  let calls := calls ++ [.open flags handle]
  match handle with
  | none => (.error (lit "Failed to open libmagic handle"), calls)
  | some h =>
    let loaded := api.loadResult calls (some h)
    let calls := calls ++ [.load (some h) loaded]
    if loaded ≠ 0 then
      let what := api.errorText calls (some h)
      (.error what, calls ++ [.error (some h) what])
    else (.ok { handle := some h }, calls)

/-- `magic_handle::detect`. -/
def detect (m : MagicHandle H) (filepath : Str) (calls : List (MagicCall H)) :
    Except Str Str × List (MagicCall H) :=
  -- `filepath.c_str()`
  let path := cStr filepath
  let res := api.fileResult calls m.handle path
  let calls := calls ++ [.file m.handle path res]
  match res with
  | none =>
    let what := api.errorText calls m.handle
    (.error what, calls ++ [.error m.handle what])
  | some res => (.ok res, calls)

/-- The destructor. -/
def destroy (m : MagicHandle H) (calls : List (MagicCall H)) : List (MagicCall H) :=
  match m.handle with
  | none => calls
  | some h => calls ++ [.close (some h)]

/-- The calls of a lifetime: the constructor, any `detect` calls, whether they throw or
not, and the destructor, unless the constructor has thrown. -/
def lifetime (flags : Int) (filepaths : List Str) : List (MagicCall H) :=
  match construct api flags [] with
  | (.error _, calls) => calls
  | (.ok m, calls) =>
    m.destroy (filepaths.foldl (fun calls filepath => (m.detect api filepath calls).2) calls)

variable {api} {flags : Int} {h : H} (filepaths : List Str)

/-! ## The calls of a lifetime -/

/-- Null was returned: nothing else happens. -/
theorem lifetime_null (hopen : api.openResult [] flags = none) :
    lifetime api flags filepaths = [.open flags none] := by
  unfold lifetime construct
  rw [hopen]
  rfl

/-- The load failed: the error text is read, and the exception leaves the constructor. -/
theorem lifetime_failed (hopen : api.openResult [] flags = some h)
    (hload : api.loadResult [.open flags (some h)] (some h) ≠ 0) :
    ∃ result what, lifetime api flags filepaths =
      [.open flags (some h), .load (some h) result, .error (some h) what] := by
  unfold lifetime construct
  rw [hopen]
  simp only [List.nil_append, if_pos hload]
  exact ⟨_, _, rfl⟩

/-- A `detect` call only uses the handle. -/
theorem detect_calls (api : MagicApi H) (h : H) (filepath : Str) (calls : List (MagicCall H)) :
    ∃ uses, (detect api { handle := some h } filepath calls).2 = calls ++ uses ∧
      ∀ c ∈ uses, (magicProtocol H).Uses h c := by
  have hfile : ∀ res, (magicProtocol H).Uses h (.file (some h) (cStr filepath) res) :=
    fun _ => ⟨rfl, rfl, rfl⟩
  have herror : ∀ what, (magicProtocol H).Uses h (.error (some h) what) :=
    fun _ => ⟨rfl, rfl, rfl⟩
  cases hres : api.fileResult calls (some h) (cStr filepath) with
  | none =>
    refine ⟨[.file (some h) (cStr filepath) none, .error (some h)
      (api.errorText (calls ++ [.file (some h) (cStr filepath) none]) (some h))], ?_, ?_⟩
    · simp only [detect, hres, List.append_assoc, List.cons_append, List.nil_append]
    · simp only [List.forall_mem_cons, hfile, herror, List.not_mem_nil, false_implies,
        implies_true, and_self]
  | some res =>
    refine ⟨[.file (some h) (cStr filepath) (some res)], ?_, ?_⟩
    · simp only [detect, hres]
    · simp only [List.forall_mem_cons, hfile, List.not_mem_nil, false_implies, implies_true,
        and_self]

/-- Any number of `detect` calls only use the handle. -/
theorem detects_calls (api : MagicApi H) (h : H) (filepaths : List Str)
    (calls : List (MagicCall H)) :
    ∃ uses, filepaths.foldl
        (fun calls filepath => (detect api { handle := some h } filepath calls).2) calls
        = calls ++ uses ∧
      ∀ c ∈ uses, (magicProtocol H).Uses h c := by
  induction filepaths generalizing calls with
  | nil => exact ⟨[], (List.append_nil calls).symm, fun c hc => absurd hc List.not_mem_nil⟩
  | cons filepath filepaths ih =>
    obtain ⟨first, hfirst, huses⟩ := detect_calls api h filepath calls
    obtain ⟨rest, hrest, huses'⟩ := ih (calls ++ first)
    refine ⟨first ++ rest, ?_, List.forall_mem_append.mpr ⟨huses, huses'⟩⟩
    rw [List.foldl_cons, hfirst, hrest, List.append_assoc]

/-- The load succeeded: the handle is used and closed. -/
theorem lifetime_loaded (hopen : api.openResult [] flags = some h)
    (hload : api.loadResult [.open flags (some h)] (some h) = 0) :
    ∃ uses, lifetime api flags filepaths =
        .open flags (some h) :: uses ++ [.close (some h)] ∧
      ∀ c ∈ uses, (magicProtocol H).Uses h c := by
  obtain ⟨uses, hcalls, huses⟩ := detects_calls api h filepaths
    [.open flags (some h), .load (some h) 0]
  refine ⟨.load (some h) 0 :: uses, ?_, List.forall_mem_cons.mpr ⟨⟨rfl, rfl, rfl⟩, huses⟩⟩
  unfold lifetime construct
  rw [hopen]
  simp only [List.nil_append, hload, ne_eq, not_true_eq_false, if_false, destroy]
  exact congrArg (· ++ [.close (some h)]) hcalls

end MagicHandle

/-- **Detector handles are balanced** exactly when `open` returned null or `load`
succeeded: then every handle is closed exactly once, no call is made with a null or
closed handle, and nothing is closed after a null one. -/
theorem handles_balanced_iff {H : Type u} [DecidableEq H] (api : MagicApi H) (flags : Int)
    (filepaths : List Str) :
    (magicProtocol H).Balanced (MagicHandle.lifetime api flags filepaths) ↔
      api.openResult [] flags = none ∨
        api.loadResult [.open flags (api.openResult [] flags)] (api.openResult [] flags) = 0 := by
  cases hopen : api.openResult [] flags with
  | none =>
    refine iff_of_true ?_ (Or.inl rfl)
    rw [MagicHandle.lifetime_null filepaths hopen]
    exact Protocol.balanced_null ⟨rfl, rfl, rfl⟩
  | some h =>
    by_cases hload : api.loadResult [.open flags (some h)] (some h) = 0
    · refine iff_of_true ?_ (Or.inr hload)
      obtain ⟨uses, hcalls, huses⟩ :=
        MagicHandle.lifetime_loaded filepaths hopen hload
      rw [hcalls]
      exact Protocol.balanced_bracket ⟨rfl, rfl, rfl⟩ huses ⟨rfl, rfl, rfl⟩
    · refine iff_of_false ?_ (not_or.mpr ⟨Option.some_ne_none h, hload⟩)
      obtain ⟨result, what, hcalls⟩ :=
        MagicHandle.lifetime_failed filepaths hopen hload
      rw [hcalls]
      refine Protocol.not_balanced_of_kept List.mem_cons_self rfl ?_
      simp [magicProtocol]

/-- A library that opens a handle and cannot load its database. -/
def brokenDatabase : MagicApi Nat where
  openResult _ _ := some 1
  loadResult _ _ := -1
  fileResult _ _ _ := none
  errorText _ _ := lit "could not find any magic files!"

/-- The handle opened before the load failed is never closed. -/
theorem failed_load_leaks :
    ¬ (magicProtocol Nat).Balanced (MagicHandle.lifetime brokenDatabase 16 []) := by
  have hopened : MagicCall.open 16 (some 1) ∈ MagicHandle.lifetime brokenDatabase 16 [] := by
    decide
  exact Protocol.not_balanced_of_kept hopened rfl (by decide)

end Fika
