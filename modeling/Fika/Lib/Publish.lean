import Fika.Lib.Files

/-!
# Publishing files

A writer puts a text into a temporary file, piece by piece, and then renames the file
to the name under which it is to be found. Any number of writers do so at a time; each
step of theirs is a step of the system, and other programs remove files in between.

- `Draft`: what a writer is to do; `Draft.publish`: all of it at one go.
- `Writers`, `step`, `StepSpec`: the writers at work.
- `Shadow`: the files as if no unfinished writer had begun. When no two writers that
  work at the same time have a name in common, every step of a writer keeps the shadow
  but its last one, which publishes at one go (`Shadow.stayed`, `Shadow.finished`).
- `Shadow.read_of_not_tmp`: so nobody finds a file that is partly written.
-/

namespace Lib

namespace Publish

universe u v w x

/-- What a writer is to do: whether its temporary file can be opened, the text that
reaches the file, whether the file can be renamed. -/
structure Draft (ι : Type u) (β : Type v) where
  tmp : ι
  dst : ι
  tmp_ne_dst : tmp ≠ dst
  opened : Bool
  text : List β
  renamed : Bool

/-- What is found under each name. -/
abbrev View (ι : Type u) (β : Type v) : Type (max u v) := ι → Option (List β)

namespace Draft

variable {ι : Type u} {β : Type v}

/-- The names a writer uses. -/
def Owns (d : Draft ι β) (p : ι) : Prop := p = d.tmp ∨ p = d.dst

/-- Two writers have no name in common. -/
def Apart (d d' : Draft ι β) : Prop := ∀ p, d.Owns p → ¬ d'.Owns p

theorem Apart.symm {d d' : Draft ι β} (h : d.Apart d') : d'.Apart d := fun p hp hp' => h p hp' hp

variable [DecidableEq ι]

/-- The files when the temporary one has been written. -/
def written (d : Draft ι β) (v : View ι β) : View ι β :=
  if d.opened then Function.update v d.tmp (some d.text) else v

/-- Write and rename; whether something was renamed. -/
def publish (d : Draft ι β) (v : View ι β) : View ι β × Bool :=
  match d.written v d.tmp with
  | none => (d.written v, false)
  | some text =>
    if d.renamed then
      (Function.update (Function.update (d.written v) d.tmp none) d.dst (some text), true)
    else (d.written v, false)

variable {d : Draft ι β} {v v' : View ι β} {p : ι}

theorem written_other (v : View ι β) (h : p ≠ d.tmp) : d.written v p = v p := by
  rw [written]
  split
  · exact Function.update_of_ne h ..
  · rfl

theorem written_congr (h : v' d.tmp = v d.tmp) : d.written v' d.tmp = d.written v d.tmp := by
  rw [written, written]
  split
  · rw [Function.update_self, Function.update_self]
  · exact h

theorem publish_stayed (h : d.written v d.tmp = none ∨ d.renamed = false) :
    d.publish v = (d.written v, false) := by
  rw [publish]
  rcases h with h | h
  · rw [h]
  · cases d.written v d.tmp with
    | none => rfl
    | some text =>
      show (if d.renamed = true then _ else _) = _
      rw [if_neg (by rw [h]; decide)]

theorem publish_renamed {text : List β} (htext : d.written v d.tmp = some text)
    (h : d.renamed = true) : d.publish v =
      (Function.update (Function.update (d.written v) d.tmp none) d.dst (some text), true) := by
  rw [publish, htext]
  exact if_pos h

theorem publish_tmp {text : List β} (htext : d.written v d.tmp = some text)
    (h : d.renamed = true) : (d.publish v).1 d.tmp = none := by
  rw [publish_renamed htext h]
  show Function.update (Function.update (d.written v) d.tmp none) d.dst _ d.tmp = none
  rw [Function.update_of_ne d.tmp_ne_dst, Function.update_self]

theorem publish_dst {text : List β} (htext : d.written v d.tmp = some text)
    (h : d.renamed = true) : (d.publish v).1 d.dst = some text := by
  rw [publish_renamed htext h]
  exact Function.update_self ..

/-- A writer changes what is found under its own names only. -/
theorem publish_other (v : View ι β) (h : ¬ d.Owns p) : (d.publish v).1 p = v p := by
  have htmp : p ≠ d.tmp := fun he => h (.inl he)
  have hdst : p ≠ d.dst := fun he => h (.inr he)
  cases htext : d.written v d.tmp with
  | none =>
    rw [publish_stayed (.inl htext)]
    exact written_other v htmp
  | some text =>
    cases hr : d.renamed with
    | false =>
      rw [publish_stayed (.inr hr)]
      exact written_other v htmp
    | true =>
      rw [publish_renamed htext hr]
      show Function.update (Function.update (d.written v) d.tmp none) d.dst _ p = v p
      rw [Function.update_of_ne hdst, Function.update_of_ne htmp]
      exact written_other v htmp

end Draft

/-! ## One writer -/

/-- Where a writer stands; `writing o w`: it has opened the object `o` and written the
first `w` bytes of its text. -/
inductive Stage where
  | opening
  | writing (o w : Nat)
  | moving
  | moved
deriving DecidableEq

section
variable {ι : Type u} {β : Type v} [DecidableEq ι] {f f' : Files ι β} {v v' : View ι β}
  {d : Draft ι β}

/-- How far a writer has come, where `v` shows the files as if it had not begun. -/
def Stands (f : Files ι β) (v : View ι β) (d : Draft ι β) : Stage → Prop
  | .opening => f.read d.tmp = v d.tmp ∧ f.read d.dst = v d.dst
  | .writing o w =>
    (f.names d.tmp = some o ∧ f.read d.tmp = some (d.text.take w)) ∧ w ≤ d.text.length ∧
      d.opened = true ∧ f.read d.dst = v d.dst
  | .moving => f.read d.tmp = d.written v d.tmp ∧ f.read d.dst = v d.dst
  | .moved => d.renamed = true ∧ f.read d.tmp = none ∧ f.read d.dst = d.written v d.tmp ∧
      (f.read d.dst).isSome = true

theorem Stands.congr {stage : Stage} (h : Stands f v d stage)
    (hsame : ∀ p, d.Owns p → Files.Same f f' p ∧ v' p = v p) : Stands f' v' d stage := by
  obtain ⟨htmp, hvtmp⟩ := hsame d.tmp (.inl rfl)
  obtain ⟨hdst, hvdst⟩ := hsame d.dst (.inr rfl)
  cases stage with
  | opening => exact ⟨by rw [htmp.read, hvtmp, h.1], by rw [hdst.read, hvdst, h.2]⟩
  | writing o w =>
    obtain ⟨⟨hname, hread⟩, hw, ho, hold⟩ := h
    exact ⟨⟨by rw [htmp.names, hname], by rw [htmp.read, hread]⟩, hw, ho,
      by rw [hdst.read, hvdst, hold]⟩
  | moving =>
    exact ⟨by rw [htmp.read, Draft.written_congr hvtmp, h.1], by rw [hdst.read, hvdst, h.2]⟩
  | moved =>
    obtain ⟨hr, hgone, hread, hsome⟩ := h
    exact ⟨hr, by rw [htmp.read, hgone], by rw [hdst.read, Draft.written_congr hvtmp, hread],
      by rw [hdst.read, hsome]⟩

theorem Stands.opened (h : Stands f v d .opening) (hf : f.Sound) (ho : d.opened = true) :
    Stands (f.openTrunc d.tmp).1 v d (.writing (f.openTrunc d.tmp).2 0) := by
  refine ⟨⟨Files.names_openTrunc .., ?_⟩, Nat.zero_le _, ho, ?_⟩
  · rw [List.take_zero]
    exact Files.read_openTrunc ..
  · rw [(Files.same_openTrunc hf d.tmp_ne_dst.symm).read]
    exact h.2

theorem Stands.notOpened (h : Stands f v d .opening) (ho : d.opened = false) :
    Stands f v d .moving := by
  refine ⟨?_, h.2⟩
  rw [Draft.written, if_neg (by rw [ho]; decide)]
  exact h.1

theorem Stands.wrote [Inhabited β] {o w n : Nat} (h : Stands f v d (.writing o w))
    (hf : f.Sound) (hn : w + n ≤ d.text.length) :
    Stands (f.write o w ((d.text.drop w).take n)) v d (.writing o (w + n)) := by
  obtain ⟨⟨hname, hread⟩, -, ho, hdst⟩ := h
  have hdata : f.data o = d.text.take w := by
    rw [Files.read_of_names hname] at hread
    exact Option.some.inj hread
  refine ⟨⟨hname, ?_⟩, hn, ho, ?_⟩
  · rw [Files.read_write hname, hdata, patch_take hn]
  · rw [(Files.same_write hf hname d.tmp_ne_dst.symm ..).read]
    exact hdst

theorem Stands.closed {o w : Nat} (h : Stands f v d (.writing o w)) (hw : w = d.text.length) :
    Stands f v d .moving := by
  obtain ⟨⟨-, hread⟩, -, ho, hdst⟩ := h
  refine ⟨?_, hdst⟩
  rw [hread, hw, List.take_length, Draft.written, if_pos ho, Function.update_self]

theorem Stands.renamed (h : Stands f v d .moving) (hf : f.rename d.tmp d.dst = some f')
    (hr : d.renamed = true) : Stands f' v d .moved := by
  obtain ⟨hdst, hgone, -⟩ := Files.rename_spec hf d.tmp_ne_dst
  refine ⟨hr, hgone, hdst.trans h.1, ?_⟩
  rw [hdst]
  refine Option.isSome_iff_ne_none.mpr fun hnone => ?_
  rw [Files.rename_eq_none.mpr hnone] at hf
  cases hf

end

/-! ## The writers at work -/

/-- A request at work. -/
structure Task (ρ : Type x) where
  req : ρ
  stage : Stage

/-- The files, and the task of each writer. -/
structure Writers (κ : Type w) (ρ : Type x) (ι : Type u) (β : Type v) where
  files : Files ι β
  tasks : κ → Option (Task ρ) := fun _ => none

variable {κ : Type w} {ρ : Type x} {ι : Type u} {β : Type v}

/-- Other files. -/
def Writers.setFiles (s : Writers κ ρ ι β) (f : Files ι β) : Writers κ ρ ι β :=
  { s with files := f }

section
variable [DecidableEq κ]

/-- The writer is now at work on `task`, or on nothing. -/
def Writers.setTask (s : Writers κ ρ ι β) (k : κ) (task : Option (Task ρ)) : Writers κ ρ ι β :=
  { s with tasks := Function.update s.tasks k task }

@[simp] theorem setTask_self (s : Writers κ ρ ι β) (k : κ) (task : Option (Task ρ)) :
    (s.setTask k task).tasks k = task := Function.update_self ..

theorem setTask_other (s : Writers κ ρ ι β) {k k' : κ} (task : Option (Task ρ)) (h : k' ≠ k) :
    (s.setTask k task).tasks k' = s.tasks k' := Function.update_of_ne h ..

/-- Who is at work now: the one whose task was set, or one who was before. -/
theorem setTask_cases {s : Writers κ ρ ι β} {k k' : κ} {new : Option (Task ρ)} {task : Task ρ}
    (h : (s.setTask k new).tasks k' = some task) :
    (k' = k ∧ new = some task) ∨ (k' ≠ k ∧ s.tasks k' = some task) := by
  by_cases hk : k' = k
  · rw [hk, setTask_self] at h
    exact .inl ⟨hk, h⟩
  · rw [setTask_other _ _ hk] at h
    exact .inr ⟨hk, h⟩

end

section
variable [DecidableEq κ] [DecidableEq ι] [Inhabited β] (plan : ρ → Draft ι β)

/-- The steps; a rename that fails ends the task, one that succeeds leaves the writer
with something to announce. -/
inductive Event (κ : Type w) (ρ : Type x) (ι : Type u) where
  | start (k : κ) (req : ρ)
  | openTmp (k : κ)
  | write (k : κ) (n : Nat)
  | close (k : κ)
  | rename (k : κ)
  | finish (k : κ)
  | unlink (p : ι)

/-- One step; `none` when the writer is not at it. -/
def step (s : Writers κ ρ ι β) : Event κ ρ ι → Option (Writers κ ρ ι β)
  | .start k req =>
    match s.tasks k with
    | none => some (s.setTask k (some ⟨req, .opening⟩))
    | some _ => none
  | .openTmp k =>
    match s.tasks k with
    | some ⟨req, .opening⟩ =>
      if (plan req).opened then
        some ((s.setFiles (s.files.openTrunc (plan req).tmp).1).setTask k
          (some ⟨req, .writing (s.files.openTrunc (plan req).tmp).2 0⟩))
      else some (s.setTask k (some ⟨req, .moving⟩))
    | _ => none
  | .write k n =>
    match s.tasks k with
    | some ⟨req, .writing o w⟩ =>
      if w + n ≤ (plan req).text.length then
        some ((s.setFiles (s.files.write o w (((plan req).text.drop w).take n))).setTask k
          (some ⟨req, .writing o (w + n)⟩))
      else none
    | _ => none
  | .close k =>
    match s.tasks k with
    | some ⟨req, .writing _ w⟩ =>
      if w = (plan req).text.length then some (s.setTask k (some ⟨req, .moving⟩)) else none
    | _ => none
  | .rename k =>
    match s.tasks k with
    | some ⟨req, .moving⟩ =>
      match s.files.rename (plan req).tmp (plan req).dst, (plan req).renamed with
      | some f, true => some ((s.setFiles f).setTask k (some ⟨req, .moved⟩))
      | _, _ => some (s.setTask k none)
    | _ => none
  | .finish k =>
    match s.tasks k with
    | some ⟨_, .moved⟩ => some (s.setTask k none)
    | _ => none
  | .unlink p => some (s.setFiles (s.files.unlink p))

/-- The effect of each step. -/
inductive StepSpec (s : Writers κ ρ ι β) : Event κ ρ ι → Writers κ ρ ι β → Prop where
  | started {k : κ} {req : ρ} (hidle : s.tasks k = none) :
      StepSpec s (.start k req) (s.setTask k (some ⟨req, .opening⟩))
  | opened {k : κ} {req : ρ} (htask : s.tasks k = some ⟨req, .opening⟩)
      (ho : (plan req).opened = true) :
      StepSpec s (.openTmp k) ((s.setFiles (s.files.openTrunc (plan req).tmp).1).setTask k
        (some ⟨req, .writing (s.files.openTrunc (plan req).tmp).2 0⟩))
  | notOpened {k : κ} {req : ρ} (htask : s.tasks k = some ⟨req, .opening⟩)
      (ho : (plan req).opened = false) :
      StepSpec s (.openTmp k) (s.setTask k (some ⟨req, .moving⟩))
  | wrote {k : κ} {req : ρ} {o w n : Nat} (htask : s.tasks k = some ⟨req, .writing o w⟩)
      (hn : w + n ≤ (plan req).text.length) :
      StepSpec s (.write k n)
        ((s.setFiles (s.files.write o w (((plan req).text.drop w).take n))).setTask k
          (some ⟨req, .writing o (w + n)⟩))
  | closed {k : κ} {req : ρ} {o w : Nat} (htask : s.tasks k = some ⟨req, .writing o w⟩)
      (hw : w = (plan req).text.length) :
      StepSpec s (.close k) (s.setTask k (some ⟨req, .moving⟩))
  | renamed {k : κ} {req : ρ} {f : Files ι β} (htask : s.tasks k = some ⟨req, .moving⟩)
      (hf : s.files.rename (plan req).tmp (plan req).dst = some f)
      (hr : (plan req).renamed = true) :
      StepSpec s (.rename k) ((s.setFiles f).setTask k (some ⟨req, .moved⟩))
  | stayed {k : κ} {req : ρ} (htask : s.tasks k = some ⟨req, .moving⟩)
      (hr : s.files.read (plan req).tmp = none ∨ (plan req).renamed = false) :
      StepSpec s (.rename k) (s.setTask k none)
  | finished {k : κ} {req : ρ} (htask : s.tasks k = some ⟨req, .moved⟩) :
      StepSpec s (.finish k) (s.setTask k none)
  | unlinked (p : ι) : StepSpec s (.unlink p) (s.setFiles (s.files.unlink p))

variable {plan} {s t : Writers κ ρ ι β}

theorem step_spec {e : Event κ ρ ι} (h : step plan s e = some t) : StepSpec plan s e t := by
  cases e with
  | start k req =>
    simp only [step] at h
    split at h
    · next hidle =>
      obtain rfl := Option.some.inj h
      exact .started hidle
    · cases h
  | openTmp k =>
    simp only [step] at h
    split at h
    · next req htask =>
      split at h
      · next ho =>
        obtain rfl := Option.some.inj h
        exact .opened htask ho
      · next ho =>
        obtain rfl := Option.some.inj h
        exact .notOpened htask (Bool.eq_false_iff.mpr ho)
    · cases h
  | write k n =>
    simp only [step] at h
    split at h
    · next req o w htask =>
      split at h
      · next hn =>
        obtain rfl := Option.some.inj h
        exact .wrote htask hn
      · cases h
    · cases h
  | close k =>
    simp only [step] at h
    split at h
    · next req o w htask =>
      split at h
      · next hw =>
        obtain rfl := Option.some.inj h
        exact .closed htask hw
      · cases h
    · cases h
  | rename k =>
    simp only [step] at h
    split at h
    · next req htask =>
      split at h
      · next f hf hr =>
        obtain rfl := Option.some.inj h
        exact .renamed htask hf hr
      · next hnot =>
        obtain rfl := Option.some.inj h
        refine .stayed htask ?_
        cases hf : s.files.rename (plan req).tmp (plan req).dst with
        | none => exact .inl (Files.rename_eq_none.mp hf)
        | some f => exact .inr (Bool.eq_false_iff.mpr (hnot f hf))
    · cases h
  | finish k =>
    simp only [step] at h
    split at h
    · next req htask =>
      obtain rfl := Option.some.inj h
      exact .finished htask
    · cases h
  | unlink p =>
    obtain rfl := Option.some.inj h
    exact .unlinked p

/-- Only `start` brings a new request. -/
theorem tasks_step {e : Event κ ρ ι} {k : κ} {task : Task ρ} (h : step plan s e = some t)
    (hk : t.tasks k = some task) :
    (∃ before, s.tasks k = some before ∧ task.req = before.req) ∨ e = .start k task.req := by
  cases step_spec h with
  | started hidle =>
    rcases setTask_cases hk with ⟨rfl, hnew⟩ | ⟨-, hold⟩
    · obtain rfl := Option.some.inj hnew
      exact .inr rfl
    · exact .inl ⟨task, hold, rfl⟩
  | opened htask ho | notOpened htask ho | wrote htask hn | closed htask hw | renamed htask hf hr =>
    rcases setTask_cases hk with ⟨rfl, hnew⟩ | ⟨-, hold⟩
    · obtain rfl := Option.some.inj hnew
      exact .inl ⟨_, htask, rfl⟩
    · exact .inl ⟨task, hold, rfl⟩
  | stayed htask hr | finished htask =>
    rcases setTask_cases hk with ⟨-, hnone⟩ | ⟨-, hold⟩
    · cases hnone
    · exact .inl ⟨task, hold, rfl⟩
  | unlinked p => exact .inl ⟨task, hk, rfl⟩

theorem sound_step {e : Event κ ρ ι} (hf : s.files.Sound) (h : step plan s e = some t) :
    t.files.Sound := by
  cases step_spec h with
  | opened htask ho => exact hf.openTrunc _
  | wrote htask hn => exact hf.write ..
  | renamed htask hren hr => exact hf.rename hren
  | unlinked p => exact hf.unlink p
  | started hidle => exact hf
  | notOpened htask ho | closed htask hw | stayed htask hr | finished htask => exact hf

/-! ## What a writer leaves alone -/

/-- Who takes the step; nobody of the writers removes a file. -/
def Event.writer : Event κ ρ ι → Option κ
  | .start k _ | .openTmp k | .write k _ | .close k | .rename k | .finish k => some k
  | .unlink _ => none

theorem tasks_other {e : Event κ ρ ι} {k k' : κ} (h : step plan s e = some t)
    (he : e.writer = some k) (hk : k' ≠ k) : t.tasks k' = s.tasks k' := by
  cases step_spec h with
  | unlinked p => cases he
  | started hidle => exact setTask_other s _ (Option.some.inj he ▸ hk)
  | opened htask ho | notOpened htask ho | wrote htask hn | closed htask hw | renamed htask hf hr
  | stayed htask hr | finished htask => exact setTask_other _ _ (Option.some.inj he ▸ hk)

/-- Whatever became of its names, the object a writer has opened has no names but the
writer's own. -/
def Handles (plan : ρ → Draft ι β) (s : Writers κ ρ ι β) : Prop :=
  ∀ k req o w, s.tasks k = some ⟨req, .writing o w⟩ →
    o < s.files.next ∧ ∀ p, s.files.names p = some o → (plan req).Owns p

/-- Writers that share a temporary file share all their files. -/
def Paired (plan : ρ → Draft ι β) : Prop :=
  ∀ req req', (plan req').Owns (plan req).tmp → (plan req').Owns (plan req).dst

theorem handles_step {e : Event κ ρ ι} (hplan : Paired plan) (hf : s.files.Sound)
    (h : Handles plan s) (hs : step plan s e = some t) : Handles plan t := by
  cases step_spec hs with
  | started hidle =>
    intro k' req' o w hk'
    rcases setTask_cases hk' with ⟨-, hnew⟩ | ⟨-, hold⟩
    · cases hnew
    · exact h k' req' o w hold
  | @opened k req htask ho =>
    intro k' req' o w hk'
    rcases setTask_cases hk' with ⟨-, hnew⟩ | ⟨-, hold⟩
    · cases hnew
      have hname := Files.names_openTrunc s.files (plan req).tmp
      refine ⟨(hf.openTrunc _).created _ _ hname, fun p hp => ?_⟩
      exact .inl ((hf.openTrunc _).once _ _ _ hp hname)
    · obtain ⟨hlt, hown⟩ := h k' req' o w hold
      refine ⟨Nat.lt_of_lt_of_le hlt (Files.next_openTrunc ..), fun p hp => ?_⟩
      rcases Files.names_openTrunc_cases hp with hwas | ⟨-, rfl, -⟩
      · exact hown p hwas
      · exact absurd hlt (Nat.lt_irrefl _)
  | wrote htask hn =>
    intro k' req' o w hk'
    rcases setTask_cases hk' with ⟨-, hnew⟩ | ⟨-, hold⟩
    · cases hnew
      exact h _ _ _ _ htask
    · exact h k' req' o w hold
  | notOpened htask ho | closed htask hw =>
    intro k' req' o w hk'
    rcases setTask_cases hk' with ⟨-, hnew⟩ | ⟨-, hold⟩
    · cases hnew
    · exact h k' req' o w hold
  | @renamed k req f htask hren hr =>
    intro k' req' o w hk'
    rcases setTask_cases hk' with ⟨-, hnew⟩ | ⟨-, hold⟩
    · cases hnew
    · obtain ⟨hlt, hown⟩ := h k' req' o w hold
      refine ⟨by rw [← Files.next_rename hren] at hlt; exact hlt, fun p hp => ?_⟩
      rcases Files.names_rename hren hp with ⟨rfl, hwas⟩ | ⟨-, hwas⟩
      · exact hplan req req' (hown _ hwas)
      · exact hown p hwas
  | stayed htask hr | finished htask =>
    intro k' req' o w hk'
    rcases setTask_cases hk' with ⟨-, hnone⟩ | ⟨-, hold⟩
    · cases hnone
    · exact h k' req' o w hold
  | unlinked p =>
    intro k' req' o w hk'
    obtain ⟨hlt, hown⟩ := h k' req' o w hk'
    exact ⟨hlt, fun q hq => hown q (Files.names_unlink hq)⟩

/-- **Frame**: a writer changes nothing under the names of others. -/
theorem same_step {e : Event κ ρ ι} {p : ι} (hf : s.files.Sound) (h : Handles plan s)
    (hs : step plan s e = some t) (hp : ∀ k task, e.writer = some k → s.tasks k = some task →
      ¬ (plan task.req).Owns p) (hu : e ≠ .unlink p) : Files.Same s.files t.files p := by
  cases step_spec hs with
  | started hidle => exact ⟨rfl, rfl⟩
  | opened htask ho =>
    exact Files.same_openTrunc hf fun he => hp _ _ rfl htask (.inl he)
  | @wrote k req o w n htask hn =>
    refine Files.same_of_names rfl fun o' ho' => Function.update_of_ne ?_ ..
    rintro rfl
    exact hp _ _ rfl htask ((h _ _ _ _ htask).2 p ho')
  | renamed htask hren hr =>
    exact (Files.rename_spec hren (plan _).tmp_ne_dst).2.2 p (fun he => hp _ _ rfl htask (.inl he))
      fun he => hp _ _ rfl htask (.inr he)
  | notOpened htask ho | closed htask hw | stayed htask hr | finished htask => exact ⟨rfl, rfl⟩
  | unlinked q =>
    refine Files.same_unlink ?_
    rintro rfl
    exact hu rfl

/-- A writer at its own step goes on from where it stands. -/
theorem stands_step {e : Event κ ρ ι} {v : View ι β} {k : κ} {before task : Task ρ}
    (hf : s.files.Sound) (he : e.writer = some k) (hbefore : s.tasks k = some before)
    (h : Stands s.files v (plan before.req) before.stage) (hs : step plan s e = some t)
    (hk : t.tasks k = some task) : Stands t.files v (plan task.req) task.stage := by
  cases step_spec hs with
  | started hidle =>
    obtain rfl := Option.some.inj he
    cases hidle.symm.trans hbefore
  | opened htask ho =>
    obtain rfl := Option.some.inj he
    obtain rfl := Option.some.inj (htask.symm.trans hbefore)
    rw [setTask_self] at hk
    obtain rfl := Option.some.inj hk
    exact h.opened hf ho
  | notOpened htask ho =>
    obtain rfl := Option.some.inj he
    obtain rfl := Option.some.inj (htask.symm.trans hbefore)
    rw [setTask_self] at hk
    obtain rfl := Option.some.inj hk
    exact h.notOpened ho
  | wrote htask hn =>
    obtain rfl := Option.some.inj he
    obtain rfl := Option.some.inj (htask.symm.trans hbefore)
    rw [setTask_self] at hk
    obtain rfl := Option.some.inj hk
    exact h.wrote hf hn
  | closed htask hw =>
    obtain rfl := Option.some.inj he
    obtain rfl := Option.some.inj (htask.symm.trans hbefore)
    rw [setTask_self] at hk
    obtain rfl := Option.some.inj hk
    exact h.closed hw
  | renamed htask hren hr =>
    obtain rfl := Option.some.inj he
    obtain rfl := Option.some.inj (htask.symm.trans hbefore)
    rw [setTask_self] at hk
    obtain rfl := Option.some.inj hk
    exact h.renamed hren hr
  | stayed htask hr | finished htask =>
    obtain rfl := Option.some.inj he
    rw [setTask_self] at hk
    cases hk
  | unlinked p => cases he

end

/-! ## The files without the unfinished writers -/

variable [DecidableEq ι]

/-- No writer at work uses the name. -/
def Writers.Unowned (plan : ρ → Draft ι β) (s : Writers κ ρ ι β) (p : ι) : Prop :=
  ∀ k task, s.tasks k = some task → ¬ (plan task.req).Owns p

/-- `v` shows the files as if no unfinished writer had begun; no two writers have a
name in common. -/
structure Shadow (plan : ρ → Draft ι β) (s : Writers κ ρ ι β) (v : View ι β) : Prop where
  sound : s.files.Sound
  others : ∀ p, s.Unowned plan p → s.files.read p = v p
  stands : ∀ k task, s.tasks k = some task → Stands s.files v (plan task.req) task.stage
  apart : ∀ k k' task task', k ≠ k' → s.tasks k = some task → s.tasks k' = some task' →
    (plan task.req).Apart (plan task'.req)

variable {plan : ρ → Draft ι β} {s : Writers κ ρ ι β} {v v' : View ι β} {f f' : Files ι β}
  {d : Draft ι β} {k : κ} {req : ρ}

/-- No writer at work. -/
theorem shadow_idle (hf : f.Sound) :
    Shadow plan ({ files := f } : Writers κ ρ ι β) f.read where
  sound := hf
  others _ _ := rfl
  stands _ _ h := by cases h
  apart _ _ _ _ _ h := by cases h

/-- Somebody removes a file that is not a temporary one in use, nor one that a writer
has just published and not announced. -/
theorem Shadow.unlinked {p : ι} (h : Shadow plan s v)
    (hp : ∀ k task, s.tasks k = some task →
      p ≠ (plan task.req).tmp ∧ (task.stage = .moved → p ≠ (plan task.req).dst)) :
    Shadow plan (s.setFiles (s.files.unlink p)) (Function.update v p none) := by
  refine ⟨h.sound.unlink p, fun q hq => ?_, fun k task hk => ?_, h.apart⟩
  · show (s.files.unlink p).read q = _
    by_cases he : q = p
    · rw [he, Function.update_self]
      exact Files.read_unlink ..
    · rw [Function.update_of_ne he, (Files.same_unlink he).read]
      exact h.others q hq
  · obtain ⟨htmp, hdst⟩ := hp k task hk
    have hstands := h.stands k task hk
    by_cases he : p = (plan task.req).dst
    · -- the file is removed before the writer comes to replace it
      have hsame := Files.same_unlink (f := s.files) htmp.symm
      have hv : Function.update v p none (plan task.req).tmp = v (plan task.req).tmp :=
        Function.update_of_ne htmp.symm ..
      have hgone : (s.files.unlink p).read (plan task.req).dst
          = Function.update v p none (plan task.req).dst := by
        rw [← he, Function.update_self]
        exact Files.read_unlink ..
      cases hstage : task.stage with
      | opening =>
        rw [hstage] at hstands
        exact ⟨by rw [hv, ← hstands.1]; exact hsame.read, hgone⟩
      | writing o w =>
        rw [hstage] at hstands
        obtain ⟨⟨hname, hread⟩, hw, ho, -⟩ := hstands
        exact ⟨⟨by rw [← hname]; exact hsame.names, by rw [← hread]; exact hsame.read⟩, hw, ho,
          hgone⟩
      | moving =>
        rw [hstage] at hstands
        exact ⟨by rw [Draft.written_congr hv, ← hstands.1]; exact hsame.read, hgone⟩
      | moved => exact absurd he (hdst hstage)
    · refine hstands.congr fun q hq => ?_
      have hne : q ≠ p := by
        rintro rfl
        rcases hq with hq | hq
        · exact htmp hq
        · exact he hq
      exact ⟨Files.same_unlink hne, Function.update_of_ne hne ..⟩

/-- **Nobody finds a file that is partly written**: a name that is not that of a
temporary file shows what it would show without the unfinished writers, or the whole
of what one of them has published. -/
theorem Shadow.read_of_not_tmp {p : ι} (h : Shadow plan s v)
    (hp : ∀ k task, s.tasks k = some task → p ≠ (plan task.req).tmp) :
    s.files.read p = v p ∨ ∃ k task, s.tasks k = some task ∧ task.stage = .moved ∧
      p = (plan task.req).dst ∧ s.files.read p = ((plan task.req).publish v).1 p := by
  by_cases hunowned : s.Unowned plan p
  · exact .inl (h.others p hunowned)
  · simp only [Writers.Unowned, not_forall, not_not] at hunowned
    obtain ⟨k, task, hk, howns⟩ := hunowned
    obtain rfl := howns.resolve_left (hp k task hk)
    have hstands := h.stands k task hk
    cases hstage : task.stage with
    | opening =>
      rw [hstage] at hstands
      exact .inl hstands.2
    | writing o w =>
      rw [hstage] at hstands
      exact .inl hstands.2.2.2
    | moving =>
      rw [hstage] at hstands
      exact .inl hstands.2
    | moved =>
      rw [hstage] at hstands
      obtain ⟨hr, -, hdst, hsome⟩ := hstands
      obtain ⟨text, htext⟩ := Option.isSome_iff_exists.mp hsome
      refine .inr ⟨k, task, hk, hstage, rfl, htext.trans ?_⟩
      exact (Draft.publish_dst (hdst.symm.trans htext) hr).symm

variable [DecidableEq κ]

/-- A writer whose next stage is right: the others stand where they stood. -/
theorem Shadow.advance {stage stage' : Stage} (h : Shadow plan s v)
    (htask : s.tasks k = some ⟨req, stage⟩) (hf : f.Sound)
    (hsame : ∀ p, ¬ (plan req).Owns p → Files.Same s.files f p)
    (hstands : Stands f v (plan req) stage') :
    Shadow plan ((s.setFiles f).setTask k (some ⟨req, stage'⟩)) v := by
  -- each writer had its request before
  have hbefore : ∀ k' task', ((s.setFiles f).setTask k (some ⟨req, stage'⟩)).tasks k' = some task' →
      ∃ task, s.tasks k' = some task ∧ task'.req = task.req := by
    intro k' task' hk'
    rcases setTask_cases hk' with ⟨rfl, hnew⟩ | ⟨-, hold⟩
    · obtain rfl := Option.some.inj hnew
      exact ⟨_, htask, rfl⟩
    · exact ⟨task', hold, rfl⟩
  refine ⟨hf, fun p hp => ?_, fun k' task' hk' => ?_, fun k₁ k₂ t₁ t₂ hne h₁ h₂ => ?_⟩
  · have hunowned : s.Unowned plan p := fun k' task' hk' => by
      by_cases hk : k' = k
      · subst hk
        obtain rfl : _ = task' := Option.some.inj (htask.symm.trans hk')
        exact hp k' ⟨req, stage'⟩ (setTask_self ..)
      · exact hp k' task' (by rwa [setTask_other _ _ hk])
    have hnot : ¬ (plan req).Owns p := hunowned k _ htask
    show f.read p = v p
    rw [(hsame p hnot).read]
    exact h.others p hunowned
  · rcases setTask_cases hk' with ⟨rfl, hnew⟩ | ⟨hk, hold⟩
    · obtain rfl := Option.some.inj hnew
      exact hstands
    · refine (h.stands k' task' hold).congr fun p hp => ⟨hsame p ?_, rfl⟩
      exact h.apart k' k _ _ hk hold htask p hp
  · obtain ⟨before₁, hbefore₁, hreq₁⟩ := hbefore k₁ t₁ h₁
    obtain ⟨before₂, hbefore₂, hreq₂⟩ := hbefore k₂ t₂ h₂
    rw [hreq₁, hreq₂]
    exact h.apart k₁ k₂ _ _ hne hbefore₁ hbefore₂

/-- A writer that has done: its names show what they should. -/
theorem Shadow.retire {task : Task ρ} (h : Shadow plan s v) (htask : s.tasks k = some task)
    (hv : ∀ p, ¬ (plan task.req).Owns p → v' p = v p)
    (hread : ∀ p, (plan task.req).Owns p → s.files.read p = v' p) :
    Shadow plan (s.setTask k none) v' := by
  have hold : ∀ k' task', (s.setTask k none).tasks k' = some task' →
      k' ≠ k ∧ s.tasks k' = some task' := fun k' task' hk' => by
    rcases setTask_cases hk' with ⟨-, hnone⟩ | hold
    · cases hnone
    · exact hold
  refine ⟨h.sound, fun p hp => ?_, fun k' task' hk' => ?_, fun k₁ k₂ t₁ t₂ hne h₁ h₂ =>
    h.apart k₁ k₂ t₁ t₂ hne (hold k₁ t₁ h₁).2 (hold k₂ t₂ h₂).2⟩
  · by_cases howns : (plan task.req).Owns p
    · exact hread p howns
    · show s.files.read p = v' p
      rw [hv p howns]
      refine h.others p fun k' task' hk' => ?_
      by_cases hk : k' = k
      · subst hk
        obtain rfl : task = task' := Option.some.inj (htask.symm.trans hk')
        exact howns
      · exact hp k' task' (by rwa [setTask_other _ _ hk])
  · obtain ⟨hk, hwas⟩ := hold k' task' hk'
    refine (h.stands k' task' hwas).congr fun p hp => ⟨⟨rfl, rfl⟩, hv p ?_⟩
    exact h.apart k' k _ _ hk hwas htask p hp

/-! ## Each step -/

/-- A request whose names nobody uses at the time. -/
theorem Shadow.started (h : Shadow plan s v) (hidle : s.tasks k = none)
    (hapart : ∀ k' task', s.tasks k' = some task' → (plan req).Apart (plan task'.req)) :
    Shadow plan (s.setTask k (some ⟨req, .opening⟩)) v := by
  have hfree : ∀ p, (plan req).Owns p → s.Unowned plan p := fun p hp k' task' hk' =>
    hapart k' task' hk' p hp
  refine ⟨h.sound, fun p hp => h.others p fun k' task' hk' => ?_, fun k' task' hk' => ?_,
    fun k₁ k₂ t₁ t₂ hne h₁ h₂ => ?_⟩
  · have hk : k' ≠ k := fun he => by
      rw [he, hidle] at hk'
      cases hk'
    exact hp k' task' (by rwa [setTask_other _ _ hk])
  · rcases setTask_cases hk' with ⟨rfl, hnew⟩ | ⟨-, hwas⟩
    · obtain rfl := Option.some.inj hnew
      exact ⟨h.others _ (hfree _ (.inl rfl)), h.others _ (hfree _ (.inr rfl))⟩
    · exact h.stands k' task' hwas
  · rcases setTask_cases h₁ with ⟨rfl, hnew₁⟩ | ⟨-, hwas₁⟩
    · obtain rfl := Option.some.inj hnew₁
      rcases setTask_cases h₂ with ⟨rfl, -⟩ | ⟨-, hwas₂⟩
      · exact absurd rfl hne
      · exact hapart k₂ t₂ hwas₂
    · rcases setTask_cases h₂ with ⟨rfl, hnew₂⟩ | ⟨-, hwas₂⟩
      · obtain rfl := Option.some.inj hnew₂
        exact (hapart k₁ t₁ hwas₁).symm
      · exact h.apart k₁ k₂ t₁ t₂ hne hwas₁ hwas₂

theorem Shadow.opened (h : Shadow plan s v) (htask : s.tasks k = some ⟨req, .opening⟩)
    (ho : (plan req).opened = true) :
    Shadow plan ((s.setFiles (s.files.openTrunc (plan req).tmp).1).setTask k
      (some ⟨req, .writing (s.files.openTrunc (plan req).tmp).2 0⟩)) v :=
  h.advance htask (h.sound.openTrunc _)
    (fun _ hp => Files.same_openTrunc h.sound fun he => hp (.inl he))
    ((h.stands k _ htask).opened h.sound ho)

theorem Shadow.notOpened (h : Shadow plan s v) (htask : s.tasks k = some ⟨req, .opening⟩)
    (ho : (plan req).opened = false) :
    Shadow plan (s.setTask k (some ⟨req, .moving⟩)) v :=
  h.advance htask h.sound (fun _ _ => ⟨rfl, rfl⟩) ((h.stands k _ htask).notOpened ho)

theorem Shadow.wrote [Inhabited β] {o w n : Nat} (h : Shadow plan s v)
    (htask : s.tasks k = some ⟨req, .writing o w⟩) (hn : w + n ≤ (plan req).text.length) :
    Shadow plan ((s.setFiles (s.files.write o w (((plan req).text.drop w).take n))).setTask k
      (some ⟨req, .writing o (w + n)⟩)) v :=
  have hstands := h.stands k _ htask
  h.advance htask (h.sound.write ..)
    (fun _ hp => Files.same_write h.sound hstands.1.1 (fun he => hp (.inl he)) ..)
    (hstands.wrote h.sound hn)

theorem Shadow.closed {o w : Nat} (h : Shadow plan s v)
    (htask : s.tasks k = some ⟨req, .writing o w⟩) (hw : w = (plan req).text.length) :
    Shadow plan (s.setTask k (some ⟨req, .moving⟩)) v :=
  h.advance htask h.sound (fun _ _ => ⟨rfl, rfl⟩) ((h.stands k _ htask).closed hw)

theorem Shadow.renamed (h : Shadow plan s v) (htask : s.tasks k = some ⟨req, .moving⟩)
    (hf : s.files.rename (plan req).tmp (plan req).dst = some f)
    (hr : (plan req).renamed = true) :
    Shadow plan ((s.setFiles f).setTask k (some ⟨req, .moved⟩)) v := by
  obtain ⟨-, -, hsame⟩ := Files.rename_spec hf (plan req).tmp_ne_dst
  exact h.advance htask (h.sound.rename hf)
    (fun p hp => hsame p (fun he => hp (.inl he)) fun he => hp (.inr he))
    ((h.stands k _ htask).renamed hf hr)

/-- A writer that goes on with what it has begun. -/
theorem Shadow.worked [Inhabited β] {e : Event κ ρ ι} {t : Writers κ ρ ι β} {before task : Task ρ}
    (h : Shadow plan s v) (hs : step plan s e = some t) (he : e.writer = some k)
    (hbefore : s.tasks k = some before) (hk : t.tasks k = some task) : Shadow plan t v := by
  cases step_spec hs with
  | started hidle =>
    obtain rfl := Option.some.inj he
    cases hidle.symm.trans hbefore
  | opened htask ho => exact h.opened htask ho
  | notOpened htask ho => exact h.notOpened htask ho
  | wrote htask hn => exact h.wrote htask hn
  | closed htask hw => exact h.closed htask hw
  | renamed htask hf hr => exact h.renamed htask hf hr
  | stayed htask hr | finished htask =>
    obtain rfl := Option.some.inj he
    rw [setTask_self] at hk
    cases hk
  | unlinked p => cases he

/-- **A rename that fails** leaves what a publication at one go leaves. -/
theorem Shadow.stayed (h : Shadow plan s v) (htask : s.tasks k = some ⟨req, .moving⟩)
    (hr : s.files.read (plan req).tmp = none ∨ (plan req).renamed = false) :
    Shadow plan (s.setTask k none) ((plan req).publish v).1 ∧
      ((plan req).publish v).2 = false := by
  obtain ⟨htmp, hdst⟩ := h.stands k _ htask
  rw [htmp] at hr
  rw [Draft.publish_stayed hr]
  refine ⟨h.retire htask (fun p hp => Draft.written_other v fun he => hp (.inl he)) ?_, rfl⟩
  rintro p (rfl | rfl)
  · exact htmp
  · show s.files.read (plan req).dst = (plan req).written v (plan req).dst
    rw [Draft.written_other v (plan req).tmp_ne_dst.symm]
    exact hdst

/-- **A writer that has renamed its file** has published it, whatever the others did
meanwhile. -/
theorem Shadow.finished (h : Shadow plan s v) (htask : s.tasks k = some ⟨req, .moved⟩) :
    Shadow plan (s.setTask k none) ((plan req).publish v).1 ∧
      ((plan req).publish v).2 = true := by
  obtain ⟨hr, hgone, hdst, hsome⟩ := h.stands k _ htask
  obtain ⟨text, htext⟩ := Option.isSome_iff_exists.mp hsome
  have hwritten := hdst.symm.trans htext
  refine ⟨h.retire htask (fun p hp => Draft.publish_other v hp) ?_, by
    rw [Draft.publish_renamed hwritten hr]⟩
  rintro p (rfl | rfl)
  · exact hgone.trans (Draft.publish_tmp hwritten hr).symm
  · exact htext.trans (Draft.publish_dst hwritten hr).symm

end Publish

end Lib
