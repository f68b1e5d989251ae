import Wayfarer.Proofs.Archive.Exchange

/-!
# Steps that may fail

Any step on a directory can be made to fail, and there may be directories where
files are expected. `Disk.contents` are the files of a directory and
`Disk.folders` the directories in it; no step of a batch touches the latter.

* `Outcome` says what becomes of steps, whether they succeed or not. There is
  one lemma for each step.
* `Batch.Reached` are the contents that swapping files in comes to, with the
  renames made on the way.
* `Archive.stage_outcome` and `Archive.swapIn_outcome` are about the two phases
  of a batch.
-/

namespace Wayfarer

/-! ## Outcomes -/

section

variable {ε τ α β : Type} {w : EStateM ε τ α} {s : τ} {Q Q' : α → τ → Prop} {E E' : τ → Prop}

/-- Whether one of several steps fails. -/
def fails (w : EStateM ε τ α) (s : τ) : Bool :=
  match w s with
  | .ok _ _ => false
  | .error _ _ => true

theorem exists_error_of_fails {P : ε → τ → Prop} (h : fails w s = true)
    (hP : ∀ e s', w s = .error e s' → P e s') : ∃ e s', w s = .error e s' ∧ P e s' := by
  unfold fails at h
  split at h
  · cases h
  · rename_i e s' hrun
    exact ⟨e, s', hrun, hP e s' hrun⟩

/-- What becomes of steps: either all succeed, and `Q` holds of the answer and
of the state after them, or one of them fails, and `E` holds of the state that
it leaves. -/
def Outcome (w : EStateM ε τ α) (s : τ) (Q : α → τ → Prop) (E : τ → Prop) : Prop :=
  match w s with
  | .ok a s' => Q a s'
  | .error _ s' => E s'

namespace Outcome

theorem of_ok {a : α} {s' : τ} (h : w s = .ok a s') (hQ : Q a s') : Outcome w s Q E := by
  simpa [Outcome, h] using hQ

theorem of_error {e : ε} {s' : τ} (h : w s = .error e s') (hE : E s') : Outcome w s Q E := by
  simpa [Outcome, h] using hE

theorem ok {a : α} {s' : τ} (h : Outcome w s Q E) (hw : w s = .ok a s') : Q a s' := by
  simpa [Outcome, hw] using h

theorem error {e : ε} {s' : τ} (h : Outcome w s Q E) (hw : w s = .error e s') : E s' := by
  simpa [Outcome, hw] using h

theorem mono (h : Outcome w s Q E) (hQ : ∀ a s', Q a s' → Q' a s') (hE : ∀ s', E s' → E' s') :
    Outcome w s Q' E' := by
  unfold Outcome at h ⊢
  split <;> rename_i hw <;> rw [hw] at h
  · exact hQ _ _ h
  · exact hE _ h

theorem bind {f : α → EStateM ε τ β} {R : β → τ → Prop}
    (h : Outcome w s (fun a s' => Outcome (f a) s' R E) E) : Outcome (w >>= f) s R E := by
  unfold Outcome at h ⊢
  simp only [Bind.bind, EStateM.bind]
  split at h <;> rename_i hw <;> rw [hw] <;> exact h

end Outcome

end

/-! ## Files and directories -/

namespace Contents

/-- The contents without some of the files. -/
def without (f : Contents) (names : List String) : Contents := fun name =>
  if name ∈ names then none else f name

theorem without_cons (f : Contents) (name : String) (rest : List String) :
    f.without (name :: rest) = (f.put name none).without rest := by
  funext n
  simp only [without, put, List.mem_cons]
  by_cases hrest : n ∈ rest
  · simp [hrest]
  · simp [hrest]

end Contents

namespace Disk

variable {d d' d'' : Disk} {f g : Contents} {name source target : String} {content : Bytes}

/-- What is in the files of a directory. -/
def contents (d : Disk) : Contents := fun name =>
  match d.entries.get? name with
  | some (.file content) => some content
  | _ => none

/-- What is in the directories of a directory. -/
def folders (d : Disk) (name : String) : Option (List (String × FileEntry)) :=
  match d.entries.get? name with
  | some (.folder inside) => some inside
  | _ => none

theorem contents_eq_some : d.contents name = some content ↔
    d.entries.get? name = some (.file content) := by
  unfold contents
  split <;> simp_all

theorem folders_eq_none_of_contents (h : d.contents name ≠ none) : d.folders name = none := by
  obtain ⟨content, h⟩ := Option.ne_none_iff_exists'.1 h
  rw [folders, contents_eq_some.1 h]

/-- A name that is neither that of a file nor that of a directory stands for
nothing. -/
theorem get?_eq_none (hc : d.contents name = none) (hf : d.folders name = none) :
    d.entries.get? name = none := by
  unfold contents at hc
  unfold folders at hf
  cases hget : d.entries.get? name with
  | none => rfl
  | some entry => cases entry <;> simp [hget] at hc hf

/-- A name stands for a file, a directory or nothing. -/
theorem get?_congr (hcontent : d.contents name = d'.contents name)
    (hfolder : d.folders name = d'.folders name) : d.entries.get? name = d'.entries.get? name := by
  unfold contents at hcontent
  unfold folders at hfolder
  cases hget : d.entries.get? name with
  | none =>
    cases hget' : d'.entries.get? name with
    | none => rfl
    | some entry => cases entry <;> simp [hget, hget'] at hcontent hfolder
  | some entry =>
    cases hget' : d'.entries.get? name with
    | none => cases entry <;> simp [hget, hget'] at hcontent hfolder
    | some entry' =>
      cases entry <;> cases entry' <;> simp [hget, hget'] at hcontent hfolder ⊢ <;> assumption

/-- The files and the directories are all there is. -/
theorem entries_eq (hc : d.contents = d'.contents) (hf : d.folders = d'.folders) :
    d.entries = d'.entries :=
  Table.ext_get? fun name => get?_congr (congrFun hc name) (congrFun hf name)

/-- A directory on which nothing goes wrong, and which has no directories in
it. -/
theorem holds_iff : d.Holds f ↔
    (∀ n, d.faults n = none) ∧ d.contents = f ∧ ∀ name, d.folders name = none := by
  constructor
  · intro h
    refine ⟨h.faultless, funext fun name => ?_, fun name => ?_⟩
    · unfold contents
      rw [h.files]
      cases f name <;> rfl
    · unfold folders
      rw [h.files]
      cases f name <;> rfl
  · rintro ⟨hfaults, rfl, hfolders⟩
    refine ⟨hfaults, fun name => ?_⟩
    cases hfile : d.contents name with
    | none => exact get?_eq_none hfile (hfolders name)
    | some content => exact contents_eq_some.1 hfile

/-- A directory whose files have changed to `f`. Its directories and the faults
to come are those of before. -/
structure Becomes (d : Disk) (f : Contents) (d' : Disk) : Prop where
  contents : d'.contents = f
  folders : d'.folders = d.folders
  faults : d'.faults = d.faults

namespace Becomes

theorem refl (d : Disk) : d.Becomes d.contents d := ⟨rfl, rfl, rfl⟩

theorem trans (h : d.Becomes f d') (h' : d'.Becomes g d'') : d.Becomes g d'' :=
  ⟨h'.contents, h'.folders.trans h.folders, h'.faults.trans h.faults⟩

theorem holds (hd : d.Becomes g d') (h : d.Holds f) : d'.Holds g := by
  obtain ⟨hfaults, _, hfolders⟩ := holds_iff.1 h
  exact holds_iff.2 ⟨by rwa [hd.faults], hd.contents, by rwa [hd.folders]⟩

/-- A step that only takes its time. -/
theorem tick (d : Disk) : d.Becomes d.contents { d with steps := d.steps + 1 } := ⟨rfl, rfl, rfl⟩

theorem insert (hfolder : d.folders name = none) (content : Bytes) (steps : Nat) :
    d.Becomes (d.contents.put name (some content))
      { d with entries := d.entries.insert name (.file content), steps := steps } := by
  refine ⟨funext fun n => ?_, funext fun n => ?_, rfl⟩
  · unfold Disk.contents Contents.put
    simp only [Table.get?_insert]
    by_cases hn : n = name
    · simp only [hn, if_true]
    · simp only [hn, if_false]
  · unfold Disk.folders at hfolder ⊢
    simp only [Table.get?_insert]
    by_cases hn : n = name
    · simp only [hn, if_true, hfolder]
    · simp only [hn, if_false]

theorem erase (hcontent : d.contents name ≠ none) (steps : Nat) :
    d.Becomes (d.contents.put name none)
      { d with entries := d.entries.erase name, steps := steps } := by
  have hfolder := folders_eq_none_of_contents hcontent
  refine ⟨funext fun n => ?_, funext fun n => ?_, rfl⟩
  · unfold Disk.contents Contents.put
    simp only [Table.get?_erase]
    by_cases hn : n = name
    · simp only [hn, if_true]
    · simp only [hn, if_false]
  · unfold Disk.folders at hfolder ⊢
    simp only [Table.get?_erase]
    by_cases hn : n = name
    · simp only [hn, if_true, hfolder]
    · simp only [hn, if_false]

/-- A file under a new name, whether there is one of that name or not. -/
theorem move (hsource : d.contents source = some content) (htarget : d.folders target = none)
    (steps : Nat) : d.Becomes ((d.contents.put source none).put target (some content))
      { d with
        entries := (d.entries.erase source).insert target (.file content),
        steps := steps } := by
  have herase := erase (d := d) (by rw [hsource]; exact Option.some_ne_none content) steps
  have hinsert := insert (herase.folders ▸ htarget) content steps
  rw [herase.contents] at hinsert
  exact herase.trans hinsert

end Becomes

/-! ### Steps -/

/-- A step does nothing but take its time, or it does what it is meant to do. -/
theorem step_cases {α : Type} (name : String) (act : Listing → Except FileError (α × Listing))
    (d : Disk) : (∃ e, Disk.step name act d = .error e { d with steps := d.steps + 1 }) ∨
      ∃ a entries, act d.entries = .ok (a, entries) ∧
        Disk.step name act d = .ok a { d with entries := entries, steps := d.steps + 1 } := by
  dsimp only [Disk.step]
  split
  case h_3 => exact .inl ⟨_, rfl⟩
  all_goals
    split
    · exact .inl ⟨_, rfl⟩
    · split
      · rename_i a entries hact
        exact .inr ⟨a, entries, hact, rfl⟩
      · exact .inl ⟨_, rfl⟩

theorem step_outcome {α : Type} {act : Listing → Except FileError (α × Listing)}
    {Q : α → Disk → Prop} {E : Disk → Prop} (hQ : ∀ a entries, act d.entries = .ok (a, entries) →
      Q a { d with entries := entries, steps := d.steps + 1 })
    (hE : E { d with steps := d.steps + 1 }) (name : String) :
    Outcome (Disk.step name act) d Q E := by
  rcases step_cases name act d with ⟨e, hstep⟩ | ⟨a, entries, hact, hstep⟩
  · exact .of_error hstep hE
  · exact .of_ok hstep (hQ a entries hact)

theorem placed_ok {entries : Listing} (h : placed d.entries name content = .ok entries) :
    d.folders name = none ∧ entries = d.entries.insert name (.file content) := by
  unfold placed at h
  unfold folders
  cases hget : d.entries.get? name with
  | none => simpa [hget, eq_comm] using h
  | some entry =>
    cases entry with
    | folder => simp [hget] at h
    | file old => exact ⟨rfl, by simpa [hget, eq_comm] using h⟩

/-- A write that fails leaves the file as it is, or leaves something else in
it. -/
theorem write_outcome (name : String) (content : Bytes) (d : Disk) :
    Outcome (Disk.write name content) d
    (fun _ d' => d.Becomes (d.contents.put name (some content)) d')
    fun d' => ∃ left, d.Becomes (d.contents.put name left) d' := by
  have hsame : ∃ left, d.Becomes (d.contents.put name left) { d with steps := d.steps + 1 } :=
    ⟨d.contents name, by rw [Contents.put_self _ rfl]; exact .tick d⟩
  have hstep : Outcome (Disk.step name fun entries => do
      let entries ← placed entries name content
      pure ((), entries)) d (fun _ d' => d.Becomes (d.contents.put name (some content)) d')
      fun d' => ∃ left, d.Becomes (d.contents.put name left) d' := by
    refine step_outcome (fun a entries hact => ?_) hsame name
    cases hplaced : placed d.entries name content with
    | error e => simp [hplaced, bind, Except.bind] at hact
    | ok entries' =>
      obtain ⟨hfolder, rfl⟩ := placed_ok hplaced
      simp only [hplaced, bind, Except.bind, pure, Except.pure, Except.ok.injEq,
        Prod.mk.injEq] at hact
      obtain ⟨_, rfl⟩ := hact
      exact .insert hfolder content _
  unfold Outcome at hstep ⊢
  unfold Disk.write
  cases d.faults d.steps with
  | none => exact hstep
  | some fault =>
    cases fault with
    | refused => exact hstep
    | unwritable => exact hsame
    | torn left =>
      cases hplaced : placed d.entries name left with
      | error e => simpa [hplaced] using hsame
      | ok entries =>
        obtain ⟨hfolder, rfl⟩ := placed_ok hplaced
        simp only [hplaced]
        exact ⟨some left, .insert hfolder left _⟩

/-- A file that is renamed takes the place of another, if there is one. -/
theorem rename_outcome (target : String) (hne : source ≠ target)
    (hsource : d.contents source = some content) :
    Outcome (Disk.rename source target) d
      (fun _ d' => d.Becomes ((d.contents.put source none).put target (some content)) d')
      fun d' => d.Becomes d.contents d' := by
  refine step_outcome (fun a entries hact => ?_) (.tick d) target
  have hget := contents_eq_some.1 hsource
  simp only [hget] at hact
  cases htarget : d.entries.get? target with
  | none =>
    simp only [htarget, Except.ok.injEq, Prod.mk.injEq] at hact
    obtain ⟨_, rfl⟩ := hact
    exact .move hsource (by simp [folders, htarget]) _
  | some other =>
    cases other with
    | folder inside => simp [htarget, hne, replaces] at hact
    | file bytes =>
      simp only [htarget, hne, replaces, if_false, if_true, Except.ok.injEq, Prod.mk.injEq] at hact
      obtain ⟨_, rfl⟩ := hact
      exact .move hsource (by simp [folders, htarget]) _

/-- Nothing is renamed if there is nothing. -/
theorem rename_missing (target : String) (hsource : d.entries.get? source = none) :
    Outcome (Disk.rename source target) d (fun _ _ => False) fun d' => d.Becomes d.contents d' := by
  refine step_outcome (fun a entries hact => ?_) (.tick d) target
  simp [hsource] at hact

/-- Only a file is a file. -/
theorem isFile?_outcome (name : String) (d : Disk) : Outcome (Disk.isFile? name) d
    (fun found d' => d.Becomes d.contents d' ∧ (found = some true ↔ d.contents name ≠ none))
    fun d' => d.Becomes d.contents d' := by
  refine step_outcome (fun a entries hact => ?_) (.tick d) name
  cases hget : d.entries.get? name with
  | none =>
    simp only [hget, Except.ok.injEq, Prod.mk.injEq] at hact
    obtain ⟨rfl, rfl⟩ := hact
    exact ⟨.tick d, by simp [contents, hget]⟩
  | some entry =>
    cases entry <;> simp only [hget, Except.ok.injEq, Prod.mk.injEq] at hact <;>
      obtain ⟨rfl, rfl⟩ := hact <;> exact ⟨.tick d, by simp [contents, hget]⟩

theorem remove_outcome (name : String) (d : Disk) : Outcome (Disk.remove name) d
    (fun _ d' => d.Becomes (d.contents.put name none) d') fun d' => d.Becomes d.contents d' := by
  refine step_outcome (fun a entries hact => ?_) (.tick d) name
  cases hget : d.entries.get? name with
  | none => simp [hget] at hact
  | some entry =>
    cases entry with
    | folder inside => simp [hget] at hact
    | file bytes =>
      simp only [hget, Except.ok.injEq, Prod.mk.injEq] at hact
      obtain ⟨_, rfl⟩ := hact
      exact .erase (by simp [contents, hget]) _

/-! ### Removing what is in the way -/

/-- A file that is removed is there no more, or it is still there because the
step failed. -/
theorem removeQuietly_becomes (name : String) (d : Disk) :
    (d.Becomes d.contents (removeQuietly name d) ∧ ∀ d', Disk.remove name d ≠ .ok () d') ∨
      d.Becomes (d.contents.put name none) (removeQuietly name d) := by
  have hremove := remove_outcome name d
  unfold removeQuietly after
  cases hrun : Disk.remove name d with
  | ok u d' => exact .inr (hremove.ok hrun)
  | error e d' => exact .inl ⟨hremove.error hrun, nofun⟩

/-- Whenever a file of a list is removed, that succeeds. -/
def Clears : List String → Disk → Prop
  | [], _ => True
  | name :: rest, d => (d.contents name ≠ none → ∃ d', Disk.remove name d = .ok () d') ∧
      Clears rest (removeQuietly name d)

theorem removeAll_becomes (names : List String) (d : Disk) : ∃ g, d.Becomes g (removeAll names d) ∧
    ∀ n, g n = d.contents n ∨ n ∈ names ∧ g n = none := by
  induction names generalizing d with
  | nil => exact ⟨_, .refl d, fun _ => .inl rfl⟩
  | cons name rest ih =>
    obtain ⟨g, hg, hrest⟩ := ih (removeQuietly name d)
    rcases removeQuietly_becomes name d with ⟨hfirst, _⟩ | hfirst
    · refine ⟨g, hfirst.trans hg, fun n => ?_⟩
      rw [← congrFun hfirst.contents n]
      exact (hrest n).imp_right fun h => ⟨List.mem_cons_of_mem name h.1, h.2⟩
    · refine ⟨g, hfirst.trans hg, fun n => ?_⟩
      rcases hrest n with hn | hn
      · rw [hfirst.contents] at hn
        by_cases hname : n = name
        · exact .inr ⟨hname ▸ List.mem_cons_self, hn.trans (if_pos hname)⟩
        · exact .inl (hn.trans (if_neg hname))
      · exact .inr ⟨List.mem_cons_of_mem name hn.1, hn.2⟩

theorem Clears.removeAll {names : List String} (h : Clears names d) :
    d.Becomes (d.contents.without names) (removeAll names d) := by
  induction names generalizing d with
  | nil => exact .refl d
  | cons name rest ih =>
    have hfirst : d.Becomes (d.contents.put name none) (removeQuietly name d) := by
      rcases removeQuietly_becomes name d with ⟨hsame, hfails⟩ | hgone
      · have hnone : d.contents name = none := Classical.byContradiction fun hfile =>
          (h.1 hfile).elim hfails
        rw [d.contents.put_self hnone]
        exact hsame
      · exact hgone
    have hrest := hfirst.trans (ih h.2)
    rw [hfirst.contents] at hrest
    rwa [Contents.without_cons]

/-! ### Where only writes are made to fail -/

/-- A directory on which no step but a write is made to fail. -/
def Calm (d : Disk) : Prop := ∀ n, d.faults n = none ∨ d.faults n = some .unwritable

namespace Calm

theorem becomes (h : d.Calm) (hd : d.Becomes f d') : d'.Calm := by
  unfold Calm
  rw [hd.faults]
  exact h

theorem step {α : Type} {act : Listing → Except FileError (α × Listing)} {a : α} {entries : Listing}
    (h : d.Calm) (hname : accepts name = true) (hact : act d.entries = .ok (a, entries)) :
    ∃ d', Disk.step name act d = .ok a d' := by
  refine ⟨{ d with entries := entries, steps := d.steps + 1 }, ?_⟩
  rcases h d.steps with hfault | hfault <;> simp [Disk.step, hfault, hname, hact]

theorem remove (h : d.Calm) (hname : accepts name = true) (hfile : d.contents name ≠ none) :
    ∃ d', Disk.remove name d = .ok () d' := by
  obtain ⟨content, hfile⟩ := Option.ne_none_iff_exists'.1 hfile
  have hget := contents_eq_some.1 hfile
  exact h.step hname (by simp only [hget]; rfl)

theorem clears (h : d.Calm) {names : List String} (hnames : ∀ name ∈ names, accepts name = true) :
    Clears names d := by
  induction names generalizing d with
  | nil => trivial
  | cons name rest ih =>
    refine ⟨h.remove (hnames name List.mem_cons_self), ih ?_ fun n hn =>
      hnames n (List.mem_cons_of_mem name hn)⟩
    rcases removeQuietly_becomes name d with ⟨hd, _⟩ | hd
    · exact h.becomes hd
    · exact h.becomes hd

theorem rename (h : d.Calm) (hname : accepts target = true) (hsource : d.contents source ≠ none)
    (htarget : d.folders target = none) : ∃ d', Disk.rename source target d = .ok () d' := by
  obtain ⟨content, hsource⟩ := Option.ne_none_iff_exists'.1 hsource
  have hget := contents_eq_some.1 hsource
  cases hother : d.entries.get? target with
  | none => exact h.step hname (by simp only [hget, hother]; rfl)
  | some other =>
    cases other with
    | folder inside => simp [folders, hother] at htarget
    | file bytes =>
      by_cases hsame : source = target
      · exact h.step hname (by simp only [hother, hsame, if_true]; rfl)
      · exact h.step hname (by simp only [hget, hother, hsame, replaces, if_false, if_true]; rfl)

end Calm

end Disk

end Wayfarer
