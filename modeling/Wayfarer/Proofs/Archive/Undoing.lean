import Wayfarer.Proofs.Archive.Mishaps
import Wayfarer.Proofs.Archive.Restarts

/-!
# Batches that fail half-way

Whatever goes wrong while a batch is carried out, undoing its renames brings the
files back (`Archive.apply_is_all_or_nothing`), as long as the undoing itself
does not go wrong.

* `Batch.Reached` are the contents that swapping files in comes to, with the
  renames made on the way. `Batch.Reached.undone` undoes them.
* `Archive.stage_outcome` and `Archive.swapIn_outcome` are about the two phases
  of a batch.
* `Archive.CleansUp` says that undoing and cleaning up succeed.
-/

namespace Wayfarer

open Archive

/-! ## Renames undone -/

namespace Contents

variable {f : Contents} {id : ObjectId} {source target : String}

/-- The contents with one rename undone, if there is a file to be moved back. -/
def restored (f : Contents) (r : String × String) : Contents :=
  match f r.2 with
  | none => f
  | some content => (f.put r.2 none).put r.1 (some content)

/-- The contents with all renames undone, the last one first. -/
def undone (f : Contents) (renames : List (String × String)) : Contents := renames.foldl restored f

theorem restored_put {content : Bytes} (hsource : f source = some content)
    (htarget : f target = none) (hne : source ≠ target) :
    ((f.put source none).put target (some content)).restored (source, target) = f := by
  funext n
  simp only [restored, put, if_true]
  by_cases hn : n = source
  · simp [hn, hsource]
  · by_cases hn' : n = target
    · simp [hn', hne.symm, htarget]
    · simp [hn, hn']

/-- The renames that move the file of an object aside. -/
def moved (f : Contents) (id : ObjectId) : List (String × String) :=
  if (f (fileName id "cbor")).isSome then [(fileName id "cbor", fileName id "bak")] else []

theorem undone_backedUp (haside : (f.slot id).aside = none) :
    (f.backedUp id).undone (f.moved id) = f := by
  unfold backedUp moved
  cases hf : f (fileName id "cbor") with
  | none => rfl
  | some content => exact restored_put hf haside (fileName_ne id).2.1

theorem restored_replaced (hfresh : (f.slot id).fresh ≠ none) :
    (f.replaced id).restored (fileName id "tmp", fileName id "cbor") = f.backedUp id := by
  obtain ⟨content, hfresh⟩ := Option.ne_none_iff_exists'.1 hfresh
  have hslot := (backedUp_local id).slot f
  have hsource : f.backedUp id (fileName id "tmp") = some content :=
    (congrArg Slot.fresh hslot).trans hfresh
  have htarget : f.backedUp id (fileName id "cbor") = none := congrArg Slot.file hslot
  rw [replaced, show f (fileName id "tmp") = some content from hfresh,
    restored_put hsource htarget (fileName_ne id).1.symm]

theorem undone_replaced (haside : (f.slot id).aside = none) (hfresh : (f.slot id).fresh ≠ none) :
    (f.replaced id).undone ((fileName id "tmp", fileName id "cbor") :: f.moved id) = f := by
  rw [undone, List.foldl_cons, restored_replaced hfresh]
  exact undone_backedUp haside

end Contents

/-! ## What swapping files in comes to -/

/-- The contents on the way of a batch from `f`, with the objects that were seen
to and the renames that were made, the last one first. -/
inductive Batch.Reached (batch : Batch) (f : Contents) :
    List ObjectId → List (String × String) → Contents → Prop
  | start : Reached batch f [] [] f
  /-- The file of an object was moved aside. -/
  | backedUp {done : List ObjectId} {renames : List (String × String)} {g : Contents}
      (h : Reached batch f done renames g) {id : ObjectId} (hid : id ∈ batch.named)
      (hnew : id ∉ done) : Reached batch f (id :: done) (g.moved id ++ renames) (g.backedUp id)
  /-- A new file took the place of the old one. -/
  | replaced {done : List ObjectId} {renames : List (String × String)} {g : Contents}
      (h : Reached batch f done renames g) {id : ObjectId} (hid : id ∈ batch.writes.map (·.id))
      (hnew : id ∉ done) :
      Reached batch f (id :: done)
        ((fileName id "tmp", fileName id "cbor") :: g.moved id ++ renames) (g.replaced id)

namespace Batch.Reached

variable {batch : Batch} {f g : Contents} {done : List ObjectId} {renames : List (String × String)}

theorem slot_other (h : batch.Reached f done renames g) {id : ObjectId} (hid : id ∉ done) :
    g.slot id = f.slot id := by
  induction h with
  | start => rfl
  | @backedUp done renames g h id' hid' hnew ih =>
    rw [List.mem_cons, not_or] at hid
    rw [(Contents.backedUp_local id').slot_other hid.1, ih hid.2]
  | @replaced done renames g h id' hid' hnew ih =>
    rw [List.mem_cons, not_or] at hid
    rw [(Contents.replaced_local id').slot_other hid.1, ih hid.2]

/-- Undoing the renames leads back. -/
theorem undone (h : batch.Reached f done renames g)
    (haside : ∀ id ∈ batch.named, (f.slot id).aside = none)
    (hfresh : ∀ id ∈ batch.writes.map (·.id), (f.slot id).fresh ≠ none) : g.undone renames = f := by
  induction h with
  | start => rfl
  | @backedUp done renames g h id hid hnew ih =>
    have hslot := h.slot_other hnew
    rw [Contents.undone, List.foldl_append]
    show Contents.undone ((g.backedUp id).undone (g.moved id)) renames = f
    rw [Contents.undone_backedUp (by rw [hslot]; exact haside id hid), ih]
  | @replaced done renames g h id hid hnew ih =>
    have hslot := h.slot_other hnew
    have hnamed : id ∈ batch.named := List.mem_append_left _ hid
    rw [Contents.undone, List.foldl_append]
    show Contents.undone ((g.replaced id).undone (_ :: g.moved id)) renames = f
    rw [Contents.undone_replaced (by rw [hslot]; exact haside id hnamed)
      (by rw [hslot]; exact hfresh id hid), ih]

end Batch.Reached

/-! ## Steps of a swap -/

/-- A rename whose names are those of files. -/
structure Disk.Movable (d : Disk) (r : String × String) : Prop where
  source : d.folders r.1 = none
  target : d.folders r.2 = none
  differ : r.1 ≠ r.2
  accepted : Disk.accepts r.1 = true

/-- A directory without leftovers of a batch, be they new files or files that
were moved aside. -/
def Disk.Tidy (d : Disk) : Prop :=
  ∀ id, (d.contents.slot id).fresh = none ∧ (d.contents.slot id).aside = none

theorem Disk.Movable.becomes {d d' : Disk} {f : Contents} {r : String × String} (h : d.Movable r)
    (hd : d.Becomes f d') : d'.Movable r :=
  ⟨by rw [hd.folders, h.source], by rw [hd.folders, h.target], h.differ, h.accepted⟩

namespace Archive

variable {d : Disk} {f g : Contents} {renames : List (String × String)} {backups : List String}

namespace Swap

variable {s : Swap} {id : ObjectId}

/-- A swap that began in the directory `d` and has come to these files, renames
and backups. -/
structure Stands (d : Disk) (g : Contents) (renames : List (String × String))
    (backups : List String) (s : Swap) : Prop where
  disk : d.Becomes g s.disk
  movable : ∀ r ∈ renames, d.Movable r
  renamed : s.renames = renames
  keeps : s.backups = backups

theorem onDisk_outcome {α : Type} {act : EStateM FileError Disk α} {Q : α → Disk → Prop}
    {E : Disk → Prop} (h : Outcome act s.disk Q E) :
    Outcome (onDisk act) s (fun a s' => ∃ d', Q a d' ∧ s' = { s with disk := d' })
      fun s' => ∃ d', E d' ∧ s' = { s with disk := d' } := by
  unfold Outcome at h ⊢
  unfold onDisk
  split at h <;> rename_i hrun <;> simp only [hrun]
  · exact ⟨_, h, rfl⟩
  · exact ⟨_, h, rfl⟩

theorem rename_outcome {source target : String} {content : Bytes} (h : s.Stands d g renames backups)
    (hne : source ≠ target) (hname : Disk.accepts source = true)
    (hsource : g source = some content) :
    Outcome (rename source target) s
      (fun _ s' => s'.Stands d ((g.put source none).put target (some content))
        ((source, target) :: renames) backups)
      fun s' => s'.Stands d g renames backups := by
  have hcontent : s.disk.contents source = some content := by rw [h.disk.contents, hsource]
  have hstep := onDisk_outcome (Disk.rename_outcome target hne hcontent)
  rw [h.disk.contents] at hstep
  refine .bind (hstep.mono ?_ ?_)
  · rintro _ _ ⟨d', hd', rfl⟩
    have hfolder : d'.folders target = none := Disk.folders_eq_none_of_contents (by
      rw [hd'.contents, Contents.put, if_pos rfl]
      exact Option.some_ne_none content)
    have hmovable : d.Movable (source, target) := by
      refine ⟨?_, ?_, hne, hname⟩
      · rw [← h.disk.folders]
        exact Disk.folders_eq_none_of_contents (by rw [hcontent]; exact Option.some_ne_none content)
      · rw [← h.disk.folders, ← hd'.folders, hfolder]
    refine .of_ok rfl ⟨h.disk.trans hd', ?_, congrArg _ h.renamed, h.keeps⟩
    rw [List.forall_mem_cons]
    exact ⟨hmovable, h.movable⟩
  · rintro _ ⟨d', hd', rfl⟩
    exact ⟨h.disk.trans hd', h.movable, h.renamed, h.keeps⟩

theorem backUp_outcome (h : s.Stands d g renames backups) (id : ObjectId) :
    Outcome (backUp id) s
      (fun _ s' => s'.Stands d (g.backedUp id) (g.moved id ++ renames) (backups ++ g.kept id))
      fun s' => s'.Stands d g renames backups := by
  have hlook := onDisk_outcome (Disk.isFile?_outcome (fileName id "cbor") s.disk)
  rw [h.disk.contents] at hlook
  refine .bind (hlook.mono ?_ ?_)
  · rintro found _ ⟨d', ⟨hd', hfound⟩, rfl⟩
    have h' : Stands d g renames backups { s with disk := d' } :=
      ⟨h.disk.trans hd', h.movable, h.renamed, h.keeps⟩
    cases hf : g (fileName id "cbor") with
    | none =>
      have hnot : found ≠ some true := fun hsome => hfound.1 hsome hf
      have hgoal : Stands d (g.backedUp id) (g.moved id ++ renames) (backups ++ g.kept id)
          { s with disk := d' } := by
        simpa [Contents.backedUp, Contents.moved, Contents.kept, hf] using h'
      split
      · exact absurd rfl hnot
      · exact .of_ok rfl hgoal
    | some content =>
      obtain rfl : found = some true := hfound.2 (by rw [hf]; exact Option.some_ne_none content)
      refine .bind ((rename_outcome h' (fileName_ne id).2.1 (accepts_fileName id "cbor" (by decide))
        hf).mono (fun _ s' hs' => ?_) fun _ hs' => hs')
      refine .of_ok rfl ⟨?_, ?_, ?_, ?_⟩
      · simpa only [Contents.backedUp, hf] using hs'.disk
      · simpa [Contents.moved, hf] using hs'.movable
      · simpa [Contents.moved, hf] using hs'.renamed
      · simpa [Contents.kept, hf] using hs'.keeps
  · rintro _ ⟨d', hd', rfl⟩
    exact ⟨h.disk.trans hd', h.movable, h.renamed, h.keeps⟩

theorem replace_outcome (h : s.Stands d g renames backups) (hfresh : (g.slot id).fresh ≠ none) :
    Outcome (replace id) s
      (fun _ s' => s'.Stands d (g.replaced id)
        ((fileName id "tmp", fileName id "cbor") :: g.moved id ++ renames) (backups ++ g.kept id))
      fun s' => s'.Stands d g renames backups ∨
        s'.Stands d (g.backedUp id) (g.moved id ++ renames) (backups ++ g.kept id) := by
  obtain ⟨content, hf⟩ := Option.ne_none_iff_exists'.1 hfresh
  have hf' : g.backedUp id (fileName id "tmp") = some content :=
    (congrArg Slot.fresh ((Contents.backedUp_local id).slot g)).trans hf
  refine .bind ((backUp_outcome h id).mono (fun _ s' hs' => ?_) fun _ hs' => .inl hs')
  refine (rename_outcome hs' (fileName_ne id).1.symm (accepts_fileName id "tmp" (by decide))
    hf').mono (fun _ s'' hs'' => ?_) fun _ hs'' => .inr hs''
  rw [Contents.replaced, show g (fileName id "tmp") = some content from hf]
  exact hs''

/-! ### All of them -/

/-- A swap on the way of a batch. -/
def Reaches (batch : Batch) (f : Contents) (d : Disk) (done : List ObjectId) (g : Contents)
    (backups : List String) (s : Swap) : Prop :=
  ∃ renames, batch.Reached f done renames g ∧ s.Stands d g renames backups

/-- A swap that got stuck somewhere on the way of a batch. -/
def Halts (batch : Batch) (f : Contents) (d : Disk) (s : Swap) : Prop :=
  ∃ done g backups, s.Reaches batch f d done g backups

theorem forM_outcome {batch : Batch} {f : Contents} {step : ObjectId → EStateM FileError Swap Unit}
    {op : ObjectId → Contents → Contents} {effect : ObjectId → Slot → Slot} {ids : List ObjectId}
    (hop : ∀ id, Contents.Local id (op id) (effect id))
    (hstep : ∀ id ∈ ids, ∀ {done g backups s}, s.Reaches batch f d done g backups → id ∉ done →
      Outcome (step id) s
        (fun _ s' => s'.Reaches batch f d (id :: done) (op id g) (backups ++ g.kept id))
        fun s' => s'.Halts batch f d)
    (hnodup : ids.Nodup) {done : List ObjectId} (hnew : ∀ id ∈ ids, id ∉ done)
    (h : s.Reaches batch f d done g backups) :
    Outcome (ids.forM step) s
      (fun _ s' => s'.Reaches batch f d (ids.reverse ++ done) (ids.foldl (fun g id => op id g) g)
        (backups ++ ids.flatMap g.kept))
      fun s' => s'.Halts batch f d := by
  induction ids generalizing s g done backups with
  | nil => exact .of_ok rfl (by simpa using h)
  | cons id rest ih =>
    rw [List.nodup_cons] at hnodup
    refine .bind ((hstep id List.mem_cons_self h (hnew id List.mem_cons_self)).mono
      (fun _ s' hs' => ?_) fun _ hs' => hs')
    have hkept : rest.flatMap (op id g).kept = rest.flatMap g.kept := by
      rw [List.flatMap_def, List.flatMap_def]
      refine congrArg List.flatten (List.map_congr_left fun id' hid' => Contents.kept_congr ?_)
      exact (hop id).slot_other (fun heq => hnodup.1 (heq ▸ hid')) g
    have hnew' : ∀ id' ∈ rest, id' ∉ id :: done := fun id' hid' => by
      rw [List.mem_cons, not_or]
      exact ⟨fun heq => hnodup.1 (heq ▸ hid'), hnew id' (List.mem_cons_of_mem id hid')⟩
    have hrest := ih (fun id' hid' => hstep id' (List.mem_cons_of_mem id hid')) hnodup.2 hnew' hs'
    simpa [hkept, List.append_assoc] using hrest

end Swap

theorem Swap.replace_reaches {batch : Batch} {f : Contents}
    (hfresh : ∀ id ∈ batch.writes.map (·.id), (f.slot id).fresh ≠ none) {id : ObjectId}
    (hid : id ∈ batch.writes.map (·.id)) {done : List ObjectId} {s : Swap}
    (h : s.Reaches batch f d done g backups) (hnew : id ∉ done) :
    Outcome (Swap.replace id) s
      (fun _ s' => s'.Reaches batch f d (id :: done) (g.replaced id) (backups ++ g.kept id))
      fun s' => s'.Halts batch f d := by
  obtain ⟨renames, hreached, hs⟩ := h
  refine (Swap.replace_outcome hs (hreached.slot_other hnew ▸ hfresh id hid)).mono
    (fun _ s' hs' => ⟨_, .replaced hreached hid hnew, hs'⟩) fun s' hs' => ?_
  rcases hs' with hs' | hs'
  · exact ⟨_, _, _, _, hreached, hs'⟩
  · exact ⟨_, _, _, _, .backedUp hreached (List.mem_append_left _ hid) hnew, hs'⟩

theorem Swap.reaches_start {batch : Batch} (hd : d.contents = f) :
    Swap.Reaches batch f d [] f [] ⟨d, [], []⟩ :=
  ⟨[], .start, ⟨hd ▸ .refl d, (fun _ hr => by cases hr), rfl, rfl⟩⟩

/-- All that is written has a new file. -/
theorem fresh_stagedIn {batch : Batch} {id : ObjectId} (hid : id ∈ batch.writes.map (·.id)) :
    ((batch.stagedIn f).slot id).fresh ≠ none := by
  have hfold : ∀ (writes : List Anchor) (f : Contents),
      id ∈ writes.map (·.id) ∨ (f.slot id).fresh ≠ none →
        ((writes.foldl (fun f a => f.staged a) f).slot id).fresh ≠ none := by
    intro writes
    induction writes with
    | nil => exact fun f h => h.resolve_left List.not_mem_nil
    | cons a rest ih =>
      intro f h
      refine ih (f.staged a) ?_
      by_cases hsame : id = a.id
      · subst hsame
        rw [(Contents.staged_local a).slot]
        exact .inr (Option.some_ne_none _)
      · rw [(Contents.staged_local a).slot_other hsame]
        exact h.imp_left fun hmem => (List.mem_cons.1 hmem).resolve_left hsame
  exact hfold batch.writes f (.inl hid)

/-- Swapping files in comes to its end, or gets stuck on the way. -/
theorem swapIn_outcome {batch : Batch} (honce : batch.NamesOnce)
    (hd : d.contents = batch.stagedIn f) :
    Outcome (swapIn (batch.writes.map (·.id)) (batch.deletes.map (·.1))) ⟨d, [], []⟩
      (fun _ s => ∃ renames, s.Stands d (batch.swappedIn f) renames (batch.aside f))
      fun s => s.Halts batch (batch.stagedIn f) d := by
  refine .bind ((Swap.forM_outcome Contents.replaced_local
    (fun _ hid => Swap.replace_reaches (fun _ => fresh_stagedIn) hid) honce.writes
    (fun _ _ => List.not_mem_nil) (Swap.reaches_start hd)).mono (fun _ s hs => ?_) fun _ hs => hs)
  have hnew : ∀ id ∈ batch.deletes.map (·.1), id ∉ (batch.writes.map (·.id)).reverse ++ [] := by
    intro id hid hmem
    rw [List.append_nil, List.mem_reverse] at hmem
    exact honce.not_deleted hmem hid
  refine (Swap.forM_outcome Contents.backedUp_local (fun id hid => ?_) honce.deletes hnew hs).mono
    (fun _ s' hs' => ?_) fun _ hs' => hs'
  · rintro done g backups s ⟨renames, hreached, hs⟩ hnew
    exact (Swap.backUp_outcome hs id).mono
      (fun _ s' hs' => ⟨_, .backedUp hreached (List.mem_append_right _ hid) hnew, hs'⟩)
      fun s' hs' => ⟨_, _, _, _, hreached, hs'⟩
  · obtain ⟨renames, _, hs'⟩ := hs'
    exact ⟨renames, hs'⟩

/-! ## Undoing and cleaning up -/

/-- Whenever a rename is undone by which a file was moved, that succeeds. -/
def Swap.Undoes : List (String × String) → Disk → Prop
  | [], _ => True
  | (source, target) :: rest, d =>
    (d.contents target ≠ none → ∃ d', Disk.rename target source d = .ok () d') ∧
      Undoes rest (Disk.after (Disk.rename target source) d)

/-- When new files are written and one of them fails, those that are there can
be removed. -/
def Unstages : List String → List (String × Bytes) → Disk → Prop
  | _, [], _ => True
  | done, (name, content) :: rest, d =>
    match Disk.write name content d with
    | .ok _ d' => Unstages (done ++ [name]) rest d'
    | .error _ d' => d'.Clears (name :: done)

/-- The new files of a batch. -/
def freshFiles (batch : Batch) : List (String × Bytes) :=
  batch.writes.map fun a => (fileName a.id "tmp", AnchorFile.encode a)

/-- One rename undone, or not if that fails. -/
theorem undo_step (source target : String) (h : d.Movable (source, target)) :
    (d.Becomes d.contents (Disk.after (Disk.rename target source) d) ∧
      ∀ d', Disk.rename target source d ≠ .ok () d') ∨
    d.Becomes (d.contents.restored (source, target))
      (Disk.after (Disk.rename target source) d) := by
  unfold Disk.after Contents.restored
  cases hfile : d.contents target with
  | none =>
    have hstep := Disk.rename_missing source (Disk.get?_eq_none hfile h.target)
    cases hrun : Disk.rename target source d with
    | ok u d' => exact (hstep.ok hrun).elim
    | error e d' => exact .inl ⟨hstep.error hrun, nofun⟩
  | some content =>
    have hstep := Disk.rename_outcome source h.differ.symm hfile
    cases hrun : Disk.rename target source d with
    | ok u d' => exact .inr (hstep.ok hrun)
    | error e d' => exact .inl ⟨hstep.error hrun, nofun⟩

theorem undo_becomes (h : Swap.Undoes renames d) (hmovable : ∀ r ∈ renames, d.Movable r) :
    d.Becomes (d.contents.undone renames) (Swap.undo renames d) := by
  induction renames generalizing d with
  | nil => exact .refl d
  | cons r rest ih =>
    obtain ⟨source, target⟩ := r
    rw [List.forall_mem_cons] at hmovable
    have hfirst : d.Becomes (d.contents.restored (source, target))
        (Disk.after (Disk.rename target source) d) := by
      rcases undo_step source target hmovable.1 with ⟨hsame, hfails⟩ | hback
      · have hnone : d.contents target = none := Classical.byContradiction fun hfile =>
          (h.1 hfile).elim hfails
        simpa only [Contents.restored, hnone] using hsame
      · exact hback
    have hrest := hfirst.trans (ih h.2 fun r hr => (hmovable.2 r hr).becomes hfirst)
    rw [hfirst.contents] at hrest
    exact hrest

/-- New files are all written, or those that were are removed if that is
possible. -/
theorem stage_outcome (done : List String) (files : List (String × Bytes)) (d : Disk) :
    Outcome (stage done files) d
      (fun _ d' => d.Becomes (files.foldl (fun f x => f.put x.1 (some x.2)) d.contents) d')
      fun d' => ∃ g, d.Becomes g d' ∧ ∀ n, n ∉ done ++ files.map (·.1) → g n = d.contents n := by
  -- `done` are the files that were written already, and go if a later one cannot be
  -- written
  induction files generalizing done d with
  | nil => exact .of_ok rfl (.refl d)
  | cons file rest ih =>
    obtain ⟨name, content⟩ := file
    have hwrite := Disk.write_outcome name content d
    cases hrun : Disk.write name content d with
    | ok u d₁ =>
      have h₁ := hwrite.ok hrun
      have hstage : stage done ((name, content) :: rest) d = stage (done ++ [name]) rest d₁ := by
        simp only [stage, hrun]
      have hrest := ih (done ++ [name]) d₁
      rw [h₁.contents] at hrest
      unfold Outcome at hrest ⊢
      rw [hstage]
      split at hrest
      · exact h₁.trans hrest
      · obtain ⟨g, hg, hsame⟩ := hrest
        refine ⟨g, h₁.trans hg, fun n hn => ?_⟩
        simp only [List.map_cons, List.mem_append, List.mem_cons, not_or] at hn
        rw [hsame n (by simp [hn])]
        exact if_neg hn.2.1
    | error e d₁ =>
      obtain ⟨left, h₁⟩ := hwrite.error hrun
      obtain ⟨g, hg, hsame⟩ := Disk.removeAll_becomes (name :: done) d₁
      have hstage : stage done ((name, content) :: rest) d =
          .error e (Disk.removeAll (name :: done) d₁) := by simp only [stage, hrun]
      refine .of_error hstage ⟨g, h₁.trans hg, fun n hn => ?_⟩
      simp only [List.map_cons, List.mem_append, List.mem_cons, not_or] at hn
      rcases hsame n with hn' | ⟨hmem, _⟩
      · rw [hn', h₁.contents]
        exact if_neg hn.2.1
      · exact absurd hmem (by simp [hn])

theorem Unstages.becomes {done : List String} {files : List (String × Bytes)} {e : FileError}
    {d' : Disk} (h : Unstages done files d) (hsame : ∀ n, n ∉ done → d.contents n = f n)
    (hclear : ∀ n ∈ done ++ files.map (·.1), f n = none)
    (hrun : stage done files d = .error e d') : d.Becomes f d' := by
  induction files generalizing done d with
  | nil => cases hrun
  | cons file rest ih =>
    obtain ⟨name, content⟩ := file
    have hwrite := Disk.write_outcome name content d
    rw [Unstages] at h
    rw [stage] at hrun
    cases hfirst : Disk.write name content d with
    | ok u d₁ =>
      simp only [hfirst] at h hrun
      have h₁ := hwrite.ok hfirst
      refine h₁.trans (ih h (fun n hn => ?_) (by simpa using hclear) hrun)
      rw [List.mem_append, List.mem_singleton, not_or] at hn
      rw [h₁.contents, Contents.put, if_neg hn.2, hsame n hn.1]
    | error e d₁ =>
      simp only [hfirst, EStateM.Result.error.injEq] at h hrun
      obtain ⟨_, rfl⟩ := hrun
      obtain ⟨left, h₁⟩ := hwrite.error hfirst
      have hend := h₁.trans h.removeAll
      -- without the files that were written, and the one that was not, all is as before
      have hback : d₁.contents.without (name :: done) = f := by
        funext n
        rw [Contents.without, h₁.contents]
        by_cases hn : n ∈ name :: done
        · rw [if_pos hn]
          refine (hclear n ?_).symm
          rcases List.mem_cons.1 hn with rfl | hn
          · simp
          · simp [hn]
        · rw [List.mem_cons, not_or] at hn
          rw [if_neg (by simpa using hn), Contents.put, if_neg hn.1, hsame n hn.2]
      rwa [hback] at hend

/-! ## All or nothing -/

/-- The names of the new files of a batch, until they are in place. -/
def temporary (batch : Batch) : List String := batch.writes.map fun a => fileName a.id "tmp"

/-- However the file steps of a batch end, the renames and removals of files by
which what was done is undone and cleaned up succeed. -/
def Tidies (batch : Batch) (d : Disk) : Prop :=
  match stage [] (freshFiles batch) d with
  | .error _ _ => Unstages [] (freshFiles batch) d
  | .ok _ d =>
    match swapIn (batch.writes.map (·.id)) (batch.deletes.map (·.1)) ⟨d, [], []⟩ with
    | .ok _ s => s.disk.Clears s.backups
    | .error _ s => Swap.Undoes s.renames s.disk ∧
        (Swap.undo s.renames s.disk).Clears (temporary batch)

/-- If a batch is carried out at all, undoing and cleaning up succeed. -/
structure CleansUp (batch : Batch) (a : Archive) : Prop where
  tidies : batch.check (fun id => (a.index.get? id).map (·.version)) = .ok () → Tidies batch a.disk

variable {batch : Batch}

theorem stagedIn_other {name : String} (hname : name ∉ temporary batch) :
    batch.stagedIn f name = f name := by
  have hfold : ∀ (writes : List Anchor) (f : Contents),
      name ∉ writes.map (fun a => fileName a.id "tmp") →
      writes.foldl (fun f a => f.staged a) f name = f name := by
    intro writes
    induction writes with
    | nil => exact fun _ _ => rfl
    | cons a rest ih =>
      intro f hname
      rw [List.map_cons, List.mem_cons, not_or] at hname
      rw [List.foldl_cons, ih _ hname.2, Contents.staged, Contents.put, if_neg hname.1]
  exact hfold batch.writes f hname

theorem aside_stagedIn (id : ObjectId) :
    ((batch.stagedIn f).slot id).aside = (f.slot id).aside := by
  refine stagedIn_other fun hmem => ?_
  obtain ⟨a, _, hname⟩ := List.mem_map.1 hmem
  exact absurd ((fileName_inj (by decide) (by decide)).1 hname).2 (by decide)

theorem stagedIn_without (hclear : ∀ id, (f.slot id).fresh = none) :
    (batch.stagedIn f).without (temporary batch) = f := by
  funext n
  unfold Contents.without
  by_cases hn : n ∈ temporary batch
  · obtain ⟨a, _, rfl⟩ := List.mem_map.1 hn
    rw [if_pos hn]
    exact (hclear a.id).symm
  · rw [if_neg hn, stagedIn_other hn]

/-- The file steps of a batch come to what the batch says, or to nothing. -/
theorem exchange_outcome (honce : batch.NamesOnce) (htidy : d.Tidy) (h : Tidies batch d) :
    Outcome (exchange batch) d (fun _ d' => d.Becomes (batch.clearedIn d.contents) d')
      fun d' => d.Becomes d.contents d' := by
  have hstaged := stage_outcome [] (freshFiles batch) d
  unfold Tidies at h
  cases hstage : stage [] (freshFiles batch) d with
  | error e d₁ =>
    simp only [hstage] at h
    -- the names of new files were free before, so removing them leaves nothing
    have hfresh : ∀ n ∈ [] ++ (freshFiles batch).map (·.1), d.contents n = none := by
      intro n hn
      simp only [List.nil_append, freshFiles, List.map_map, List.mem_map] at hn
      obtain ⟨a, _, rfl⟩ := hn
      exact (htidy a.id).1
    have hback := h.becomes (fun _ _ => rfl) hfresh hstage
    rw [freshFiles] at hstage
    have hrun : exchange batch d = .error e d₁ := by simp only [exchange, hstage]
    exact .of_error hrun hback
  | ok u d₁ =>
    simp only [hstage] at h
    have h₁ : d.Becomes (batch.stagedIn d.contents) d₁ := by
      have hok := hstaged.ok hstage
      rwa [freshFiles, List.foldl_map] at hok
    have hswapped := swapIn_outcome honce h₁.contents
    rw [freshFiles] at hstage
    cases hswap : swapIn (batch.writes.map (·.id)) (batch.deletes.map (·.1)) ⟨d₁, [], []⟩ with
    | ok u s =>
      simp only [hswap] at h
      obtain ⟨renames, hs⟩ := hswapped.ok hswap
      have hend := h.removeAll
      rw [hs.disk.contents, hs.keeps] at hend
      have hrun : exchange batch d = .ok () (Disk.removeAll (batch.aside d.contents) s.disk) := by
        simp only [exchange, hstage, hswap, hs.keeps]
      exact .of_ok hrun ((h₁.trans hs.disk).trans hend)
    | error e s =>
      simp only [hswap] at h
      obtain ⟨done, g, backups, renames, hreached, hs⟩ := hswapped.error hswap
      -- undone in the opposite order, the renames lead back to the staged files, which
      -- then go
      have hundone : g.undone renames = batch.stagedIn d.contents :=
        hreached.undone (fun id _ => (aside_stagedIn id).trans (htidy id).2) fun _ => fresh_stagedIn
      rw [hs.renamed] at h
      have hundo := undo_becomes h.1 fun r hr => (hs.movable r hr).becomes hs.disk
      rw [hs.disk.contents, hundone] at hundo
      have hend := hundo.trans h.2.removeAll
      rw [hundo.contents, stagedIn_without fun id => (htidy id).1] at hend
      have hrun : exchange batch d =
          .error e (Disk.removeAll (temporary batch) (Swap.undo renames s.disk)) := by
        simp only [exchange, hstage, hswap, hs.renamed]
        rfl
      exact .of_error hrun ((h₁.trans hs.disk).trans hend)

/-! ### Where only writes are made to fail -/

theorem Unstages.of_calm (h : d.Calm) {done : List String} {files : List (String × Bytes)}
    (hnames : ∀ name ∈ done ++ files.map (·.1), Disk.accepts name = true) :
    Unstages done files d := by
  induction files generalizing done d with
  | nil => trivial
  | cons file rest ih =>
    obtain ⟨name, content⟩ := file
    have hwrite := Disk.write_outcome name content d
    rw [Unstages]
    cases hrun : Disk.write name content d with
    | ok u d₁ => exact ih (h.becomes (hwrite.ok hrun)) (by simpa using hnames)
    | error e d₁ =>
      obtain ⟨left, h₁⟩ := hwrite.error hrun
      refine (h.becomes h₁).clears fun n hn => hnames n ?_
      simp only [List.map_cons, List.mem_append, List.mem_cons] at hn ⊢
      exact hn.symm.imp_right .inl

theorem Swap.Undoes.of_calm (h : d.Calm) (hmovable : ∀ r ∈ renames, d.Movable r) :
    Swap.Undoes renames d := by
  induction renames generalizing d with
  | nil => trivial
  | cons r rest ih =>
    obtain ⟨source, target⟩ := r
    rw [List.forall_mem_cons] at hmovable
    refine ⟨fun hfile => h.rename hmovable.1.accepted hfile hmovable.1.source, ?_⟩
    rcases undo_step source target hmovable.1 with ⟨hd, _⟩ | hd
    · exact ih (h.becomes hd) fun r hr => (hmovable.2 r hr).becomes hd
    · exact ih (h.becomes hd) fun r hr => (hmovable.2 r hr).becomes hd

theorem accepts_of_mem_temporary (name : String) (hname : name ∈ temporary batch) :
    Disk.accepts name = true := by
  obtain ⟨a, _, rfl⟩ := List.mem_map.1 hname
  exact accepts_fileName a.id "tmp" (by decide)

theorem undo_calm (h : d.Calm) (hmovable : ∀ r ∈ renames, d.Movable r) :
    (Swap.undo renames d).Calm := h.becomes (undo_becomes (.of_calm h hmovable) hmovable)

theorem CleansUp.of_calm {a : Archive} (honce : batch.NamesOnce) (h : a.disk.Calm) :
    a.CleansUp batch := by
  have hstaged := stage_outcome [] (freshFiles batch) a.disk
  refine ⟨fun _ => ?_⟩
  unfold Tidies
  cases hstage : stage [] (freshFiles batch) a.disk with
  | error e d₁ =>
    refine Unstages.of_calm h fun name hname =>
      accepts_of_mem_temporary name (?_ : name ∈ temporary batch)
    simpa [freshFiles, temporary] using hname
  | ok u d₁ =>
    have h₁ : a.disk.Becomes (batch.stagedIn a.disk.contents) d₁ := by
      have hok := hstaged.ok hstage
      rwa [freshFiles, List.foldl_map] at hok
    have hcalm := h.becomes h₁
    have hswapped := swapIn_outcome honce h₁.contents
    cases hswap : swapIn (batch.writes.map (·.id)) (batch.deletes.map (·.1)) ⟨d₁, [], []⟩ with
    | ok u s =>
      simp only [hswap]
      obtain ⟨renames, hs⟩ := hswapped.ok hswap
      refine (hcalm.becomes hs.disk).clears fun name hname => ?_
      obtain ⟨id, _, rfl⟩ := Batch.named_of_mem_aside (hs.keeps ▸ hname)
      exact accepts_fileName id "bak" (by decide)
    | error e s =>
      simp only [hswap]
      obtain ⟨done, g, backups, renames, hreached, hs⟩ := hswapped.error hswap
      have hmovable : ∀ r ∈ s.renames, s.disk.Movable r := hs.renamed ▸ fun r hr =>
        (hs.movable r hr).becomes hs.disk
      have hdisk := hcalm.becomes hs.disk
      exact ⟨.of_calm hdisk hmovable, (undo_calm hdisk hmovable).clears accepts_of_mem_temporary⟩

/-! ### Archives -/

/-- Any index is that of some anchors. -/
theorem exists_indexOf (index : Table ObjectId IndexEntry) :
    ∃ anchors, index = indexOf anchors := by
  refine ⟨index.mapValues fun _ e =>
    { (default : Anchor) with version := e.version, owner := e.owner },
    Table.ext_get? fun id => ?_⟩
  rw [get?_indexOf, Table.get?_mapValues, Option.map_map]
  cases index.get? id <;> rfl

/-- An archive after a batch: all of it has been carried out, and nothing
else. -/
structure HasApplied (batch : Batch) (a a' : Archive) : Prop where
  files : a.disk.contents.Exchanged batch a'.disk.contents
  folders : a'.disk.folders = a.disk.folders
  written : ∀ w ∈ batch.writes, a'.index.get? w.id = some (entryOf w)
  deleted : ∀ x ∈ batch.deletes, a'.index.get? x.1 = none
  other : ∀ id, id ∉ batch.named → a'.index.get? id = a.index.get? id
  epoch : a'.epoch = a.epoch

namespace HasApplied

variable {a a' : Archive}

theorem of_becomes (honce : batch.NamesOnce) (htidy : a.disk.Tidy)
    (hd : a.disk.Becomes (batch.clearedIn a.disk.contents) d) :
    HasApplied batch a { a with disk := d, index := overlay a.index batch } := by
  obtain ⟨anchors, hindex⟩ := exists_indexOf a.index
  have hget : ∀ id, (overlay a.index batch).get? id =
      ((Vault.overlay anchors batch).get? id).map entryOf := fun id => by
    rw [hindex, overlay_indexOf, get?_indexOf]
  refine ⟨?_, hd.folders, fun w hw => ?_, fun x hx => ?_, fun id hid => ?_, rfl⟩
  · show a.disk.contents.Exchanged batch d.contents
    rw [hd.contents]
    exact Batch.exchanged_clearedIn honce htidy
  · rw [hget, honce.get?_written hw]
    rfl
  · rw [hget, Batch.NamesOnce.get?_deleted (List.mem_map_of_mem (f := (·.1)) hx)]
    rfl
  · rw [hget, honce.get?_other hid, hindex, get?_indexOf]

theorem file_other (h : HasApplied batch a a') {id : ObjectId} (hid : id ∉ batch.named) :
    a'.disk.contents (fileName id "cbor") = a.disk.contents (fileName id "cbor") :=
  h.files.other _ fun _ hid' heq => hid (((fileName_inj (by decide) (by decide)).1 heq).1 ▸ hid')

theorem tidy (h : HasApplied batch a a') (htidy : a.disk.Tidy) : a'.disk.Tidy := by
  have hsame : ∀ id, ∀ ext ∈ extensions, ext ≠ "cbor" →
      a'.disk.contents (fileName id ext) = a.disk.contents (fileName id ext) :=
    fun id ext hext hne =>
      h.files.other _ fun _ _ heq => hne ((fileName_inj hext (by decide)).1 heq).2
  exact fun id => ⟨(hsame id "tmp" (by decide) (by decide)).trans (htidy id).1,
    (hsame id "bak" (by decide) (by decide)).trans (htidy id).2⟩

/-- An index that was that of the files still is. -/
theorem lists (h : HasApplied batch a a') (hlists : a.Lists)
    (hlegible : ∀ w ∈ batch.writes, w.Legible) : a'.Lists := by
  refine ⟨fun id entry => ?_, fun name hext hname => ?_⟩
  · simp only [← Disk.contents_eq_some]
    by_cases hid : id ∈ batch.named
    · rcases List.mem_append.1 hid with hid | hid
      · obtain ⟨w, hw, rfl⟩ := List.mem_map.1 hid
        rw [h.written w hw, h.files.written w hw]
        constructor
        · rintro ⟨rfl⟩
          exact ⟨_, _, rfl, (hlegible w hw).decode, rfl, rfl⟩
        · rintro ⟨bytes, anchor, hbytes, hanchor, _, rfl⟩
          cases hbytes
          rw [(hlegible w hw).decode] at hanchor
          cases hanchor
          rfl
      · obtain ⟨x, hx, rfl⟩ := List.mem_map.1 hid
        rw [h.deleted x hx, h.files.deleted x hx]
        simp
    · rw [h.other id hid, h.file_other hid, hlists.exact]
      simp only [← Disk.contents_eq_some]
  -- a listed name is that of a file, or of a folder, and a batch makes no folders
  · have hentry : ∀ {x : Archive}, x.disk.entries.contains name = true ↔
        x.disk.contents name ≠ none ∨ x.disk.folders name ≠ none := by
      intro x
      unfold Disk.contents Disk.folders Table.contains
      cases x.disk.entries.get? name with
      | none => simp
      | some entry => cases entry <;> simp
    have hbefore : a.disk.entries.contains name = true →
        ∃ id, name = fileName id "cbor" ∧ a.index.contains id = true ∧
          a.disk.folders name = none := by
      intro hcontains
      obtain ⟨id, rfl, hid⟩ := hlists.complete name hext hcontains
      obtain ⟨entry, hget⟩ := Option.isSome_iff_exists.1 hid
      obtain ⟨bytes, _, hbytes, _⟩ := (hlists.exact id entry).1 hget
      refine ⟨id, rfl, hid, Disk.folders_eq_none_of_contents ?_⟩
      rw [Disk.contents_eq_some.2 hbytes]
      exact Option.some_ne_none bytes
    rcases hentry.1 hname with hfile | hfolder
    · by_cases hnamed : ∃ id ∈ batch.named, name = fileName id "cbor"
      · obtain ⟨id, hid, rfl⟩ := hnamed
        rcases List.mem_append.1 hid with hid | hid
        · obtain ⟨w, hw, rfl⟩ := List.mem_map.1 hid
          exact ⟨w.id, rfl, by rw [Table.contains, h.written w hw]; rfl⟩
        · obtain ⟨x, hx, rfl⟩ := List.mem_map.1 hid
          exact absurd (h.files.deleted x hx) hfile
      · rw [h.files.other name fun id hid heq => hnamed ⟨id, hid, heq⟩] at hfile
        obtain ⟨id, rfl, hid, _⟩ := hbefore (hentry.2 (.inl hfile))
        refine ⟨id, rfl, ?_⟩
        rw [Table.contains, h.other id fun hmem => hnamed ⟨id, hmem, rfl⟩]
        exact hid
    · rw [h.folders] at hfolder
      obtain ⟨_, _, _, hnone⟩ := hbefore (hentry.2 (.inr hfolder))
      exact absurd hnone hfolder

end HasApplied

/-- A batch that names every object at most once is applied as a whole or not at
all, whichever of its steps fail, as long as undoing and cleaning up succeed. If
it fails, the directory, the index and the epoch are what they were; if it
succeeds, the batch has been carried out and nothing else. No leftover of it
remains in either case. -/
theorem apply_is_all_or_nothing {a : Archive} (honce : batch.NamesOnce) (htidy : a.disk.Tidy)
    (hclean : a.CleansUp batch) :
    (∀ e a', apply batch a = .error e a' → a'.disk.entries = a.disk.entries ∧ a'.disk.Tidy ∧
      a'.index = a.index ∧ a'.epoch = a.epoch) ∧
    ∀ a', apply batch a = .ok () a' → HasApplied batch a a' ∧ a'.disk.Tidy ∧
      (a.Lists → (∀ w ∈ batch.writes, w.Legible) → a'.Lists) := by
  unfold apply
  cases hcheck : batch.check fun id => (a.index.get? id).map (·.version) with
  | error e =>
    refine ⟨fun e a' hrun => ?_, nofun⟩
    cases hrun
    exact ⟨rfl, htidy, rfl, rfl⟩
  | ok u =>
    have hexchange := exchange_outcome honce htidy (hclean.tidies hcheck)
    cases hex : exchange batch a.disk with
    | error e d =>
      have hd := hexchange.error hex
      refine ⟨fun e a' hrun => ?_, nofun⟩
      cases hrun
      refine ⟨Disk.entries_eq hd.contents hd.folders, ?_, rfl, rfl⟩
      unfold Disk.Tidy
      rw [hd.contents]
      exact htidy
    | ok u d =>
      have happlied := HasApplied.of_becomes honce htidy (hexchange.ok hex)
      refine ⟨nofun, fun a' hrun => ?_⟩
      cases hrun
      exact ⟨happlied, happlied.tidy htidy, happlied.lists⟩

/-- An archive that holds one anchor. Where the file of another would be there
is a directory. -/
def hindered : Archive :=
  ⟨.ofListing
      ((Table.empty.insert (fileName storedSpecimen.id "cbor")
          (.file (AnchorFile.encode storedSpecimen))).insert
        (fileName (.node ⟨⟨1⟩⟩) "cbor") (.folder [])),
    Table.empty.insert storedSpecimen.id (entryOf storedSpecimen), 0⟩

/-- A new version of the one, and the other. -/
def hinderedBatch : Batch :=
  ⟨[{ storedSpecimen with version := 2 },
    { Anchor.ofNode ⟨⟨1⟩⟩ storedSpecimen.owner (.isolated ⟨⟨3⟩⟩ Fields.empty) with version := 1 }],
      []⟩

theorem failed_apply_changes_nothing : hinderedBatch.NamesOnce ∧ hindered.disk.Tidy ∧
    hindered.CleansUp hinderedBatch ∧ ∃ e a', apply hinderedBatch hindered = .error e a' ∧
      a'.disk.entries = hindered.disk.entries ∧ a'.disk.Tidy ∧ a'.index = hindered.index ∧
      a'.epoch = hindered.epoch := by
  have honce : hinderedBatch.NamesOnce := by
    unfold Batch.NamesOnce
    decide +kernel
  have hnone : ∀ id, ∀ ext ∈ extensions, ext ≠ "cbor" →
      hindered.disk.contents (fileName id ext) = none := by
    intro id ext hext hne
    have hname : ∀ id', fileName id ext ≠ fileName id' "cbor" := fun id' heq =>
      hne ((fileName_inj hext (by decide)).1 heq).2
    simp [Disk.contents, hindered, Disk.ofListing, Table.get?_insert, hname]
  have htidy : hindered.disk.Tidy := by
    intro id
    have hfresh := hnone id "tmp" (by decide) (by decide)
    have haside := hnone id "bak" (by decide) (by decide)
    dsimp only [Contents.slot]
    exact ⟨hfresh, haside⟩
  have hclean : hindered.CleansUp hinderedBatch := .of_calm honce fun _ => .inl rfl
  have hfails : fails (apply hinderedBatch) hindered = true := by decide +kernel
  exact ⟨honce, htidy, hclean,
    exists_error_of_fails hfails (apply_is_all_or_nothing honce htidy hclean).1⟩

end Archive

end Wayfarer
