import Wayfarer.Proofs.Archive.Mishaps
import Wayfarer.Proofs.Archive.Opening

/-!
# The epoch on record

The epoch of an archive is also in a file of its own. Only handing out an epoch
changes it; reading, batches and opening leave that file as it is, whichever of
their steps fail.

* `Maintains` is what work does that keeps a condition whether it succeeds or
  not. There is a rule for each way of putting work together, and one for each
  step on a directory (`Disk.Shows`).
* `Archive.Abides`: the archive is in an epoch, and that epoch is on record.
* `Archive.nextEpoch_outcome`: an epoch is on record before it is handed out.
-/

namespace Wayfarer

/-! ## Conditions that work keeps -/

section

variable {ε τ α β : Type} {P : τ → Prop}

/-- Work that keeps a condition, whether it succeeds or not. -/
def Maintains (P : τ → Prop) (w : EStateM ε τ α) : Prop := ∀ s, P s → Outcome w s (fun _ => P) P

namespace Maintains

theorem pure (a : α) : Maintains P (Pure.pure a : EStateM ε τ α) := fun _ h => .of_ok rfl h

theorem throw (e : ε) : Maintains P (MonadExcept.throw e : EStateM ε τ α) :=
  fun _ h => .of_error rfl h

theorem bind {w : EStateM ε τ α} {f : α → EStateM ε τ β} (hw : Maintains P w)
    (hf : ∀ a, Maintains P (f a)) : Maintains P (w >>= f) := fun s h =>
  .bind ((hw s h).mono (fun a s' h' => hf a s' h') fun _ h' => h')

theorem modify {f : τ → τ} (hf : ∀ s, P s → P (f s)) :
    Maintains P (MonadStateOf.modifyGet fun s => (PUnit.unit, f s) : EStateM ε τ PUnit) :=
  fun s h => .of_ok rfl (hf s h)

theorem forM {γ : Type} {l : List γ} {g : γ → EStateM ε τ PUnit} (hg : ∀ x ∈ l, Maintains P (g x)) :
    Maintains P (l.forM g) := by
  induction l with
  | nil => exact pure _
  | cons x rest ih =>
    exact bind (hg x List.mem_cons_self) fun _ => ih fun y hy => hg y (List.mem_cons_of_mem x hy)

theorem foldlM {γ : Type} {g : β → γ → EStateM ε τ β} (hg : ∀ b x, Maintains P (g b x)) (l : List γ)
    (b : β) : Maintains P (l.foldlM g b) := by
  induction l generalizing b with
  | nil => exact pure b
  | cons x rest ih =>
    rw [List.foldlM_cons]
    exact bind (hg b x) fun b' => ih b'

end Maintains

end

/-! ## Steps on a directory -/

namespace Disk

variable {name kept : String} {entry : Option FileEntry} {d : Disk}

/-- What a name of a directory stands for. -/
def Shows (kept : String) (entry : Option FileEntry) (d : Disk) : Prop :=
  d.entries.get? kept = entry

/-- A step keeps what a name stands for if what it is meant to do does. -/
theorem step_maintains {α : Type} {act : Listing → Except FileError (α × Listing)}
    (hact : ∀ entries a entries', act entries = .ok (a, entries') →
      entries'.get? kept = entries.get? kept)
    (name : String) : Maintains (Shows kept entry) (Disk.step name act) := fun d h =>
  step_outcome (fun a entries ha => (hact d.entries a entries ha).trans h) h name

theorem read_maintains (name : String) : Maintains (Shows kept entry) (Disk.read name) := by
  refine step_maintains (fun entries a entries' hact => ?_) name
  split at hact
  · cases hact
  · cases hact
  · cases hact
    rfl

theorem isFile?_maintains (name : String) : Maintains (Shows kept entry) (Disk.isFile? name) := by
  refine step_maintains (fun entries a entries' hact => ?_) name
  split at hact <;> cases hact <;> rfl

theorem get?_placed {entries entries' : Listing} {content : Bytes} (hne : kept ≠ name)
    (h : placed entries name content = .ok entries') : entries'.get? kept = entries.get? kept := by
  unfold placed at h
  split at h
  · cases h
  · cases h
    rw [Table.get?_insert, if_neg hne]

theorem write_maintains (hne : kept ≠ name) (content : Bytes) :
    Maintains (Shows kept entry) (Disk.write name content) := by
  have hstep : Maintains (Shows kept entry) (Disk.step name fun entries => do
      let entries ← placed entries name content
      Pure.pure ((), entries)) := by
    refine step_maintains (fun entries a entries' hact => ?_) name
    cases hplaced : placed entries name content with
    | error e =>
      rw [hplaced] at hact
      cases hact
    | ok new =>
      rw [hplaced] at hact
      cases hact
      exact get?_placed hne hplaced
  intro d h
  unfold Outcome Disk.write
  split
  · rename_i hrun
    split at hrun
    · cases hrun
    · split at hrun <;> cases hrun
    · exact (hstep d h).ok hrun
  · rename_i hrun
    split at hrun
    · cases hrun
      exact h
    · split at hrun
      · rename_i hplaced
        cases hrun
        exact (get?_placed hne hplaced).trans h
      · cases hrun
        exact h
    · exact (hstep d h).error hrun

theorem rename_maintains {source target : String} (hsource : kept ≠ source)
    (htarget : kept ≠ target) :
    Maintains (Shows kept entry) (Disk.rename source target) := by
  have hmoved : ∀ (entries : Listing) (e : FileEntry),
      ((entries.erase source).insert target e).get? kept = entries.get? kept := by
    intro entries e
    rw [Table.get?_insert, if_neg htarget, Table.get?_erase, if_neg hsource]
  refine step_maintains (fun entries a entries' hact => ?_) target
  split at hact
  · cases hact
  · cases hact
    exact hmoved entries _
  · split at hact
    · cases hact
      rfl
    · split at hact
      · cases hact
        exact hmoved entries _
      · cases hact

theorem remove_maintains (hne : kept ≠ name) : Maintains (Shows kept entry) (Disk.remove name) := by
  refine step_maintains (fun entries a entries' hact => ?_) name
  split at hact
  · cases hact
  · cases hact
  · cases hact
    rw [Table.get?_erase, if_neg hne]

theorem Shows.after {α : Type} {act : EStateM FileError Disk α} (h : d.Shows kept entry)
    (hact : Maintains (Shows kept entry) act) : (Disk.after act d).Shows kept entry := by
  have hd := hact d h
  unfold Disk.after
  split
  · rename_i hrun
    exact hd.ok hrun
  · rename_i hrun
    exact hd.error hrun

theorem Shows.removeQuietly (h : d.Shows kept entry) (hne : kept ≠ name) :
    (Disk.removeQuietly name d).Shows kept entry := h.after (remove_maintains hne)

theorem Shows.removeAll {names : List String} (h : d.Shows kept entry) (hnames : kept ∉ names) :
    (Disk.removeAll names d).Shows kept entry := by
  induction names generalizing d with
  | nil => exact h
  | cons name rest ih =>
    rw [List.mem_cons, not_or] at hnames
    exact ih (h.removeQuietly hnames.1) hnames.2

theorem Shows.read {content : Bytes} (h : d.Shows name (some (.file content))) :
    Disk.read name d = .error .failed { d with steps := d.steps + 1 } ∨
      Disk.read name d = .ok content { d with steps := d.steps + 1 } := by
  have hget : d.entries.get? name = some (.file content) := h
  dsimp only [Disk.read, Disk.step]
  simp only [hget]
  split
  case h_3 => exact .inl rfl
  all_goals
    split
    · exact .inl rfl
    · exact .inr rfl

/-- A name with an extension has a dot in it. -/
theorem ne_withExtension (hkept : '.' ∉ kept.toList) (name ext : String) :
    kept ≠ withExtension name ext := by
  rintro rfl
  refine hkept ?_
  unfold withExtension
  split
  · split
    · decide
    · simp [String.toList_append]
  · simp [String.toList_append]

/-- A directory with an epoch on record. -/
def Records (e : UInt64) (d : Disk) : Prop :=
  d.Shows Archive.epochFile (some (.file (Bytes.ofString (toString e.toNat))))

theorem records_iff {e : UInt64} : d.Records e ↔
    d.contents Archive.epochFile = some (Bytes.ofString (toString e.toNat)) := contents_eq_some.symm

end Disk

namespace Archive

open Disk (Shows)

variable {entry : Option FileEntry} {d : Disk} {a : Archive} {e : UInt64}

/-! ## Batches -/

theorem stage_maintains {done : List String} {contents : List (String × Bytes)}
    (hdone : epochFile ∉ done) (hcontents : epochFile ∉ contents.map (·.1)) :
    Maintains (Shows epochFile entry) (stage done contents) := by
  induction contents generalizing done with
  | nil => exact .pure _
  | cons file rest ih =>
    obtain ⟨name, content⟩ := file
    rw [List.map_cons, List.mem_cons, not_or] at hcontents
    have hmore : epochFile ∉ done ++ [name] := by
      simp only [List.mem_append, List.mem_singleton, not_or]
      exact ⟨hdone, hcontents.1⟩
    have hfewer : epochFile ∉ name :: done := by
      simp only [List.mem_cons, not_or]
      exact ⟨hcontents.1, hdone⟩
    intro d h
    have hwrite := Disk.write_maintains hcontents.1 content d h
    unfold Outcome stage
    cases hrun : Disk.write name content d with
    | ok u d' => exact ih hmore hcontents.2 d' (hwrite.ok hrun)
    | error err d' => exact (hwrite.error hrun).removeAll hfewer

/-- A swap on a directory in which the epoch stays: neither its renames nor the
files that it moved aside are those of the epoch. -/
structure Swap.Spares (entry : Option FileEntry) (s : Swap) : Prop where
  shows : s.disk.Shows epochFile entry
  renames : ∀ r ∈ s.renames, epochFile ≠ r.1 ∧ epochFile ≠ r.2
  backups : epochFile ∉ s.backups

namespace Swap

theorem onDisk_maintains {α : Type} {act : EStateM FileError Disk α}
    (hact : Maintains (Shows epochFile entry) act) : Maintains (Spares entry) (onDisk act) := by
  intro s h
  have hd := hact s.disk h.shows
  unfold Outcome onDisk
  cases hrun : act s.disk with
  | ok x d => exact { h with shows := hd.ok hrun }
  | error err d => exact { h with shows := hd.error hrun }

theorem rename_maintains {source target : String} (hsource : epochFile ≠ source)
    (htarget : epochFile ≠ target) : Maintains (Spares entry) (rename source target) := by
  refine .bind (onDisk_maintains (Disk.rename_maintains hsource htarget)) fun _ =>
    .modify fun s h => { h with renames := fun r hr => ?_ }
  rcases List.mem_cons.1 hr with rfl | hr
  · exact ⟨hsource, htarget⟩
  · exact h.renames r hr

theorem backUp_maintains (id : ObjectId) : Maintains (Spares entry) (backUp id) := by
  have hbackup : epochFile ≠ fileName id "bak" := epochFile_ne id (by decide)
  refine .bind (onDisk_maintains (Disk.isFile?_maintains _)) fun found => ?_
  split
  · refine .bind (rename_maintains (epochFile_ne id (by decide)) hbackup) fun _ =>
      .modify fun s h => { h with backups := ?_ }
    rw [List.mem_append, List.mem_singleton, not_or]
    exact ⟨h.backups, hbackup⟩
  · exact .pure _

theorem replace_maintains (id : ObjectId) : Maintains (Spares entry) (replace id) :=
  .bind (backUp_maintains id) fun _ =>
    rename_maintains (epochFile_ne id (by decide)) (epochFile_ne id (by decide))

theorem Spares.undo {s : Swap} (h : s.Spares entry) :
    (undo s.renames s.disk).Shows epochFile entry := by
  have hrenames := h.renames
  have hshows := h.shows
  generalize s.renames = renames at hrenames
  generalize s.disk = d at hshows
  induction renames generalizing d with
  | nil => exact hshows
  | cons r rest ih =>
    obtain ⟨hsource, htarget⟩ := hrenames r List.mem_cons_self
    exact ih (fun r' hr' => hrenames r' (List.mem_cons_of_mem r hr')) _
      (hshows.after (Disk.rename_maintains htarget hsource))

end Swap

theorem swapIn_maintains (writes deletes : List ObjectId) :
    Maintains (Swap.Spares entry) (swapIn writes deletes) :=
  .bind (.forM fun id _ => Swap.replace_maintains id) fun _ =>
    .forM fun id _ => Swap.backUp_maintains id

theorem exchange_maintains (batch : Batch) :
    Maintains (Shows epochFile entry) (exchange batch) := by
  have htemporary : epochFile ∉ batch.writes.map fun a => fileName a.id "tmp" := by
    rw [List.mem_map]
    rintro ⟨a, _, hname⟩
    exact epochFile_ne a.id (by decide) hname.symm
  have hcontents : epochFile ∉
      (batch.writes.map fun a => (fileName a.id "tmp", AnchorFile.encode a)).map (·.1) := by
    rwa [List.map_map]
  intro d h
  have hstage := stage_maintains List.not_mem_nil hcontents d h
  cases hrun :
    stage [] (batch.writes.map fun a => (fileName a.id "tmp", AnchorFile.encode a)) d with
  | error err d₁ =>
    exact .of_error (show exchange batch d = .error err d₁ by simp only [exchange, hrun])
      (hstage.error hrun)
  | ok u d₁ =>
    have hswap := swapIn_maintains (batch.writes.map (·.id)) (batch.deletes.map (·.1)) ⟨d₁, [], []⟩
      ⟨hstage.ok hrun, fun r hr => absurd hr List.not_mem_nil, List.not_mem_nil⟩
    cases hrun₁ : swapIn (batch.writes.map (·.id)) (batch.deletes.map (·.1)) ⟨d₁, [], []⟩ with
    | ok u s =>
      exact .of_ok (show exchange batch d = .ok () (Disk.removeAll s.backups s.disk) by
        simp only [exchange, hrun, hrun₁])
          ((hswap.ok hrun₁).shows.removeAll (hswap.ok hrun₁).backups)
    | error err s =>
      exact .of_error (show exchange batch d = .error err _ by
        simp only [exchange, hrun, hrun₁])
        ((hswap.error hrun₁).undo.removeAll htemporary)

/-! ## Opening -/

/-- What becomes of a leftover: it stays, it is removed, or it comes back. -/
theorem recoverEntry_cases (name : String) (d : Disk) : recoverEntry name d = .ok () d ∨
    epochFile ≠ name ∧ (recoverEntry name d = .ok () (Disk.removeQuietly name d) ∨
      recoverEntry name d = Disk.rename name (Disk.withExtension name "cbor") d) := by
  have hne : ∀ {ext}, Disk.extension? name = some ext → epochFile ≠ name := by
    rintro ext hext rfl
    rw [show Disk.extension? epochFile = none by decide] at hext
    cases hext
  unfold recoverEntry
  split
  · exact .inr ⟨hne ‹_›, .inl rfl⟩
  · refine .inr ⟨hne ‹_›, ?_⟩
    dsimp only
    split
    · exact .inl rfl
    · exact .inr rfl
  · exact .inl rfl

theorem recoverEntry_maintains (name : String) :
    Maintains (Shows epochFile entry) (recoverEntry name) := by
  intro d h
  rcases recoverEntry_cases name d with hrun | ⟨hne, hrun | hrun⟩
  · exact .of_ok hrun h
  · exact .of_ok hrun (h.removeQuietly hne)
  · unfold Outcome
    rw [hrun]
    exact Disk.rename_maintains hne (Disk.ne_withExtension (by decide) name "cbor") d h

theorem recover_maintains : Maintains (Shows epochFile entry) recover := fun d h =>
  (Maintains.forM fun name _ => recoverEntry_maintains name) d h

theorem readAnchor_maintains (name : String) :
    Maintains (Shows epochFile entry) (readAnchor name) := by
  intro d h
  have hread := Disk.read_maintains name d h
  cases hrun : Disk.read name d with
  | error err d' => cases err <;> simpa [Outcome, readAnchor, hrun] using hread.error hrun
  | ok content d' =>
    cases hdecode : AnchorFile.decode content <;>
      simpa [Outcome, readAnchor, hrun, hdecode] using hread.ok hrun

theorem indexFile_maintains (index : Table ObjectId IndexEntry) (name : String) :
    Maintains (Shows epochFile entry) (indexFile index name) := by
  unfold indexFile
  split
  · refine .bind (readAnchor_maintains name) fun found => ?_
    cases found with
    | none => exact .throw _
    | some a => exact .pure _
  · exact .pure _

/-! ## The record -/

/-- An archive in an epoch that is on record. -/
structure Abides (e : UInt64) (a : Archive) : Prop where
  epoch : a.epoch = e
  record : a.disk.Records e

theorem fetch_maintains (id : ObjectId) : Maintains (Abides e) (fetch id) := by
  intro a h
  have hread := readAnchor_maintains (fileName id "cbor") a.disk h.record
  unfold Outcome fetch
  cases hrun : readAnchor (fileName id "cbor") a.disk with
  | ok found d => exact ⟨h.epoch, hread.ok hrun⟩
  | error err d => exact ⟨h.epoch, hread.error hrun⟩

theorem apply_maintains (batch : Batch) : Maintains (Abides e) (apply batch) := by
  intro a h
  have hexchange := exchange_maintains batch a.disk h.record
  unfold Outcome apply
  cases batch.check fun id => (a.index.get? id).map (·.version) with
  | error err => exact h
  | ok u =>
    dsimp only
    cases hrun : exchange batch a.disk with
    | ok u d => exact ⟨h.epoch, hexchange.ok hrun⟩
    | error err d => exact ⟨h.epoch, hexchange.error hrun⟩

/-- The epoch on record is read as it is, unless the file cannot be read. -/
theorem readEpoch_outcome (h : d.Records e) :
    Outcome readEpoch d (fun n d' => n = e ∧ d'.Records e) (·.Records e) := by
  unfold Outcome readEpoch
  rcases Disk.Shows.read h with hrun | hrun
  · rw [hrun]
    exact h
  · simp only [hrun, Bytes.toString?_ofString, Text.word?_toString]
    exact ⟨trivial, h⟩

/-- Whoever opens the directory is in the epoch on record. -/
theorem opened_outcome (h : d.Records e) :
    Outcome opened d (fun a _ => a.Abides e) (·.Records e) := by
  have hrecover := recover_maintains d h
  unfold Outcome opened
  cases hrun : recover d with
  | error err d₁ => exact hrecover.error hrun
  | ok u d₁ =>
    have hindex := Maintains.foldlM indexFile_maintains d₁.names Table.empty d₁ (hrecover.ok hrun)
    dsimp only
    cases hrun₁ : (d₁.names.foldlM indexFile Table.empty : EStateM Error Disk _) d₁ with
    | error err d₂ => exact hindex.error hrun₁
    | ok index d₂ =>
      have hepoch := readEpoch_outcome (hindex.ok hrun₁)
      dsimp only
      cases hrun₂ : readEpoch d₂ with
      | error err d₃ => exact hepoch.error hrun₂
      | ok epoch d₃ => exact ⟨(hepoch.ok hrun₂).1, (hepoch.ok hrun₂).2⟩

/-- An epoch is one more than that of before, and on record, when it is handed
out. If it cannot be handed out, the record stays. -/
theorem nextEpoch_outcome (a : Archive) :
    Outcome nextEpoch a (fun n a' => n = a.epoch + 1 ∧ a'.Abides n)
      fun a' => ∀ e, a.Abides e → a'.Abides e := by
  have htemporary : Disk.withExtension epochFile "tmp" = "EPOCH.tmp" := by decide
  have hne : "EPOCH.tmp" ≠ epochFile := by decide
  have hwrite :=
    Disk.write_outcome "EPOCH.tmp" (Bytes.ofString (toString (a.epoch + 1).toNat)) a.disk
  unfold Outcome nextEpoch
  dsimp only
  rw [htemporary]
  cases hrun : Disk.write "EPOCH.tmp" (Bytes.ofString (toString (a.epoch + 1).toNat)) a.disk with
  | error err d =>
    intro e h
    obtain ⟨left, hd⟩ := hwrite.error hrun
    refine ⟨h.epoch, Disk.records_iff.2 ?_⟩
    rw [hd.contents, Contents.put, if_neg hne.symm]
    exact Disk.records_iff.1 h.record
  | ok u d =>
    have hd := (hwrite.ok hrun).contents
    have hrename := Disk.rename_outcome epochFile hne ((congrFun hd "EPOCH.tmp").trans (if_pos rfl))
    dsimp only
    cases hrun₁ : Disk.rename "EPOCH.tmp" epochFile d with
    | error err d' =>
      intro e h
      refine ⟨h.epoch, Disk.records_iff.2 ?_⟩
      rw [(hrename.error hrun₁).contents, hd, Contents.put, if_neg hne.symm]
      exact Disk.records_iff.1 h.record
    | ok u d' =>
      refine ⟨rfl, rfl, Disk.records_iff.2 ?_⟩
      rw [(hrename.ok hrun₁).contents, Contents.put, if_pos rfl]

end Archive

end Wayfarer
