import Mathlib.Data.List.Induction
import Wayfarer.Proofs.Archive.Undoing

/-!
# Batches that name an object more than once

Nothing keeps a batch from naming an object more than once. On a directory on
which nothing goes wrong, `Archive.apply_of_any_batch` says what becomes of any
batch at all: it is carried out as a vault carries it out unless it writes an
object twice. It fails then, and the file of the first object that it writes
twice is lost.

* `Swap.Notes`: what was moved aside is noted, also if it was moved aside more
  than once.
* `Batch.Reached.undone_without`: undoing the renames without the file that was
  moved aside first.
-/

namespace Wayfarer

open Archive

namespace Contents

variable {f g : Contents} {id : ObjectId} {name : String}

theorem slot_foldl_backedUp (ids : List ObjectId) (f : Contents) (id : ObjectId) :
    ((ids.foldl (fun f id => f.backedUp id) f).slot id).file =
        (if id ∈ ids then none else (f.slot id).file) ∧
      ((ids.foldl (fun f id => f.backedUp id) f).slot id).fresh = (f.slot id).fresh := by
  induction ids generalizing f with
  | nil => exact ⟨rfl, rfl⟩
  | cons first rest ih =>
    obtain ⟨hfile, hfresh⟩ := ih (f.backedUp first)
    rw [List.foldl_cons, hfile, hfresh]
    by_cases hid : id = first
    · subst hid
      rw [(backedUp_local id).slot]
      simp [Slot.backedUp]
    · rw [(backedUp_local first).slot_other hid]
      simp [hid]

theorem put_put (f : Contents) (name : String) (content content' : Option Bytes) :
    (f.put name content).put name content' = f.put name content' := by
  funext n
  unfold put
  split <;> rfl

theorem put_comm {name' : String} (hne : name ≠ name') (content content' : Option Bytes) :
    (f.put name content).put name' content' = (f.put name' content').put name content := by
  funext n
  unfold put
  by_cases hn : n = name
  · simp [hn, hne]
  · simp [hn]

/-- What is undone has nothing to do with other files. -/
theorem undone_put {renames : List (String × String)} (content : Option Bytes)
    (hother : ∀ r ∈ renames, r.1 ≠ name ∧ r.2 ≠ name) :
    (f.put name content).undone renames = (f.undone renames).put name content := by
  induction renames generalizing f with
  | nil => rfl
  | cons r rest ih =>
    rw [List.forall_mem_cons] at hother
    obtain ⟨⟨hsource, htarget⟩, hrest⟩ := hother
    have hfirst : (f.put name content).restored r = (f.restored r).put name content := by
      rw [restored, restored, show f.put name content r.2 = f r.2 from if_neg htarget]
      cases f r.2 with
      | none => rfl
      | some left =>
        show put (put (put f name content) r.2 none) r.1 (some left) = _
        rw [put_comm htarget.symm, put_comm hsource.symm]
    show ((f.put name content).restored r).undone rest =
      ((f.restored r).undone rest).put name content
    rw [hfirst, ih hrest]

/-- The renames for an object are about its files only. -/
theorem zone_of_mem_moves {r : String × String}
    (h : r ∈ (fileName id "tmp", fileName id "cbor") :: f.moved id) :
    Zone id r.1 ∧ Zone id r.2 := by
  rcases List.mem_cons.1 h with rfl | h
  · exact ⟨⟨"tmp", by decide, rfl⟩, "cbor", by decide, rfl⟩
  · unfold moved at h
    split at h
    · rw [List.mem_singleton.1 h]
      exact ⟨⟨"cbor", by decide, rfl⟩, "bak", by decide, rfl⟩
    · cases h

/-- Names of the files of different objects differ. -/
theorem ne_of_zone {id' : ObjectId} (hne : id ≠ id') {ext : String} (hext : ext ∈ extensions)
    (h : Zone id name) : name ≠ fileName id' ext := fun heq => zone_disjoint hne.symm hext (heq ▸ h)

theorem moves_ne {id' : ObjectId} (hne : id ≠ id') {ext : String} (hext : ext ∈ extensions) :
    ∀ r ∈ (fileName id "tmp", fileName id "cbor") :: f.moved id,
      r.1 ≠ fileName id' ext ∧ r.2 ≠ fileName id' ext := fun _ hr =>
  ⟨ne_of_zone hne hext (zone_of_mem_moves hr).1, ne_of_zone hne hext (zone_of_mem_moves hr).2⟩

end Contents

/-! ## Renames undone without a file that was moved aside -/

namespace Batch.Reached

variable {batch : Batch} {f g : Contents} {done : List ObjectId} {renames : List (String × String)}
  {id : ObjectId}

theorem names (h : batch.Reached f done renames g) :
    ∀ r ∈ renames, ∃ id ∈ done, Contents.Zone id r.1 ∧ Contents.Zone id r.2 := by
  induction h with
  | start => exact fun _ hr => by cases hr
  | @backedUp done renames g h id hid hnew ih =>
    rw [List.forall_mem_append]
    exact ⟨fun r hr => ⟨id, List.mem_cons_self,
      Contents.zone_of_mem_moves (List.mem_cons_of_mem _ hr)⟩,
      fun r hr => (ih r hr).imp fun _ h => h.imp_left (List.mem_cons_of_mem id)⟩
  | @replaced done renames g h id hid hnew ih =>
    rw [List.forall_mem_append]
    exact ⟨fun r hr => ⟨id, List.mem_cons_self, Contents.zone_of_mem_moves hr⟩,
      fun r hr => (ih r hr).imp fun _ h => h.imp_left (List.mem_cons_of_mem id)⟩

theorem names_ne (h : batch.Reached f done renames g) (hid : id ∉ done) {ext : String}
    (hext : ext ∈ extensions) : ∀ r ∈ renames, r.1 ≠ fileName id ext ∧ r.2 ≠ fileName id ext := by
  intro r hr
  obtain ⟨id', hid', hsource, htarget⟩ := h.names r hr
  have hne : id' ≠ id := fun heq => hid (heq ▸ hid')
  exact ⟨Contents.ne_of_zone hne hext hsource, Contents.ne_of_zone hne hext htarget⟩

variable (haside : ∀ id ∈ batch.named, (f.slot id).aside = none)
  (hfresh : ∀ id ∈ batch.writes.map (·.id), (f.slot id).fresh ≠ none)

include haside hfresh

/-- An object whose file was moved aside, where it is not any more. -/
theorem undone_lost (h : batch.Reached f done renames g) (hid : id ∈ batch.named)
    (hnew : id ∉ done) :
    ((g.backedUp id).put (fileName id "bak") none).undone (g.moved id ++ renames) =
      f.put (fileName id "cbor") none := by
  have hslot := h.slot_other hnew
  have hbak : g (fileName id "bak") = none := (congrArg Slot.aside hslot).trans (haside id hid)
  have hback := h.undone haside hfresh
  unfold Contents.backedUp Contents.moved
  cases hfile : g (fileName id "cbor") with
  | none =>
    have hnone : f (fileName id "cbor") = none := (congrArg Slot.file hslot).symm.trans hfile
    simp only [Option.isSome_none, Bool.false_eq_true, if_false, List.nil_append]
    rw [Contents.put_self _ hbak, Contents.put_self _ hnone, hback]
  | some content =>
    simp only [Option.isSome_some, if_true, List.cons_append, List.nil_append]
    have hgone : (((g.put (fileName id "cbor") none).put (fileName id "bak") (some content)).put
        (fileName id "bak") none).restored (fileName id "cbor", fileName id "bak") =
          g.put (fileName id "cbor") none := by
      rw [Contents.put_put, Contents.put_self _ ((if_neg (fileName_ne id).2.1.symm).trans hbak),
        Contents.restored, show g.put (fileName id "cbor") none (fileName id "bak") = none from
          (if_neg (fileName_ne id).2.1.symm).trans hbak]
    rw [Contents.undone, List.foldl_cons, hgone]
    show Contents.undone _ renames = _
    rw [Contents.undone_put none (h.names_ne hnew (by decide)), hback]

/-- If the file of an object that was moved aside is gone, undoing the renames
brings back all files but that one. -/
theorem undone_without (h : batch.Reached f done renames g) (hdone : id ∈ done) :
    (g.put (fileName id "bak") none).undone renames = f.put (fileName id "cbor") none := by
  induction h with
  | start => cases hdone
  | @backedUp done renames g h first hfirst hnew ih =>
    rcases List.mem_cons.1 hdone with rfl | hrest
    · exact undone_lost haside hfresh h hfirst hnew
    · have hne : first ≠ id := fun heq => hnew (heq ▸ hrest)
      have hmoves := Contents.moves_ne (f := g) hne (show "bak" ∈ extensions by decide)
      rw [Contents.undone, List.foldl_append]
      show Contents.undone (Contents.undone _ (g.moved first)) renames = _
      rw [Contents.undone_put none fun r hr => hmoves r (List.mem_cons_of_mem _ hr),
        Contents.undone_backedUp, ih hrest]
      rw [h.slot_other hnew]
      exact haside first hfirst
  | @replaced done renames g h first hfirst hnew ih =>
    have hnamed : first ∈ batch.named := List.mem_append_left _ hfirst
    have hslot := h.slot_other hnew
    rcases List.mem_cons.1 hdone with rfl | hrest
    · have hlast : ((g.replaced id).put (fileName id "bak") none).restored
          (fileName id "tmp", fileName id "cbor") =
            (g.backedUp id).put (fileName id "bak") none := by
        obtain ⟨_, hcb, htb⟩ := fileName_ne id
        rw [← Contents.restored_replaced (by rw [hslot]; exact hfresh id hfirst)]
        exact Contents.undone_put none (show ∀ r ∈ [(fileName id "tmp", fileName id "cbor")], _ by
          simpa using ⟨htb, hcb⟩)
      rw [List.cons_append, Contents.undone, List.foldl_cons, hlast]
      exact undone_lost haside hfresh h hnamed hnew
    · have hne : first ≠ id := fun heq => hnew (heq ▸ hrest)
      rw [Contents.undone, List.foldl_append]
      show Contents.undone (Contents.undone _ (_ :: g.moved first)) renames = _
      rw [Contents.undone_put none (Contents.moves_ne hne (by decide)), Contents.undone_replaced,
        ih hrest]
      · rw [hslot]
        exact haside first hnamed
      · rw [hslot]
        exact hfresh first hfirst

end Batch.Reached

/-! ## Objects that are deleted more than once -/

namespace Archive

open Disk (holds_iff)

variable {d : Disk} {f : Contents} {anchors : Table ObjectId Anchor} {epoch : UInt64}
  {batch : Batch}

namespace Swap

variable {s : Swap} {id : ObjectId}

/-- What was moved aside is noted, and nothing else is. -/
structure Notes (s : Swap) (f : Contents) : Prop where
  holds : s.disk.Holds f
  noted : ∀ id, (f.slot id).aside ≠ none → fileName id "bak" ∈ s.backups
  only : ∀ name ∈ s.backups, ∃ id, name = fileName id "bak"

/-- A step about one object after which its old file is aside, and noted. -/
theorem Notes.step {op : ObjectId → Contents → Contents} {effect : Slot → Slot} {s' : Swap}
    (h : s.Notes f) (hop : Contents.Local id (op id) effect)
    (haside : ∀ slot, (effect slot).aside = slot.file.or slot.aside)
    (hholds : s'.disk.Holds (op id f)) (hbackups : s'.backups = s.backups ++ f.kept id) :
    s'.Notes (op id f) := by
  refine ⟨hholds, fun id' hid' => ?_, fun name hname => ?_⟩
  · rw [hbackups, List.mem_append, Contents.mem_kept]
    by_cases hsame : id' = id
    · subst hsame
      rw [hop.slot, haside] at hid'
      cases hfile : (f.slot id').file with
      | none => exact .inl (h.noted id' (by simpa [hfile] using hid'))
      | some content => exact .inr ⟨rfl, rfl⟩
    · rw [hop.slot_other hsame] at hid'
      exact .inl (h.noted id' hid')
  · rw [hbackups, List.mem_append, Contents.mem_kept] at hname
    rcases hname with hname | hname
    · exact h.only name hname
    · exact ⟨id, hname.1⟩

theorem replace_all {ids : List ObjectId} (hnodup : ids.Nodup) (h : s.Notes f)
    (hfresh : ∀ id ∈ ids, (f.slot id).fresh ≠ none) :
    ∃ s', ids.forM replace s = .ok () s' ∧ s'.Notes (ids.foldl (fun f id => f.replaced id) f) := by
  induction ids generalizing s f with
  | nil => exact ⟨s, rfl, h⟩
  | cons id rest ih =>
    rw [List.nodup_cons] at hnodup
    obtain ⟨s₁, hfirst, hholds, hbackups⟩ := replace_ok h.holds (hfresh id List.mem_cons_self)
    have h₁ : s₁.Notes (f.replaced id) :=
      h.step (Contents.replaced_local id) (fun _ => rfl) hholds hbackups
    obtain ⟨s', hrest, h'⟩ := ih hnodup.2 h₁ fun id' hid' => by
      rw [(Contents.replaced_local id).slot_other fun heq => hnodup.1 (heq ▸ hid')]
      exact hfresh id' (List.mem_cons_of_mem id hid')
    exact ⟨s', (bind_of_ok hfirst).trans hrest, h'⟩

theorem backUp_all (ids : List ObjectId) (h : s.Notes f) :
    ∃ s', ids.forM backUp s = .ok () s' ∧ s'.Notes (ids.foldl (fun f id => f.backedUp id) f) := by
  induction ids generalizing s f with
  | nil => exact ⟨s, rfl, h⟩
  | cons id rest ih =>
    obtain ⟨s₁, hfirst, hholds, hbackups⟩ := backUp_ok h.holds id
    obtain ⟨s', hrest, h'⟩ :=
      ih (h.step (Contents.backedUp_local id) (fun _ => rfl) hholds hbackups)
    exact ⟨s', (bind_of_ok hfirst).trans hrest, h'⟩

/-- When what was moved aside is removed, nothing is left beside the files. -/
theorem Notes.cleared (h : s.Notes f) : ∃ f', (Disk.removeAll s.backups s.disk).Holds f' ∧
    (∀ id, f'.slot id = { f.slot id with aside := none }) ∧
    ∀ name, (∀ id, ¬Contents.Zone id name) → f' name = f name := by
  have hnames : ∀ name ∈ s.backups, Disk.accepts name = true := by
    intro name hname
    obtain ⟨id, rfl⟩ := h.only name hname
    exact accepts_fileName id "bak" (by decide)
  have hstays : ∀ name, (∀ id, name ≠ fileName id "bak") → name ∉ s.backups := by
    intro name hother hname
    obtain ⟨id, hid⟩ := h.only name hname
    exact hother id hid
  refine ⟨_, h.holds.removeAll _ hnames, fun id => ?_, fun name hname => ?_⟩
  · have hcbor : fileName id "cbor" ∉ s.backups := hstays _ fun id' heq =>
      absurd ((fileName_inj (by decide) (by decide)).1 heq).2 (by decide)
    have htmp : fileName id "tmp" ∉ s.backups := hstays _ fun id' heq =>
      absurd ((fileName_inj (by decide) (by decide)).1 heq).2 (by decide)
    have hbak : (if fileName id "bak" ∈ s.backups then none else f (fileName id "bak")) = none := by
      by_cases hmem : fileName id "bak" ∈ s.backups
      · exact if_pos hmem
      · rw [if_neg hmem]
        exact Classical.byContradiction fun haside => hmem (h.noted id haside)
    simp only [Contents.slot, hcbor, htmp, hbak, if_false]
  · exact if_neg (hstays name fun id heq => hname id ⟨"bak", by decide, heq⟩)

end Swap

theorem get?_overlay (id : ObjectId) : (Vault.overlay anchors batch).get? id =
    if id ∈ batch.deletes.map (·.1) then none
    else (batch.writes.foldl (fun t a => t.insert a.id a.clean) anchors).get? id := by
  rw [Vault.overlay, Vault.get?_deletes]
  simp only [List.mem_map]

/-- Files with nothing left beside them, and otherwise as they were, are those
of the objects that they hold and of the same epoch. -/
theorem Keeps.exchanged {f' : Contents} {anchors' : Table ObjectId Anchor}
    (hf : Keeps f anchors epoch)
    (hfiles : ∀ id, f' (fileName id "cbor") = (anchors'.get? id).map AnchorFile.encode)
    (hclear : ∀ id, (f'.slot id).fresh = none ∧ (f'.slot id).aside = none)
    (houtside : ∀ name, (∀ id, ¬Contents.Zone id name) → f' name = f name) :
    Keeps f' anchors' epoch := by
  refine ⟨hfiles, ?_, fun name hname => ?_⟩
  · have hepoch : f' epochFile = f epochFile := houtside _ fun id ⟨ext, hext, heq⟩ =>
      epochFile_ne id hext heq
    rw [hepoch]
    exact hf.epoch
  · by_cases hzone : ∃ id, Contents.Zone id name
    · obtain ⟨id, ext, hext, rfl⟩ := hzone
      simp only [extensions, List.mem_cons, List.not_mem_nil, or_false] at hext
      obtain rfl | rfl | rfl := hext
      · exact .inr ⟨id, rfl⟩
      · exact absurd (hclear id).1 hname
      · exact absurd (hclear id).2 hname
    · rw [houtside name fun id hid => hzone ⟨id, hid⟩] at hname
      exact hf.only name hname

section Nodup

variable (hf : Keeps f anchors epoch) (hnodup : (batch.writes.map (·.id)).Nodup)

include hf hnodup

/-- All new files are put in place, and what was moved aside is noted. -/
theorem swapIn_of_nodup (h : d.Holds (batch.stagedIn f)) :
    ∃ s, swapIn (batch.writes.map (·.id)) (batch.deletes.map (·.1)) ⟨d, [], []⟩ = .ok () s ∧
      s.Notes (batch.swappedIn f) := by
  have hstart : Swap.Notes ⟨d, [], []⟩ (batch.stagedIn f) := by
    refine ⟨h, fun id haside => ?_, fun _ hname => by cases hname⟩
    exact absurd ((aside_stagedIn id).trans (hf.clear id (by decide) (by decide))) haside
  obtain ⟨s₁, hreplace, hs₁⟩ := Swap.replace_all hnodup hstart fun _ => fresh_stagedIn
  obtain ⟨s₂, hdelete, hs₂⟩ := Swap.backUp_all (batch.deletes.map (·.1)) hs₁
  exact ⟨s₂, (bind_of_ok hreplace).trans hdelete, hs₂⟩

/-- What is written, and not deleted, is in place; what is deleted is gone. -/
theorem file_swappedIn (id : ObjectId) : ((batch.swappedIn f).slot id).file =
    ((Vault.overlay anchors batch).get? id).map AnchorFile.encode := by
  have huniq : ∀ w ∈ batch.writes, ∀ w' ∈ batch.writes, w.id = w'.id → w = w' := fun _ hw _ hw' =>
    List.inj_on_of_nodup_map hnodup hw hw'
  rw [Batch.swappedIn, (Contents.slot_foldl_backedUp _ (batch.replacedIn f) id).1, get?_overlay]
  by_cases hdeleted : id ∈ batch.deletes.map (·.1)
  · rw [if_pos hdeleted, if_pos hdeleted]
    rfl
  · rw [if_neg hdeleted, if_neg hdeleted]
    by_cases hid : id ∈ batch.writes.map (·.id)
    · obtain ⟨a, ha, rfl⟩ := List.mem_map.1 hid
      rw [Batch.replacedIn_slot hnodup ha, (Vault.get?_writes huniq).1 a ha]
      rfl
    · rw [Batch.replacedIn_slot_other hid, (Vault.get?_writes huniq).2 id fun w hw heq =>
        hid (heq ▸ List.mem_map_of_mem hw)]
      exact hf.files id

theorem fresh_swappedIn (id : ObjectId) : ((batch.swappedIn f).slot id).fresh = none := by
  rw [Batch.swappedIn, (Contents.slot_foldl_backedUp _ (batch.replacedIn f) id).2]
  by_cases hid : id ∈ batch.writes.map (·.id)
  · obtain ⟨a, ha, rfl⟩ := List.mem_map.1 hid
    rw [Batch.replacedIn_slot hnodup ha]
    rfl
  · rw [Batch.replacedIn_slot_other hid]
    exact hf.clear id (by decide) (by decide)

/-- A batch that writes no object twice is carried out, whatever it deletes. -/
theorem exchange_of_nodup (h : d.Holds f) :
    ∃ d' f', exchange batch d = .ok () d' ∧ d'.Holds f' ∧
      Keeps f' (Vault.overlay anchors batch) epoch := by
  obtain ⟨d₁, hstage, h₁⟩ := stage_ok batch.writes [] h
  obtain ⟨s, hswap, hs⟩ := swapIn_of_nodup hf hnodup h₁
  obtain ⟨f', hholds, hslots, hother⟩ := hs.cleared
  refine ⟨_, f', by simp only [exchange, hstage, hswap], hholds,
    hf.exchanged (fun id => ?_) (fun id => ?_) fun name hname => ?_⟩
  · exact (congrArg Slot.file (hslots id)).trans (file_swappedIn hf hnodup id)
  · rw [hslots id]
    exact ⟨fresh_swappedIn hf hnodup id, rfl⟩
  · rw [hother name hname]
    exact Batch.swappedIn_outside fun id _ => hname id

end Nodup

/-! ## Objects that are written more than once -/

theorem bind_of_error {ε τ α β : Type} {w : EStateM ε τ α} {g : α → EStateM ε τ β}
    {t t' : τ} {e : ε} (h : w t = .error e t') : (w >>= g) t = .error e t' := by
  show EStateM.bind w g t = _
  unfold EStateM.bind
  rw [h]

theorem Swap.rename_missing {s : Swap} {source : String} (target : String)
    (hsource : s.disk.entries.get? source = none) : ∃ e d', Swap.rename source target s =
      .error e { s with disk := d' } ∧ s.disk.Becomes s.disk.contents d' := by
  have hstep := Disk.rename_missing target hsource
  cases hrun : Disk.rename source target s.disk with
  | ok u d' => exact (hstep.ok hrun).elim
  | error e d' =>
    refine ⟨e, d', ?_, hstep.error hrun⟩
    refine bind_of_error ?_
    simp only [Swap.onDisk, hrun]

/-- An object whose new file is in place cannot be written once more: that file
is moved aside, and there is no other. -/
theorem Swap.replace_again {s : Swap} {g : Contents} {renames : List (String × String)}
    {backups : List String} {id : ObjectId} (h : s.disk.Holds g) (hs : s.Stands d g renames backups)
    (hfile : (g.slot id).file ≠ none) (hfresh : (g.slot id).fresh = none) :
    ∃ e s', Swap.replace id s = .error e s' ∧ s'.disk.Holds (g.backedUp id) ∧
      s'.renames = (fileName id "cbor", fileName id "bak") :: renames ∧
      ∀ r ∈ s'.renames, s'.disk.Movable r := by
  obtain ⟨content, hfile⟩ := Option.ne_none_iff_exists'.1 hfile
  obtain ⟨s₁, hback, h₁, _⟩ := Swap.backUp_ok h id
  have hs₁ := (Swap.backUp_outcome hs id).ok hback
  have hmoved : g.moved id = [(fileName id "cbor", fileName id "bak")] := by
    rw [Contents.moved, show g (fileName id "cbor") = some content from hfile]
    rfl
  have htmp : s₁.disk.entries.get? (fileName id "tmp") = none := by
    rw [h₁.files, show g.backedUp id (fileName id "tmp") = none from
      (congrArg Slot.fresh ((Contents.backedUp_local id).slot g)).trans hfresh]
    rfl
  obtain ⟨e, d', hrename, hd'⟩ := Swap.rename_missing (fileName id "cbor") htmp
  rw [(holds_iff.1 h₁).2.1] at hd'
  refine ⟨e, _, (bind_of_ok hback).trans hrename, hd'.holds h₁, ?_, fun r hr => ?_⟩
  · show s₁.renames = _
    rw [hs₁.renamed, hmoved]
    rfl
  · refine ((hs₁.movable r ?_).becomes hs₁.disk).becomes hd'
    rw [← hs₁.renamed]
    exact hr

/-- Undoing that loses what was moved aside before. -/
theorem undo_again {g : Contents} {renames : List (String × String)} {id : ObjectId}
    (h : d.Holds (g.backedUp id)) (hfile : (g.slot id).file ≠ none)
    (hmovable : ∀ r ∈ (fileName id "cbor", fileName id "bak") :: renames, d.Movable r) :
    (Swap.undo ((fileName id "cbor", fileName id "bak") :: renames) d).Holds
      ((g.put (fileName id "bak") none).undone renames) := by
  obtain ⟨content, hfile⟩ := Option.ne_none_iff_exists'.1 hfile
  have hfile : g (fileName id "cbor") = some content := hfile
  have hcalm : d.Calm := fun n => .inl (h.faultless n)
  have hcb := (fileName_ne id).2.1
  have hfirst : (g.backedUp id).restored (fileName id "cbor", fileName id "bak") =
      g.put (fileName id "bak") none := by
    simp only [Contents.backedUp, hfile, Contents.restored]
    rw [show (g.put (fileName id "cbor") none).put (fileName id "bak") (some content)
        (fileName id "bak") = some content from if_pos rfl]
    show Contents.put (Contents.put (Contents.put (Contents.put g _ none) _ _) _ none) _ _ = _
    rw [Contents.put_put, Contents.put_comm hcb, Contents.put_put, Contents.put_self]
    exact (if_neg hcb).trans hfile
  have hundo := undo_becomes (.of_calm hcalm hmovable) hmovable
  rw [(holds_iff.1 h).2.1, Contents.undone, List.foldl_cons, hfirst] at hundo
  exact hundo.holds h

theorem without_put (f : Contents) (name : String) (names : List String) :
    (f.put name none).without names = (f.without names).put name none := by
  funext n
  unfold Contents.without Contents.put
  by_cases hn : n = name <;> by_cases hmem : n ∈ names <;> simp [hn, hmem]

/-- The second time an object is to be written there is no new file any more, so
the batch fails. What is moved aside then is the new file, in the place of the
old one, which is lost. -/
theorem exchange_of_repeat (h : d.Holds f)
    (hclear : ∀ id, (f.slot id).fresh = none ∧ (f.slot id).aside = none)
    {before rest : List ObjectId} {id : ObjectId}
    (hids : batch.writes.map (·.id) = before ++ id :: rest) (hnodup : before.Nodup)
    (hid : id ∈ before) :
    ∃ e d', exchange batch d = .error e d' ∧ d'.Holds (f.put (fileName id "cbor") none) := by
  obtain ⟨d₁, hstage, h₁⟩ := stage_ok batch.writes [] h
  have h₁ : d₁.Holds (batch.stagedIn f) := h₁
  have hwrites : ∀ id' ∈ before, id' ∈ batch.writes.map (·.id) := fun id' hid' => by
    rw [hids]
    exact List.mem_append_left _ hid'
  -- up to the repetition, the new files are put in place
  obtain ⟨s₁, hbefore, hs₁, _⟩ := Swap.forM_ok (s := ⟨d₁, [], []⟩) (fun slot => slot.fresh ≠ none)
    Contents.replaced_local Swap.replace_ok hnodup h₁
      fun id' hid' => fresh_stagedIn (hwrites id' hid')
  obtain ⟨renames, hreached, hstands⟩ := (Swap.forM_outcome Contents.replaced_local
    (fun id' hid' => Swap.replace_reaches (fun _ => fresh_stagedIn) (hwrites id' hid')) hnodup
    (fun _ _ => List.not_mem_nil) (Swap.reaches_start (holds_iff.1 h₁).2.1)).ok hbefore
  have hslot : (before.foldl (fun f id => f.replaced id) (batch.stagedIn f)).slot id =
      ((batch.stagedIn f).slot id).replaced :=
    Contents.foldl_slot Contents.replaced_local (by rwa [List.map_id']) hid
  have hfile : ((before.foldl (fun f id => f.replaced id) (batch.stagedIn f)).slot id).file ≠
      none := by
    rw [hslot]
    exact fresh_stagedIn (hwrites id hid)
  -- the repetition fails, and what was done is undone
  obtain ⟨e, s₂, hagain, hs₂, hrenames, hmovable⟩ :=
    Swap.replace_again hs₁ hstands hfile (congrArg Slot.fresh hslot)
  rw [hrenames] at hmovable
  have hundo := undo_again hs₂ hfile hmovable
  rw [hreached.undone_without (fun id _ => (aside_stagedIn id).trans (hclear id).2)
    (fun _ => fresh_stagedIn) (by simpa using hid)] at hundo
  have hend := hundo.removeAll (temporary batch) accepts_of_mem_temporary
  have hback : ((batch.stagedIn f).put (fileName id "cbor") none).without (temporary batch) =
      f.put (fileName id "cbor") none := by
    rw [without_put, stagedIn_without fun id => (hclear id).1]
  have hend : (Disk.removeAll (temporary batch) _).Holds (Contents.without _ (temporary batch)) :=
    hend
  rw [hback] at hend
  refine ⟨e, _, ?_, hend⟩
  have hswap : swapIn (batch.writes.map (·.id)) (batch.deletes.map (·.1)) ⟨d₁, [], []⟩ =
      .error e s₂ := by
    have hforM : (batch.writes.map (·.id)).forM Swap.replace ⟨d₁, [], []⟩ = .error e s₂ := by
      have hsplit : (before ++ id :: rest).forM Swap.replace = (do
          before.forM Swap.replace
          (id :: rest).forM Swap.replace) := List.forM_append
      rw [hids, hsplit]
      exact (bind_of_ok hbefore).trans (bind_of_error hagain)
    exact bind_of_error hforM
  simp only [exchange, hstage, hswap, hrenames]
  rfl

/-! ## Any batch -/

/-- An object that a batch is the first to write for the second time. -/
def WritesAgain (batch : Batch) (id : ObjectId) : Prop :=
  ∃ before rest, batch.writes.map (·.id) = before ++ id :: rest ∧ before.Nodup ∧ id ∈ before

theorem nodup_or_repeats {α : Type} (l : List α) :
    l.Nodup ∨ ∃ before x rest, l = before ++ x :: rest ∧ before.Nodup ∧ x ∈ before := by
  induction l using List.reverseRecOn with
  | nil => exact .inl List.nodup_nil
  | append_singleton l x ih =>
    rcases ih with hnodup | ⟨before, y, rest, rfl, hnodup, hy⟩
    · by_cases hx : x ∈ l
      · exact .inr ⟨l, x, [], rfl, hnodup, hx⟩
      · refine .inl (List.nodup_append.2 ⟨hnodup, List.nodup_singleton x, ?_⟩)
        rintro y hy z hz rfl
        exact hx (List.mem_singleton.1 hz ▸ hy)
    · exact .inr ⟨before, y, rest ++ [x], by simp, hnodup, hy⟩

/-- An archive that stores what a vault does, whether that can be read back or
not. -/
structure Stores (a : Archive) (v : Vault) : Prop where
  files : ∃ f, a.disk.Holds f ∧ Keeps f v.anchors v.epoch
  index : a.index = indexOf v.anchors
  epoch : a.epoch = v.epoch

namespace Stores

variable {a : Archive} {v : Vault}

theorem versions (h : a.Stores v) : (fun id => (a.index.get? id).map (·.version)) = v.version? := by
  funext id
  rw [h.index, get?_indexOf, Vault.version?, Option.map_map]
  rfl

/-- A batch that is accepted and writes no object twice is carried out. -/
theorem apply_of_nodup (h : a.Stores v) (hcheck : batch.check v.version? = .ok ())
    (hnodup : (batch.writes.map (·.id)).Nodup) :
    ∃ a', apply batch a = .ok () a' ∧
      a'.Stores { v with anchors := Vault.overlay v.anchors batch } := by
  obtain ⟨f, hd, hf⟩ := h.files
  obtain ⟨d', f', hex, hd', hf'⟩ := exchange_of_nodup hf hnodup hd
  refine ⟨{ a with disk := d', index := overlay a.index batch }, ?_, ⟨f', hd', hf'⟩, ?_, h.epoch⟩
  · simp only [apply, h.versions, hcheck, hex]
  · show overlay a.index batch = _
    rw [h.index, overlay_indexOf]

/-- A batch that is accepted and writes an object twice fails, and the file of
that object is gone. -/
theorem apply_of_repeat (h : a.Stores v) (hcheck : batch.check v.version? = .ok ()) {id : ObjectId}
    (hid : WritesAgain batch id) : ∃ d f, apply batch a = .error .io { a with disk := d } ∧
      a.disk.Holds f ∧ Keeps f v.anchors v.epoch ∧ d.Holds (f.put (fileName id "cbor") none) := by
  obtain ⟨f, hd, hf⟩ := h.files
  obtain ⟨before, rest, hids, hnodup, hmem⟩ := hid
  obtain ⟨e, d', hex, hd'⟩ := exchange_of_repeat hd
    (fun id => ⟨hf.clear id (by decide) (by decide), hf.clear id (by decide) (by decide)⟩)
      hids hnodup hmem
  exact ⟨d', f, by simp only [apply, h.versions, hcheck, hex], hd, hf, hd'⟩

end Stores

/-- Any batch at all, however often it names an object, is either carried out as
a vault carries it out, or fails and changes nothing, but for one case: if it
would be accepted, and the first object that it writes for the second time is
stored, then it fails and the file of that object is lost, while the index still
has it. -/
theorem apply_of_any_batch {a : Archive} {v : Vault} (h : a.Stores v) (batch : Batch) :
    (∃ a' v', apply batch a = .ok () a' ∧ Vault.apply batch v = .ok () v' ∧ a'.Stores v') ∨
    (∃ e a', apply batch a = .error e a' ∧ a'.disk.entries = a.disk.entries ∧ a'.index = a.index ∧
      a'.epoch = a.epoch) ∨
    ∃ id a', batch.check v.version? = .ok () ∧ WritesAgain batch id ∧ v.anchors.contains id = true ∧
      apply batch a = .error .io a' ∧ a'.disk.entries = a.disk.entries.erase (fileName id "cbor") ∧
      a'.index = a.index ∧ a'.epoch = a.epoch := by
  cases hcheck : batch.check v.version? with
  | error e => exact .inr (.inl ⟨e, a, by simp only [apply, h.versions, hcheck], rfl, rfl, rfl⟩)
  | ok u =>
    rcases nodup_or_repeats (batch.writes.map (·.id)) with hnodup | ⟨before, id, rest, hid⟩
    · obtain ⟨a', hrun, ha'⟩ := h.apply_of_nodup hcheck hnodup
      exact .inl ⟨a', _, hrun, by simp only [Vault.apply, hcheck], ha'⟩
    · obtain ⟨d, f, hrun, hd, hf, hlost⟩ := h.apply_of_repeat hcheck ⟨before, rest, hid⟩
      have hentries : d.entries = a.disk.entries.erase (fileName id "cbor") :=
        Table.ext_get? fun name => by rw [hlost.files, Disk.Holds.get?_drop hd.files]
      by_cases hstored : v.anchors.contains id = true
      · exact .inr (.inr ⟨id, _, rfl, ⟨before, rest, hid⟩, hstored, hrun, hentries, rfl, rfl⟩)
      · have hnone : f (fileName id "cbor") = none := by
          rw [hf.files]
          simpa [Table.contains] using hstored
        rw [Contents.put_self f hnone] at hlost
        exact .inr (.inl ⟨.io, _, hrun, Table.ext_get? fun name => by rw [hlost.files, hd.files],
          rfl, rfl⟩)

/-- A vault with one anchor. -/
def specimenVault : Vault := ⟨Table.empty.insert storedSpecimen.id storedSpecimen.clean, 0⟩

/-- The archive of that vault. -/
def specimenArchive : Archive :=
  ⟨.ofListing (Table.empty.insert (fileName storedSpecimen.id "cbor")
      (.file (AnchorFile.encode storedSpecimen))),
    indexOf specimenVault.anchors, 0⟩

theorem specimenArchive_stores : specimenArchive.Stores specimenVault := by
  refine ⟨⟨fun name =>
      if name = fileName storedSpecimen.id "cbor" then some (AnchorFile.encode storedSpecimen)
      else none,
    ⟨fun _ => rfl, fun name => ?_⟩, fun id => ?_, .inr ⟨?_, rfl⟩, fun name hname => ?_⟩, rfl, rfl⟩
  · rw [specimenArchive, Disk.ofListing, Table.get?_insert]
    split <;> rfl
  · simp only [fileName_inj (show "cbor" ∈ extensions by decide)
      (show "cbor" ∈ extensions by decide), and_true, specimenVault, Table.get?_insert]
    split <;> rfl
  · exact if_neg (epochFile_ne storedSpecimen.id (by decide))
  · exact .inr ⟨storedSpecimen.id, Classical.byContradiction fun hne => hname (if_neg hne)⟩

/-- A deletion that is asked for twice is carried out. -/
theorem repeated_deletion_is_applied : specimenArchive.Stores specimenVault ∧
    ∃ a' v', apply ⟨[], [(storedSpecimen.id, 1), (storedSpecimen.id, 1)]⟩ specimenArchive =
      .ok () a' ∧
      Vault.apply ⟨[], [(storedSpecimen.id, 1), (storedSpecimen.id, 1)]⟩ specimenVault = .ok () v' ∧
        a'.Stores v' := by
  refine ⟨specimenArchive_stores, ?_⟩
  have hruns : fails (apply ⟨[], [(storedSpecimen.id, 1), (storedSpecimen.id, 1)]⟩)
      specimenArchive = false := by
    decide +kernel
  rcases apply_of_any_batch specimenArchive_stores
    ⟨[], [(storedSpecimen.id, 1), (storedSpecimen.id, 1)]⟩ with
    hdone | ⟨e, a', hrun, _⟩ | ⟨id, a', _, _, _, hrun, _⟩
  · exact hdone
  · simp [fails, hrun] at hruns
  · simp [fails, hrun] at hruns

/-- If a new version of it is written twice in one batch, the batch fails and
the anchor is lost, although the index still has it. -/
theorem repeated_write_loses_anchor :
    ∃ a' a'',
      apply ⟨[{ storedSpecimen with version := 2 }, { storedSpecimen with version := 2 }], []⟩
        specimenArchive = .error .io a' ∧
      specimenArchive.disk.contents (fileName storedSpecimen.id "cbor") ≠ none ∧
      fetch storedSpecimen.id a' = .ok none a'' ∧
      a'.index.get? storedSpecimen.id = some (entryOf storedSpecimen) := by
  have hcheck :
      Batch.check ⟨[{ storedSpecimen with version := 2 }, { storedSpecimen with version := 2 }], []⟩
        specimenVault.version? = .ok () := by decide
  have hagain :
      WritesAgain ⟨[{ storedSpecimen with version := 2 }, { storedSpecimen with version := 2 }], []⟩
        storedSpecimen.id :=
    ⟨[storedSpecimen.id], [], rfl, List.nodup_singleton _, List.mem_singleton_self _⟩
  have hindex : specimenArchive.index.get? storedSpecimen.id = some (entryOf storedSpecimen) := by
    decide
  obtain ⟨d, f, hrun, hd, hf, hlost⟩ := specimenArchive_stores.apply_of_repeat hcheck hagain
  obtain ⟨d', hread, _⟩ :=
    hlost.read_missing (accepts_fileName storedSpecimen.id "cbor" (by decide)) (if_pos rfl)
  refine ⟨_, { specimenArchive with disk := d' }, hrun, ?_, ?_, hindex⟩
  · rw [(holds_iff.1 hd).2.1, hf.files]
    exact Option.some_ne_none _
  · simp only [fetch, readAnchor, hread]

end Archive

end Wayfarer
