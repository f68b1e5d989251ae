import Wayfarer.Proofs.Archive

/-!
# The files after a batch

When nothing goes wrong, a batch that names every object at most once replaces
the files of what it writes, removes those of what it deletes, and touches
nothing else: its temporary files and the files that it moved aside are gone
(`Archive.exchange_ok`).

Every step is about the files of one object (`Contents.Local`), so steps about
different objects do not interfere (`Contents.foldl_slot`).
-/

namespace Wayfarer

open Archive

/-- The files of one object: its own, a new one beside it, and one that was
moved aside. -/
structure Slot where
  file : Option Bytes
  fresh : Option Bytes
  aside : Option Bytes

namespace Slot

/-- A new file is written. -/
def staged (content : Bytes) (s : Slot) : Slot := { s with fresh := some content }

/-- The file is moved aside, if there is one. -/
def backedUp (s : Slot) : Slot := ⟨none, s.fresh, s.file.or s.aside⟩

/-- The new file takes the place of the old one. -/
def replaced (s : Slot) : Slot := ⟨s.fresh, none, s.file.or s.aside⟩

end Slot

namespace Contents

variable {f g : Contents} {id : ObjectId} {name : String}

/-- The files of an object. -/
def slot (f : Contents) (id : ObjectId) : Slot :=
  ⟨f (fileName id "cbor"), f (fileName id "tmp"), f (fileName id "bak")⟩

/-- A name of some file of an object. -/
def Zone (id : ObjectId) (name : String) : Prop := ∃ ext ∈ extensions, name = fileName id ext

theorem zone_disjoint {id' : ObjectId} (h : id ≠ id') {ext : String} (hext : ext ∈ extensions) :
    ¬Zone id' (fileName id ext) := by
  rintro ⟨ext', hext', hname⟩
  exact h ((fileName_inj hext hext').1 hname).1

/-- A change to the files of one object that goes by those files only. -/
structure Local (id : ObjectId) (op : Contents → Contents) (effect : Slot → Slot) : Prop where
  outside : ∀ f {name}, ¬Zone id name → op f name = f name
  slot : ∀ f, (op f).slot id = effect (f.slot id)

theorem Local.slot_other {id' : ObjectId} {op : Contents → Contents} {effect : Slot → Slot}
    (h : Local id op effect) (hne : id' ≠ id) (f : Contents) : (op f).slot id' = f.slot id' := by
  have hsame : ∀ ext ∈ extensions, op f (fileName id' ext) = f (fileName id' ext) := fun ext hext =>
    h.outside f (zone_disjoint hne hext)
  simp only [Contents.slot, hsame "cbor" (by decide), hsame "tmp" (by decide),
    hsame "bak" (by decide)]

section

variable {γ : Type} {key : γ → ObjectId} {op : γ → Contents → Contents} {effect : γ → Slot → Slot}

theorem foldl_outside (hop : ∀ c, Local (key c) (op c) (effect c)) (cs : List γ)
    (hname : ∀ c ∈ cs, ¬Zone (key c) name) : cs.foldl (fun f c => op c f) f name = f name := by
  induction cs generalizing f with
  | nil => rfl
  | cons c rest ih =>
    rw [List.foldl_cons, ih fun c' hc' => hname c' (List.mem_cons_of_mem c hc')]
    exact (hop c).outside f (hname c List.mem_cons_self)

theorem foldl_slot_other (hop : ∀ c, Local (key c) (op c) (effect c)) (cs : List γ)
    (hid : id ∉ cs.map key) : (cs.foldl (fun f c => op c f) f).slot id = f.slot id := by
  induction cs generalizing f with
  | nil => rfl
  | cons c rest ih =>
    rw [List.map_cons, List.mem_cons, not_or] at hid
    rw [List.foldl_cons, ih hid.2, (hop c).slot_other hid.1]

/-- Of several changes to the files of different objects, one decides about
each. -/
theorem foldl_slot (hop : ∀ c, Local (key c) (op c) (effect c)) {cs : List γ}
    (hnodup : (cs.map key).Nodup) {c : γ} (hc : c ∈ cs) :
    (cs.foldl (fun f c => op c f) f).slot (key c) = effect c (f.slot (key c)) := by
  induction cs generalizing f with
  | nil => cases hc
  | cons first rest ih =>
    rw [List.map_cons, List.nodup_cons] at hnodup
    rw [List.foldl_cons]
    rcases List.mem_cons.1 hc with rfl | hrest
    · rw [foldl_slot_other hop rest hnodup.1, (hop c).slot]
    · have hne : key c ≠ key first := fun hsame => hnodup.1 (hsame ▸ List.mem_map_of_mem hrest)
      rw [ih hnodup.2 hrest, (hop first).slot_other hne]

end

/-! ## The steps of a batch -/

/-- The contents with the new file of an object written. -/
def staged (a : Anchor) (f : Contents) : Contents :=
  f.put (fileName a.id "tmp") (some (AnchorFile.encode a))

/-- The contents with the file of an object moved aside, if there is one. -/
def backedUp (id : ObjectId) (f : Contents) : Contents :=
  match f (fileName id "cbor") with
  | none => f
  | some content => (f.put (fileName id "cbor") none).put (fileName id "bak") (some content)

/-- The contents with the new file of an object in place. -/
def replaced (id : ObjectId) (f : Contents) : Contents :=
  ((f.backedUp id).put (fileName id "tmp") none).put (fileName id "cbor") (f (fileName id "tmp"))

/-- The name under which the file of an object is kept, if there is one. -/
def kept (f : Contents) (id : ObjectId) : List String :=
  if (f (fileName id "cbor")).isSome then [fileName id "bak"] else []

theorem mem_kept : name ∈ f.kept id ↔
    name = fileName id "bak" ∧ (f.slot id).file.isSome = true := by
  unfold kept
  split
  · rename_i h
    simp [slot, h]
  · rename_i h
    simp [slot, h]

theorem kept_congr (h : f.slot id = g.slot id) : f.kept id = g.kept id := by
  rw [kept, kept, show f (fileName id "cbor") = g (fileName id "cbor") from congrArg Slot.file h]

theorem put_outside (f : Contents) {ext : String} (hext : ext ∈ extensions) (content : Option Bytes)
    (hname : ¬Zone id name) : f.put (fileName id ext) content name = f name :=
  if_neg fun h => hname ⟨ext, hext, h⟩

theorem staged_local (a : Anchor) : Local a.id (staged a) (Slot.staged (AnchorFile.encode a)) := by
  obtain ⟨hct, hcb, htb⟩ := fileName_ne a.id
  refine ⟨fun f name hname => f.put_outside (by decide) _ hname, fun f => ?_⟩
  simp [slot, staged, put, Slot.staged, hct, htb.symm]

theorem backedUp_local (id : ObjectId) : Local id (backedUp id) Slot.backedUp := by
  obtain ⟨hct, hcb, htb⟩ := fileName_ne id
  refine ⟨fun f name hname => ?_, fun f => ?_⟩
  · unfold backedUp
    cases f (fileName id "cbor") with
    | none => rfl
    | some content =>
      show put (put f _ none) _ _ name = f name
      rw [put_outside _ (by decide) _ hname, put_outside _ (by decide) _ hname]
  · unfold backedUp
    cases hf : f (fileName id "cbor") with
    | none => simp [slot, Slot.backedUp, hf]
    | some content => simp [slot, put, Slot.backedUp, hf, hct.symm, hcb, htb]

theorem replaced_local (id : ObjectId) : Local id (replaced id) Slot.replaced := by
  obtain ⟨hct, hcb, htb⟩ := fileName_ne id
  refine ⟨fun f name hname => ?_, fun f => ?_⟩
  · rw [replaced, put_outside _ (by decide) _ hname, put_outside _ (by decide) _ hname]
    exact (backedUp_local id).outside f hname
  · have hback : f.backedUp id (fileName id "bak") = _ :=
      congrArg Slot.aside ((backedUp_local id).slot f)
    simp [slot, replaced, put, Slot.replaced, Slot.backedUp, hct.symm, hcb.symm, htb.symm, hback]

end Contents

namespace Archive

variable {d : Disk} {f : Contents} {id : ObjectId}

/-! ## Carrying the steps out -/

theorem stage_ok (writes : List Anchor) (done : List String) (h : d.Holds f) :
    ∃ d', stage done (writes.map fun a => (fileName a.id "tmp", AnchorFile.encode a)) d =
      .ok () d' ∧
      d'.Holds (writes.foldl (fun f a => f.staged a) f) := by
  induction writes generalizing d f done with
  | nil => exact ⟨d, rfl, h⟩
  | cons a rest ih =>
    obtain ⟨d₁, hwrite, h₁⟩ := h.write (accepts_fileName a.id "tmp" (by decide))
      (AnchorFile.encode a)
    obtain ⟨d', hrest, h'⟩ := ih (done ++ [fileName a.id "tmp"]) h₁
    refine ⟨d', ?_, h'⟩
    simp only [List.map_cons, stage, hwrite]
    exact hrest

namespace Swap

variable {s : Swap}

theorem rename_ok {source target : String} {content : Bytes} (h : s.disk.Holds f)
    (hname : Disk.accepts target = true) (hne : source ≠ target) (hf : f source = some content) :
    ∃ s', rename source target s = .ok () s' ∧
      s'.disk.Holds ((f.put source none).put target (some content)) ∧ s'.backups = s.backups := by
  obtain ⟨d', hstep, hd⟩ := h.rename hname hne hf
  refine ⟨⟨d', (source, target) :: s.renames, s.backups⟩, ?_, hd, rfl⟩
  have honDisk : onDisk (Disk.rename source target) s = .ok () { s with disk := d' } := by
    simp only [onDisk, hstep]
  exact bind_of_ok honDisk

theorem backUp_ok (h : s.disk.Holds f) (id : ObjectId) :
    ∃ s', backUp id s = .ok () s' ∧ s'.disk.Holds (f.backedUp id) ∧
      s'.backups = s.backups ++ f.kept id := by
  obtain ⟨d₁, hstep, h₁⟩ := h.isFile? (accepts_fileName id "cbor" (by decide))
  have honDisk : onDisk (Disk.isFile? (fileName id "cbor")) s =
      .ok ((f (fileName id "cbor")).map fun _ => true) { s with disk := d₁ } := by
    simp only [onDisk, hstep]
  rw [backUp, bind_of_ok honDisk, Contents.backedUp, Contents.kept]
  cases hf : f (fileName id "cbor") with
  | none => exact ⟨{ s with disk := d₁ }, rfl, h₁, (List.append_nil _).symm⟩
  | some content =>
    obtain ⟨s₂, hrename, h₂, hbackups⟩ := rename_ok (s := { s with disk := d₁ }) h₁
      (accepts_fileName id "bak" (by decide)) (fileName_ne id).2.1 hf
    refine ⟨{ s₂ with backups := s₂.backups ++ [fileName id "bak"] }, bind_of_ok hrename, h₂, ?_⟩
    show s₂.backups ++ _ = s.backups ++ _
    rw [hbackups]
    rfl

theorem replace_ok (h : s.disk.Holds f) (hfresh : (f.slot id).fresh ≠ none) :
    ∃ s', replace id s = .ok () s' ∧ s'.disk.Holds (f.replaced id) ∧
      s'.backups = s.backups ++ f.kept id := by
  obtain ⟨content, hf⟩ := Option.ne_none_iff_exists'.1 hfresh
  obtain ⟨s₁, hback, h₁, hbackups₁⟩ := backUp_ok h id
  have hf₁ : f.backedUp id (fileName id "tmp") = some content :=
    (congrArg Slot.fresh ((Contents.backedUp_local id).slot f)).trans hf
  obtain ⟨s₂, hrename, h₂, hbackups₂⟩ := rename_ok h₁
    (accepts_fileName id "cbor" (by decide)) (fileName_ne id).1.symm hf₁
  refine ⟨s₂, (bind_of_ok hback).trans hrename, ?_, hbackups₂.trans hbackups₁⟩
  rw [Contents.replaced, show f (fileName id "tmp") = some content from hf]
  exact h₂

/-- One object after another: the step of each finds the files of its object as
they were. -/
theorem forM_ok {step : ObjectId → EStateM FileError Swap Unit}
    {op : ObjectId → Contents → Contents} {effect : ObjectId → Slot → Slot} (ready : Slot → Prop)
    (hop : ∀ id, Contents.Local id (op id) (effect id))
    (hstep : ∀ {id s f}, s.disk.Holds f → ready (f.slot id) → ∃ s', step id s = .ok () s' ∧
      s'.disk.Holds (op id f) ∧ s'.backups = s.backups ++ f.kept id)
    {ids : List ObjectId} (hnodup : ids.Nodup) (h : s.disk.Holds f)
    (hf : ∀ id ∈ ids, ready (f.slot id)) :
    ∃ s', ids.forM step s = .ok () s' ∧ s'.disk.Holds (ids.foldl (fun f id => op id f) f) ∧
      s'.backups = s.backups ++ ids.flatMap f.kept := by
  induction ids generalizing s f with
  | nil => exact ⟨s, rfl, h, (List.append_nil _).symm⟩
  | cons id rest ih =>
    rw [List.nodup_cons] at hnodup
    obtain ⟨s₁, hfirst, h₁, hbackups₁⟩ := hstep h (hf id List.mem_cons_self)
    have hsame : ∀ id' ∈ rest, (op id f).slot id' = f.slot id' := fun id' hid' =>
      (hop id).slot_other (fun heq => hnodup.1 (heq ▸ hid')) f
    obtain ⟨s', hrest, h', hbackups'⟩ := ih hnodup.2 h₁ fun id' hid' =>
      hsame id' hid' ▸ hf id' (List.mem_cons_of_mem id hid')
    have hkept : rest.flatMap (op id f).kept = rest.flatMap f.kept := by
      rw [List.flatMap_def, List.flatMap_def]
      exact congrArg List.flatten (List.map_congr_left fun id' hid' =>
        Contents.kept_congr (hsame id' hid'))
    refine ⟨s', (bind_of_ok hfirst).trans hrest, h', ?_⟩
    rw [hbackups', hbackups₁, hkept, List.flatMap_cons, List.append_assoc]

end Swap

end Archive

/-- The objects that a batch names. -/
def Batch.named (batch : Batch) : List ObjectId :=
  batch.writes.map (·.id) ++ batch.deletes.map (·.1)

/-- No object is named twice, be it written or deleted. -/
def Batch.NamesOnce (batch : Batch) : Prop := batch.named.Nodup

/-- The contents in which only a batch has been carried out. -/
structure Contents.Exchanged (batch : Batch) (f f' : Contents) : Prop where
  written : ∀ a ∈ batch.writes, f' (fileName a.id "cbor") = some (AnchorFile.encode a)
  deleted : ∀ x ∈ batch.deletes, f' (fileName x.1 "cbor") = none
  other : ∀ name, (∀ id ∈ batch.named, name ≠ fileName id "cbor") → f' name = f name

namespace Batch

variable {batch : Batch} {f : Contents}

/-- The contents with all new files written. -/
def stagedIn (batch : Batch) (f : Contents) : Contents :=
  batch.writes.foldl (fun f a => f.staged a) f

/-- The contents with all new files in place. -/
def replacedIn (batch : Batch) (f : Contents) : Contents :=
  (batch.writes.map (·.id)).foldl (fun f id => f.replaced id) (batch.stagedIn f)

/-- The contents when what is deleted has been moved aside too. -/
def swappedIn (batch : Batch) (f : Contents) : Contents :=
  (batch.deletes.map (·.1)).foldl (fun f id => f.backedUp id) (batch.replacedIn f)

/-- What was moved aside. -/
def aside (batch : Batch) (f : Contents) : List String :=
  (batch.writes.map (·.id)).flatMap (batch.stagedIn f).kept ++
    (batch.deletes.map (·.1)).flatMap (batch.replacedIn f).kept

/-- The new file of an anchor is in place, if the batch writes no object
twice. -/
theorem replacedIn_slot (hnodup : (batch.writes.map (·.id)).Nodup) {a : Anchor}
    (ha : a ∈ batch.writes) :
    (batch.replacedIn f).slot a.id = ((f.slot a.id).staged (AnchorFile.encode a)).replaced := by
  have hstaged : (batch.stagedIn f).slot a.id = (f.slot a.id).staged (AnchorFile.encode a) :=
    Contents.foldl_slot Contents.staged_local hnodup ha
  have hreplaced : (batch.replacedIn f).slot a.id = ((batch.stagedIn f).slot a.id).replaced :=
    Contents.foldl_slot Contents.replaced_local (by rwa [List.map_id'])
      (List.mem_map_of_mem (f := (·.id)) ha)
  rw [hreplaced, hstaged]

/-- What a batch does not write is as it was when all new files are in place. -/
theorem replacedIn_slot_other {id : ObjectId} (hid : id ∉ batch.writes.map (·.id)) :
    (batch.replacedIn f).slot id = f.slot id := by
  have hstaged : (batch.stagedIn f).slot id = f.slot id :=
    Contents.foldl_slot_other Contents.staged_local _ hid
  have hreplaced : (batch.replacedIn f).slot id = (batch.stagedIn f).slot id :=
    Contents.foldl_slot_other Contents.replaced_local _ (by rwa [List.map_id'])
  rw [hreplaced, hstaged]

namespace NamesOnce

variable (honce : batch.NamesOnce)

include honce

theorem writes : (batch.writes.map (·.id)).Nodup := (List.nodup_append.1 honce).1

theorem deletes : (batch.deletes.map (·.1)).Nodup := (List.nodup_append.1 honce).2.1

theorem not_deleted {id : ObjectId} (hid : id ∈ batch.writes.map (·.id)) :
    id ∉ batch.deletes.map (·.1) := fun hmem => (List.nodup_append.1 honce).2.2 id hid id hmem rfl

theorem slot_stagedIn {a : Anchor} (ha : a ∈ batch.writes) :
    (batch.stagedIn f).slot a.id = (f.slot a.id).staged (AnchorFile.encode a) :=
  Contents.foldl_slot Contents.staged_local honce.writes ha

theorem slot_written {a : Anchor} (ha : a ∈ batch.writes) :
    (batch.swappedIn f).slot a.id = ((f.slot a.id).staged (AnchorFile.encode a)).replaced := by
  have hkept := honce.not_deleted (List.mem_map_of_mem (f := (·.id)) ha)
  have hswapped : (batch.swappedIn f).slot a.id = (batch.replacedIn f).slot a.id :=
    Contents.foldl_slot_other Contents.backedUp_local _ (by rwa [List.map_id'])
  rw [hswapped, replacedIn_slot honce.writes ha]

/-- What a batch deletes is not touched before it is moved aside. -/
theorem slot_replacedIn {id : ObjectId} (hid : id ∈ batch.deletes.map (·.1)) :
    (batch.replacedIn f).slot id = f.slot id :=
  replacedIn_slot_other fun hmem => honce.not_deleted hmem hid

theorem slot_deleted {id : ObjectId} (hid : id ∈ batch.deletes.map (·.1)) :
    (batch.swappedIn f).slot id = (f.slot id).backedUp := by
  have hswapped : (batch.swappedIn f).slot id = ((batch.replacedIn f).slot id).backedUp :=
    Contents.foldl_slot Contents.backedUp_local (by rw [List.map_id']; exact honce.deletes) hid
  rw [hswapped, honce.slot_replacedIn hid]

end NamesOnce

theorem swappedIn_outside {name : String} (hname : ∀ id ∈ batch.named, ¬Contents.Zone id name) :
    batch.swappedIn f name = f name := by
  have hwrites : ∀ id ∈ batch.writes.map (·.id), ¬Contents.Zone id name := fun id hid =>
    hname id (List.mem_append_left _ hid)
  rw [swappedIn, Contents.foldl_outside Contents.backedUp_local _
      fun id hid => hname id (List.mem_append_right _ hid),
    replacedIn, Contents.foldl_outside Contents.replaced_local _ hwrites,
    stagedIn, Contents.foldl_outside Contents.staged_local _
      fun a ha => hwrites a.id (List.mem_map_of_mem ha)]

/-- What was moved aside is what a write replaces and what a delete removes. -/
theorem mem_aside {name : String} : name ∈ batch.aside f ↔
    (∃ id ∈ batch.writes.map (·.id), name = fileName id "bak" ∧
      ((batch.stagedIn f).slot id).file.isSome = true) ∨
    (∃ id ∈ batch.deletes.map (·.1), name = fileName id "bak" ∧
      ((batch.replacedIn f).slot id).file.isSome = true) := by
  simp only [aside, Contents.mem_kept, List.mem_append, List.mem_flatMap]

theorem named_of_mem_aside {name : String} (h : name ∈ batch.aside f) :
    ∃ id ∈ batch.named, name = fileName id "bak" := by
  obtain ⟨id, hid, hname, _⟩ | ⟨id, hid, hname, _⟩ := mem_aside.1 h
  · exact ⟨id, List.mem_append_left _ hid, hname⟩
  · exact ⟨id, List.mem_append_right _ hid, hname⟩

/-- The contents when what was moved aside is gone too. -/
def clearedIn (batch : Batch) (f : Contents) : Contents := fun name =>
  if name ∈ batch.aside f then none else batch.swappedIn f name

/-- If a file was moved aside, that is on the list of what goes. -/
theorem clearedIn_slot {id : ObjectId} {file old : Option Bytes}
    (hslot : (batch.swappedIn f).slot id = ⟨file, none, old⟩)
    (hkept : old.isSome = true → fileName id "bak" ∈ batch.aside f) :
    (batch.clearedIn f).slot id = ⟨file, none, none⟩ := by
  have hstays : ∀ ext ∈ extensions, ext ≠ "bak" →
      batch.clearedIn f (fileName id ext) = batch.swappedIn f (fileName id ext) := by
    intro ext hext hne
    refine if_neg fun hmem => ?_
    obtain ⟨id', _, hname⟩ := named_of_mem_aside hmem
    exact hne ((fileName_inj hext (by decide)).1 hname).2
  have haside : batch.clearedIn f (fileName id "bak") = none := by
    by_cases hmem : fileName id "bak" ∈ batch.aside f
    · exact if_pos hmem
    · have hold : old = none := Option.not_isSome_iff_eq_none.1 fun hsome => hmem (hkept hsome)
      exact (if_neg hmem).trans ((congrArg Slot.aside hslot).trans hold)
  have hfile := (hstays "cbor" (by decide) (by decide)).trans (congrArg Slot.file hslot)
  have hfresh := (hstays "tmp" (by decide) (by decide)).trans (congrArg Slot.fresh hslot)
  rw [Contents.slot, hfile, hfresh, haside]

/-- The new file has taken the place of the old one. -/
theorem clearedIn_written (honce : batch.NamesOnce) {a : Anchor} (ha : a ∈ batch.writes)
    (hclear : (f.slot a.id).aside = none) :
    (batch.clearedIn f).slot a.id = ⟨some (AnchorFile.encode a), none, none⟩ := by
  have hslot := honce.slot_written (f := f) ha
  rw [Slot.replaced, Slot.staged, hclear, Option.or_none] at hslot
  refine clearedIn_slot hslot fun hsome =>
    mem_aside.2 (.inl ⟨a.id, List.mem_map_of_mem ha, rfl, ?_⟩)
  rw [honce.slot_stagedIn ha]
  exact hsome

theorem clearedIn_deleted (honce : batch.NamesOnce) {id : ObjectId}
    (hid : id ∈ batch.deletes.map (·.1))
    (hclear : (f.slot id).fresh = none ∧ (f.slot id).aside = none) :
    (batch.clearedIn f).slot id = ⟨none, none, none⟩ := by
  have hslot := honce.slot_deleted (f := f) hid
  rw [Slot.backedUp, hclear.1, hclear.2, Option.or_none] at hslot
  refine clearedIn_slot hslot fun hsome => mem_aside.2 (.inr ⟨id, hid, rfl, ?_⟩)
  rw [honce.slot_replacedIn hid]
  exact hsome

theorem clearedIn_outside {name : String} (hname : ∀ id ∈ batch.named, ¬Contents.Zone id name) :
    batch.clearedIn f name = f name := by
  refine (if_neg fun hmem => ?_).trans (swappedIn_outside hname)
  obtain ⟨id, hid, hbak⟩ := named_of_mem_aside hmem
  exact hname id hid ⟨"bak", by decide, hbak⟩

/-- All in all, only the batch has been carried out. -/
theorem exchanged_clearedIn (honce : batch.NamesOnce)
    (hclear : ∀ id, (f.slot id).fresh = none ∧ (f.slot id).aside = none) :
    f.Exchanged batch (batch.clearedIn f) := by
  have hwritten : ∀ a ∈ batch.writes, _ := fun a ha =>
    clearedIn_written honce ha (hclear a.id).2
  have hdeleted : ∀ id ∈ batch.deletes.map (·.1), _ := fun id hid =>
    clearedIn_deleted honce hid (hclear id)
  have hnamed : ∀ id ∈ batch.named, ∃ file, (batch.clearedIn f).slot id = ⟨file, none, none⟩ := by
    intro id hid
    rcases List.mem_append.1 hid with hid | hid
    · obtain ⟨a, ha, rfl⟩ := List.mem_map.1 hid
      exact ⟨_, hwritten a ha⟩
    · exact ⟨_, hdeleted id hid⟩
  refine ⟨fun a ha => congrArg Slot.file (hwritten a ha), fun x hx =>
    congrArg Slot.file (hdeleted x.1 (List.mem_map_of_mem (f := (·.1)) hx)), fun name hother => ?_⟩
  by_cases hzone : ∃ id ∈ batch.named, Contents.Zone id name
  · obtain ⟨id, hid, ext, hext, rfl⟩ := hzone
    obtain ⟨file, hslot⟩ := hnamed id hid
    simp only [extensions, List.mem_cons, List.not_mem_nil, or_false] at hext
    obtain rfl | rfl | rfl := hext
    · exact absurd rfl (hother id hid)
    · exact (congrArg Slot.fresh hslot).trans (hclear id).1.symm
    · exact (congrArg Slot.aside hslot).trans (hclear id).2.symm
  · exact clearedIn_outside fun id hid hin => hzone ⟨id, hid, hin⟩

end Batch

namespace Archive

variable {d : Disk} {f : Contents} {batch : Batch}

theorem swapIn_ok (honce : batch.NamesOnce) (h : d.Holds (batch.stagedIn f)) :
    ∃ s, swapIn (batch.writes.map (·.id)) (batch.deletes.map (·.1)) ⟨d, [], []⟩ = .ok () s ∧
      s.disk.Holds (batch.swappedIn f) ∧ s.backups = batch.aside f := by
  have hready : ∀ id ∈ batch.writes.map (·.id), ((batch.stagedIn f).slot id).fresh ≠ none := by
    intro id hid
    obtain ⟨a, ha, rfl⟩ := List.mem_map.1 hid
    rw [honce.slot_stagedIn ha]
    exact Option.some_ne_none _
  obtain ⟨s₁, hreplace, h₁, hbackups₁⟩ := Swap.forM_ok (s := ⟨d, [], []⟩)
    (fun slot => slot.fresh ≠ none) Contents.replaced_local Swap.replace_ok honce.writes h hready
  obtain ⟨s₂, hdelete, h₂, hbackups₂⟩ := Swap.forM_ok (fun _ => True)
    Contents.backedUp_local (fun h _ => Swap.backUp_ok h _) honce.deletes h₁ fun _ _ => trivial
  refine ⟨s₂, (bind_of_ok hreplace).trans hdelete, h₂, ?_⟩
  rw [hbackups₂, hbackups₁]
  rfl

/-- A batch on a directory without leftovers replaces, removes, and leaves
nothing behind. -/
theorem exchange_ok (h : d.Holds f) (honce : batch.NamesOnce)
    (hclear : ∀ id, (f.slot id).fresh = none ∧ (f.slot id).aside = none) :
    ∃ d' f', exchange batch d = .ok () d' ∧ d'.Holds f' ∧ f.Exchanged batch f' := by
  obtain ⟨d₁, hstage, h₁⟩ := stage_ok batch.writes [] h
  obtain ⟨s, hswap, hs, hbackups⟩ := swapIn_ok honce h₁
  have hnames : ∀ name ∈ batch.aside f, Disk.accepts name = true := by
    intro name hname
    obtain ⟨id, _, rfl⟩ := Batch.named_of_mem_aside hname
    exact accepts_fileName id "bak" (by decide)
  refine ⟨_, batch.clearedIn f, ?_, hs.removeAll _ hnames, Batch.exchanged_clearedIn honce hclear⟩
  simp only [exchange, hstage, hswap, hbackups]

end Archive

end Wayfarer
