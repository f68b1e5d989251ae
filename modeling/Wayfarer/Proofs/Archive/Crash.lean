import Wayfarer.Proofs.Archive.Repeats

/-!
# Batches that are cut off

Whatever happens to the steps of a batch, and wherever it is cut off, opening
the directory again finds every object either as it was or as the batch has it
(`Archive.opened_after_faults`).

* `Slot.Safe` is when recovery finds one or the other. `Slot.Steady` is when
  that holds however many of the renames to be undone are undone.
* `Archive.exchange_safe`: the file steps of a batch leave every object safe.
* `Archive.recover_slots`: recovery brings back what was moved aside where
  nothing has taken its place, and removes all other leftovers.
-/

namespace Wayfarer

open Archive

/-! ## One object -/

/-- A rename for an object: its new file is put in place, or its old file is
moved aside. -/
inductive Shift
  | place
  | aside

namespace Shift

/-- The names of the rename. -/
def rename (id : ObjectId) : Shift → String × String
  | place => (fileName id "tmp", fileName id "cbor")
  | aside => (fileName id "cbor", fileName id "bak")

end Shift

namespace Slot

/-- The files of an object when a rename is undone, if there is a file to be
moved back. -/
def undo (s : Slot) : Shift → Slot
  | .place =>
    match s.file with
    | none => s
    | some content => { s with file := none, fresh := some content }
  | .aside =>
    match s.aside with
    | none => s
    | some content => { s with file := some content, aside := none }

/-- The renames that move the file of an object aside. -/
def asides (s : Slot) : List Shift := if s.file.isSome then [.aside] else []

/-- The old file is in place, or aside with nothing in its place, or the new one
is in place. -/
def Safe (old new : Option Bytes) (s : Slot) : Prop :=
  s.file = old ∧ s.aside = none ∨ s.file = none ∧ s.aside = old ∨
    s.file = new ∧ (s.aside = old ∨ s.aside = none)

/-- The old file or the new one is found by recovery. -/
theorem Safe.recovered {old new : Option Bytes} {s : Slot} (h : s.Safe old new) :
    s.file.or s.aside = old ∨ s.file.or s.aside = new := by
  obtain ⟨hfile, haside⟩ | ⟨hfile, haside⟩ | ⟨hfile, haside | haside⟩ := h
  · exact .inl (by rw [hfile, haside, Option.or_none])
  · exact .inl (by rw [hfile, haside, Option.none_or])
  · cases new with
    | none => exact .inl (by rw [hfile, haside, Option.none_or])
    | some content => exact .inr (by rw [hfile, Option.some_or])
  · exact .inr (by rw [hfile, haside, Option.or_none])

/-- Safe in the end, whichever of the renames are undone and whichever are
not. -/
def Steady (old new : Option Bytes) : List Shift → Slot → Prop
  | [], s => s.Safe old new
  | t :: rest, s => Steady old new rest s ∧ Steady old new rest (s.undo t)

variable {old new : Option Bytes} {s : Slot}

theorem steady_backedUp (hfile : s.file = old) (haside : s.aside = none) :
    Steady old new s.asides s.backedUp := by
  cases old <;> simp [asides, backedUp, Steady, Safe, undo, hfile, haside]

theorem steady_replaced (hfile : s.file = old) (hfresh : s.fresh = new) (hnew : new ≠ none)
    (haside : s.aside = none) : Steady old new (.place :: s.asides) s.replaced := by
  obtain ⟨content, rfl⟩ := Option.ne_none_iff_exists'.1 hnew
  cases old <;> simp [asides, replaced, Steady, Safe, undo, hfile, hfresh, haside]

end Slot

/-! ## Undoing that may fail -/

namespace Contents

variable {f g : Contents} {id : ObjectId}

theorem restored_other {r : String × String} {name : String} (hsource : name ≠ r.1)
    (htarget : name ≠ r.2) : f.restored r name = f name := by
  unfold restored
  cases f r.2 with
  | none => rfl
  | some content =>
    show put (put f r.2 none) r.1 (some content) name = f name
    rw [put, if_neg hsource, put, if_neg htarget]

theorem restored_local (t : Shift) (id : ObjectId) :
    Local id (fun f => f.restored (t.rename id)) fun s => s.undo t := by
  obtain ⟨hct, hcb, htb⟩ := fileName_ne id
  refine ⟨fun f name hname => ?_, fun f => ?_⟩
  · have hother : ∀ ext ∈ extensions, name ≠ fileName id ext := fun ext hext heq =>
      hname ⟨ext, hext, heq⟩
    refine restored_other ?_ ?_
    · cases t <;> exact hother _ (by decide)
    · cases t <;> exact hother _ (by decide)
  · cases t with
    | place =>
      cases hfile : f (fileName id "cbor") with
      | none => simp [restored, Shift.rename, slot, Slot.undo, hfile]
      | some content =>
          simp [restored, Shift.rename, slot, Slot.undo, hfile, put, hct, hcb.symm, htb.symm]
    | aside =>
      cases haside : f (fileName id "bak") with
      | none => simp [restored, Shift.rename, slot, Slot.undo, haside]
      | some content =>
          simp [restored, Shift.rename, slot, Slot.undo, haside, put, hct.symm, hcb.symm, htb]

theorem moved_eq (f : Contents) (id : ObjectId) :
    f.moved id = (f.slot id).asides.map (Shift.rename id) := by
  unfold moved Slot.asides slot
  split <;> rfl

end Contents

/-- The renames of one object among those of several. -/
def turns (id : ObjectId) (moves : List (ObjectId × Shift)) : List Shift :=
  (moves.filter fun m => m.1 = id).map (·.2)

/-- The renames as they are noted. -/
def renamesOf (moves : List (ObjectId × Shift)) : List (String × String) :=
  moves.map fun m => m.2.rename m.1

/-- What a batch has come to for one object. -/
inductive Batch.Turned (batch : Batch) (f : Contents) (id : ObjectId) : List Shift → Slot → Prop
  | waiting : Turned batch f id [] (f.slot id)
  | backedUp (hid : id ∈ batch.named) : Turned batch f id (f.slot id).asides (f.slot id).backedUp
  | replaced (hid : id ∈ batch.writes.map (·.id)) :
      Turned batch f id (.place :: (f.slot id).asides) (f.slot id).replaced

theorem Batch.Reached.outside {batch : Batch} {f g : Contents} {done : List ObjectId}
    {renames : List (String × String)} (h : batch.Reached f done renames g) {name : String}
    (hname : ∀ id, ¬Contents.Zone id name) : g name = f name := by
  induction h with
  | start => rfl
  | @backedUp done renames g h id hid hnew ih =>
    rw [(Contents.backedUp_local id).outside g (hname id), ih]
  | @replaced done renames g h id hid hnew ih =>
    rw [(Contents.replaced_local id).outside g (hname id), ih]

/-- The renames on the way of a batch, object by object. -/
theorem Batch.Reached.turned {batch : Batch} {f g : Contents} {done : List ObjectId}
    {renames : List (String × String)} (h : batch.Reached f done renames g) :
    ∃ moves, renames = renamesOf moves ∧ (∀ id ∉ done, turns id moves = []) ∧
      ∀ id, batch.Turned f id (turns id moves) (g.slot id) := by
  -- the renames for one more object come before those of the others, which they do not
  -- concern
  have hmore : ∀ {done moves} {g : Contents} {first : ObjectId} {ts : List Shift}
      {op : Contents → Contents} {effect : Slot → Slot}, Contents.Local first op effect →
      first ∉ done → g.slot first = f.slot first → batch.Turned f first ts (effect (f.slot first)) →
      (∀ id ∉ done, turns id moves = []) → (∀ id, batch.Turned f id (turns id moves) (g.slot id)) →
      (∀ id ∉ first :: done, turns id (ts.map (first, ·) ++ moves) = []) ∧
        ∀ id, batch.Turned f id (turns id (ts.map (first, ·) ++ moves)) ((op g).slot id) := by
    intro done moves g first ts op effect hop hnew hslot hfirst hidle hturned
    have hsame : turns first (ts.map (first, ·) ++ moves) = ts := by
      have hnone := hidle first hnew
      simp only [turns, List.map_eq_nil_iff] at hnone
      simp [turns, List.filter_append, hnone, List.filter_map, Function.comp_def]
    have hother : ∀ id, id ≠ first → turns id (ts.map (first, ·) ++ moves) = turns id moves := by
      intro id hid
      simp [turns, List.filter_append, List.filter_map, Function.comp_def, hid.symm]
    refine ⟨fun id hid => ?_, fun id => ?_⟩
    · rw [List.mem_cons, not_or] at hid
      rw [hother id hid.1, hidle id hid.2]
    · by_cases hid : id = first
      · subst hid
        rw [hsame, hop.slot, hslot]
        exact hfirst
      · rw [hother id hid, hop.slot_other hid]
        exact hturned id
  induction h with
  | start => exact ⟨[], rfl, fun _ _ => rfl, fun _ => .waiting⟩
  | @backedUp done renames g h id hid hnew ih =>
    obtain ⟨moves, rfl, hidle, hturned⟩ := ih
    have hslot := h.slot_other hnew
    obtain ⟨hidle', hturned'⟩ :=
      hmore (Contents.backedUp_local id) hnew hslot (.backedUp hid) hidle hturned
    refine ⟨_, ?_, hidle', hturned'⟩
    rw [Contents.moved_eq, hslot]
    simp [renamesOf]
  | @replaced done renames g h id hid hnew ih =>
    obtain ⟨moves, rfl, hidle, hturned⟩ := ih
    have hslot := h.slot_other hnew
    obtain ⟨hidle', hturned'⟩ :=
      hmore (Contents.replaced_local id) hnew hslot (.replaced hid) hidle hturned
    refine ⟨_, ?_, hidle', hturned'⟩
    rw [Contents.moved_eq, hslot]
    simp [renamesOf, Shift.rename]

namespace Archive

open Disk (holds_iff)

variable {d : Disk} {f : Contents} {batch : Batch}

/-- Objects that are steady are safe after undoing, whichever steps of that
fail. -/
theorem undo_safe {old new : ObjectId → Option Bytes} (moves : List (ObjectId × Shift))
    (hmovable : ∀ r ∈ renamesOf moves, d.Movable r)
    (hsteady : ∀ id, Slot.Steady (old id) (new id) (turns id moves) (d.contents.slot id)) :
    ∃ g, d.Becomes g (Swap.undo (renamesOf moves) d) ∧ (∀ id, (g.slot id).Safe (old id) (new id)) ∧
      ∀ name, (∀ id, ¬Contents.Zone id name) → g name = d.contents name := by
  induction moves generalizing d with
  | nil => exact ⟨_, .refl d, hsteady, fun _ _ => rfl⟩
  | cons m rest ih =>
    obtain ⟨first, t⟩ := m
    have hlocal := Contents.restored_local t first
    rw [renamesOf, List.map_cons, List.forall_mem_cons] at hmovable
    have hother : ∀ id, id ≠ first → turns id ((first, t) :: rest) = turns id rest :=
      fun id hid => by
      simp [turns, hid.symm]
    have hsame : turns first ((first, t) :: rest) = t :: turns first rest := by simp [turns]
    have hfirst := hsteady first
    rw [hsame] at hfirst
    -- the first step brings a file back or fails, and either way the rest goes on
    have hgo : ∀ {f' : Contents}, (∀ id, id ≠ first → f'.slot id = d.contents.slot id) →
        (f'.slot first = d.contents.slot first ∨ f'.slot first = (d.contents.slot first).undo t) →
        (∀ name, (∀ id, ¬Contents.Zone id name) → f' name = d.contents name) →
        d.Becomes f' (Disk.after (Disk.rename (t.rename first).2 (t.rename first).1) d) →
        ∃ g, d.Becomes g (Swap.undo (renamesOf ((first, t) :: rest)) d) ∧
          (∀ id, (g.slot id).Safe (old id) (new id)) ∧
          ∀ name, (∀ id, ¬Contents.Zone id name) → g name = d.contents name := by
      intro f' hslots hslot houtside hd
      obtain ⟨g, hg, hsafe, hgoutside⟩ := ih (fun r hr => (hmovable.2 r hr).becomes hd) fun id => by
        rw [hd.contents]
        by_cases hid : id = first
        · subst hid
          rcases hslot with hslot | hslot <;> rw [hslot]
          · exact hfirst.1
          · exact hfirst.2
        · rw [hslots id hid, ← hother id hid]
          exact hsteady id
      refine ⟨g, hd.trans hg, hsafe, fun name hname => ?_⟩
      rw [hgoutside name hname, hd.contents, houtside name hname]
    rcases undo_step (t.rename first).1 (t.rename first).2 hmovable.1 with ⟨hd, _⟩ | hd
    · exact hgo (fun _ _ => rfl) (.inl rfl) (fun _ _ => rfl) hd
    · exact hgo (fun id hid => hlocal.slot_other hid _) (.inr (hlocal.slot _))
        (fun name hname => hlocal.outside _ (hname first)) hd

/-! ## The file steps of a batch -/

/-- The files that a batch gives its objects. -/
structure Gives (batch : Batch) (new : ObjectId → Option Bytes) : Prop where
  written : ∀ a ∈ batch.writes, new a.id = some (AnchorFile.encode a)
  deleted : ∀ x ∈ batch.deletes, new x.1 = none

/-- Contents in which every object is safe, and all that is not a file of an
object is as it was. -/
structure Safely (f : Contents) (new : ObjectId → Option Bytes) (g : Contents) : Prop where
  safe : ∀ id, (g.slot id).Safe (f.slot id).file (new id)
  outside : ∀ name, (∀ id, ¬Contents.Zone id name) → g name = f name

namespace Safely

variable {g g' : Contents} {new : ObjectId → Option Bytes}

theorem refl (hclear : ∀ id, (f.slot id).aside = none) : Safely f new f :=
  ⟨fun id => .inl ⟨rfl, hclear id⟩, fun _ _ => rfl⟩

/-- New files do not matter. -/
theorem of_temporary (h : Safely f new g) (batch : Batch)
    (hsame : ∀ n, n ∉ temporary batch → g' n = g n) :
    Safely f new g' := by
  have hbeside : ∀ id, ∀ ext ∈ extensions, ext ≠ "tmp" →
      g' (fileName id ext) = g (fileName id ext) := by
    intro id ext hext hne
    refine hsame _ fun hmem => ?_
    obtain ⟨a, _, heq⟩ := List.mem_map.1 hmem
    exact hne ((fileName_inj (by decide) hext).1 heq).2.symm
  refine ⟨fun id => ?_, fun name hname => ?_⟩
  · have hsafe := h.safe id
    simp only [Slot.Safe, Contents.slot, hbeside id "cbor" (by decide) (by decide),
      hbeside id "bak" (by decide) (by decide)] at hsafe ⊢
    exact hsafe
  · rw [hsame name fun hmem => ?_, h.outside name hname]
    obtain ⟨a, _, heq⟩ := List.mem_map.1 hmem
    exact hname a.id ⟨"tmp", by decide, heq.symm⟩

end Safely

variable {new : ObjectId → Option Bytes}

/-- Once all files are swapped in, every object has its new file, and keeps it
while what was moved aside is removed. -/
theorem safely_of_swappedIn {g : Contents} (honce : batch.NamesOnce)
    (hclear : ∀ id, (f.slot id).fresh = none ∧ (f.slot id).aside = none) (hnew : Gives batch new)
    (hg : ∀ n, g n = batch.swappedIn f n ∨ n ∈ batch.aside f ∧ g n = none) : Safely f new g := by
  have hfile : ∀ id, (g.slot id).file = ((batch.swappedIn f).slot id).file := fun id => by
    rcases hg (fileName id "cbor") with hsame | ⟨hmem, _⟩
    · exact hsame
    · obtain ⟨id', _, heq⟩ := Batch.named_of_mem_aside hmem
      exact absurd ((fileName_inj (by decide) (by decide)).1 heq).2 (by decide)
  have haside : ∀ id, (g.slot id).aside = ((batch.swappedIn f).slot id).aside ∨
      (g.slot id).aside = none := fun id => (hg (fileName id "bak")).imp_right And.right
  refine ⟨fun id => ?_, fun name hname => ?_⟩
  · by_cases hid : id ∈ batch.named
    · have hslot : ((batch.swappedIn f).slot id).file = new id ∧
          ((batch.swappedIn f).slot id).aside = (f.slot id).file := by
        rcases List.mem_append.1 hid with hid | hid
        · obtain ⟨a, ha, rfl⟩ := List.mem_map.1 hid
          rw [honce.slot_written ha, hnew.written a ha]
          simp [Slot.replaced, Slot.staged, (hclear a.id).2]
        · rw [honce.slot_deleted hid]
          obtain ⟨x, hx, rfl⟩ := List.mem_map.1 hid
          rw [hnew.deleted x hx]
          simp [Slot.backedUp, (hclear x.1).2]
      exact .inr (.inr ⟨(hfile id).trans hslot.1, (haside id).imp_left fun h => h.trans hslot.2⟩)
    · have hslot : ∀ ext ∈ extensions,
          batch.swappedIn f (fileName id ext) = f (fileName id ext) := fun ext hext =>
        Batch.swappedIn_outside fun id' hid' =>
          Contents.zone_disjoint (fun heq : id = id' => hid (heq ▸ hid')) hext
      have hnone : (g.slot id).aside = none := (haside id).elim
        (fun h => h.trans ((hslot "bak" (by decide)).trans (hclear id).2)) fun h => h
      exact .inl ⟨(hfile id).trans (hslot "cbor" (by decide)), hnone⟩
  · rcases hg name with hsame | ⟨hmem, _⟩
    · exact hsame.trans (Batch.swappedIn_outside fun id _ => hname id)
    · obtain ⟨id, _, heq⟩ := Batch.named_of_mem_aside hmem
      exact absurd ⟨"bak", by decide, heq⟩ (hname id)

theorem file_stagedIn (id : ObjectId) :
    ((batch.stagedIn f).slot id).file = (f.slot id).file := by
  refine stagedIn_other fun hmem => ?_
  obtain ⟨a, _, heq⟩ := List.mem_map.1 hmem
  exact absurd ((fileName_inj (by decide) (by decide)).1 heq).2 (by decide)

theorem stagedIn_outside {name : String} (hname : ∀ id, ¬Contents.Zone id name) :
    batch.stagedIn f name = f name :=
  stagedIn_other fun hmem => by
    obtain ⟨a, _, heq⟩ := List.mem_map.1 hmem
    exact hname a.id ⟨"tmp", by decide, heq.symm⟩

/-- However far a batch got with an object, its renames can be undone in
part. -/
theorem steady_of_turned {id : ObjectId} {ts : List Shift} {slot : Slot} (honce : batch.NamesOnce)
    (hclear : ∀ id, (f.slot id).aside = none) (hnew : Gives batch new)
    (h : batch.Turned (batch.stagedIn f) id ts slot) :
    Slot.Steady (f.slot id).file (new id) ts slot := by
  have haside : ((batch.stagedIn f).slot id).aside = none := (aside_stagedIn id).trans (hclear id)
  rw [← file_stagedIn id]
  cases h with
  | waiting => exact .inl ⟨rfl, haside⟩
  | backedUp _ => exact Slot.steady_backedUp rfl haside
  | replaced hid =>
    obtain ⟨a, ha, rfl⟩ := List.mem_map.1 hid
    refine Slot.steady_replaced rfl ?_ ?_ haside
    · rw [honce.slot_stagedIn ha, hnew.written a ha]
      rfl
    · rw [hnew.written a ha]
      exact Option.some_ne_none _

/-- Whichever of its steps fail, a batch leaves every object safe. -/
theorem exchange_safe (honce : batch.NamesOnce) (htidy : d.Tidy) (hnew : Gives batch new) :
    ∃ g, d.Becomes g (Disk.after (exchange batch) d) ∧ Safely d.contents new g := by
  have hstart : Safely d.contents new d.contents := .refl fun id => (htidy id).2
  have hstaged := stage_outcome [] (freshFiles batch) d
  unfold Disk.after
  cases hstage : stage [] (freshFiles batch) d with
  | error e d₁ =>
    -- only temporary files were written
    obtain ⟨g, hg, hsame⟩ := hstaged.error hstage
    rw [freshFiles] at hstage
    have hrun : exchange batch d = .error e d₁ := by simp only [exchange, hstage]
    rw [hrun]
    refine ⟨g, hg, hstart.of_temporary batch fun n hn => hsame n ?_⟩
    simpa [freshFiles, temporary] using hn
  | ok u d₁ =>
    have h₁ : d.Becomes (batch.stagedIn d.contents) d₁ := by
      have hok := hstaged.ok hstage
      rwa [freshFiles, List.foldl_map] at hok
    have hswapped := swapIn_outcome honce h₁.contents
    rw [freshFiles] at hstage
    cases hswap : swapIn (batch.writes.map (·.id)) (batch.deletes.map (·.1)) ⟨d₁, [], []⟩ with
    | ok u s =>
      -- every object has its new file; what may be left aside does no harm
      obtain ⟨renames, hs⟩ := hswapped.ok hswap
      have hrun : exchange batch d = .ok () (Disk.removeAll (batch.aside d.contents) s.disk) := by
        simp only [exchange, hstage, hswap, hs.keeps]
      obtain ⟨g, hg, hsame⟩ := Disk.removeAll_becomes (batch.aside d.contents) s.disk
      rw [hs.disk.contents] at hsame
      rw [hrun]
      exact ⟨g, (h₁.trans hs.disk).trans hg, safely_of_swappedIn honce htidy hnew hsame⟩
    | error e s =>
      -- the renames are undone in the opposite order, and the undoing may stop anywhere
      -- too
      obtain ⟨done, g, backups, renames, hreached, hs⟩ := hswapped.error hswap
      obtain ⟨moves, rfl, _, hturned⟩ := hreached.turned
      have hrun : exchange batch d =
          .error e (Disk.removeAll (temporary batch) (Swap.undo (renamesOf moves) s.disk)) := by
        simp only [exchange, hstage, hswap, hs.renamed]
        rfl
      have hsteady : ∀ id, Slot.Steady (d.contents.slot id).file (new id) (turns id moves)
          (s.disk.contents.slot id) := fun id => by
        rw [hs.disk.contents]
        exact steady_of_turned honce (fun id => (htidy id).2) hnew (hturned id)
      obtain ⟨g', hg', hsafe, houtside⟩ := undo_safe moves
        (fun r hr => (hs.movable r hr).becomes hs.disk) hsteady
      obtain ⟨g'', hg'', hsame⟩ := Disk.removeAll_becomes (temporary batch)
        (Swap.undo (renamesOf moves) s.disk)
      rw [hg'.contents] at hsame
      have hend : Safely d.contents new g' := by
        refine ⟨hsafe, fun name hname => (houtside name hname).trans ?_⟩
        rw [hs.disk.contents, hreached.outside hname, stagedIn_outside hname]
      rw [hrun]
      exact ⟨g'', ((h₁.trans hs.disk).trans hg').trans hg'', hend.of_temporary batch fun n hn =>
        (hsame n).resolve_right fun h => hn h.1⟩

/-! ## Recovery -/

theorem withExtension_fileName (id : ObjectId) {ext : String} (h : ext ∈ extensions)
    (ext' : String) :
    Disk.withExtension (fileName id ext) ext' = fileName id ext' := by
  have hstem : stem id ≠ "." := by
    intro heq
    have hlist := toList_stem id
    rw [heq] at hlist
    cases id <;> cases hlist
  simp only [Disk.withExtension, splitExtension_fileName id h, hstem, if_false]
  rfl

theorem fileName_ne_around (id : ObjectId) : fileName id "cbor" ≠ Disk.around := by
  intro heq
  have haccepts := accepts_fileName id "cbor" (by decide)
  rw [heq] at haccepts
  exact absurd haccepts (by decide)

/-- The files of an object while some names are still waiting for recovery. -/
def recovering (f : Contents) (waiting : List String) (id : ObjectId) : Slot where
  file := if fileName id "bak" ∈ waiting then f (fileName id "cbor")
    else (f (fileName id "cbor")).or (f (fileName id "bak"))
  fresh := if fileName id "tmp" ∈ waiting then f (fileName id "tmp") else none
  aside := if fileName id "bak" ∈ waiting then f (fileName id "bak") else none

theorem recovering_cons {name : String} {rest : List String} {id : ObjectId}
    (htmp : fileName id "tmp" ≠ name) (hbak : fileName id "bak" ≠ name) :
    recovering f (name :: rest) id = recovering f rest id := by
  simp only [recovering, List.mem_cons, htmp, hbak, false_or]

theorem slot_put_other {g : Contents} {id id' : ObjectId} (hne : id' ≠ id) {ext : String}
    (hext : ext ∈ extensions) (content : Option Bytes) :
    (g.put (fileName id ext) content).slot id' = g.slot id' := by
  have hsame : ∀ ext' ∈ extensions, g.put (fileName id ext) content (fileName id' ext') =
      g (fileName id' ext') := fun ext' hext' =>
    g.put_outside hext content (Contents.zone_disjoint hne hext')
  simp only [Contents.slot, hsame "cbor" (by decide), hsame "tmp" (by decide),
    hsame "bak" (by decide)]

theorem recovering_other {id id' : ObjectId} {ext : String} {rest : List String}
    (hext : ext ∈ extensions) (hne : id' ≠ id) :
    recovering f (fileName id ext :: rest) id' = recovering f rest id' :=
  recovering_cons (fun heq => hne ((fileName_inj (by decide) hext).1 heq).1)
    fun heq => hne ((fileName_inj (by decide) hext).1 heq).1

/-- Recovery goes past a name: the slots are then as the names in `rest` leave
them, and what lies outside the slots is not touched. -/
def PutRight (f : Contents) (rest : List String) (g : Contents) (name : String) (d : Disk) : Prop :=
  ∃ d' g', recoverEntry name d = .ok () d' ∧ d'.Holds g' ∧
    (∀ id, g'.slot id = recovering f rest id) ∧ ∀ n, (∀ id, ¬Contents.Zone id n) → g' n = g n

section Entry

variable {g : Contents} {rest : List String} {id : ObjectId}

theorem putRight_of_idle (h : d.Holds g) {name : String}
    (hslots : ∀ id, g.slot id = recovering f (name :: rest) id)
    (hext : Disk.extension? name = none ∨ Disk.extension? name = some "cbor") :
    PutRight f rest g name d := by
  have hrun : recoverEntry name d = .ok () d := by
    rcases hext with hext | hext <;> simp [recoverEntry, hext]
  refine ⟨d, g, hrun, h, fun id => (hslots id).trans (recovering_cons ?_ ?_), fun _ _ => rfl⟩
  · rintro rfl
    rw [extension?_fileName id (by decide)] at hext
    simp at hext
  · rintro rfl
    rw [extension?_fileName id (by decide)] at hext
    simp at hext

/-- What was not finished is removed. -/
theorem putRight_tmp (h : d.Holds g)
    (hslots : ∀ id', g.slot id' = recovering f (fileName id "tmp" :: rest) id')
    (hnew : fileName id "tmp" ∉ rest) : PutRight f rest g (fileName id "tmp") d := by
  obtain ⟨hct, hcb, htb⟩ := fileName_ne id
  have hext := extension?_fileName id (show "tmp" ∈ extensions by decide)
  refine ⟨_, _, by simp only [recoverEntry, hext],
    h.removeQuietly (accepts_fileName id "tmp" (by decide)), fun id' => ?_, fun n hn =>
    g.put_outside (by decide) none (hn id)⟩
  by_cases hid : id' = id
  · subst hid
    have hslot := hslots id'
    simp only [Contents.slot, recovering, List.mem_cons, htb.symm, hnew, Slot.mk.injEq, false_or,
      true_or, if_true] at hslot
    simp only [Contents.slot, recovering, Contents.put, hct, htb.symm, hnew, if_true, if_false,
      hslot.1, hslot.2.2]
  · rw [slot_put_other hid (by decide), hslots id', recovering_other (by decide) hid]

/-- What was moved aside is moved back if nothing has taken its place, and
removed otherwise. -/
theorem putRight_bak (h : d.Holds g)
    (hslots : ∀ id', g.slot id' = recovering f (fileName id "bak" :: rest) id')
    (hnew : fileName id "bak" ∉ rest) (hfile : f (fileName id "bak") ≠ none) :
    PutRight f rest g (fileName id "bak") d := by
  obtain ⟨hct, hcb, htb⟩ := fileName_ne id
  have hext := extension?_fileName id (show "bak" ∈ extensions by decide)
  obtain ⟨content, haside⟩ := Option.ne_none_iff_exists'.1 hfile
  have hslot := hslots id
  simp only [Contents.slot, recovering, List.mem_cons, htb, Slot.mk.injEq, false_or, true_or,
    if_true] at hslot
  obtain ⟨hcbor, htmp, hbak⟩ := hslot
  rw [haside] at hbak
  have hfinds : d.finds (fileName id "cbor") = true ↔ f (fileName id "cbor") ≠ none := by
    rw [Disk.finds, Table.contains, h.files, hcbor]
    cases f (fileName id "cbor") <;> simp [fileName_ne_around]
  cases hold : f (fileName id "cbor") with
  | some old =>
    -- a file has taken its place: what was moved aside goes
    have hrun : recoverEntry (fileName id "bak") d =
        .ok () (Disk.removeQuietly (fileName id "bak") d) := by
      simp only [recoverEntry, hext, withExtension_fileName id (show "bak" ∈ extensions by decide),
        hfinds.2 (by rw [hold]; exact Option.some_ne_none old), if_true]
    refine ⟨_, _, hrun, h.removeQuietly (accepts_fileName id "bak" (by decide)), fun id' => ?_,
      fun n hn => g.put_outside (by decide) none (hn id)⟩
    by_cases hid : id' = id
    · subst hid
      simp [Contents.slot, recovering, Contents.put, hcb, htb, hnew, hcbor, htmp, hold]
    · rw [slot_put_other hid (by decide), hslots id', recovering_other (by decide) hid]
  | none =>
    -- nothing has: what was moved aside comes back
    obtain ⟨d', hrename, hd'⟩ := h.rename (accepts_fileName id "cbor" (by decide)) hcb.symm hbak
    have hrun : recoverEntry (fileName id "bak") d = .ok () d' := by
      have hnot : d.finds (fileName id "cbor") = false := by
        rw [Bool.eq_false_iff]
        exact fun hfound => hfinds.1 hfound hold
      simp only [recoverEntry, hext, withExtension_fileName id (show "bak" ∈ extensions by decide),
        hnot, Bool.false_eq_true, if_false, hrename]
    refine ⟨d', _, hrun, hd', fun id' => ?_, fun n hn => ?_⟩
    · by_cases hid : id' = id
      · subst hid
        simp [Contents.slot, recovering, Contents.put, hct.symm, hcb.symm, htb, hnew, htmp, hold,
          haside]
      · rw [slot_put_other hid (by decide), slot_put_other hid (by decide), hslots id',
          recovering_other (by decide) hid]
    · rw [Contents.put_outside _ (by decide) _ (hn id),
        Contents.put_outside _ (by decide) _ (hn id)]

/-- One name after another is put right. -/
theorem putRight (h : d.Holds g) {name : String}
    (hslots : ∀ id, g.slot id = recovering f (name :: rest) id) (hnew : name ∉ rest)
    (hfile : f name ≠ none) (hname : Disk.extension? name = none ∨ ∃ id, Contents.Zone id name) :
    PutRight f rest g name d := by
  rcases hname with hext | ⟨id, ext, hext, rfl⟩
  · exact putRight_of_idle h hslots (.inl hext)
  simp only [extensions, List.mem_cons, List.not_mem_nil, or_false] at hext
  obtain rfl | rfl | rfl := hext
  · exact putRight_of_idle h hslots (.inr (extension?_fileName id (by decide)))
  · exact putRight_tmp h hslots hnew
  · exact putRight_bak h hslots hnew hfile

end Entry

theorem forM_recoverEntry_ok {names : List String} {g : Contents} (h : d.Holds g)
    (hslots : ∀ id, g.slot id = recovering f names id) (hnodup : names.Nodup)
    (hnames : ∀ name ∈ names, f name ≠ none ∧
      (Disk.extension? name = none ∨ ∃ id, Contents.Zone id name)) :
    ∃ d' g', (names.forM recoverEntry : EStateM FileError Disk Unit) d = .ok () d' ∧ d'.Holds g' ∧
      (∀ id, g'.slot id = recovering f [] id) ∧ ∀ n, (∀ id, ¬Contents.Zone id n) → g' n = g n := by
  induction names generalizing d g with
  | nil => exact ⟨d, g, rfl, h, hslots, fun _ _ => rfl⟩
  | cons name rest ih =>
    rw [List.nodup_cons] at hnodup
    rw [List.forall_mem_cons] at hnames
    obtain ⟨d₁, g₁, hfirst, h₁, hslots₁, houtside₁⟩ :=
      putRight h hslots hnodup.1 hnames.1.1 hnames.1.2
    obtain ⟨d', g', hrest, h', hslots', houtside'⟩ := ih h₁ hslots₁ hnodup.2 hnames.2
    exact ⟨d', g', (bind_of_ok hfirst).trans hrest, h', hslots', fun n hn =>
      (houtside' n hn).trans (houtside₁ n hn)⟩

/-- Recovery brings back what was moved aside where nothing has taken its place,
and removes all other leftovers. -/
theorem recover_slots (h : d.Holds f)
    (honly : ∀ name, f name ≠ none → Disk.extension? name = none ∨ ∃ id, Contents.Zone id name) :
    ∃ d' g, recover d = .ok () d' ∧ d'.Holds g ∧
      (∀ id, g.slot id = ⟨(f.slot id).file.or (f.slot id).aside, none, none⟩) ∧
      ∀ n, (∀ id, ¬Contents.Zone id n) → g n = f n := by
  have hslots : ∀ id, f.slot id = recovering f d.names id := by
    intro id
    have habsent : ∀ {name}, name ∉ d.names → f name = none := fun hname =>
      Classical.byContradiction fun hfile => hname (h.mem_names.2 hfile)
    unfold Contents.slot recovering
    by_cases hbak : fileName id "bak" ∈ d.names <;> by_cases htmp : fileName id "tmp" ∈ d.names <;>
      simp [hbak, htmp, habsent]
  exact forM_recoverEntry_ok h hslots d.entries.nodup_keys fun name hname =>
    ⟨h.mem_names.1 hname, honly name (h.mem_names.1 hname)⟩

/-! ## What has landed -/

/-- The part of a batch that can be seen in the files. -/
def landed (batch : Batch) (g : Contents) : Batch where
  writes := batch.writes.filter fun a => g (fileName a.id "cbor") = some (AnchorFile.encode a)
  deletes := batch.deletes.filter fun x => g (fileName x.1 "cbor") = none

section Landed

variable {g : Contents} {anchors : Table ObjectId Anchor} {epoch : UInt64}

theorem landed_namesOnce (honce : batch.NamesOnce) (g : Contents) : (landed batch g).NamesOnce :=
  honce.sublist (.append (List.filter_sublist.map _) (List.filter_sublist.map _))

/-- What has landed has given its objects their new anchors; all others have
their old ones. -/
theorem landed_cases (honce : batch.NamesOnce) (g : Contents) (anchors : Table ObjectId Anchor)
    (id : ObjectId) : id ∉ (landed batch g).named ∧
      (Vault.overlay anchors (landed batch g)).get? id = anchors.get? id ∨
    (Vault.overlay anchors (landed batch g)).get? id = (Vault.overlay anchors batch).get? id ∧
      g (fileName id "cbor") = ((Vault.overlay anchors batch).get? id).map AnchorFile.encode := by
  have hlanded := landed_namesOnce honce g
  by_cases hid : id ∈ (landed batch g).named
  · refine .inr ?_
    rcases List.mem_append.1 hid with hid | hid
    · obtain ⟨w, hw, rfl⟩ := List.mem_map.1 hid
      obtain ⟨hw', hfile⟩ := List.mem_filter.1 hw
      rw [hlanded.get?_written hw, honce.get?_written hw']
      exact ⟨rfl, of_decide_eq_true hfile⟩
    · obtain ⟨x, hx, rfl⟩ := List.mem_map.1 hid
      obtain ⟨hx', hfile⟩ := List.mem_filter.1 hx
      rw [Batch.NamesOnce.get?_deleted hid, Batch.NamesOnce.get?_deleted
        (List.mem_map_of_mem (f := (·.1)) hx')]
      exact ⟨rfl, of_decide_eq_true hfile⟩
  · exact .inl ⟨hid, hlanded.get?_other hid⟩

/-- What has not landed is not in the files, unless it was there before. -/
theorem file_of_not_landed (honce : batch.NamesOnce) {id : ObjectId}
    (hid : id ∉ (landed batch g).named)
    (hfile : g (fileName id "cbor") =
      ((Vault.overlay anchors batch).get? id).map AnchorFile.encode) :
    g (fileName id "cbor") = (anchors.get? id).map AnchorFile.encode := by
  by_cases hnamed : id ∈ batch.named
  · refine absurd ?_ hid
    rcases List.mem_append.1 hnamed with hmem | hmem
    · obtain ⟨w, hw, rfl⟩ := List.mem_map.1 hmem
      rw [honce.get?_written hw] at hfile
      exact List.mem_append_left _
        (List.mem_map_of_mem (List.mem_filter.2 ⟨hw, decide_eq_true hfile⟩))
    · obtain ⟨x, hx, rfl⟩ := List.mem_map.1 hmem
      rw [Batch.NamesOnce.get?_deleted hmem] at hfile
      exact List.mem_append_right _
        (List.mem_map_of_mem (List.mem_filter.2 ⟨hx, decide_eq_true hfile⟩))
  · rwa [honce.get?_other hnamed] at hfile

/-- Files that are each the old one or the new one are those of what has
landed. -/
theorem keeps_landed (honce : batch.NamesOnce) (hf : Keeps f anchors epoch)
    (hfiles : ∀ id, g (fileName id "cbor") = f (fileName id "cbor") ∨
      g (fileName id "cbor") = ((Vault.overlay anchors batch).get? id).map AnchorFile.encode)
    (hclear : ∀ id, (g.slot id).fresh = none ∧ (g.slot id).aside = none)
    (houtside : ∀ n, (∀ id, ¬Contents.Zone id n) → g n = f n) :
    Keeps g (Vault.overlay anchors (landed batch g)) epoch := by
  refine hf.exchanged (fun id => ?_) hclear houtside
  rcases landed_cases honce g anchors id with ⟨hid, hold⟩ | ⟨hnew, hfile⟩
  · rw [hold]
    rcases hfiles id with hsame | hlanded
    · rw [hsame, hf.files]
    · exact file_of_not_landed honce hid hlanded
  · rw [hnew, hfile]

end Landed

/-! ## Opening again -/

/-- What is left in the directory of an archive when a batch is applied and
these faults happen. -/
def leftBy (batch : Batch) (a : Archive) (faults : Nat → Option Fault) : Listing :=
  match apply batch { a with disk := { a.disk with faults := faults } } with
  | .ok _ a' => a'.disk.entries
  | .error _ a' => a'.disk.entries

/-- An archive that was opened after a batch, with what the batch has come to:
each object as it was before or as the batch has it, no files but those of the
objects and of the epoch, and an index of just those objects. -/
structure Recovered (batch : Batch) (v : Vault) (a' : Archive) (v' : Vault) : Prop where
  mirrors : a'.Mirrors v'
  lists : a'.Lists
  epoch : v'.epoch = v.epoch
  either : ∀ id, v'.anchors.get? id = v.anchors.get? id ∨
    v'.anchors.get? id = (Vault.overlay v.anchors batch).get? id
  files : ∀ id, a'.disk.contents (fileName id "cbor") = (v'.anchors.get? id).map AnchorFile.encode
  only : ∀ name, a'.disk.entries.get? name ≠ none → name = epochFile ∨
    ∃ id, name = fileName id "cbor"

variable {a : Archive} {v : Vault}

theorem gives_overlay (honce : batch.NamesOnce) (anchors : Table ObjectId Anchor) :
    Gives batch fun id => ((Vault.overlay anchors batch).get? id).map AnchorFile.encode where
  written w hw := by
    rw [honce.get?_written hw]
    rfl
  deleted x hx := by
    rw [Batch.NamesOnce.get?_deleted (List.mem_map_of_mem (f := (·.1)) hx)]
    rfl

/-- What is left is safe, whether anything was done or not. -/
theorem leftBy_safe (hfolders : ∀ name, a.disk.folders name = none) (htidy : a.disk.Tidy)
    (honce : batch.NamesOnce) {new : ObjectId → Option Bytes} (hnew : Gives batch new)
    (faults : Nat → Option Fault) :
    ∃ g, (Disk.ofListing (leftBy batch a faults)).Holds g ∧ Safely a.disk.contents new g := by
  obtain ⟨g, hd, hg⟩ := exchange_safe (d := { a.disk with faults := faults }) honce htidy hnew
  unfold leftBy apply
  dsimp only
  cases batch.check fun id => (a.index.get? id).map (·.version) with
  | error e =>
    exact ⟨_, holds_iff.2 ⟨fun _ => rfl, rfl, hfolders⟩, .refl fun id => (htidy id).2⟩
  | ok u =>
    have hholds : ∀ {d'}, Disk.Becomes { a.disk with faults := faults } g d' →
        (Disk.ofListing d'.entries).Holds g := fun hd =>
      holds_iff.2 ⟨fun _ => rfl, hd.contents, fun name =>
        (congrFun hd.folders name).trans (hfolders name)⟩
    unfold Disk.after at hd
    cases hex : exchange batch { a.disk with faults := faults } with
    | error e d' =>
      rw [hex] at hd
      exact ⟨g, hholds hd, hg⟩
    | ok u d' =>
      rw [hex] at hd
      exact ⟨g, hholds hd, hg⟩

/-- Whatever happens to the steps of a batch, the directory can be opened
again. -/
theorem opened_after_faults (h : a.Mirrors v) (honce : batch.NamesOnce)
    (hlegible : ∀ w ∈ batch.writes, w.Legible) (faults : Nat → Option Fault) :
    ∃ a' v', opened (.ofListing (leftBy batch a faults)) = .ok a' a'.disk ∧
      Recovered batch v a' v' := by
  obtain ⟨f, hd, hf⟩ := h.files
  obtain ⟨_, rfl, hfolders⟩ := holds_iff.1 hd
  have htidy : a.disk.Tidy := fun id =>
    ⟨hf.clear id (by decide) (by decide), hf.clear id (by decide) (by decide)⟩
  obtain ⟨g, hleft, hg⟩ :=
    leftBy_safe hfolders htidy honce (gives_overlay honce v.anchors) faults
  have honly : ∀ name, g name ≠ none → Disk.extension? name = none ∨
      ∃ id, Contents.Zone id name := by
    intro name hname
    by_cases hzone : ∃ id, Contents.Zone id name
    · exact .inr hzone
    · rw [hg.outside name fun id hid => hzone ⟨id, hid⟩] at hname
      rcases hf.only name hname with rfl | ⟨id, rfl⟩
      · exact .inl (by decide)
      · exact .inr ⟨id, "cbor", by decide, rfl⟩
  obtain ⟨d₁, g', hrecover, h₁, hslots, houtside⟩ := recover_slots hleft honly
  have hfiles : ∀ id, g' (fileName id "cbor") = a.disk.contents (fileName id "cbor") ∨
      g' (fileName id "cbor") =
        ((Vault.overlay v.anchors batch).get? id).map AnchorFile.encode := fun id => by
    rw [show g' (fileName id "cbor") = _ from congrArg Slot.file (hslots id)]
    exact (hg.safe id).recovered
  have hkeeps := keeps_landed honce hf hfiles
    (fun id => by rw [hslots id]; exact ⟨rfl, rfl⟩)
    fun n hn => (houtside n hn).trans (hg.outside n hn)
  have hsound : (Vault.overlay v.anchors (landed batch g')).Sound :=
    (landed_namesOnce honce g').sound (fun w hw => hlegible w (List.mem_filter.1 hw).1) h.sound
  obtain ⟨d', hopen, hd'⟩ := opened_of_recovered hrecover h₁ hkeeps hsound
  have hmirrors : Mirrors ⟨d', indexOf (Vault.overlay v.anchors (landed batch g')), v.epoch⟩
      { v with anchors := Vault.overlay v.anchors (landed batch g') } :=
    ⟨⟨g', hd', hkeeps⟩, rfl, rfl, hsound⟩
  refine ⟨_, _, hopen, hmirrors, hmirrors.lists, rfl, fun id => ?_, fun id => ?_,
    fun name hname => ?_⟩
  · exact (landed_cases honce g' v.anchors id).imp And.right And.left
  · rw [(holds_iff.1 hd').2.1, hkeeps.files]
  · rw [hd'.files, ne_eq, Option.map_eq_none_iff] at hname
    exact hkeeps.only name hname

/-- What happens to the steps of a process that stops at step `k`: until then
anything may, and nothing is done any more from then on. If it stops while it
writes, some bytes may be left in the file. -/
def stopping (faults : Nat → Option Fault) (k : Nat) (left : Option Bytes) : Nat → Option Fault :=
  fun n =>
    if n < k then faults n
    else if n = k then some ((left.map Fault.torn).getD .refused)
    else some .refused

/-- Once the process has stopped, its steps change nothing. -/
theorem nothing_after_stop {faults : Nat → Option Fault} {k : Nat} {left : Option Bytes}
    (hfaults : d.faults = stopping faults k left) (hlate : k < d.steps) (name : String) :
    (∀ (α : Type) (act : Listing → Except FileError (α × Listing)),
      Disk.step name act d = .error .failed { d with steps := d.steps + 1 }) ∧
    ∀ content, Disk.write name content d = .error .failed { d with steps := d.steps + 1 } := by
  have hrefused : d.faults d.steps = some .refused := by
    rw [hfaults, stopping, if_neg (by omega), if_neg (by omega)]
  exact ⟨fun α act => by simp only [Disk.step, hrefused],
    fun content => by simp only [Disk.write, Disk.step, hrefused]⟩

/-- A process that stops anywhere while it applies a batch leaves a directory
that can be opened again, and there every object is as it was or as the batch
has it. When the batch begins the directory holds the files of what is stored
and of the epoch and no others (`Archive.Mirrors`): no `.bak` or `.tmp` file is
left over from an earlier batch. -/
theorem opened_after_stop (h : a.Mirrors v) (honce : batch.NamesOnce)
    (hlegible : ∀ w ∈ batch.writes, w.Legible) (faults : Nat → Option Fault) (k : Nat)
    (left : Option Bytes) :
    ∃ a' v', opened (.ofListing (leftBy batch a (stopping faults k left))) = .ok a' a'.disk ∧
      Recovered batch v a' v' :=
  opened_after_faults h honce hlegible (stopping faults k left)

/-- A new version of an anchor is being written when the process stops: the old
one is aside, and nothing is in its place yet. -/
theorem opened_after_stop_before_swap : specimenArchive.Mirrors specimenVault ∧
    (Batch.mk [{ storedSpecimen with version := 2 }] []).NamesOnce ∧
    (∀ w ∈ (Batch.mk [{ storedSpecimen with version := 2 }] []).writes, w.Legible) ∧
    ∃ a' v', opened (.ofListing (leftBy ⟨[{ storedSpecimen with version := 2 }], []⟩ specimenArchive
        (stopping (fun _ => none) 3 none))) = .ok a' a'.disk ∧
      Recovered ⟨[{ storedSpecimen with version := 2 }], []⟩ specimenVault a' v' := by
  have hlegible : storedSpecimen.Legible :=
    ⟨AnchorFile.specimen_ordered, by decide, by decide +kernel⟩
  have hnew : Anchor.Legible { storedSpecimen with version := 2 } :=
    ⟨AnchorFile.specimen_ordered, by decide, by decide +kernel⟩
  have hmirrors : specimenArchive.Mirrors specimenVault := by
    refine ⟨specimenArchive_stores.files, specimenArchive_stores.index,
      specimenArchive_stores.epoch, fun {id b} hb => ?_⟩
    rw [specimenVault, Table.get?_insert] at hb
    split at hb
    · rename_i hid
      cases hb
      exact ⟨hid.symm, rfl, hlegible.clean⟩
    · cases hb
  have honce : (Batch.mk [{ storedSpecimen with version := 2 }] []).NamesOnce :=
    List.nodup_singleton _
  have hwrites : ∀ w ∈ (Batch.mk [{ storedSpecimen with version := 2 }] []).writes, w.Legible :=
    fun w hw => by
    rw [List.mem_singleton.1 hw]
    exact hnew
  exact ⟨hmirrors, honce, hwrites, opened_after_stop hmirrors honce hwrites _ _ _⟩

end Archive

end Wayfarer
