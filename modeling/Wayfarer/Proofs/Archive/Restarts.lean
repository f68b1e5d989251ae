import Mathlib.Data.List.Nodup
import Wayfarer.Vault
import Wayfarer.Proofs.Archive.Exchange
import Wayfarer.Proofs.Archive.Opening
import Wayfarer.Proofs.Commit
import Wayfarer.Proofs.Shared

/-!
# Archives and vaults

An archive in a directory that nobody else writes to answers like a vault, no
matter how often it is closed and opened again (`Archive.answers_as_vault`).
`Archive.Mirrors` relates the two: the files, the index and the epoch of the
archive are those of what the vault holds. Every call keeps it.
-/

namespace Wayfarer

/-! ## Calls -/

namespace Durable

/-- What is asked of a durable tier. It may also be closed and opened again. -/
inductive Call
  | fetch (id : ObjectId)
  | apply (batch : Batch)
  | ownedBy (root : RootId)
  | nextEpoch
  | reopen

/-- What a durable tier answers. -/
inductive Reply
  | fetched (found : Option Anchor)
  | applied
  | owned (ids : List ObjectId)
  | begun (epoch : UInt64)
  | reopened
  | refused (e : Error)

variable {σ : Type} [Durable σ] (reopen : EStateM Error σ Unit)

/-- A call of a tier that is opened again by `reopen`. -/
def Call.run : Call → EStateM Error σ Reply
  | .fetch id => do return .fetched (← Durable.fetch id)
  | .apply batch => do
    Durable.apply batch
    return .applied
  | .ownedBy root => do return .owned (Durable.ownedBy (← get) root)
  | .nextEpoch => do return .begun (← Durable.nextEpoch)
  | .reopen => do
    reopen
    return .reopened

/-- The answer to a call, and the tier after it. -/
def answer (call : Call) (s : σ) : Reply × σ :=
  match call.run reopen s with
  | .ok reply s => (reply, s)
  | .error e s => (.refused e, s)

theorem answer_apply_ne (batch : Batch) (s : σ) (found : Option Anchor) :
    (answer reopen (.apply batch) s).1 ≠ .fetched found := by
  have hrun : Call.run reopen (.apply batch) s =
      match Durable.apply batch s with
      | .ok _ s => .ok .applied s
      | .error e s => .error e s := by
    show EStateM.bind (Durable.apply batch) (fun _ => pure Reply.applied) s = _
    unfold EStateM.bind
    cases Durable.apply batch s <;> rfl
  rw [answer, hrun]
  cases Durable.apply batch s with
  | ok u s => exact Reply.noConfusion
  | error e s => exact Reply.noConfusion

/-- The answers to several calls, one after another, and the tier after them. -/
def answers : List Call → σ → List Reply × σ
  | [], s => ([], s)
  | call :: rest, s =>
    let (reply, s) := answer reopen call s
    let (replies, s) := answers rest s
    (reply :: replies, s)

end Durable

/-- A call that can be made of an archive: a batch names no object twice, and
the file of every anchor in it can be read. -/
def Durable.Call.Proper : Call → Prop
  | .apply batch => batch.NamesOnce ∧ ∀ a ∈ batch.writes, a.Legible
  | .fetch _ | .ownedBy _ | .nextEpoch | .reopen => True

/-! ## What a batch stores -/

namespace Batch.NamesOnce

variable {batch : Batch} {anchors : Table ObjectId Anchor} {id : ObjectId} (honce : batch.NamesOnce)

include honce

theorem get?_written {a : Anchor} (ha : a ∈ batch.writes) :
    (Vault.overlay anchors batch).get? a.id = some a.clean := by
  have huniq : ∀ w ∈ batch.writes, ∀ w' ∈ batch.writes, w.id = w'.id → w = w' :=
    fun w hw w' hw' hid => List.inj_on_of_nodup_map honce.writes hw hw' hid
  have hkept : ¬∃ x ∈ batch.deletes, x.1 = a.id := fun ⟨x, hx, hid⟩ =>
    honce.not_deleted (List.mem_map_of_mem ha) (hid ▸ List.mem_map_of_mem (f := (·.1)) hx)
  rw [Vault.overlay, Vault.get?_deletes, if_neg hkept]
  exact (Vault.get?_writes huniq).1 a ha

omit honce in
theorem get?_deleted (hid : id ∈ batch.deletes.map (·.1)) :
    (Vault.overlay anchors batch).get? id = none := by
  rw [Vault.overlay, Vault.get?_deletes, if_pos (by simpa using hid)]

theorem get?_other (hid : id ∉ batch.named) :
    (Vault.overlay anchors batch).get? id = anchors.get? id := by
  have huniq : ∀ w ∈ batch.writes, ∀ w' ∈ batch.writes, w.id = w'.id → w = w' :=
    fun w hw w' hw' hid => List.inj_on_of_nodup_map honce.writes hw hw' hid
  rw [Batch.named, List.mem_append, not_or] at hid
  rw [Vault.overlay, Vault.get?_deletes, if_neg (by simpa using hid.2)]
  exact (Vault.get?_writes huniq).2 id fun w hw heq => hid.1 (heq ▸ List.mem_map_of_mem hw)

/-- What a batch of readable anchors leaves can be read. -/
theorem sound (hlegible : ∀ a ∈ batch.writes, a.Legible) (hsound : anchors.Sound) :
    (Vault.overlay anchors batch).Sound := by
  intro id a ha
  by_cases hid : id ∈ batch.named
  · rcases List.mem_append.1 hid with hid | hid
    · obtain ⟨w, hw, rfl⟩ := List.mem_map.1 hid
      rw [honce.get?_written hw] at ha
      cases ha
      exact ⟨rfl, rfl, (hlegible w hw).clean⟩
    · rw [get?_deleted hid] at ha
      cases ha
  · rw [honce.get?_other hid] at ha
    exact hsound ha

/-- The files after the exchange are those of what the batch leaves. -/
theorem keeps {f f' : Contents} {epoch : UInt64} (hf : Archive.Keeps f anchors epoch)
    (hex : f.Exchanged batch f') : Archive.Keeps f' (Vault.overlay anchors batch) epoch := by
  have hepoch : f' Archive.epochFile = f Archive.epochFile :=
    hex.other _ fun id _ => Archive.epochFile_ne id (by decide)
  refine ⟨fun id => ?_, hepoch ▸ hf.epoch, fun name hname => ?_⟩
  · by_cases hid : id ∈ batch.named
    · rcases List.mem_append.1 hid with hid | hid
      · obtain ⟨w, hw, rfl⟩ := List.mem_map.1 hid
        rw [hex.written w hw, honce.get?_written hw]
        rfl
      · obtain ⟨x, hx, rfl⟩ := List.mem_map.1 hid
        rw [hex.deleted x hx, get?_deleted hid]
        rfl
    · have hother : ∀ id' ∈ batch.named, Archive.fileName id "cbor" ≠ Archive.fileName id' "cbor" :=
        fun id' hid' heq => hid (((Archive.fileName_inj (by decide) (by decide)).1 heq).1 ▸ hid')
      rw [hex.other _ hother, hf.files, honce.get?_other hid]
  · by_cases hnamed : ∃ id ∈ batch.named, name = Archive.fileName id "cbor"
    · obtain ⟨id, _, hid⟩ := hnamed
      exact .inr ⟨id, hid⟩
    · rw [hex.other name fun id hid heq => hnamed ⟨id, hid, heq⟩] at hname
      exact hf.only name hname

end Batch.NamesOnce

namespace Archive

/-- The index changes as the anchors do. -/
theorem overlay_indexOf (anchors : Table ObjectId Anchor) (batch : Batch) :
    overlay (indexOf anchors) batch = indexOf (Vault.overlay anchors batch) := by
  have hwrites : ∀ (writes : List Anchor) (t : Table ObjectId Anchor),
      writes.foldl (fun t a => t.insert a.id ⟨a.version, a.owner⟩) (indexOf t) =
        indexOf (writes.foldl (fun t a => t.insert a.id a.clean) t) := by
    intro writes
    induction writes with
    | nil => intro t; rfl
    | cons a rest ih =>
      intro t
      have hfirst : (indexOf t).insert a.id ⟨a.version, a.owner⟩ =
          indexOf (t.insert a.id a.clean) := by
        refine Table.ext_get? fun id => ?_
        rw [Table.get?_insert, get?_indexOf, get?_indexOf, Table.get?_insert]
        split <;> rfl
      rw [List.foldl_cons, List.foldl_cons, hfirst, ih]
  have hdeletes : ∀ (deletes : List (ObjectId × UInt64)) (t : Table ObjectId Anchor),
      deletes.foldl (fun t d => t.erase d.1) (indexOf t) =
        indexOf (deletes.foldl (fun t d => t.erase d.1) t) := by
    intro deletes
    induction deletes with
    | nil => intro t; rfl
    | cons x rest ih =>
      intro t
      have hfirst : (indexOf t).erase x.1 = indexOf (t.erase x.1) := by
        refine Table.ext_get? fun id => ?_
        rw [Table.get?_erase, get?_indexOf, get?_indexOf, Table.get?_erase]
        split <;> rfl
      rw [List.foldl_cons, List.foldl_cons, hfirst, ih]
  rw [overlay, Vault.overlay, hwrites, hdeletes]

/-- A new epoch changes the file of the epoch only. -/
theorem Keeps.begun {f : Contents} {anchors : Table ObjectId Anchor} {epoch : UInt64}
    (hf : Keeps f anchors epoch) (new : UInt64) :
    let content := Bytes.ofString (toString new.toNat)
    Keeps (((f.put "EPOCH.tmp" (some content)).put "EPOCH.tmp" none).put epochFile (some content))
      anchors new := by
  have hepoch : ∀ id, fileName id "cbor" ≠ epochFile := fun id => (epochFile_ne id (by decide)).symm
  have htemporary : ∀ id, fileName id "cbor" ≠ "EPOCH.tmp" := by
    intro id heq
    have hext := extension?_fileName id (show "cbor" ∈ extensions by decide)
    rw [heq] at hext
    exact absurd hext (by decide)
  refine ⟨fun id => ?_, .inl (if_pos rfl), fun name hname => ?_⟩
  · simp only [Contents.put, hepoch id, htemporary id, if_false, hf.files]
  · by_cases hnamed : name = epochFile
    · exact .inl hnamed
    · refine hf.only name fun hnone => hname ?_
      simp only [Contents.put, hnamed, if_false, hnone]
      split <;> rfl

/-! ## The archive of what a vault holds -/

/-- An archive that knows and keeps what a vault holds. -/
structure Mirrors (a : Archive) (v : Vault) : Prop where
  files : ∃ f, a.disk.Holds f ∧ Keeps f v.anchors v.epoch
  index : a.index = indexOf v.anchors
  epoch : a.epoch = v.epoch
  sound : v.anchors.Sound

/-- The same outcome, and the archive still knows and keeps what the vault
holds. -/
inductive Agree {α : Type} : EStateM.Result Error Archive α → EStateM.Result Error Vault α → Prop
  | ok (x : α) {a : Archive} {v : Vault} (h : a.Mirrors v) : Agree (.ok x a) (.ok x v)
  | error (e : Error) {a : Archive} {v : Vault} (h : a.Mirrors v) : Agree (.error e a) (.error e v)

namespace Mirrors

variable {a : Archive} {v : Vault}

theorem opened_empty : ∃ a, opened Disk.empty = .ok a a.disk ∧ a.Mirrors Vault.empty := by
  have hdisk : Disk.empty.Holds fun _ => none := ⟨fun _ => rfl, fun _ => rfl⟩
  have hkeeps : Keeps (fun _ => none) Vault.empty.anchors Vault.empty.epoch :=
    ⟨fun _ => rfl, .inr ⟨rfl, rfl⟩, fun _ hname => absurd rfl hname⟩
  have hsound : Vault.empty.anchors.Sound := fun ha => by cases ha
  obtain ⟨d, hopen, hd⟩ := opened_ok hdisk hkeeps hsound
  exact ⟨_, hopen, ⟨_, hd, hkeeps⟩, rfl, rfl, hsound⟩

theorem fetch (h : a.Mirrors v) (id : ObjectId) : Agree (fetch id a) (Vault.fetch id v) := by
  obtain ⟨f, hd, hf⟩ := h.files
  have hname := accepts_fileName id "cbor" (by decide)
  cases hget : v.anchors.get? id with
  | none =>
    have hfile : f (fileName id "cbor") = none := by rw [hf.files, hget]; rfl
    obtain ⟨d', hread, hd'⟩ := hd.read_missing hname hfile
    have hanchor : readAnchor (fileName id "cbor") a.disk = .ok none d' := by
      simp only [readAnchor, hread]
    simp only [Archive.fetch, Vault.fetch, hanchor, hget]
    exact .ok _ ⟨⟨f, hd', hf⟩, h.index, h.epoch, h.sound⟩
  | some b =>
    obtain ⟨_, hclean, hlegible⟩ := h.sound hget
    have hfile : f (fileName id "cbor") = some (AnchorFile.encode b) := by rw [hf.files, hget]; rfl
    obtain ⟨d', hread, hd'⟩ := readAnchor_ok hd hname hlegible hfile
    rw [Shared.clean_of_not_dirty hclean] at hread
    simp only [Archive.fetch, Vault.fetch, hread, hget]
    exact .ok _ ⟨⟨f, hd', hf⟩, h.index, h.epoch, h.sound⟩

theorem fetch_ok (h : a.Mirrors v) (id : ObjectId) :
    ∃ a', Archive.fetch id a = .ok (v.anchors.get? id) a' ∧ a'.Mirrors v := by
  have hagree := h.fetch id
  rw [Vault.fetch] at hagree
  generalize Archive.fetch id a = outcome at hagree
  cases hagree with
  | ok x h' => exact ⟨_, rfl, h'⟩

/-- A batch is refused by both, or carried out by both. -/
theorem apply_cases (h : a.Mirrors v) {batch : Batch} (honce : batch.NamesOnce) :
    (∃ e, Archive.apply batch a = .error e a ∧ Vault.apply batch v = .error e v) ∨
      ∃ d f, Archive.apply batch a = .ok () { a with disk := d, index := overlay a.index batch } ∧
        Vault.apply batch v = .ok () { v with anchors := Vault.overlay v.anchors batch } ∧
        d.Holds f ∧ Keeps f (Vault.overlay v.anchors batch) v.epoch := by
  obtain ⟨f, hd, hf⟩ := h.files
  have hversions : (fun id => (a.index.get? id).map (·.version)) = v.version? := by
    funext id
    rw [h.index, get?_indexOf, Vault.version?, Option.map_map]
    rfl
  unfold Archive.apply Vault.apply
  rw [hversions]
  cases batch.check v.version? with
  | error e => exact .inl ⟨e, rfl, rfl⟩
  | ok _ =>
    obtain ⟨d', f', hex, hd', hchanged⟩ := exchange_ok hd honce fun id =>
      ⟨hf.clear id (by decide) (by decide), hf.clear id (by decide) (by decide)⟩
    exact .inr ⟨d', f', by simp only [hex], rfl, hd', honce.keeps hf hchanged⟩

theorem apply (h : a.Mirrors v) {batch : Batch} (honce : batch.NamesOnce)
    (hlegible : ∀ w ∈ batch.writes, w.Legible) : Agree (apply batch a) (Vault.apply batch v) := by
  rcases h.apply_cases honce with ⟨e, ha, hv⟩ | ⟨d, f, ha, hv, hd, hf⟩
  · rw [ha, hv]
    exact .error e h
  · rw [ha, hv]
    refine .ok () ⟨⟨f, hd, hf⟩, ?_, h.epoch, honce.sound hlegible h.sound⟩
    show overlay a.index batch = _
    rw [h.index, overlay_indexOf]

theorem ownedBy (h : a.Mirrors v) (root : RootId) : a.ownedBy root = v.ownedBy root := by
  have hentries : a.index.toList = v.anchors.toList.map fun e => (e.1, entryOf e.2) := by
    rw [h.index]
    rfl
  have hown : ∀ e ∈ v.anchors.toList.filter fun e => e.2.owner = root, e.1 = e.2.id := fun e he =>
    (h.sound (Table.mem_toList.1 (List.mem_filter.1 he).1)).1.symm
  rw [Archive.ownedBy, hentries, List.filter_map, List.map_map, Vault.ownedBy,
    show v.anchors.values = v.anchors.toList.map (·.2) from rfl, List.filter_map, List.map_map]
  exact List.map_congr_left hown

/-- The new epoch is written beside its file and takes its place. -/
theorem nextEpoch (h : a.Mirrors v) : Agree (nextEpoch a) (Vault.nextEpoch v) := by
  obtain ⟨f, hd, hf⟩ := h.files
  have htemporary : Disk.withExtension epochFile "tmp" = "EPOCH.tmp" := by decide
  obtain ⟨d₁, hwrite, hd₁⟩ := hd.write (show Disk.accepts "EPOCH.tmp" = true by decide)
    (Bytes.ofString (toString (v.epoch + 1).toNat))
  obtain ⟨d₂, hrename, hd₂⟩ := hd₁.rename (show Disk.accepts epochFile = true by decide)
    (show "EPOCH.tmp" ≠ epochFile by decide) (if_pos rfl)
  simp only [Archive.nextEpoch, Vault.nextEpoch, htemporary, h.epoch, hwrite, hrename]
  exact .ok _ ⟨⟨_, hd₂, hf.begun (v.epoch + 1)⟩, h.index, rfl, h.sound⟩

theorem opened (h : a.Mirrors v) : ∃ a', opened a.disk = .ok a' a'.disk ∧ a'.Mirrors v := by
  obtain ⟨f, hd, hf⟩ := h.files
  obtain ⟨d', hopen, hd'⟩ := opened_ok hd hf h.sound
  exact ⟨_, hopen, ⟨f, hd', hf⟩, rfl, rfl, h.sound⟩

end Mirrors

/-! ## Any number of calls -/

/-- The archive closed, and opened again in the same directory. -/
def reopened : EStateM Error Archive Unit := fun a =>
  match opened a.disk with
  | .ok a _ => .ok () a
  | .error e d => .error e { a with disk := d }

/-- The index has exactly the identities, versions and owners of the anchors in
the files. -/
structure Lists (a : Archive) : Prop where
  exact : ∀ id entry, a.index.get? id = some entry ↔ ∃ bytes anchor,
    a.disk.entries.get? (fileName id "cbor") = some (.file bytes) ∧
      AnchorFile.decode bytes = some anchor ∧ anchor.id = id ∧
        entry = ⟨anchor.version, anchor.owner⟩
  complete : ∀ name, Disk.extension? name = some "cbor" → a.disk.entries.contains name = true →
    ∃ id, name = fileName id "cbor" ∧ a.index.contains id = true

namespace Agree

variable {α β : Type} {a : Archive} {v : Vault}

theorem bind {x : EStateM Error Archive α} {y : EStateM Error Vault α}
    {next : α → EStateM Error Archive β} {next' : α → EStateM Error Vault β}
    (h : Agree (x a) (y v))
    (hnext : ∀ r {a v}, Mirrors a v → Agree (next r a) (next' r v)) :
    Agree ((x >>= next) a) ((y >>= next') v) := by
  show Agree (EStateM.bind x next a) (EStateM.bind y next' v)
  unfold EStateM.bind
  generalize x a = outcome, y v = outcome' at h
  cases h with
  | ok r h => exact hnext r h
  | error e h => exact .error e h

/-- Outcomes that agree are answered alike. -/
theorem answer {call : Durable.Call}
    (h : Agree (call.run reopened a) (call.run (pure ()) v)) :
    (Durable.answer reopened call a).1 = (Durable.answer (pure ()) call v).1 ∧
      (Durable.answer reopened call a).2.Mirrors (Durable.answer (pure ()) call v).2 := by
  unfold Durable.answer
  generalize call.run reopened a = outcome, call.run (pure ()) v = outcome' at h
  cases h with
  | ok r h => exact ⟨rfl, h⟩
  | error e h => exact ⟨rfl, h⟩

end Agree

namespace Mirrors

variable {a : Archive} {v : Vault}

/-- Every call has the same outcome. -/
theorem run (h : a.Mirrors v) {call : Durable.Call} (hcall : call.Proper) :
    Agree (call.run reopened a) (call.run (pure ()) v) := by
  cases call with
  | fetch id => exact (h.fetch id).bind fun found _ _ h => .ok _ h
  | apply batch => exact (h.apply hcall.1 hcall.2).bind fun _ _ _ h => .ok _ h
  | ownedBy root =>
    have hsame : Durable.ownedBy a root = Durable.ownedBy v root := h.ownedBy root
    show Agree (.ok (Durable.Reply.owned (Durable.ownedBy a root)) a)
      (.ok (Durable.Reply.owned (Durable.ownedBy v root)) v)
    rw [hsame]
    exact .ok _ h
  | nextEpoch => exact h.nextEpoch.bind fun _ _ _ h => .ok _ h
  | reopen =>
    obtain ⟨a', hopen, h'⟩ := h.opened
    have hreopened : reopened a = .ok () a' := by simp only [reopened, hopen]
    have hagree : Agree (reopened a) ((pure () : EStateM Error Vault Unit) v) := by
      rw [hreopened]
      exact .ok () h'
    exact hagree.bind fun _ _ _ h => .ok _ h

theorem answers (h : a.Mirrors v) {calls : List Durable.Call}
    (hcalls : ∀ call ∈ calls, call.Proper) :
    (Durable.answers reopened calls a).1 = (Durable.answers (pure ()) calls v).1 ∧
      (Durable.answers reopened calls a).2.Mirrors (Durable.answers (pure ()) calls v).2 := by
  induction calls generalizing a v with
  | nil => exact ⟨rfl, h⟩
  | cons call rest ih =>
    obtain ⟨hreply, hnext⟩ := (h.run (hcalls call List.mem_cons_self)).answer
    obtain ⟨hreplies, hend⟩ := ih hnext fun c hc => hcalls c (List.mem_cons_of_mem call hc)
    simp only [Durable.answers, hreply, hreplies]
    exact ⟨trivial, hend⟩

theorem lists (h : a.Mirrors v) : a.Lists := by
  obtain ⟨f, hd, hf⟩ := h.files
  have hfile : ∀ id, a.disk.entries.get? (fileName id "cbor") =
      (v.anchors.get? id).map fun b => .file (AnchorFile.encode b) := by
    intro id
    rw [hd.files, hf.files, Option.map_map]
    rfl
  refine ⟨fun id entry => ?_, fun name hext hname => ?_⟩
  · rw [h.index, get?_indexOf, hfile]
    cases hget : v.anchors.get? id with
    | none => simp
    | some b =>
      obtain ⟨hid, _, hlegible⟩ := h.sound hget
      have hdecode := hlegible.decode
      constructor
      · rintro ⟨rfl⟩
        exact ⟨_, _, rfl, hdecode, hid, rfl⟩
      · rintro ⟨bytes, anchor, hbytes, hanchor, _, rfl⟩
        cases hbytes
        rw [hdecode] at hanchor
        cases hanchor
        rfl
  · have hsome : f name ≠ none := by
      intro hnone
      rw [Table.contains, hd.files, hnone] at hname
      cases hname
    rcases hf.only name hsome with rfl | ⟨id, rfl⟩
    · exact absurd hext (by decide)
    · refine ⟨id, rfl, ?_⟩
      rw [hf.files, ne_eq, Option.map_eq_none_iff] at hsome
      rw [Table.contains, h.index, get?_indexOf, Option.isSome_map]
      exact Option.isSome_iff_ne_none.2 hsome

/-- What is fetched has no mark of change. -/
theorem fetched (h : a.Mirrors v) {calls : List Durable.Call} (hcalls : ∀ call ∈ calls, call.Proper)
    {b : Anchor} (hb : .fetched (some b) ∈ (Durable.answers (pure ()) calls v).1) :
    b.dirty = false := by
  induction calls generalizing a v with
  | nil => cases hb
  | cons call rest ih =>
    have hcall := hcalls call List.mem_cons_self
    rcases List.mem_cons.1 hb with hfirst | hrest
    · cases call with
      | fetch id =>
        have hget : v.anchors.get? id = some b := by
          injection hfirst with hfound
          exact hfound.symm
        exact (h.sound hget).2.1
      | apply batch =>
        exact absurd hfirst.symm (Durable.answer_apply_ne _ batch v _)
      | ownedBy root => cases hfirst
      | nextEpoch => cases hfirst
      | reopen => cases hfirst
    · exact ih (h.run hcall).answer.2 (fun c hc => hcalls c (List.mem_cons_of_mem call hc)) hrest

end Mirrors

/-- An archive in a directory of its own on which no step fails answers every
call as a vault that is never closed does, however often the archive is closed
and opened again. What it fetches has no mark of change, and after each call its
index is that of its files. -/
theorem answers_as_vault {calls : List Durable.Call} (hcalls : ∀ call ∈ calls, call.Proper) :
    ∃ a, opened Disk.empty = .ok a a.disk ∧
      (Durable.answers reopened calls a).1 = (Durable.answers (pure ()) calls Vault.empty).1 ∧
      (∀ b, .fetched (some b) ∈ (Durable.answers reopened calls a).1 → b.dirty = false) ∧
      ∀ n, (Durable.answers reopened (calls.take n) a).2.Lists := by
  obtain ⟨a, hopen, h⟩ := Mirrors.opened_empty
  have hsame := (h.answers hcalls).1
  refine ⟨a, hopen, hsame, fun b hb => h.fetched hcalls (hsame ▸ hb), fun n => ?_⟩
  have htake : ∀ call ∈ calls.take n, call.Proper := fun call hcall =>
    hcalls call (List.mem_of_mem_take hcall)
  exact (h.answers htake).2.lists

/-- The anchor of an edge, as its first commit writes it. -/
def storedSpecimen : Anchor := { AnchorFile.specimen with version := 1 }

/-- It is stored, found again after a restart, and not deleted by somebody who
expects another version of it. -/
def specimenCalls : List Durable.Call :=
  [.apply ⟨[storedSpecimen], []⟩, .reopen, .fetch storedSpecimen.id,
    .apply ⟨[], [(storedSpecimen.id, 7)]⟩, .nextEpoch,
    .reopen, .nextEpoch, .ownedBy storedSpecimen.owner]

theorem answers_as_vault_over_reopening : (∀ call ∈ specimenCalls, call.Proper) ∧
    ∃ a, opened Disk.empty = .ok a a.disk ∧
      (Durable.answers reopened specimenCalls a).1 =
        [.applied, .reopened, .fetched (some storedSpecimen.clean),
          .refused (.conflict storedSpecimen.id 7 1),
          .begun 1, .reopened, .begun 2, .owned [storedSpecimen.id]] := by
  have hlegible : storedSpecimen.Legible :=
    ⟨AnchorFile.specimen_ordered, by decide, by decide +kernel⟩
  have hcalls : ∀ call ∈ specimenCalls, call.Proper := by
    simp only [specimenCalls, List.forall_mem_cons]
    refine ⟨⟨List.nodup_singleton _, fun a ha => ?_⟩, trivial, trivial,
      ⟨List.nodup_singleton _, fun a ha => ?_⟩, trivial, trivial, trivial, trivial, fun _ hc => ?_⟩
    · rw [List.mem_singleton.1 ha]
      exact hlegible
    · cases ha
    · cases hc
  obtain ⟨a, hopen, hsame, _, _⟩ := answers_as_vault hcalls
  exact ⟨hcalls, a, hopen, hsame.trans rfl⟩

end Archive

end Wayfarer
