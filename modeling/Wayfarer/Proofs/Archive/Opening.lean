import Wayfarer.Proofs.Archive
import Wayfarer.Proofs.Codec.AnchorFile

/-!
# Opening an archive

A directory that only ever held whole batches has nothing to recover, and
opening it rebuilds what was known of its files.

* `Text.word?_toString`: an epoch is read as it was written.
* `Anchor.Legible` is when the file of an anchor can be read.
* `Contents.Keeps` says that files are those of a table of anchors and an epoch.
* `Archive.opened_ok`: such files are opened, and the index has an entry for
  each.
-/

namespace Wayfarer

/-! ## The epoch as text -/

namespace Text

theorem digit?_of_isDigit {c : Char} (h : c.isDigit = true) : digit? c = some (c.toNat - 48) := by
  have hbounds : 48 ≤ c.toNat ∧ c.toNat ≤ 57 := by
    simpa [Char.isDigit, UInt32.le_iff_toNat_le] using h
  have hle : '0' ≤ c ∧ c ≤ '9' := by
    simpa [Char.le_def, UInt32.le_iff_toNat_le] using hbounds
  exact if_pos hle

theorem isBlank_of_isDigit {c : Char} (h : c.isDigit = true) : isBlank c = false := by
  have hbounds : 48 ≤ c.toNat ∧ c.toNat ≤ 57 := by
    simpa [Char.isDigit, UInt32.le_iff_toNat_le] using h
  simp only [isBlank, Bool.or_eq_false_iff, Bool.and_eq_false_iff, decide_eq_false_iff_not,
    beq_eq_false_iff_ne]
  omega

theorem dropWhile_isBlank {cs : List Char} (h : ∀ c ∈ cs, c.isDigit = true) :
    cs.dropWhile isBlank = cs := by
  cases cs with
  | nil => rfl
  | cons c rest =>
    rw [List.dropWhile_cons_of_neg]
    rw [isBlank_of_isDigit (h c List.mem_cons_self)]
    exact Bool.false_ne_true

theorem trim_digits {cs : List Char} (h : ∀ c ∈ cs, c.isDigit = true) : trim cs = cs := by
  have hreverse : ∀ c ∈ cs.reverse, c.isDigit = true := fun c hc => h c (List.mem_reverse.1 hc)
  rw [trim, dropWhile_isBlank h, dropWhile_isBlank hreverse, List.reverse_reverse]

theorem ofDigits?_digits {cs : List Char} (h : ∀ c ∈ cs, c.isDigit = true) :
    ofDigits? cs = some (Nat.ofDigitChars 10 cs 0) := by
  have hfold : ∀ n, cs.foldlM (fun n c => (digit? c).map fun d => 10 * n + d) n =
      some (Nat.ofDigitChars 10 cs n) := by
    induction cs with
    | nil => intro n; rfl
    | cons c rest ih =>
      intro n
      rw [List.foldlM_cons, digit?_of_isDigit (h c List.mem_cons_self)]
      exact ih (fun c' hc' => h c' (List.mem_cons_of_mem c hc')) _
  exact hfold 0

/-- A number written in decimal is read as itself. -/
theorem word?_toString (n : UInt64) : word? (trim (toString n.toNat).toList) = some n := by
  have hlist : (toString n.toNat).toList = Nat.toDigits 10 n.toNat := by
    rw [Nat.toString_eq_ofList_toDigits, String.toList_ofList]
  have hdigits : ∀ c ∈ Nat.toDigits 10 n.toNat, c.isDigit = true := fun c hc =>
    Nat.isDigit_of_mem_toDigits (by decide) (by decide) hc
  have hvalue : ofDigits? (Nat.toDigits 10 n.toNat) = some n.toNat := by
    rw [ofDigits?_digits hdigits, Nat.ofDigitChars_ten_toDigits]
  have hback : n.toNat.toUInt64 = n := UInt64.ofNat_toNat
  rw [hlist, trim_digits hdigits]
  cases hcs : Nat.toDigits 10 n.toNat with
  | nil => exact absurd hcs Nat.toDigits_ne_nil
  | cons c rest =>
    rw [hcs] at hdigits hvalue
    have hplus : c ≠ '+' := by
      rintro rfl
      exact absurd (hdigits '+' List.mem_cons_self) (by decide)
    simp [word?, hplus, hvalue, hback, n.toNat_lt]

end Text

/-! ## What the files hold -/

/-- An anchor whose file can be read: its maps are in order, it is nested in no
more levels than may be opened, and eight bytes suffice for every length in
it. -/
structure Anchor.Legible (a : Anchor) : Prop where
  ordered : a.Ordered
  levels : a.levels ≤ AnchorFile.maxLevels
  size : (AnchorFile.encode a).length < Bytes.limit 8

theorem Anchor.Legible.decode {a : Anchor} (h : a.Legible) :
    AnchorFile.decode (AnchorFile.encode a) = some a.clean := by
  have hread := AnchorFile.decode_encode h.ordered h.size []
  rwa [List.append_nil, within, if_pos h.levels] at hread

theorem Anchor.Legible.clean {a : Anchor} (h : a.Legible) : a.clean.Legible :=
  ⟨h.ordered, h.levels, h.size⟩

/-- Anchors that can all be read back as they are, each under its own
identity. -/
def Table.Sound (anchors : Table ObjectId Anchor) : Prop :=
  ∀ {id a}, anchors.get? id = some a → a.id = id ∧ a.dirty = false ∧ a.Legible

namespace Archive

/-- Files that are those of a table of anchors and of an epoch. -/
structure Keeps (f : Contents) (anchors : Table ObjectId Anchor) (epoch : UInt64) : Prop where
  files : ∀ id, f (fileName id "cbor") = (anchors.get? id).map AnchorFile.encode
  epoch : f epochFile = some (Bytes.ofString (toString epoch.toNat)) ∨
    f epochFile = none ∧ epoch = 0
  only : ∀ name, f name ≠ none → name = epochFile ∨ ∃ id, name = fileName id "cbor"

/-- What the index says about an anchor. -/
def entryOf (a : Anchor) : IndexEntry := ⟨a.version, a.owner⟩

/-- The index of a table of anchors. -/
def indexOf (anchors : Table ObjectId Anchor) : Table ObjectId IndexEntry :=
  anchors.mapValues fun _ a => entryOf a

theorem get?_indexOf (anchors : Table ObjectId Anchor) (id : ObjectId) :
    (indexOf anchors).get? id = (anchors.get? id).map entryOf := Table.get?_mapValues ..

namespace Keeps

variable {f : Contents} {anchors : Table ObjectId Anchor} {epoch : UInt64}

/-- Beside the file of an object there is nothing. -/
theorem clear (h : Keeps f anchors epoch) (id : ObjectId) {ext : String} (hext : ext ∈ extensions)
    (hne : ext ≠ "cbor") : f (fileName id ext) = none := by
  by_cases hfile : f (fileName id ext) = none
  · exact hfile
  · rcases h.only _ hfile with hname | ⟨id', hname⟩
    · exact absurd hname.symm (epochFile_ne id hext)
    · exact absurd ((fileName_inj hext (by decide)).1 hname).2 hne

/-- No name has the extension of a leftover. -/
theorem extension?_of_ne (h : Keeps f anchors epoch) {name : String} (hname : f name ≠ none) :
    Disk.extension? name = none ∨ Disk.extension? name = some "cbor" := by
  rcases h.only name hname with rfl | ⟨id, rfl⟩
  · exact .inl (by decide)
  · exact .inr (extension?_fileName id (by decide))

end Keeps

variable {d : Disk} {f : Contents} {anchors : Table ObjectId Anchor} {epoch : UInt64}

theorem forM_recoverEntry (hf : Keeps f anchors epoch) {names : List String}
    (hnames : ∀ name ∈ names, f name ≠ none) :
    (names.forM recoverEntry : EStateM FileError Disk Unit) d = .ok () d := by
  induction names with
  | nil => rfl
  | cons name rest ih =>
    have hfirst : recoverEntry name d = .ok () d := by
      rcases hf.extension?_of_ne (hnames name List.mem_cons_self) with hext | hext
      · simp only [recoverEntry, hext]
      · simp [recoverEntry, hext]
    have hrest := ih fun name' hname' => hnames name' (List.mem_cons_of_mem name hname')
    exact (bind_of_ok hfirst).trans hrest

/-- There is nothing to recover. -/
theorem recover_ok (h : d.Holds f) (hf : Keeps f anchors epoch) : recover d = .ok () d :=
  forM_recoverEntry hf fun _ hname => h.mem_names.1 hname

theorem readAnchor_ok (h : d.Holds f) {name : String} (hname : Disk.accepts name = true)
    {a : Anchor} (ha : a.Legible) (hf : f name = some (AnchorFile.encode a)) :
    ∃ d', readAnchor name d = .ok (some a.clean) d' ∧ d'.Holds f := by
  obtain ⟨d', hread, hd⟩ := h.read hname hf
  refine ⟨d', ?_, hd⟩
  simp only [readAnchor, hread, ha.decode]

theorem indexFile_ok (h : d.Holds f) (hf : Keeps f anchors epoch) (hsound : anchors.Sound)
    (index : Table ObjectId IndexEntry) {id : ObjectId} {a : Anchor}
    (ha : anchors.get? id = some a) :
    ∃ d', indexFile index (fileName id "cbor") d = .ok (index.insert id (entryOf a)) d' ∧
      d'.Holds f := by
  obtain ⟨hid, _, hlegible⟩ := hsound ha
  have hfile : f (fileName id "cbor") = some (AnchorFile.encode a) := by rw [hf.files, ha]; rfl
  obtain ⟨d', hread, hd⟩ := readAnchor_ok h (accepts_fileName id "cbor" (by decide)) hlegible hfile
  refine ⟨d', ?_, hd⟩
  rw [indexFile, if_pos (extension?_fileName id (by decide)), bind_of_ok hread]
  show EStateM.Result.ok (index.insert a.id _) d' = _
  rw [hid]
  rfl

theorem indexFile_epochFile (index : Table ObjectId IndexEntry) :
    indexFile index epochFile d = .ok index d := by
  rw [indexFile, if_neg (by decide)]
  rfl

/-- One file after another, and each brings its own entry. -/
theorem foldlM_indexFile (h : d.Holds f) (hf : Keeps f anchors epoch) (hsound : anchors.Sound)
    {names : List String} (hnames : ∀ name ∈ names, f name ≠ none)
    (index : Table ObjectId IndexEntry) :
    ∃ d' index', (names.foldlM indexFile index : EStateM Error Disk _) d = .ok index' d' ∧
      d'.Holds f ∧ ∀ id, index'.get? id =
        if fileName id "cbor" ∈ names then (indexOf anchors).get? id else index.get? id := by
  induction names generalizing d index with
  | nil => exact ⟨d, index, rfl, h, fun id => rfl⟩
  | cons name rest ih =>
    have hrest : ∀ name' ∈ rest, f name' ≠ none := fun name' hname' =>
      hnames name' (List.mem_cons_of_mem name hname')
    rcases hf.only name (hnames name List.mem_cons_self) with rfl | ⟨id, rfl⟩
    · obtain ⟨d', index', hfold, hd, hget⟩ := ih h hrest index
      refine ⟨d', index', ?_, hd, fun id => ?_⟩
      · rw [List.foldlM_cons, bind_of_ok (indexFile_epochFile index)]
        exact hfold
      · have hne : fileName id "cbor" ≠ epochFile := (epochFile_ne id (by decide)).symm
        simp only [hget, List.mem_cons, or_iff_right hne]
    · have hfile := hnames _ List.mem_cons_self
      rw [hf.files, ne_eq, Option.map_eq_none_iff] at hfile
      obtain ⟨a, ha⟩ := Option.ne_none_iff_exists'.1 hfile
      obtain ⟨d₁, hfirst, h₁⟩ := indexFile_ok h hf hsound index ha
      obtain ⟨d', index', hfold, hd, hget⟩ := ih h₁ hrest (index.insert id (entryOf a))
      refine ⟨d', index', ?_, hd, fun id' => ?_⟩
      · rw [List.foldlM_cons, bind_of_ok hfirst]
        exact hfold
      · have hname : fileName id' "cbor" = fileName id "cbor" ↔ id' = id := by
          rw [fileName_inj (by decide) (by decide), and_iff_left rfl]
        simp only [hget, List.mem_cons, Table.get?_insert, hname]
        by_cases hid : id' = id
        · simp [hid, get?_indexOf, ha]
        · simp [hid]

theorem readEpoch_ok (h : d.Holds f) (hf : Keeps f anchors epoch) :
    ∃ d', readEpoch d = .ok epoch d' ∧ d'.Holds f := by
  have hname : Disk.accepts epochFile = true := by decide
  rcases hf.epoch with hepoch | ⟨hepoch, rfl⟩
  · obtain ⟨d', hread, hd⟩ := h.read hname hepoch
    refine ⟨d', ?_, hd⟩
    simp only [readEpoch, hread, Bytes.toString?_ofString, Text.word?_toString]
  · obtain ⟨d', hread, hd⟩ := h.read_missing hname hepoch
    refine ⟨d', ?_, hd⟩
    simp only [readEpoch, hread]

/-- Once leftovers are put right, the files of sound anchors are opened, and the
index lists them all. -/
theorem opened_of_recovered {d₁ : Disk} (hrecover : recover d = .ok () d₁) (h : d₁.Holds f)
    (hf : Keeps f anchors epoch) (hsound : anchors.Sound) :
    ∃ d', opened d = .ok ⟨d', indexOf anchors, epoch⟩ d' ∧ d'.Holds f := by
  obtain ⟨d₂, index, hfold, h₂, hget⟩ :=
    foldlM_indexFile h hf hsound (fun _ hname => h.mem_names.1 hname) Table.empty
  obtain ⟨d₃, hepoch, h₃⟩ := readEpoch_ok h₂ hf
  have hindex : index = indexOf anchors := by
    refine Table.ext_get? fun id => ?_
    simp only [hget, h.mem_names, hf.files, get?_indexOf]
    cases anchors.get? id <;> simp
  refine ⟨d₃, ?_, h₃⟩
  simp only [opened, hrecover, hfold, hepoch, hindex]

theorem opened_ok (h : d.Holds f) (hf : Keeps f anchors epoch) (hsound : anchors.Sound) :
    ∃ d', opened d = .ok ⟨d', indexOf anchors, epoch⟩ d' ∧ d'.Holds f :=
  opened_of_recovered (recover_ok h hf) h hf hsound

end Archive

end Wayfarer
