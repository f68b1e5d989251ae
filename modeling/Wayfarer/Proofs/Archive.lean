import Wayfarer.Archive
import Wayfarer.Proofs.Codec

/-!
# Names and steps in the directory of an archive

* `Archive.fileName_inj`: no two objects share a file, and neither do the three
  extensions.
* `Disk.Holds` says what is in each file of a directory on which nothing goes
  wrong. There is one lemma for each step.
-/

namespace Wayfarer

/-! ## Names -/

theorem Bytes.hexValue?_hexDigit {n : Nat} (h : n < 16) : hexValue? (hexDigit n) = some n := by
  have hall : ∀ n < 16, hexValue? (hexDigit n) = some n := by decide
  exact hall n h

theorem Bytes.ofHexChars?_hex (bytes : Bytes) : ofHexChars? (hex bytes).toList = some bytes := by
  rw [hex, String.toList_ofList]
  induction bytes with
  | nil => rfl
  | cons b rest ih =>
    have hb := b.toNat_lt
    have hhigh : hexValue? (hexDigit (b.toNat / 16)) = some (b.toNat / 16) :=
      hexValue?_hexDigit (by omega)
    have hlow : hexValue? (hexDigit (b.toNat % 16)) = some (b.toNat % 16) :=
      hexValue?_hexDigit (by omega)
    have hback : (b.toNat / 16 * 16 + b.toNat % 16).toUInt8 = b := by
      rw [Nat.div_add_mod']
      exact UInt8.ofNat_toNat
    simp only [List.flatMap_cons, List.cons_append, List.nil_append, ofHexChars?, hhigh, hlow, ih,
      Option.bind_eq_bind, Option.bind_some, hback]

theorem Bytes.hex_inj {bytes bytes' : Bytes} (h : hex bytes = hex bytes') : bytes = bytes' := by
  have hback := ofHexChars?_hex bytes
  rw [h, ofHexChars?_hex] at hback
  exact (Option.some.inj hback).symm

/-- What a character of a hexadecimal text can be. -/
theorem Bytes.mem_hex {bytes : Bytes} {c : Char} (h : c ∈ (hex bytes).toList) :
    c ≠ '.' ∧ c ≠ '/' ∧ c.toNat ≠ 0 ∧ c.utf8Size = 1 := by
  have hall : ∀ n < 16, hexDigit n ≠ '.' ∧ hexDigit n ≠ '/' ∧ (hexDigit n).toNat ≠ 0 ∧
      (hexDigit n).utf8Size = 1 := by decide
  rw [hex, String.toList_ofList, List.mem_flatMap] at h
  obtain ⟨b, _, hc⟩ := h
  have hb := b.toNat_lt
  simp only [List.mem_cons, List.not_mem_nil, or_false] at hc
  obtain rfl | rfl := hc
  · exact hall _ (by omega)
  · exact hall _ (by omega)

theorem Digest.hex_inj {d d' : Digest} (h : d.hex = d'.hex) : d = d' := by
  have hbytes := congrArg Digest.ofBytes (Bytes.hex_inj h)
  rwa [Digest.ofBytes_bytes, Digest.ofBytes_bytes] at hbytes

theorem Disk.splitExtension_dot {stem ext : String} (hstem : stem ≠ "") (hext : '.' ∉ ext.toList) :
    splitExtension (stem ++ "." ++ ext) = some (stem, ext) := by
  have hlist : (stem ++ "." ++ ext).toList.reverse = ext.toList.reverse ++
      '.' :: stem.toList.reverse := by
    simp [String.toList_append]
  have hall : ∀ c ∈ ext.toList.reverse, (c != '.') = true := by
    intro c hc
    have hne : c ≠ '.' := fun h => hext (h ▸ List.mem_reverse.1 hc)
    simp [hne]
  have htake : (ext.toList.reverse ++ '.' :: stem.toList.reverse).takeWhile (· != '.') =
      ext.toList.reverse := by
    rw [List.takeWhile_append_of_pos hall]
    simp
  have hnonempty : stem.toList.reverse.isEmpty = false := by
    simpa using hstem
  simp only [splitExtension, hlist, htake, List.drop_left, hnonempty]
  simp

namespace Archive

/-- The extensions that the name of an object's file can have. -/
def extensions : List String := ["cbor", "tmp", "bak"]

theorem not_dot_of_mem {ext : String} (h : ext ∈ extensions) : '.' ∉ ext.toList := by
  have hall : ∀ ext ∈ extensions, '.' ∉ ext.toList := by decide
  exact hall ext h

/-- The name of an object's file up to the dot. -/
def stem (id : ObjectId) : String := (if id.isNode then "n-" else "e-") ++ id.digest.hex

theorem toList_stem (id : ObjectId) :
    (stem id).toList = (if id.isNode then 'n' else 'e') :: '-' :: id.digest.hex.toList := by
  cases id <;> simp [stem, ObjectId.isNode, String.toList_append]

theorem stem_ne_empty (id : ObjectId) : stem id ≠ "" := by
  intro h
  have hlist := toList_stem id
  rw [h] at hlist
  cases hlist

theorem stem_inj {id id' : ObjectId} (h : stem id = stem id') : id = id' := by
  have hlist := toList_stem id
  rw [h, toList_stem, List.cons.injEq, List.cons.injEq] at hlist
  obtain ⟨hkind, _, hhex⟩ := hlist
  have hdigest := Digest.hex_inj (String.toList_inj.1 hhex)
  cases id with
  | node n =>
    cases id' with
    | node n' =>
      cases n
      cases n'
      cases hdigest
      rfl
    | edge e => cases hkind
  | edge e =>
    cases id' with
    | node n => cases hkind
    | edge e' =>
      cases e
      cases e'
      cases hdigest
      rfl

theorem splitExtension_fileName (id : ObjectId) {ext : String} (h : ext ∈ extensions) :
    Disk.splitExtension (fileName id ext) = some (stem id, ext) :=
  Disk.splitExtension_dot (stem_ne_empty id) (not_dot_of_mem h)

theorem fileName_inj {id id' : ObjectId} {ext ext' : String} (h : ext ∈ extensions)
    (h' : ext' ∈ extensions) : fileName id ext = fileName id' ext' ↔ id = id' ∧ ext = ext' := by
  constructor
  · intro hname
    have hsplit := splitExtension_fileName id h
    rw [hname, splitExtension_fileName id' h', Option.some.injEq, Prod.mk.injEq] at hsplit
    exact ⟨(stem_inj hsplit.1).symm, hsplit.2.symm⟩
  · rintro ⟨rfl, rfl⟩
    rfl

/-- The three files of an object have different names. -/
theorem fileName_ne (id : ObjectId) :
    fileName id "cbor" ≠ fileName id "tmp" ∧ fileName id "cbor" ≠ fileName id "bak" ∧
      fileName id "tmp" ≠ fileName id "bak" := by
  have hne : ∀ ext ∈ extensions, ∀ ext' ∈ extensions, ext ≠ ext' →
      fileName id ext ≠ fileName id ext' := fun ext h ext' h' hdiff hname =>
    hdiff ((fileName_inj h h').1 hname).2
  exact ⟨hne _ (by decide) _ (by decide) (by decide), hne _ (by decide) _ (by decide) (by decide),
    hne _ (by decide) _ (by decide) (by decide)⟩

/-- Two bytes for the kind of object, 64 digits, the dot and the extension. -/
theorem utf8ByteSize_fileName (id : ObjectId) (ext : String) :
    (fileName id ext).utf8ByteSize = 67 + ext.utf8ByteSize := by
  have hdigits : ∀ cs : List Char, (∀ c ∈ cs, c.utf8Size = 1) →
      (String.ofList cs).utf8ByteSize = cs.length := by
    intro cs hcs
    induction cs with
    | nil => rfl
    | cons c rest ih =>
      have hrest := ih fun c' hc' => hcs c' (List.mem_cons_of_mem c hc')
      have hc := hcs c List.mem_cons_self
      rw [← List.singleton_append, String.ofList_append, ← String.singleton_eq_ofList,
        String.utf8ByteSize_append, String.utf8ByteSize_singleton, hrest, hc]
      simp [Nat.add_comm]
  have hlength : ∀ bytes : Bytes, (Bytes.hex bytes).toList.length = 2 * bytes.length := by
    intro bytes
    rw [Bytes.hex, String.toList_ofList]
    induction bytes with
    | nil => rfl
    | cons b rest ih =>
      simp only [List.flatMap_cons, List.length_append, ih, List.length_cons, List.length_nil]
      omega
  have hhex : id.digest.hex.utf8ByteSize = 64 := by
    have hsize := hdigits (Bytes.hex id.digest.bytes).toList fun c hc => (Bytes.mem_hex hc).2.2.2
    rw [String.ofList_toList, hlength, Digest.length_bytes] at hsize
    exact hsize
  have hkind : (if id.isNode then "n-" else "e-").utf8ByteSize = 2 := by
    cases id <;> rfl
  rw [fileName, String.utf8ByteSize_append, String.utf8ByteSize_append, String.utf8ByteSize_append,
    hhex, hkind]
  rfl

theorem accepts_fileName (id : ObjectId) (ext : String) (h : ext ∈ extensions) :
    Disk.accepts (fileName id ext) = true := by
  have hsplit := splitExtension_fileName id h
  have hempty : fileName id ext ≠ "" := by
    intro hname
    rw [hname, show Disk.splitExtension "" = none by decide] at hsplit
    cases hsplit
  have hdot : fileName id ext ≠ "." := by
    intro hname
    rw [hname, show Disk.splitExtension "." = none by decide] at hsplit
    cases hsplit
  have hdots : fileName id ext ≠ ".." := by
    intro hname
    rw [hname, show Disk.splitExtension ".." = some (".", "") by decide, Option.some.injEq,
      Prod.mk.injEq] at hsplit
    exact absurd (hsplit.2 ▸ h) (by decide)
  have hsize : (fileName id ext).utf8ByteSize ≤ 255 := by
    have hext : ∀ ext ∈ extensions, ext.utf8ByteSize ≤ 4 := by decide
    have hle := hext ext h
    rw [utf8ByteSize_fileName]
    omega
  have hchars : ∀ c ∈ (fileName id ext).toList, c ≠ '/' ∧ c.toNat ≠ 0 := by
    have hext : ∀ ext ∈ extensions, ∀ c ∈ ext.toList, c ≠ '/' ∧ c.toNat ≠ 0 := by
      simp [extensions]
    intro c hc
    rw [show fileName id ext = stem id ++ "." ++ ext from rfl, String.toList_append,
      String.toList_append, toList_stem] at hc
    simp only [List.cons_append, List.mem_cons, List.mem_append] at hc
    obtain rfl | rfl | (hc | hc) | hc := hc
    · cases id
      · exact (by decide : 'n' ≠ '/' ∧ 'n'.toNat ≠ 0)
      · exact (by decide : 'e' ≠ '/' ∧ 'e'.toNat ≠ 0)
    · decide
    · exact ⟨(Bytes.mem_hex hc).2.1, (Bytes.mem_hex hc).2.2.1⟩
    · exact (show ∀ c ∈ ".".toList, c ≠ '/' ∧ c.toNat ≠ 0 by simp) c hc
    · exact hext ext h c hc
  simp only [Disk.accepts, Bool.and_eq_true, Bool.not_eq_true', bne_iff_ne, ne_eq,
    decide_eq_true_eq, List.all_eq_true]
  exact ⟨⟨⟨⟨by simpa using hempty, hdot⟩, hdots⟩, hsize⟩, hchars⟩

theorem extension?_fileName (id : ObjectId) {ext : String} (h : ext ∈ extensions) :
    Disk.extension? (fileName id ext) = some ext :=
  congrArg (Option.map Prod.snd) (splitExtension_fileName id h)

/-- The epoch file has no extension, so it is nobody's. -/
theorem epochFile_ne (id : ObjectId) {ext : String} (h : ext ∈ extensions) :
    epochFile ≠ fileName id ext := by
  intro hname
  have hsplit := splitExtension_fileName id h
  rw [← hname, show Disk.splitExtension epochFile = none by decide] at hsplit
  cases hsplit

end Archive

/-! ## Steps on which nothing goes wrong -/

theorem Archive.bind_of_ok {ε τ α β : Type} {x : EStateM ε τ α} {g : α → EStateM ε τ β} {t t' : τ}
    {a : α} (h : x t = .ok a t') : (x >>= g) t = g a t' := by
  show EStateM.bind x g t = _
  unfold EStateM.bind
  rw [h]

/-- What is in each file of a directory, by its name. -/
abbrev Contents := String → Option Bytes

namespace Contents

/-- The contents with one file written, or removed. -/
def put (f : Contents) (name : String) (content : Option Bytes) : Contents := fun n =>
  if n = name then content else f n

theorem put_self (f : Contents) {name : String} {content : Option Bytes} (h : f name = content) :
    f.put name content = f := by
  funext n
  unfold put
  split
  · rename_i hn
    rw [hn, h]
  · rfl

end Contents

namespace Disk

/-- A directory without directories in it on which no step is made to fail. -/
structure Holds (d : Disk) (f : Contents) : Prop where
  faultless : ∀ n, d.faults n = none
  files : ∀ name, d.entries.get? name = (f name).map .file

namespace Holds

variable {d : Disk} {f : Contents} {name source target : String} {content : Bytes}

/-- A step that succeeds. -/
theorem step {α : Type} {act : Listing → Except FileError (α × Listing)} {a : α} {entries : Listing}
    {f' : Contents} (h : d.Holds f) (hname : accepts name = true)
    (hact : act d.entries = .ok (a, entries))
    (hfiles : ∀ name, entries.get? name = (f' name).map .file) :
    ∃ d', Disk.step name act d = .ok a d' ∧ d'.Holds f' := by
  refine ⟨{ d with entries := entries, steps := d.steps + 1 }, ?_, h.faultless, hfiles⟩
  simp only [Disk.step, h.faultless, hname, hact]
  rfl

theorem mem_names (h : d.Holds f) : name ∈ d.names ↔ f name ≠ none := by
  rw [Disk.names, Table.mem_keys, h.files]
  cases f name with
  | none => simp
  | some content => simp

theorem get?_put {entries : Listing} (h : ∀ name, entries.get? name = (f name).map .file)
    (name : String) (content : Bytes) (n : String) :
    (entries.insert name (.file content)).get? n = (f.put name (some content) n).map .file := by
  rw [Table.get?_insert, Contents.put]
  split
  · rfl
  · exact h n

theorem get?_drop {entries : Listing} (h : ∀ name, entries.get? name = (f name).map .file)
    (name n : String) : (entries.erase name).get? n = (f.put name none n).map .file := by
  rw [Table.get?_erase, Contents.put]
  split
  · rfl
  · exact h n

theorem read (h : d.Holds f) (hname : accepts name = true) (hf : f name = some content) :
    ∃ d', Disk.read name d = .ok content d' ∧ d'.Holds f :=
  h.step hname (by rw [h.files, hf]; rfl) h.files

/-- Reading changes no file. -/
theorem of_read {d' : Disk} (h : d.Holds f) (hread : Disk.read name d = .ok content d') :
    d'.Holds f := by
  simp only [Disk.read, Disk.step, h.faultless] at hread
  split at hread
  · cases hread
  · cases hentry : d.entries.get? name with
    | none => simp [hentry] at hread
    | some entry =>
      cases entry with
      | folder inside => simp [hentry] at hread
      | file bytes =>
        simp only [hentry, EStateM.Result.ok.injEq] at hread
        obtain ⟨_, rfl⟩ := hread
        exact ⟨h.faultless, h.files⟩

/-- A step that finds nothing to do. -/
theorem step_error {α : Type} {act : Listing → Except FileError (α × Listing)} {e : FileError}
    (h : d.Holds f) (hname : accepts name = true) (hact : act d.entries = .error e) :
    ∃ d', Disk.step name act d = .error e d' ∧ d'.Holds f := by
  refine ⟨{ d with steps := d.steps + 1 }, ?_, h.faultless, h.files⟩
  simp only [Disk.step, h.faultless, hname, hact]
  rfl

theorem read_missing (h : d.Holds f) (hname : accepts name = true) (hf : f name = none) :
    ∃ d', Disk.read name d = .error .missing d' ∧ d'.Holds f :=
  h.step_error hname (by rw [h.files, hf]; rfl)

theorem write (h : d.Holds f) (hname : accepts name = true) (content : Bytes) :
    ∃ d', Disk.write name content d = .ok () d' ∧ d'.Holds (f.put name (some content)) := by
  have hplaced : placed d.entries name content = .ok (d.entries.insert name (.file content)) := by
    unfold placed
    rw [h.files]
    cases f name <;> rfl
  simp only [Disk.write, h.faultless]
  exact h.step hname (by rw [hplaced]; rfl) (get?_put h.files name content)

theorem rename (h : d.Holds f) (hname : accepts target = true) (hne : source ≠ target)
    (hf : f source = some content) :
    ∃ d', Disk.rename source target d = .ok () d' ∧
      d'.Holds ((f.put source none).put target (some content)) := by
  refine h.step hname ?_ (get?_put (get?_drop h.files source) target content)
  simp only [h.files, hf]
  cases f target with
  | none => rfl
  | some other => simp [hne, replaces]

theorem isFile? (h : d.Holds f) (hname : accepts name = true) :
    ∃ d', Disk.isFile? name d = .ok ((f name).map fun _ => true) d' ∧ d'.Holds f := by
  refine h.step hname ?_ h.files
  simp only [h.files]
  cases f name <;> rfl

theorem removeQuietly (h : d.Holds f) (hname : accepts name = true) :
    (Disk.removeQuietly name d).Holds (f.put name none) := by
  unfold Disk.removeQuietly Disk.after
  cases hf : f name with
  | none =>
    have hremove : ∃ d', Disk.remove name d = .error .missing d' ∧ d'.Holds f :=
      h.step_error hname (by rw [h.files, hf]; rfl)
    obtain ⟨d', hremove, hd⟩ := hremove
    rw [hremove, f.put_self hf]
    exact hd
  | some content =>
    have hremove : ∃ d', Disk.remove name d = .ok () d' ∧ d'.Holds (f.put name none) :=
      h.step hname (by rw [h.files, hf]; rfl) (get?_drop h.files name)
    obtain ⟨d', hremove, hd⟩ := hremove
    rw [hremove]
    exact hd

/-- Files removed one after another. -/
theorem removeAll (h : d.Holds f) (names : List String) (hnames : ∀ n ∈ names, accepts n = true) :
    (Disk.removeAll names d).Holds fun n => if n ∈ names then none else f n := by
  induction names generalizing d f with
  | nil => simpa [Disk.removeAll] using h
  | cons name rest ih =>
    have hfirst := h.removeQuietly (hnames name List.mem_cons_self)
    have hrest := ih hfirst fun n hn => hnames n (List.mem_cons_of_mem name hn)
    have hsame : (fun n => if n ∈ rest then none else f.put name none n) =
        fun n => if n ∈ name :: rest then none else f n := by
      funext n
      by_cases hn : n = name <;> simp [Contents.put, hn]
    rw [← hsame]
    exact hrest

end Holds

end Disk

end Wayfarer
