import Wayfarer.Proofs.Json.Records
import Wayfarer.Settings.Store

/-!
# Settings that were saved are loaded again

* `Settings.realm_reads`, `Settings.durable_reads` and `Settings.host_reads` are
  about the parts of a document, each read as an entry of the one above it.
* `Settings.load_saved` is about any store that gives back the document it was
  given.
-/

namespace Wayfarer

namespace Settings

open Json Reader

variable {σ : Type} {lead rest : Bytes} {d : Doc} {name : String} {names : List String}
  {e : String × Doc} {es : List (String × Doc)} {s t : σ}

/-! ## Numbers -/

theorem unsigned_reads (n : UInt64) : Reads unsigned (.nat n.toNat) n := by
  intro level lead rest hlead hrest
  show unsigned (lead ++ Bytes.ofString (toString n.toNat) ++ rest) = _
  rw [ofString_toString, List.append_assoc]
  have hnumber := number_decimal n.toNat hrest
  have hblank := fun b hb => isBlank_of_isDigit (isDigit_decimal n.toNat b hb)
  have hvalue := ofDigits_decimal n.toNat
  obtain ⟨b, tail, hb⟩ := List.exists_cons_of_ne_nil (decimal_ne_nil n.toNat)
  rw [hb] at hnumber hblank hvalue ⊢
  have hback : n.toNat.toUInt64 = n := UInt64.ofNat_toNat
  unfold unsigned
  refine (bind_of (blanks_of hlead (hblank b (List.mem_cons_self ..))) _).trans ?_
  refine (bind_of hnumber _).trans ?_
  simp only [hvalue, hback, Bool.not_false, Bool.true_and, n.toNat_lt, decide_true, if_true]
  rfl

theorem optional_reads (n : Option UInt64) : Reads optional (.optional n) n := by
  intro level lead rest hlead hrest
  cases n with
  | none =>
    have hnull : Bytes.ofString "null" = [0x6E, 0x75, 0x6C, 0x6C] := by decide
    show optional (lead ++ Bytes.ofString "null" ++ rest) = _
    have hword : word "null" (0x6E :: ([0x75, 0x6C, 0x6C] ++ rest)) = some ((), rest) := by
      unfold word
      rw [hnull]
      exact bind_of (take_of [0x6E, 0x75, 0x6C, 0x6C] rest) _
    rw [hnull, List.append_assoc]
    exact (bind_of (token_of hlead (by decide)) _).trans (bind_of hword _)
  | some n =>
    have hread := unsigned_reads n level [] rest (by simp) hrest
    show optional (lead ++ Bytes.ofString (toString n.toNat) ++ rest) = _
    replace hread : unsigned (Bytes.ofString (toString n.toNat) ++ rest) = some (n, rest) := hread
    rw [ofString_toString] at hread ⊢
    have hdigits := isDigit_decimal n.toNat
    obtain ⟨b, tail, hb⟩ := List.exists_cons_of_ne_nil (decimal_ne_nil n.toNat)
    rw [hb] at hread hdigits
    have hdigit := hdigits b (List.mem_cons_self ..)
    -- a number is not taken for null
    have hnull : some b.toNat ≠ some 0x6E := by
      have hrange := isDigit_iff.mp hdigit
      simp only [ne_eq, Option.some.injEq]
      omega
    rw [hb, List.append_assoc]
    unfold optional
    refine (bind_of (token_of hlead (isBlank_of_isDigit hdigit)) _).trans ?_
    generalize some b.toNat = o at hnull
    split
    · exact absurd rfl hnull
    · exact bind_of hread _

/-! ## Records -/

/-- The step that takes in an entry of a record with known fields. -/
def fieldStep (names : List String) (step : String → σ → Reader σ) (s : σ) : Reader σ := do
  let name ← key
  if name ∈ names then step name s
  else do
    skip
    pure s

theorem takesEntry_field {step : String → σ → Reader σ} (hname : name ∈ names)
    (h : Reads (step name s) d t) : TakesEntry (fieldStep names step) (name, d) s t := by
  intro level rest hrest
  unfold fieldStep
  refine (bind_of (key_entry level (name, d) rest) _).trans ?_
  simp only [if_pos hname]
  exact h level [0x20] rest (by simp [isBlank]) hrest

theorem fields_reads {step : String → σ → Reader σ}
    (h : TakesEntries (fieldStep names step) s (e :: es) t) :
    Reads (fields names s step) (.record (e :: es)) t := by
  intro level lead rest hlead _
  have hread := entries_record h level rest
  unfold fields
  rw [List.append_assoc, bytes_record]
  refine (bind_of (token_of hlead (by decide)) _).trans ?_
  exact (bind_of (byte_cons 0x7B _) _).trans hread

theorem realm_reads (c : RealmConfig) : Reads realm c.document c := by
  have hfields : Reads (fields realmNames ({} : RealmSlots) realmField) c.document
      ⟨some c.cacheTtl, some c.cacheCapacity, some c.walkBudget, some c.maxWalkSteps,
        some c.idSeed⟩ := by
    refine fields_reads ?_
    refine .cons (takesEntry_field (by decide) ((unsigned_reads _).map _)) ?_
    refine .cons (takesEntry_field (by decide) ((unsigned_reads _).map _)) ?_
    refine .cons (takesEntry_field (by decide) ((optional_reads _).map _)) ?_
    refine .cons (takesEntry_field (by decide) ((optional_reads _).map _)) ?_
    exact .cons (takesEntry_field (by decide) ((string_reads _).map _)) (.nil _)
  exact hfields.map RealmSlots.fill

/-! ## The durable setting -/

theorem content_text (inner : Option (Reader Content)) (s : String) :
    Reads (contentWith inner) (.text s) (.text s) := by
  intro level lead rest hlead hrest
  have hread := string_reads s level [] rest (by simp) hrest
  show contentWith inner (lead ++ Bytes.ofString (quote s) ++ rest) = _
  replace hread : string (Bytes.ofString (quote s) ++ rest) = some (s, rest) := hread
  rw [bytes_quote] at hread ⊢
  rw [List.append_assoc]
  unfold contentWith
  exact (bind_of (token_of hlead (by decide)) _).trans (bind_of hread _)

/-- The step that takes in an entry of any name. -/
def contentStep (part : Reader Content) (acc : List (String × Content)) :
    Reader (List (String × Content)) := do
  let name ← key
  pure (acc ++ [(name, ← part)])

theorem takesEntry_content {part : Reader Content} {c : Content} (h : Reads part d c)
    (acc : List (String × Content)) :
    TakesEntry (contentStep part) (name, d) acc (acc ++ [(name, c)]) := by
  intro level rest hrest
  unfold contentStep
  refine (bind_of (key_entry level (name, d) rest) _).trans ?_
  exact bind_of (h level [0x20] rest (by simp [isBlank]) hrest) _

theorem content_record {part : Reader Content} {found : List (String × Content)}
    (h : TakesEntries (contentStep part) [] (e :: es) found) :
    Reads (contentWith (some part)) (.record (e :: es)) (.record found) := by
  intro level lead rest hlead _
  have hread := entries_record h level rest
  unfold contentWith
  rw [List.append_assoc, bytes_record]
  refine (bind_of (token_of hlead (by decide)) _).trans ?_
  refine (bind_of (byte_cons 0x7B _) _).trans ?_
  exact bind_of hread _

theorem durable_reads (setting : DurableSetting) : Reads durable setting.document setting := by
  have htext : ∀ s, Reads (content 125) (.text s) (.text s) := fun s => content_text _ s
  have hcontent : ∃ c, Reads (content 126) setting.document c ∧ durableOf? c = some setting := by
    cases setting with
    | memory =>
      exact ⟨_, content_record (.cons (takesEntry_content (htext _) _) (.nil _)), rfl⟩
    | directory path =>
      exact ⟨_, content_record (.cons (takesEntry_content (htext _) _)
        (.cons (takesEntry_content (htext _) _) (.nil _))), rfl⟩
  obtain ⟨c, hread, hsetting⟩ := hcontent
  intro level lead rest hlead hrest
  unfold durable
  refine (bind_of (hread level lead rest hlead hrest) _).trans ?_
  rw [hsetting]
  rfl

/-! ## Whole documents -/

theorem host_reads (s : HostSettings) : Reads host s.document s := by
  have hfields : Reads (fields hostNames ({} : HostSlots) hostField) s.document
      ⟨some s.realm, some s.durable, some s.maxConcurrentWalks, some s.logFilter⟩ := by
    refine fields_reads ?_
    refine .cons (takesEntry_field (by decide) ((realm_reads _).map _)) ?_
    refine .cons (takesEntry_field (by decide) ((durable_reads _).map _)) ?_
    refine .cons (takesEntry_field (by decide) ((unsigned_reads _).map _)) ?_
    exact .cons (takesEntry_field (by decide) ((string_reads _).map _)) (.nil _)
  exact hfields.map HostSlots.fill

/-- A printed document is read as a whole. -/
theorem document_print {α : Type} {r : Reader α} {a : α} (h : Reads r d a) :
    document r (Bytes.ofString d.print) = some a := by
  have hread := h 0 [] [] (by simp) .nothing
  have hwhole : (r >>= fun a => blanks >>= fun _ => pure a) (Bytes.ofString d.print) =
      some (a, []) := by
    rw [List.nil_append, List.append_nil] at hread
    exact bind_of hread _
  unfold document whole
  rw [hwhole]

theorem read?_document (s : HostSettings) :
    HostSettings.read? (Bytes.ofString s.document.print) = some s :=
  document_print (host_reads s)

/-- A document is never empty, which would stand for the defaults. -/
theorem document_ne_nil (s : HostSettings) : Bytes.ofString s.document.print ≠ [] := by
  show Bytes.ofString (Doc.printAt 0 s.document) ≠ []
  rw [HostSettings.document, ← List.append_nil (Bytes.ofString _), bytes_record]
  exact List.cons_ne_nil _ _

/-- Settings saved in a store that gives back the document it was given are
loaded as they were, whatever numbers and texts they are made of. -/
theorem load_saved {σ : Type} [ConfigStore σ] (s : HostSettings) (store : σ)
    (hstore : ∀ bytes, ∃ saved loaded, ConfigStore.save hostKey bytes store = .ok () saved ∧
      ConfigStore.load hostKey saved = .ok bytes loaded) :
    ∃ saved loaded, saveHost s store = .ok () saved ∧ loadHost saved = .ok s loaded := by
  obtain ⟨saved, loaded, hsave, hload⟩ := hstore (Bytes.ofString s.document.print)
  refine ⟨saved, loaded, hsave, ?_⟩
  have hfound : load HostSettings.read? hostKey saved = .ok (some s) loaded := by
    have hread := read?_document s
    have hfull := document_ne_nil s
    unfold load
    rw [hload]
    generalize Bytes.ofString s.document.print = bytes at hread hfull
    cases bytes with
    | nil => exact absurd rfl hfull
    | cons b bytes =>
      simp only [hread]
  unfold loadHost loadD
  show EStateM.bind _ _ saved = _
  simp only [EStateM.bind, hfound]
  rfl

/-- A store in memory that does not fail gives back the document it was
given. -/
theorem memory_gives_back {m : ConfigMemory} (hnever : m.fail = .never) (key : String)
    (bytes : Bytes) : ∃ saved loaded, ConfigStore.save key bytes m = .ok () saved ∧
      ConfigStore.load key saved = .ok bytes loaded := by
  refine ⟨{ m with saves := m.saves + 1, blobs := m.blobs.insert key bytes },
    { m with saves := m.saves + 1, blobs := m.blobs.insert key bytes, loads := m.loads + 1 },
    ?_, ?_⟩
  · simp [ConfigStore.save, ConfigMemory.save, hnever]
  · simp [ConfigStore.load, ConfigMemory.load, hnever, Table.get?_insert]

/-- Settings with the least and the greatest numbers, and texts that need every
kind of escape. -/
def unwieldy : HostSettings :=
  ⟨⟨0, 18446744073709551615, some 9007199254740993, none, "\"quoted\" \\ \u0001\u0008\u000c\u001f"⟩,
    .directory "/späte\n/ Wege/🦀", 18446744073709551615, ""⟩

theorem unwieldy_settings_are_loaded : ∃ saved loaded,
    saveHost unwieldy (ConfigMemory.ofBlobs Table.empty) = .ok () saved ∧
      loadHost saved = .ok unwieldy loaded :=
  load_saved unwieldy (ConfigMemory.ofBlobs Table.empty) (memory_gives_back rfl hostKey)

end Settings

end Wayfarer
