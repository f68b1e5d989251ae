import Wayfarer.Proofs.Json.Passing
import Wayfarer.Proofs.Settings

/-!
# What the values of settings say

The readers of settings come to what the values say, whatever way they are
written: numbers (`Settings.unsigned_decodes`), texts
(`Settings.string_decodes`), the durable setting (`Settings.durable_decodes`)
and records with known fields (`Settings.fields_decodes`). A value of another
kind makes them fail.
-/

namespace Wayfarer

open Json Reader

variable {α β σ : Type}

/-! ## What values say -/

namespace Json.Tree

/-- The number that a value says. -/
def natural? : Tree → Option UInt64
  | .number n => n.natural?
  | _ => none

/-- The number that a value says, unless it says that there is none. -/
def optional? : Tree → Option (Option UInt64)
  | .null => some none
  | t => t.natural?.map some

/-- The text that a value says. -/
def text? : Tree → Option String
  | .text t => t.read?
  | _ => none

/-- An entry of a record by name, with what `part` makes of its value. -/
def row? (part : Tree → Option α) (e : Text × Tree) : Option (String × α) :=
  e.1.read?.bind fun name => (part e.2).map fun a => (name, a)

open Settings in
/-- What a durable setting looks at of a value; `inner` is for the values inside
it, if any may be. -/
def contentWith? (inner : Option (Tree → Option Content)) : Tree → Option Content
  | .null => some .other
  | .bool _ => some .other
  | .number n => if n.literal.overflows then none else some .other
  | .text t => t.read?.map .text
  | .list items => inner.bind fun part => (items.mapM part).map .list
  | .record entries => inner.bind fun part => (entries.mapM (row? part)).map .record

open Settings in
/-- What a durable setting looks at of a value inside at most so many lists and
records. -/
def content? : Nat → Tree → Option Content
  | 0 => contentWith? none
  | depth + 1 => contentWith? (some (content? depth))

/-- The durable setting that a value says. -/
def durable? (t : Tree) : Option DurableSetting :=
  (t.content? (Settings.maxDepth - 1)).bind Settings.durableOf?

/-- The rows of a record with known fields: its entries by name, or the members
of a list as the fields in order. -/
def rows? (names : List String) : Tree → Option (List (String × Tree))
  | .record entries => entries.mapM (row? some)
  | .list items => if items.length ≤ names.length then some (names.zip items) else none
  | _ => none

/-- A row of a record: a step takes in those with known names. -/
def takeRow (names : List String) (take : String → σ → Tree → Option σ) (s : σ)
    (row : String × Tree) :
    Option σ :=
  if row.1 ∈ names then take row.1 s row.2 else some s

/-- What a record with known fields says. -/
def fields? (names : List String) (take : String → σ → Tree → Option σ) (s : σ)
    (t : Tree) : Option σ :=
  (t.rows? names).bind fun rows => rows.foldlM (takeRow names take) s

end Json.Tree

/-! ## Readers that come to it -/

namespace Json

variable {rest : Bytes}

theorem Decodes.map {r : Reader α} {f : Tree → Option α} (h : Decodes r f) (g : α → β) :
    Decodes (r >>= fun a => pure (g a)) fun t => (f t).map g := by
  intro t w hw lead rest hrest
  rw [bind_answer, h hw lead hrest, Option.map_map, Option.map_map]
  rfl

theorem Decodes.never : Decodes (failure : Reader α) fun _ => none := fun _ _ _ _ _ _ => rfl

theorem expect_ne {n : Nat} {b : UInt8} (h : b.toNat ≠ n) : expect n (b :: rest) = none := by
  unfold expect
  rw [bind_of (byte_cons _ _), if_neg h]
  rfl

/-- The name of an entry, if it makes sense as a text. -/
theorem key_of (k : Text) (before : Blanks) (rest : Bytes) :
    key (0x22 :: (k.bytes ++ (before.bytes ++ 0x3A :: rest))) =
      k.read?.map fun name => (name, rest) := by
  have hname := string_text [] k (before.bytes ++ 0x3A :: rest)
  unfold key
  cases hread : k.read? with
  | none =>
    rw [hread] at hname
    exact bind_none hname _
  | some name =>
    rw [hread] at hname
    refine (bind_of hname _).trans ?_
    exact bind_of (@symbol_of 0x3A _ _ 0x3A before.isBlank_bytes rfl rfl) _

theorem string_decodes : Decodes string Tree.text? := by
  intro t w h lead rest hrest
  have hother : ∀ {b : UInt8} {tail : Bytes}, isBlank b = false → b.toNat ≠ 0x22 →
      string (lead.bytes ++ b :: tail) = none := fun hblank hb => by
    refine bind_none ?_ _
    exact (bind_of (blanks_of lead.isBlank_bytes hblank) _).trans (expect_ne hb)
  cases h with
  | text t => exact string_text lead t rest
  | number n =>
    obtain ⟨b, tail, hbytes, hfirst⟩ := n.bytes_eq
    rw [hbytes]
    rcases hfirst with rfl | hdigit
    · exact hother (by decide) (by decide)
    · have hrange := isDigit_iff.1 hdigit
      exact hother (isBlank_of_isDigit hdigit) (by omega)
  | _ => exact hother (by decide) (by decide)

end Json

namespace Settings

variable {rest : Bytes}

/-! ### Numbers -/

/-- What a reader of numbers of 64 bits makes of a number. -/
theorem natural?_eq (n : Numeral) : n.natural? =
    if n.literal.plain && !n.literal.negative && ofDigits n.literal.whole < UInt64.size then
      some (ofDigits n.literal.whole).toUInt64
    else none := by
  simp only [Numeral.natural?, Numeral.literal, Digits.ofDigits_bytes]
  cases n.negative <;> cases n.fraction <;> cases n.exponent <;> simp

theorem unsigned_decodes : Decodes unsigned Tree.natural? := by
  intro t w h lead rest hrest
  have hother : ∀ {b : UInt8} {tail : Bytes}, isBlank b = false → number (b :: tail) = none →
      unsigned (lead.bytes ++ b :: tail) = none := fun hblank hb =>
    (bind_of (blanks_of lead.isBlank_bytes hblank) _).trans (bind_none hb _)
  cases h with
  | number n =>
    have hnumber := number_numeral n hrest
    have hblank := (Writes.number n).opens
    obtain ⟨b, tail, hbytes, hblank, -⟩ := hblank
    rw [hbytes] at hnumber ⊢
    refine (bind_of (blanks_of lead.isBlank_bytes hblank) _).trans ((bind_of hnumber _).trans ?_)
    rw [Tree.natural?, natural?_eq]
    split <;> rfl
  | _ => exact hother (by decide) rfl

theorem optional_decodes : Decodes optional Tree.optional? := by
  intro t w h lead rest hrest
  have hunsigned : ∀ {o : Option Nat}, token? (lead.bytes ++ (w ++ rest)) = some (o, w ++ rest) →
      o ≠ some 0x6E → optional (lead.bytes ++ (w ++ rest)) =
        (t.natural?.map some).map (·, rest) := by
    intro o htoken ho
    refine (bind_of htoken _).trans ?_
    split
    · exact absurd rfl ho
    · refine (bind_answer _ _).trans ?_
      rw [show unsigned (w ++ rest) = _ from unsigned_decodes h [] hrest, Option.map_map,
        Option.map_map]
      rfl
  cases h with
  | null =>
    refine (bind_of (token_of lead.isBlank_bytes (by decide)) _).trans ?_
    exact bind_of (word_null rest) _
  | number n =>
    obtain ⟨o, htoken, hfirst⟩ := n.token lead rest
    refine hunsigned htoken ?_
    rintro rfl
    exact absurd (hfirst _ rfl) (by decide)
  | _ => exact hunsigned (token_of lead.isBlank_bytes (by decide)) (by decide)

/-! ### Records -/

/-- A step that takes in one entry of a record. -/
theorem fieldStep_decodes {names : List String} {step : String → σ → Reader σ}
    {take : String → σ → Tree → Option σ}
    (h : ∀ name ∈ names, ∀ s, Decodes (step name s) (take name s)) {e : Text × Tree} {w : Bytes}
    (hw : WritesEntry Writes e w) (s : σ) (hrest : Stops rest) :
    fieldStep names step s (w ++ rest) =
      ((Tree.row? some e).bind (Tree.takeRow names take s)).map fun t => (t, rest) := by
  cases hw with
  | @mk t w k before after hw =>
    have hkey := key_of k before (after.bytes ++ (w ++ rest))
    simp only [List.cons_append, List.append_assoc]
    unfold fieldStep Tree.row?
    cases hread : k.read? with
    | none =>
      rw [hread] at hkey
      exact bind_none hkey _
    | some name =>
      rw [hread] at hkey
      refine (bind_of hkey _).trans ?_
      simp only [Option.bind_some, Option.map_some]
      by_cases hname : name ∈ names
      · simp only [Tree.takeRow, if_pos hname]
        exact h name hname s hw after hrest
      · simp only [Tree.takeRow, if_neg hname]
        exact bind_of (skip_writes hw after hrest) _

/-- Rows can be taken in one by one as they are found. -/
theorem foldlM_bind {γ : Type} (row? : γ → Option β) (take : σ → β → Option σ)
    (es : List γ) (s : σ) :
    es.foldlM (fun s e => (row? e).bind (take s)) s =
      (es.mapM row?).bind fun rows => rows.foldlM take s := by
  induction es generalizing s with
  | nil => rfl
  | cons e es ih =>
    rw [List.foldlM_cons, List.mapM_cons]
    cases row? e with
    | none => rfl
    | some row =>
      simp only [Option.bind_some, Option.bind_eq_bind, ih, Option.pure_def, Option.bind_assoc,
        List.foldlM_cons]
      -- a later entry that gives no row and a step that fails come to the same
      cases es.mapM row? with
      | none => simp
      | some rows => rfl

/-- The members of a list can be taken in as rows, if there is a name for
each. -/
theorem foldlM_zip (names : List String) (take : String → σ → Tree → Option σ) (items : List Tree)
    (i : Nat) (s : σ) :
    (items.foldlM (counted fun i s t => names[i]?.bind fun name => take name s t)
        (i, s)).map Prod.snd =
      if items.length ≤ (names.drop i).length then
        ((names.drop i).zip items).foldlM (Tree.takeRow names take) s
      else none := by
  induction items generalizing i s with
  | nil => simp
  | cons t items ih =>
    rw [List.foldlM_cons, counted]
    by_cases hi : i < names.length
    · rw [List.drop_eq_getElem_cons hi, List.getElem?_eq_getElem hi]
      have hmem : names[i] ∈ names := List.getElem_mem hi
      simp only [Option.bind_some, List.length_cons, Nat.succ_le_succ_iff, List.zip_cons_cons,
        List.foldlM_cons, Tree.takeRow, if_pos hmem]
      cases take names[i] s t with
      | none => simp
      | some u => exact ih (i + 1) u
    · have hnone : names[i]? = none := List.getElem?_eq_none (Nat.not_lt.1 hi)
      rw [hnone, List.drop_eq_nil_of_le (Nat.not_lt.1 hi)]
      rfl

theorem fields_decodes {names : List String} {step : String → σ → Reader σ}
    {take : String → σ → Tree → Option σ}
    (h : ∀ name ∈ names, ∀ s, Decodes (step name s) (take name s)) (s : σ) :
    Decodes (fields names s step) (Tree.fields? names take s) := by
  intro t w hw lead rest hrest
  unfold Tree.fields?
  cases hw with
  | number n =>
    obtain ⟨o, htoken, hfirst⟩ := n.token lead rest
    refine (bind_of htoken _).trans ?_
    split
    case h_3 => rfl
    all_goals exact absurd (hfirst _ rfl) (by decide)
  | @list items w hrow =>
    simp only [List.cons_append, List.append_assoc, List.nil_append]
    refine (bind_of (token_of lead.isBlank_bytes (by decide)) _).trans ?_
    refine (bind_of (byte_cons 0x5B _) _).trans ?_
    refine (elements_row (f := fun i s t => names[i]?.bind fun name => take name s t) s
      Writes.opens ?_ hrow rest).trans ?_
    · intro t w hw i s rest hrest
      cases hname : names[i]? with
      | none => rfl
      | some name => exact h name (List.mem_of_getElem? hname) s hw [] hrest
    · have hzip := foldlM_zip names take items 0 s
      rw [hzip, List.drop_zero, Tree.rows?]
      split <;> rfl
  | @record es w hrow =>
    simp only [List.cons_append, List.append_assoc, List.nil_append]
    refine (bind_of (token_of lead.isBlank_bytes (by decide)) _).trans ?_
    refine (bind_of (byte_cons 0x7B _) _).trans ?_
    refine (entries_row (P := WritesEntry Writes) s WritesEntry.opens
      (fun hw s _ hrest => fieldStep_decodes h hw s hrest) hrow rest).trans ?_
    rw [foldlM_bind]
    rfl
  | _ => exact (bind_of (token_of lead.isBlank_bytes (by decide)) _).trans rfl

/-! ### The durable setting -/

/-- Members can be collected one by one. -/
theorem foldlM_collect {γ : Type} (f : γ → Option β) (xs : List γ) (acc : List β) :
    xs.foldlM (fun acc x => (f x).map fun b => acc ++ [b]) acc = (xs.mapM f).map (acc ++ ·) := by
  induction xs generalizing acc with
  | nil => simp
  | cons x xs ih =>
    rw [List.foldlM_cons, List.mapM_cons]
    cases f x with
    | none => rfl
    | some b =>
      refine (ih (acc ++ [b])).trans ?_
      cases xs.mapM f <;> simp

/-- A step that takes in one entry of a record of any names. -/
theorem contentStep_decodes {part : Reader Content} {f : Tree → Option Content} (h : Decodes part f)
    {e : Text × Tree} {w : Bytes} (hw : WritesEntry Writes e w) (acc : List (String × Content))
    (hrest : Stops rest) : contentStep part acc (w ++ rest) =
      ((Tree.row? f e).map fun found => acc ++ [found]).map fun t => (t, rest) := by
  cases hw with
  | @mk t w k before after hw =>
    have hkey := key_of k before (after.bytes ++ (w ++ rest))
    simp only [List.cons_append, List.append_assoc]
    unfold contentStep Tree.row?
    cases hread : k.read? with
    | none =>
      rw [hread] at hkey
      exact bind_none hkey _
    | some name =>
      rw [hread] at hkey
      refine (bind_of hkey _).trans ((bind_answer _ _).trans ?_)
      rw [h hw after hrest, Option.bind_some, Option.map_map, Option.map_map, Option.map_map]
      rfl

theorem contentWith_decodes (inner : Option (Reader Content × (Tree → Option Content)))
    (h : ∀ p ∈ inner, Decodes p.1 p.2) :
    Decodes (contentWith (inner.map Prod.fst)) (Tree.contentWith? (inner.map Prod.snd)) := by
  intro t w hw lead rest hrest
  unfold contentWith
  cases hw with
  | null =>
    refine (bind_of (token_of lead.isBlank_bytes (by decide)) _).trans ?_
    exact bind_of (word_null rest) _
  | true =>
    refine (bind_of (token_of lead.isBlank_bytes (by decide)) _).trans ?_
    exact bind_of (word_true rest) _
  | false =>
    refine (bind_of (token_of lead.isBlank_bytes (by decide)) _).trans ?_
    exact bind_of (word_false rest) _
  | number n =>
    obtain ⟨o, htoken, hfirst⟩ := n.token lead rest
    refine (bind_of htoken _).trans ?_
    split
    case h_7 =>
      refine (bind_of (number_numeral n hrest) _).trans ?_
      rw [Tree.contentWith?]
      split <;> rfl
    all_goals exact absurd (hfirst _ rfl) (by decide)
  | text t =>
    refine (bind_of (token_of lead.isBlank_bytes (by decide)) _).trans ((bind_answer _ _).trans ?_)
    rw [show string (0x22 :: List.append t.bytes rest) = _ from string_text [] t rest,
      Tree.contentWith?, Option.map_map, Option.map_map]
    rfl
  | @list items w hrow =>
    simp only [List.cons_append, List.append_assoc, List.nil_append]
    refine (bind_of (token_of lead.isBlank_bytes (by decide)) _).trans ?_
    refine (bind_of (byte_cons 0x5B _) _).trans ?_
    cases inner with
    | none => rfl
    | some p =>
      have hstep : ∀ {t : Tree} {w : Bytes}, Writes t w → ∀ (acc : List Content) {rest : Bytes},
          Stops rest → (p.1 >>= fun c => pure (acc ++ [c])) (w ++ rest) =
            ((p.2 t).map fun c => acc ++ [c]).map fun acc => (acc, rest) := by
        intro t w hw acc rest hrest
        have hread : p.1 (_ ++ rest) = _ := h p rfl hw [] hrest
        rw [bind_answer, hread, Option.map_map, Option.map_map]
        rfl
      have hmembers := elements_row_plain (P := Writes) [] Writes.opens hstep hrow rest
      rw [foldlM_collect] at hmembers
      refine (bind_answer _ _).trans ((congrArg _ hmembers).trans ?_)
      simp only [Tree.contentWith?, Option.map_map, Option.map_some, Option.bind_some]
      rfl
  | @record es w hrow =>
    simp only [List.cons_append, List.append_assoc, List.nil_append]
    refine (bind_of (token_of lead.isBlank_bytes (by decide)) _).trans ?_
    refine (bind_of (byte_cons 0x7B _) _).trans ?_
    cases inner with
    | none => rfl
    | some p =>
      have hmembers := entries_row (P := WritesEntry Writes) [] WritesEntry.opens
        (fun hw acc _ hrest => contentStep_decodes (h p rfl) hw acc hrest) hrow rest
      rw [foldlM_collect] at hmembers
      refine (bind_answer _ _).trans ((congrArg _ hmembers).trans ?_)
      simp only [Tree.contentWith?, Option.map_map, Option.map_some, Option.bind_some]
      rfl

theorem content_decodes (depth : Nat) : Decodes (content depth) (Tree.content? depth) := by
  induction depth with
  | zero => exact contentWith_decodes none fun _ hp => by cases hp
  | succ depth ih =>
    exact contentWith_decodes (some (content depth, Tree.content? depth)) fun _ hp => by
      cases hp
      exact ih

theorem durable_decodes : Decodes durable Tree.durable? := by
  intro t w hw lead rest hrest
  have hcontent := content_decodes (maxDepth - 1) hw lead hrest
  unfold durable Tree.durable?
  cases hc : t.content? (maxDepth - 1) with
  | none =>
    rw [hc] at hcontent
    exact bind_none hcontent _
  | some c =>
    rw [hc] at hcontent
    refine (bind_of hcontent _).trans ?_
    rw [Option.bind_some]
    cases durableOf? c <;> rfl

end Settings

end Wayfarer
