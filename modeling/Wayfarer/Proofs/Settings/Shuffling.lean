import Wayfarer.Proofs.Settings.Forms

/-!
# Entries in another order

Two values are `Shuffled` if one is the other with the entries of its records in
another order, at any depth. They say the same of every kind of setting.

A durable setting looks for texts only (`Settings.textAt?`): what is no text at
its own level may be anything that can be read. So it depends on the rows of a
record by what each name is given, if that is given once (`Settings.only?`),
wherever the kind stands among them.
-/

namespace Wayfarer

open Json

namespace Json

/-- A value is another one with the entries of its records in another order, at
any depth. -/
inductive Shuffled : Tree → Tree → Prop
  | refl (t : Tree) : Shuffled t t
  | trans {t u v : Tree} : Shuffled t u → Shuffled u v → Shuffled t v
  | record {es es' : List (Text × Tree)} : es.Perm es' → Shuffled (.record es) (.record es')
  | inList {t t' : Tree} (l r : List Tree) :
      Shuffled t t' → Shuffled (.list (l ++ t :: r)) (.list (l ++ t' :: r))
  | inRecord {t t' : Tree} (l r : List (Text × Tree)) (k : Text) :
      Shuffled t t' → Shuffled (.record (l ++ (k, t) :: r)) (.record (l ++ (k, t') :: r))

end Json

namespace Settings

variable {α β γ : Type}

/-! ## Members -/

/-- What a step finds may be mapped before or after it is collected. -/
theorem mapM_answers {p : α → Option β} {q : α → Option γ} {f : β → γ}
    (h : ∀ x, q x = (p x).map f) (xs : List α) : xs.mapM q = (xs.mapM p).map (List.map f) := by
  induction xs with
  | nil => rfl
  | cons x xs ih =>
    rw [List.mapM_cons, List.mapM_cons, ih, h]
    cases p x with
    | none => rfl
    | some b => cases xs.mapM p <;> rfl

/-- A member may be replaced by another one that a step takes for the same. -/
theorem mapM_congr_at {p : α → Option β} {x x' : α} (h : p x = p x') (l r : List α) :
    (l ++ x :: r).mapM p = (l ++ x' :: r).mapM p := by
  rw [List.mapM_append, List.mapM_append, List.mapM_cons, List.mapM_cons, h]

theorem row?_congr {part : Tree → Option α} {t t' : Tree} (h : part t = part t') (k : Text) :
    Tree.row? part (k, t) = Tree.row? part (k, t') := by
  rw [Tree.row?, Tree.row?, h]

/-! ## What a durable setting looks for -/

/-- The text that a value is, as far as a durable setting looks at it. -/
def Content.text? : Content → Option String
  | .text s => some s
  | _ => none

/-- The text that a value is inside at most so many lists and records, if it can
be read there. -/
def textAt? (depth : Nat) (t : Tree) : Option (Option String) :=
  (t.content? depth).map Content.text?

theorem row?_textAt? (depth : Nat) (e : Text × Tree) : Tree.row? (textAt? depth) e =
    (Tree.row? (Tree.content? depth) e).map fun found => (found.1, found.2.text?) := by
  unfold Tree.row? textAt?
  cases e.1.read? with
  | none => rfl
  | some name => cases e.2.content? depth <;> rfl

/-- A list is no text; its members only have to be readable. -/
theorem textAt?_list (depth : Nat) (items : List Tree) :
    textAt? (depth + 1) (.list items) = (items.mapM (textAt? depth)).map fun _ => none := by
  rw [mapM_answers (fun _ => rfl : ∀ t, textAt? depth t = (t.content? depth).map Content.text?),
    Option.map_map]
  change ((items.mapM (Tree.content? depth)).map Content.list).map Content.text? = _
  rw [Option.map_map]
  rfl

/-- So is a record with its entries. -/
theorem textAt?_record (depth : Nat) (es : List (Text × Tree)) :
    textAt? (depth + 1) (.record es) =
      (es.mapM (Tree.row? (textAt? depth))).map fun _ => none := by
  rw [mapM_answers (row?_textAt? depth), Option.map_map]
  change ((es.mapM (Tree.row? (Tree.content? depth))).map Content.record).map Content.text? = _
  rw [Option.map_map]
  rfl

/-- The only value of a name, if that is a text. -/
def only? (name : String) (rows : List (String × Option String)) : Option String :=
  match rows.filter fun row => row.1 == name with
  | [(_, text)] => text
  | _ => none

/-- The durable setting of a record. -/
def durableOfRows? (rows : List (String × Option String)) : Option DurableSetting :=
  match only? "kind" rows with
  | some "memory" => some .memory
  | some "directory" => (only? "path" rows).map .directory
  | _ => none

/-- The durable setting of a list. -/
def durableOfTexts? : List (Option String) → Option DurableSetting
  | [some "memory"] => some .memory
  | [some "directory", some path] => some (.directory path)
  | _ => none

theorem single?_text? (name : String) (es : List (String × Content)) :
    (single? name es).bind Content.text? = only? name (es.map fun e => (e.1, e.2.text?)) := by
  have hkept : (es.map fun e => (e.1, e.2.text?)).filter (fun row => row.1 == name) =
      (es.filter fun e => e.1 == name).map fun e => (e.1, e.2.text?) := List.filter_map ..
  unfold single? only?
  rw [hkept]
  generalize es.filter (fun e => e.1 == name) = kept
  match kept with
  | [] => rfl
  | [_] => rfl
  | _ :: _ :: _ => rfl

theorem durableOf?_record (es : List (String × Content)) :
    durableOf? (.record es) = durableOfRows? (es.map fun e => (e.1, e.2.text?)) := by
  unfold durableOfRows?
  rw [← single?_text?, ← single?_text?]
  simp only [durableOf?]
  cases single? "kind" es with
  | none => rfl
  | some c =>
    cases c with
    | text s =>
      simp only [Option.bind_some, Content.text?]
      by_cases hmemory : s = "memory"
      · subst hmemory
        rfl
      by_cases hdirectory : s = "directory"
      · subst hdirectory
        cases single? "path" es with
        | none => rfl
        | some c => cases c <;> rfl
      split <;> simp_all
    | _ => rfl

theorem durableOf?_list (cs : List Content) :
    durableOf? (.list cs) = durableOfTexts? (cs.map Content.text?) := by
  match cs with
  | [] => rfl
  | [c] =>
    cases c with
    | text s =>
      simp only [durableOf?, durableOfTexts?, List.map_cons, List.map_nil, Content.text?]
      split <;> simp_all
    | _ => rfl
  | [c, d] =>
    cases c with
    | text s =>
      cases d with
      | text path =>
        simp only [durableOf?, durableOfTexts?, List.map_cons, List.map_nil, Content.text?]
        split <;> simp_all
      | _ =>
        simp only [durableOf?, durableOfTexts?, List.map_cons, List.map_nil, Content.text?]
    | _ => rfl
  | c :: _ :: _ :: _ =>
    simp only [durableOf?, durableOfTexts?, List.map_cons]
    split <;> simp_all

theorem durable?_record (es : List (Text × Tree)) : Tree.durable? (.record es) =
    (es.mapM (Tree.row? (textAt? (maxDepth - 2)))).bind durableOfRows? := by
  rw [mapM_answers (row?_textAt? _)]
  change ((es.mapM (Tree.row? (Tree.content? (maxDepth - 2)))).map Content.record).bind _ = _
  cases es.mapM (Tree.row? (Tree.content? (maxDepth - 2))) with
  | none => rfl
  | some found => exact durableOf?_record found

theorem durable?_list (items : List Tree) : Tree.durable? (.list items) =
    (items.mapM (textAt? (maxDepth - 2))).bind durableOfTexts? := by
  rw [mapM_answers
    (fun _ => rfl : ∀ t, textAt? (maxDepth - 2) t = (t.content? _).map Content.text?)]
  change ((items.mapM (Tree.content? (maxDepth - 2))).map Content.list).bind _ = _
  cases items.mapM (Tree.content? (maxDepth - 2)) with
  | none => rfl
  | some found => exact durableOf?_list found

theorem only?_perm {rows rows' : List (String × Option String)} (h : rows.Perm rows')
    (name : String) : only? name rows = only? name rows' := by
  have hkept := h.filter fun row => row.1 == name
  unfold only?
  generalize rows.filter _ = kept, rows'.filter _ = kept' at hkept
  match kept with
  | [] => rw [List.nil_perm.1 hkept]
  | [_] => rw [List.perm_singleton.1 hkept.symm]
  | _ :: _ :: _ =>
    match kept' with
    | [] => rfl
    | [_] => exact absurd hkept.length_eq (by simp)
    | _ :: _ :: _ => rfl

/-- The kind of a durable setting may stand anywhere among its rows. -/
theorem durableOfRows?_perm {rows rows' : List (String × Option String)} (h : rows.Perm rows') :
    durableOfRows? rows = durableOfRows? rows' := by
  unfold durableOfRows?
  rw [only?_perm h, only?_perm h]

end Settings

/-! ## Shuffled values -/

namespace Json.Shuffled

open Settings

variable {t t' : Tree}

theorem natural? (h : Shuffled t t') : t.natural? = t'.natural? := by
  induction h with
  | trans _ _ ih ih' => exact ih.trans ih'
  | _ => rfl

theorem optional? (h : Shuffled t t') : t.optional? = t'.optional? := by
  induction h with
  | trans _ _ ih ih' => exact ih.trans ih'
  | _ => rfl

theorem text? (h : Shuffled t t') : t.text? = t'.text? := by
  induction h with
  | trans _ _ ih ih' => exact ih.trans ih'
  | _ => rfl

theorem textAt? (h : Shuffled t t') (depth : Nat) : textAt? depth t = textAt? depth t' := by
  induction h generalizing depth with
  | refl => rfl
  | trans _ _ ih ih' => exact (ih depth).trans (ih' depth)
  | @record es es' hperm =>
    cases depth with
    | zero => rfl
    | succ depth =>
      have hrows := Form.mapM_perm (p := Tree.row? (Settings.textAt? depth)) hperm
      rw [textAt?_record, textAt?_record]
      generalize es.mapM (Tree.row? _) = found, es'.mapM (Tree.row? _) = found' at hrows
      cases hrows <;> rfl
  | inList l r _ ih =>
    cases depth with
    | zero => rfl
    | succ depth => rw [textAt?_list, textAt?_list, mapM_congr_at (ih depth)]
  | inRecord l r k _ ih =>
    cases depth with
    | zero => rfl
    | succ depth => rw [textAt?_record, textAt?_record, mapM_congr_at (row?_congr (ih depth) k)]

theorem durable? (h : Shuffled t t') : t.durable? = t'.durable? := by
  induction h with
  | refl => rfl
  | trans _ _ ih ih' => exact ih.trans ih'
  | @record es es' hperm =>
    have hrows := Form.mapM_perm (p := Tree.row? (Settings.textAt? (maxDepth - 2))) hperm
    rw [durable?_record, durable?_record]
    generalize es.mapM (Tree.row? _) = found, es'.mapM (Tree.row? _) = found' at hrows
    cases hrows with
    | none => rfl
    | some hperm => exact durableOfRows?_perm hperm
  | inList l r h => rw [durable?_list, durable?_list, mapM_congr_at (h.textAt? _)]
  | inRecord l r k h =>
    rw [durable?_record, durable?_record, mapM_congr_at (row?_congr (h.textAt? _) k)]

/-- If the values say the same of every field, so do they with their entries in
another order. -/
theorem fields? {σ : Type} {F : Form σ}
    (hfields : ∀ f ∈ F.slots, ∀ {t t' : Tree}, Shuffled t t' → f.meaning t = f.meaning t')
    (h : Shuffled t t') (s : σ) :
    Tree.fields? F.names F.take s t = Tree.fields? F.names F.take s t' := by
  induction h with
  | refl => rfl
  | trans _ _ ih ih' => exact ih.trans ih'
  | record hperm => exact Form.fields?_perm hperm s
  | inList l r h => exact Form.fields?_congr_list (fun f hf => hfields f hf h) l r s
  | inRecord l r k h => exact Form.fields?_congr (fun f hf _ => hfields f hf h) l r s

end Json.Shuffled

end Wayfarer
