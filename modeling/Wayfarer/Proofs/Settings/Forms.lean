import Mathlib.Data.List.Perm.Basic
import Wayfarer.Proofs.Settings.Values

/-!
# Forms

A `Form` is a record with known fields, each of which may be given once: a list
of slots that are filled independently of each other. What rows make of a form
depends only on what they say of each slot (`Form.foldlM_take`), so that neither
the order of rows matters (`Form.fields?_perm`) nor rows of other names
(`Form.fields?_unknown`). A slot that is filled twice makes the whole form fail.
-/

namespace Wayfarer.Settings

open Json Reader

variable {α β σ : Type}

/-! ## Slots -/

/-- A value for a field that has none yet. -/
def once? (slot : Option β) (found : Option α) : Option α :=
  match slot with
  | some _ => none
  | none => found

theorem once?_eq_some {slot : Option β} {found : Option α} {a : α} :
    once? slot found = some a ↔ slot = none ∧ found = some a := by
  cases slot <;> simp [once?]

theorem once_decodes (slot : Option β) {r : Reader α} {f : Tree → Option α} (h : Decodes r f) :
    Decodes (once slot r) fun t => once? slot (f t) := by
  cases slot with
  | none => exact h
  | some b => exact .never

/-- The values that rows give to a name. -/
def valuesOf (name : String) (rows : List (String × Tree)) : List Tree :=
  (rows.filter fun row => row.1 = name).map (·.2)

/-- The values of a name among the entries of a record. -/
theorem valuesOf_entries {es : List (Text × Tree)} {rows : List (String × Tree)}
    (h : es.mapM (Tree.row? some) = some rows) (name : String) :
    valuesOf name rows = (es.filter fun e => e.1.read? = some name).map (·.2) := by
  induction es generalizing rows with
  | nil =>
    cases h
    rfl
  | cons e es ih =>
    rw [List.mapM_cons] at h
    obtain ⟨row, hrow, h⟩ := Option.bind_eq_some_iff.1 h
    obtain ⟨rest, hrest, ⟨⟩⟩ := Option.bind_eq_some_iff.1 h
    obtain ⟨found, hread, ⟨⟩⟩ := Option.bind_eq_some_iff.1 hrow
    have hrows := ih hrest
    unfold valuesOf at hrows ⊢
    by_cases hname : found = name
    · simp [hread, hname, hrows]
    · simp [hread, hname, hrows]

/-- What values tell of a setting: a single one tells it, and without any it
keeps its default. -/
inductive Told (means : Tree → α → Prop) (default : α) : List Tree → α → Prop
  | default : Told means default [] default
  | given {t : Tree} {a : α} : means t a → Told means default [t] a

/-- What values make of a field: nothing, or a single one fills it. -/
inductive Fills (meaning : Tree → Option α) : List Tree → Option α → Option α → Prop
  | nothing (slot : Option α) : Fills meaning [] slot slot
  | once {t : Tree} {a : α} : meaning t = some a → Fills meaning [t] none (some a)

section Filling

variable {meaning : Tree → Option α} {slot slot' : Option α} {ts ts' : List Tree} {t : Tree}

theorem fills_nil : Fills meaning [] slot slot' ↔ slot = slot' := by
  constructor
  · rintro ⟨⟩
    rfl
  · rintro rfl
    exact .nothing _

theorem fills_cons : Fills meaning (t :: ts) slot slot' ↔
    ∃ a, slot = none ∧ meaning t = some a ∧ Fills meaning ts (some a) slot' := by
  constructor
  · rintro (_ | ha)
    exact ⟨_, rfl, ha, .nothing _⟩
  · rintro ⟨a, rfl, ha, ⟨⟩⟩
    exact .once ha

theorem Fills.perm (h : Fills meaning ts slot slot') (hperm : ts.Perm ts') :
    Fills meaning ts' slot slot' := by
  cases h with
  | nothing => rw [List.nil_perm.1 hperm]; exact .nothing _
  | once ha => rw [List.perm_singleton.1 hperm.symm]; exact .once ha

theorem Fills.length_le (h : Fills meaning ts slot slot') : ts.length ≤ 1 := by
  cases h with
  | nothing => exact Nat.zero_le _
  | once => exact Nat.le_refl _

theorem Fills.meaning_of_mem (h : Fills meaning ts slot slot') (ht : t ∈ ts) :
    ∃ a, meaning t = some a := by
  cases h with
  | nothing => cases ht
  | once ha =>
    rw [List.mem_singleton.1 ht]
    exact ⟨_, ha⟩

/-- A field is told by what fills it, with a default for one that stays
empty. -/
theorem told_iff {means : Tree → α → Prop} (h : ∀ t a, means t a ↔ meaning t = some a)
    {default a : α} :
    Told means default ts a ↔ ∃ slot, Fills meaning ts none slot ∧ slot.getD default = a := by
  constructor
  · rintro (_ | ha)
    · exact ⟨none, .nothing _, rfl⟩
    · exact ⟨some a, .once ((h _ _).1 ha), rfl⟩
  · rintro ⟨_, _ | ha, rfl⟩
    · exact .default
    · exact .given ((h _ _).2 ha)

end Filling

/-- A field of a form: its name, what a value says of it, and where it is
kept. -/
structure Slot (σ : Type) where
  Value : Type
  name : String
  meaning : Tree → Option Value
  get : σ → Option Value
  set : σ → Value → σ

namespace Slot

variable (f : Slot σ)

/-- The form with a value in this field, if it has none yet. -/
def take (s : σ) (t : Tree) : Option σ := (once? (f.get s) (f.meaning t)).map (f.set s)

/-- The values that rows give to this field. -/
def given (rows : List (String × Tree)) : List Tree := valuesOf f.name rows

theorem given_cons_self (t : Tree) (rows : List (String × Tree)) :
    f.given ((f.name, t) :: rows) = t :: f.given rows := by
  simp [given, valuesOf]

theorem given_cons_ne {name : String} (h : name ≠ f.name) (t : Tree) (rows : List (String × Tree)) :
    f.given ((name, t) :: rows) = f.given rows := by
  simp [given, valuesOf, h]

theorem given_perm {rows rows' : List (String × Tree)} (h : rows.Perm rows') :
    (f.given rows).Perm (f.given rows') :=
  (h.filter _).map _

end Slot

/-! ## Forms -/

/-- A record whose fields are kept apart from each other, and which has no
others. -/
structure Form (σ : Type) where
  slots : List (Slot σ)
  name_inj : ∀ f ∈ slots, ∀ g ∈ slots, f.name = g.name → f = g
  get_set : ∀ f ∈ slots, ∀ s a, f.get (f.set s a) = some a
  get_set_of_ne : ∀ f ∈ slots, ∀ g ∈ slots, f.name ≠ g.name → ∀ s a, g.get (f.set s a) = g.get s
  ext : ∀ s s', (∀ f ∈ slots, f.get s = f.get s') → s = s'

namespace Form

variable (F : Form σ)

/-- The names of the fields. -/
def names : List String := F.slots.map (·.name)

/-- The form with a value in the field of a name. -/
def take (name : String) (s : σ) (t : Tree) : Option σ :=
  (F.slots.find? fun f => f.name = name).bind fun f => f.take s t

variable {F} {f : Slot σ} {rows : List (String × Tree)} {s s' : σ}

theorem take_of_mem (hf : f ∈ F.slots) (s : σ) (t : Tree) : F.take f.name s t = f.take s t := by
  have hfind : F.slots.find? (fun g => g.name = f.name) = some f := by
    cases hfind : F.slots.find? (fun g => g.name = f.name) with
    | none => simpa using List.find?_eq_none.1 hfind f hf
    | some g =>
      have hname : g.name = f.name := by simpa using List.find?_some hfind
      rw [F.name_inj g (List.mem_of_find?_eq_some hfind) f hf hname]
  rw [take, hfind, Option.bind_some]

/-- A reader of the fields comes to what the values say of the form. -/
theorem fields_decodes {step : String → σ → Reader σ}
    (h : ∀ f ∈ F.slots, ∀ s, Decodes (step f.name s) (f.take s)) (s : σ) :
    Decodes (fields F.names s step) (Tree.fields? F.names F.take s) := by
  refine Settings.fields_decodes (fun name hname s => ?_) s
  obtain ⟨f, hf, rfl⟩ := List.mem_map.1 hname
  rw [show F.take f.name s = f.take s from funext (take_of_mem hf s)]
  exact h f hf s

/-- Rows make of a form what they make of each of its fields. -/
theorem foldlM_take : rows.foldlM (Tree.takeRow F.names F.take) s = some s' ↔
    ∀ f ∈ F.slots, Fills f.meaning (f.given rows) (f.get s) (f.get s') := by
  induction rows generalizing s with
  | nil =>
    constructor
    · rintro ⟨⟩ f _
      exact .nothing _
    · intro h
      rw [F.ext s s' fun f hf => fills_nil.1 (h f hf)]
      rfl
  | cons row rows ih =>
    obtain ⟨name, t⟩ := row
    rw [List.foldlM_cons, Option.bind_eq_bind, Option.bind_eq_some_iff]
    by_cases hname : name ∈ F.names
    -- a row for one slot: this slot takes it, and it is none of the others' business
    · obtain ⟨f, hf, rfl⟩ := List.mem_map.1 hname
      simp only [Tree.takeRow, if_pos hname, take_of_mem hf, Slot.take, Option.map_eq_some_iff,
        once?_eq_some]
      constructor
      · rintro ⟨_, ⟨a, ⟨hfree, ha⟩, rfl⟩, hrest⟩ g hg
        have hfills := ih.1 hrest g hg
        by_cases hne : f.name = g.name
        · obtain rfl := F.name_inj f hf g hg hne
          rw [F.get_set f hf] at hfills
          rw [f.given_cons_self]
          exact fills_cons.2 ⟨a, hfree, ha, hfills⟩
        · rw [F.get_set_of_ne f hf g hg hne] at hfills
          rwa [g.given_cons_ne hne]
      · intro h
        have hfills := h f hf
        rw [f.given_cons_self] at hfills
        obtain ⟨a, hfree, ha, hfills⟩ := fills_cons.1 hfills
        refine ⟨_, ⟨a, ⟨hfree, ha⟩, rfl⟩, ih.2 fun g hg => ?_⟩
        by_cases hne : f.name = g.name
        · obtain rfl := F.name_inj f hf g hg hne
          rwa [F.get_set f hf]
        · have hother := h g hg
          rw [g.given_cons_ne hne] at hother
          rwa [F.get_set_of_ne f hf g hg hne]
    -- a row that no slot is for
    · have hskip : Tree.takeRow F.names F.take s (name, t) = some s := if_neg hname
      have hsame : ∀ g ∈ F.slots, g.given ((name, t) :: rows) = g.given rows := fun g hg =>
        g.given_cons_ne (by rintro rfl; exact hname (List.mem_map_of_mem hg)) t rows
      rw [hskip]
      constructor
      · rintro ⟨_, ⟨⟩, hrest⟩ g hg
        rw [hsame g hg]
        exact ih.1 hrest g hg
      · intro h
        exact ⟨s, rfl, ih.2 fun g hg => hsame g hg ▸ h g hg⟩

theorem fields?_eq_some {t : Tree} : Tree.fields? F.names F.take s t = some s' ↔
    ∃ rows, t.rows? F.names = some rows ∧
      ∀ f ∈ F.slots, Fills f.meaning (f.given rows) (f.get s) (f.get s') := by
  rw [Tree.fields?, Option.bind_eq_some_iff]
  simp only [foldlM_take]

/-- What is made of a form when all rows are taken in. -/
theorem map_fields?_eq_some {t : Tree} {fill : σ → β} {b : β} :
    (Tree.fields? F.names F.take s t).map fill = some b ↔ ∃ rows, t.rows? F.names = some rows ∧
      ∃ s', (∀ f ∈ F.slots, Fills f.meaning (f.given rows) (f.get s) (f.get s')) ∧ fill s' = b := by
  simp only [Option.map_eq_some_iff, fields?_eq_some]
  constructor
  · rintro ⟨s', ⟨rows, hrows, hfills⟩, hfill⟩
    exact ⟨rows, hrows, s', hfills, hfill⟩
  · rintro ⟨rows, hrows, s', hfills, hfill⟩
    exact ⟨s', ⟨rows, hrows, hfills⟩, hfill⟩

/-! ## What a form does not depend on -/

/-- Members in another order give the same in another order. -/
theorem mapM_perm {γ : Type} {p : γ → Option β} {xs ys : List γ} (h : xs.Perm ys) :
    Option.Rel List.Perm (xs.mapM p) (ys.mapM p) := by
  induction h with
  | nil => exact .some .nil
  | @cons x xs ys h ih =>
    rw [List.mapM_cons, List.mapM_cons]
    cases p x with
    | none => exact .none
    | some b =>
      generalize xs.mapM p = found, ys.mapM p = found' at ih
      cases ih with
      | none => exact .none
      | some hperm => exact .some (hperm.cons b)
  | swap x y xs =>
    simp only [List.mapM_cons]
    cases p x <;> cases p y <;> cases xs.mapM p
    case some.some.some b c bs => exact .some (.swap b c bs)
    all_goals exact .none
  | @trans xs ys zs _ _ ih ih' =>
    generalize xs.mapM p = found, ys.mapM p = found', zs.mapM p = found'' at ih ih'
    cases ih with
    | none => exact ih'
    | some hperm =>
      cases ih' with
      | some hperm' => exact .some (hperm.trans hperm')

theorem foldlM_perm {rows rows' : List (String × Tree)} (h : rows.Perm rows') (s : σ) :
    rows.foldlM (Tree.takeRow F.names F.take) s = rows'.foldlM (Tree.takeRow F.names F.take) s := by
  refine Option.ext fun s' => ?_
  rw [foldlM_take, foldlM_take]
  exact ⟨fun hfills f hf => (hfills f hf).perm (f.given_perm h),
    fun hfills f hf => (hfills f hf).perm (f.given_perm h.symm)⟩

/-- The order of entries does not matter. -/
theorem fields?_perm {es es' : List (Text × Tree)} (h : es.Perm es') (s : σ) :
    Tree.fields? F.names F.take s (.record es) = Tree.fields? F.names F.take s (.record es') := by
  have hrows := mapM_perm (p := Tree.row? some) h
  simp only [Tree.fields?, Tree.rows?]
  generalize es.mapM (Tree.row? some) = found, es'.mapM (Tree.row? some) = found' at hrows
  cases hrows with
  | none => rfl
  | some hperm => exact foldlM_perm hperm s

/-- Two values that every field of a name takes for the same. -/
theorem takeRow_congr {name : String} {t t' : Tree}
    (h : ∀ f ∈ F.slots, f.name = name → f.meaning t = f.meaning t') (s : σ) :
    Tree.takeRow F.names F.take s (name, t) = Tree.takeRow F.names F.take s (name, t') := by
  unfold Tree.takeRow
  by_cases hname : name ∈ F.names
  · obtain ⟨f, hf, rfl⟩ := List.mem_map.1 hname
    simp only [if_pos hname, take_of_mem hf, Slot.take, h f hf rfl]
  · simp only [if_neg hname]

theorem fields?_record (es : List (Text × Tree)) (s : σ) :
    Tree.fields? F.names F.take s (.record es) =
      es.foldlM (fun s e => (Tree.row? some e).bind (Tree.takeRow F.names F.take s)) s :=
  (foldlM_bind _ _ es s).symm

/-- An entry may have any value that says the same of the field that it is
for. -/
theorem fields?_congr {k : Text} {t t' : Tree}
    (h : ∀ f ∈ F.slots, k.read? = some f.name → f.meaning t = f.meaning t')
    (l r : List (Text × Tree)) (s : σ) :
    Tree.fields? F.names F.take s (.record (l ++ (k, t) :: r)) =
      Tree.fields? F.names F.take s (.record (l ++ (k, t') :: r)) := by
  have hentry : ∀ s, (Tree.row? some (k, t)).bind (Tree.takeRow F.names F.take s) =
      (Tree.row? some (k, t')).bind (Tree.takeRow F.names F.take s) := by
    intro s
    unfold Tree.row?
    cases hread : k.read? with
    | none => rfl
    | some name => exact takeRow_congr (fun f hf hname => h f hf (by rw [hread, hname])) s
  simp only [fields?_record, List.foldlM_append, List.foldlM_cons, hentry]

/-- The same for the members of a list. -/
theorem fields?_congr_list {t t' : Tree} (h : ∀ f ∈ F.slots, f.meaning t = f.meaning t')
    (l r : List Tree) (s : σ) :
    Tree.fields? F.names F.take s (.list (l ++ t :: r)) =
      Tree.fields? F.names F.take s (.list (l ++ t' :: r)) := by
  have hzip : ∀ (names : List String) (l : List Tree) (s : σ),
      (names.zip (l ++ t :: r)).foldlM (Tree.takeRow F.names F.take) s =
        (names.zip (l ++ t' :: r)).foldlM (Tree.takeRow F.names F.take) s := by
    intro names
    induction names with
    | nil => exact fun _ _ => rfl
    | cons name names ih =>
      rintro (_ | ⟨x, l⟩) s
      · simp only [List.nil_append, List.zip_cons_cons, List.foldlM_cons,
          takeRow_congr fun f hf (_ : f.name = name) => h f hf]
      · simp only [List.cons_append, List.zip_cons_cons, List.foldlM_cons, ih l]
  have hlength : (l ++ t :: r).length = (l ++ t' :: r).length := by
    simp only [List.length_append, List.length_cons]
  simp only [Tree.fields?, Tree.rows?, hlength]
  split
  · exact hzip F.names l s
  · rfl

/-- Entries of other names do not matter. -/
theorem fields?_unknown {k : Text} {name : String} (hk : k.read? = some name)
    (hname : name ∉ F.names) (v : Tree) (l r : List (Text × Tree)) (s : σ) :
    Tree.fields? F.names F.take s (.record (l ++ (k, v) :: r)) =
      Tree.fields? F.names F.take s (.record (l ++ r)) := by
  have hentry : ∀ s, (Tree.row? some (k, v)).bind (Tree.takeRow F.names F.take s) = some s := by
    intro s
    rw [Tree.row?, hk]
    exact if_neg hname
  simp only [fields?_record, List.foldlM_append, List.foldlM_cons, hentry]
  rfl

/-- A record that gives a field twice makes the form fail. -/
theorem fields?_twice {es : List (Text × Tree)} (hf : f ∈ F.slots)
    (htwice : 1 < (es.filter fun e => e.1.read? = some f.name).length) (s : σ) :
    Tree.fields? F.names F.take s (.record es) = none := by
  rw [Option.eq_none_iff_forall_ne_some]
  intro s' h
  obtain ⟨rows, hrows, hfills⟩ := fields?_eq_some.1 h
  have hle := (hfills f hf).length_le
  rw [Slot.given, valuesOf_entries hrows, List.length_map] at hle
  exact absurd hle (Nat.not_le.2 htwice)

/-- So does one that gives a field a value that it cannot have. -/
theorem fields?_wrong {es : List (Text × Tree)} {e : Text × Tree} (hf : f ∈ F.slots) (he : e ∈ es)
    (hname : e.1.read? = some f.name) (hwrong : f.meaning e.2 = none) (s : σ) :
    Tree.fields? F.names F.take s (.record es) = none := by
  rw [Option.eq_none_iff_forall_ne_some]
  intro s' h
  obtain ⟨rows, hrows, hfills⟩ := fields?_eq_some.1 h
  have hmem : e.2 ∈ f.given rows := by
    rw [Slot.given, valuesOf_entries hrows]
    exact List.mem_map_of_mem (List.mem_filter.2 ⟨he, decide_eq_true hname⟩)
  obtain ⟨a, ha⟩ := (hfills f hf).meaning_of_mem hmem
  rw [hwrong] at ha
  cases ha

end Form

end Wayfarer.Settings
