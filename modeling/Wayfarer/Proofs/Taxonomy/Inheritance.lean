import Mathlib.Data.List.Induction
import Wayfarer.Proofs.Taxonomy.Forest

/-!
# What types inherit

* `Fields.names_ofEntries` and `Fields.get?_overlay`: of fields that are set one
  after another, the first of a name gives it its place and the last of it its
  value.
* `Fields.Inherits` is what a type's defaults are: the names of its ascent, read
  from the top, each with the value that is declared nearest to the type
  (`Taxonomy.inherits_of_ascent`).
* `Fields.Fits` says which given entries are let through, and `Fields.Offends`
  with which error others are refused.
* `Taxonomy.defaults_are_inherited`: this is what types start with, and what
  given fields are laid over.
-/

namespace Wayfarer

namespace Fields

/-! ## Fields set one after another -/

/-- The value of the last entry of a name. -/
def latest? (f : Fields) (name : String) : Option Value := find name f.entries.reverse

variable {f given declared : Fields} {name : String} {value : Value}
  {entries : List (String × Value)}

theorem find_append (name : String) (entries more : List (String × Value)) :
    find name (entries ++ more) = (find name entries).or (find name more) := by
  induction entries with
  | nil => rfl
  | cons head rest ih =>
    obtain ⟨n, v⟩ := head
    rw [List.cons_append, find, find, ih]
    split <;> rfl

theorem find_eq_none (h : name ∉ entries.map (·.1)) : find name entries = none := by
  induction entries with
  | nil => rfl
  | cons head rest ih =>
    obtain ⟨n, v⟩ := head
    rw [List.map_cons, List.mem_cons, not_or] at h
    rw [find, if_neg (Ne.symm h.1), ih h.2]

theorem latest?_cons (n : String) (v : Value) (rest : List (String × Value)) :
    latest? ⟨(n, v) :: rest⟩ name =
      (latest? ⟨rest⟩ name).or (if n = name then some v else none) := by
  unfold latest?
  rw [List.reverse_cons, find_append]
  rfl

/-- Of fields that are named once each, the last of a name is the first. -/
theorem latest?_eq_get? (h : f.NamedOnce) : f.latest? name = f.get? name := by
  obtain ⟨entries⟩ := f
  unfold NamedOnce names get? at *
  dsimp only at h ⊢
  induction entries with
  | nil => rfl
  | cons head rest ih =>
    obtain ⟨n, v⟩ := head
    obtain ⟨hn, hrest⟩ := List.nodup_cons.1 h
    rw [latest?_cons, ih hrest, find]
    by_cases hname : n = name
    · subst hname
      rw [if_pos rfl, if_pos rfl, find_eq_none hn, Option.none_or]
    · rw [if_neg hname, if_neg hname, Option.or_none]

theorem get?_overlay (f given : Fields) (name : String) :
    (f.overlay given).get? name = (given.latest? name).or (f.get? name) := by
  obtain ⟨entries⟩ := given
  induction entries generalizing f with
  | nil => rfl
  | cons head rest ih =>
    obtain ⟨n, v⟩ := head
    have hstep : f.overlay ⟨(n, v) :: rest⟩ = (f.set n v).overlay ⟨rest⟩ := rfl
    rw [hstep, ih, latest?_cons, get?_set, Option.or_assoc]
    by_cases hname : n = name
    · rw [if_pos hname.symm, if_pos hname, Option.some_or]
    · rw [if_neg (Ne.symm hname), if_neg hname, Option.none_or]

theorem get?_ofEntries (entries : List (String × Value)) (name : String) :
    (ofEntries entries).get? name = latest? ⟨entries⟩ name := by
  rw [ofEntries, get?_overlay]
  exact Option.or_none

/-- Names stand in the order in which they came up first. -/
theorem names_ofEntries (entries : List (String × Value)) :
    (ofEntries entries).names = (entries.map (·.1)).eraseDups := by
  -- from the end, as the last entry is set on top of all the others
  induction entries using List.reverseRecOn with
  | nil => rfl
  | append_singleton entries e ih =>
    have hstep : ofEntries (entries ++ [e]) = (ofEntries entries).set e.1 e.2 :=
      List.foldl_concat _ _ _ _
    have hnames : ((ofEntries entries).set e.1 e.2).names =
        if e.1 ∈ (ofEntries entries).names then (ofEntries entries).names
        else (ofEntries entries).names ++ [e.1] := names_put _ _ _
    rw [hstep, hnames, ih, List.map_append, List.eraseDups_append]
    by_cases hmem : e.1 ∈ entries.map (·.1)
    · rw [if_pos (List.mem_eraseDups.2 hmem)]
      simp [List.removeAll, hmem]
    · rw [if_neg (mt List.mem_eraseDups.1 hmem)]
      simp [List.removeAll, hmem, List.eraseDups_cons]

/-! ## Fields along an ascent -/

/-- The fields of types in a line upwards: the names in order of their first
mention from the top, each once and with the value that comes first from
below. -/
structure Inherits (line : List Archetype) (declared : Fields) : Prop where
  names : declared.names = (line.reverse.flatMap fun b => b.fields.names).eraseDups
  once : declared.NamedOnce
  value : ∀ name, declared.get? name = line.findSome? fun b => b.fields.latest? name

theorem latest?_flatMap (line : List Archetype) (name : String) :
    latest? ⟨line.reverse.flatMap (·.fields.entries)⟩ name =
      line.findSome? fun b => b.fields.latest? name := by
  induction line with
  | nil => rfl
  | cons b rest ih =>
    have hsplit : latest? ⟨(b :: rest).reverse.flatMap (·.fields.entries)⟩ name =
        (b.fields.latest? name).or (latest? ⟨rest.reverse.flatMap (·.fields.entries)⟩ name) := by
      unfold latest?
      dsimp only
      rw [List.reverse_cons, List.flatMap_append, List.flatMap_singleton, List.reverse_append,
        find_append]
    rw [hsplit, ih, List.findSome?_cons]
    cases b.fields.latest? name <;> rfl

theorem inherits_ofEntries (line : List Archetype) :
    Inherits line (ofEntries (line.reverse.flatMap (·.fields.entries))) where
  names := by
    rw [names_ofEntries, List.map_flatMap]
    rfl
  once := namedOnce_ofEntries _
  value name := by rw [get?_ofEntries, latest?_flatMap]

/-- What is inherited from higher up comes first. -/
theorem Inherits.above_first {before after : List Archetype} {inherited : Fields}
    (h : Inherits (before ++ after) declared) (habove : Inherits after inherited) :
    inherited.names <+: declared.names := by
  rw [h.names, habove.names, List.reverse_append, List.flatMap_append, List.eraseDups_append]
  exact List.prefix_append _ _

/-! ## Given fields -/

/-- A given entry that a declaration lets through: it is declared, with a value
that may be replaced by that. -/
def Fits (declared : Fields) (entry : String × Value) : Prop :=
  ∃ old, declared.get? entry.1 = some old ∧ old.Suits entry.2

/-- Why a given entry is refused: it is not declared for the named type, or with
another kind of value. -/
inductive Offends (type : String) (declared : Fields) : String × Value → Error → Prop
  | unknown {name : String} {value : Value} : declared.get? name = none →
    Offends type declared (name, value) (.unknownField type name)
  | mismatch {name : String} {value old : Value} : declared.get? name = some old →
    ¬ old.Suits value →
    Offends type declared (name, value) (.typeMismatch name)

end Fields

namespace Actor

variable {actor : Actor} {type : TypeId} {f filled declared given : Fields} {name : String}
  {value : Value}
  {entries : List (String × Value)} {e : Error}

theorem fieldFault?_eq_none :
    actor.fieldFault? type f name value = none ↔ f.Fits (name, value) := by
  constructor
  · exact suits_of_fieldFault?
  · rintro ⟨old, hold, hsuits⟩
    unfold fieldFault?
    simp only [hold, if_pos (Value.suits_iff.1 hsuits)]

theorem fieldFault?_eq_some : actor.fieldFault? type f name value = some e ↔
    f.Offends ((actor.rulebook.types.name? type).getD "?") (name, value) e := by
  unfold fieldFault?
  cases hold : f.get? name with
  | none =>
    simp only [Option.some.injEq]
    constructor
    · rintro rfl
      exact .unknown hold
    · intro h
      cases h with
      | unknown _ => rfl
      | mismatch hold' _ =>
        rw [hold] at hold'
        cases hold'
  | some old =>
    by_cases hsuits : old.Suits value
    · simp only [if_pos (Value.suits_iff.1 hsuits), reduceCtorEq, false_iff]
      intro h
      cases h with
      | unknown hnone =>
        rw [hold] at hnone
        cases hnone
      | mismatch hold' hnot =>
        rw [hold] at hold'
        cases hold'
        exact hnot hsuits
    · simp only [if_neg (mt Value.suits_iff.2 hsuits), Option.some.injEq]
      constructor
      · rintro rfl
        exact .mismatch hold hsuits
      · intro h
        cases h with
        | unknown hnone =>
          rw [hold] at hnone
          cases hnone
        | mismatch _ _ => rfl

/-- A check depends on the field that it looks for, not on the others. -/
theorem fieldFault?_congr (actor : Actor) (type : TypeId) (value : Value)
    (h : f.get? name = declared.get? name) :
    actor.fieldFault? type f name value = actor.fieldFault? type declared name value := by
  rw [fieldFault?, fieldFault?, h]

theorem overlayFields_eq_ok (hsame : ∀ name ∈ entries.map (·.1), f.get? name = declared.get? name)
    (honce : (entries.map (·.1)).Nodup) :
    actor.overlayFields type f entries = .ok filled ↔
      (∀ entry ∈ entries, declared.Fits entry) ∧ filled = f.overlay ⟨entries⟩ := by
  -- whatever has been set, the next check is one against the declaration
  induction entries generalizing f with
  | nil =>
    rw [overlayFields, Except.ok.injEq, eq_comm]
    simp [Fields.overlay]
  | cons head rest ih =>
    obtain ⟨name, value⟩ := head
    have hrest := get?_set_of_nodup hsame honce
    rw [overlayFields, fieldFault?_congr actor type value (hsame name List.mem_cons_self),
      List.forall_mem_cons]
    cases hfault : actor.fieldFault? type declared name value with
    | some e =>
      constructor
      · intro h
        cases h
      · rintro ⟨⟨hfits, -⟩, -⟩
        rw [fieldFault?_eq_none.2 hfits] at hfault
        cases hfault
    | none =>
      have hfits := fieldFault?_eq_none.1 hfault
      simp only [ih hrest (List.nodup_cons.1 honce).2]
      constructor
      · rintro ⟨hall, rfl⟩
        exact ⟨⟨hfits, hall⟩, rfl⟩
      · rintro ⟨⟨-, hall⟩, rfl⟩
        exact ⟨hall, rfl⟩

theorem overlayFields_eq_error
    (hsame : ∀ name ∈ entries.map (·.1), f.get? name = declared.get? name)
    (honce : (entries.map (·.1)).Nodup) :
    actor.overlayFields type f entries = .error e ↔ ∃ before entry after,
      entries = before ++ entry :: after ∧ (∀ b ∈ before, declared.Fits b) ∧
      declared.Offends ((actor.rulebook.types.name? type).getD "?") entry e := by
  -- what was set before has other names, so each entry is judged by what was declared
  induction entries generalizing f with
  | nil =>
    rw [overlayFields]
    simp
  | cons head rest ih =>
    obtain ⟨name, value⟩ := head
    have hrest := get?_set_of_nodup hsame honce
    rw [overlayFields, fieldFault?_congr actor type value (hsame name List.mem_cons_self)]
    cases hfault : actor.fieldFault? type declared name value with
    | some e' =>
      constructor
      · intro h
        cases h
        exact ⟨[], _, rest, rfl, fun _ hb => absurd hb List.not_mem_nil,
          fieldFault?_eq_some.1 hfault⟩
      · rintro ⟨before, entry, after, hsplit, hbefore, hoffends⟩
        cases before with
        | nil =>
          obtain ⟨rfl, -⟩ := List.cons.inj hsplit
          rw [fieldFault?_eq_some.2 hoffends] at hfault
          rw [Option.some.inj hfault]
        | cons b before =>
          obtain ⟨rfl, -⟩ := List.cons.inj hsplit
          rw [fieldFault?_eq_none.2 (hbefore _ List.mem_cons_self)] at hfault
          cases hfault
    | none =>
      simp only [ih hrest (List.nodup_cons.1 honce).2]
      constructor
      · rintro ⟨before, entry, after, rfl, hbefore, hoffends⟩
        exact ⟨(name, value) :: before, entry, after, rfl,
          List.forall_mem_cons.2 ⟨fieldFault?_eq_none.1 hfault, hbefore⟩, hoffends⟩
      · rintro ⟨before, entry, after, hsplit, hbefore, hoffends⟩
        cases before with
        | nil =>
          obtain ⟨rfl, -⟩ := List.cons.inj hsplit
          rw [fieldFault?_eq_some.2 hoffends] at hfault
          cases hfault
        | cons b before =>
          obtain ⟨rfl, rfl⟩ := List.cons.inj hsplit
          exact ⟨before, entry, after, rfl, (List.forall_mem_cons.1 hbefore).2, hoffends⟩

end Actor

namespace Taxonomy

variable {decls : List TypeDecl} {t : Taxonomy} {types : Table TypeId Archetype}
  {type other : TypeId}
  {a : Archetype} {line : List Archetype}

theorem mergeDefaults_ids (hlisted : ∀ b ∈ line, types.get? b.id = some b) :
    mergeDefaults types (ids line) =
      Fields.ofEntries (line.reverse.flatMap (·.fields.entries)) := by
  unfold mergeDefaults Fields.ofEntries Fields.overlay
  rw [ids, ← List.map_reverse, List.foldl_map, List.foldl_flatMap]
  refine List.foldl_ext _ _ _ fun acc b hb => ?_
  rw [hlisted b (List.mem_reverse.1 hb)]

/-- The defaults of a type are what it inherits along its ascent. -/
theorem Settled.inherits_of_ascent (h : t.Settled) (hline : Ascent t.types (some type) line) :
    ∃ declared, t.defaults type = some declared ∧ declared.Inherits line := by
  have hlineage := h.lineage_eq hline
  have hlisted := fun b hb => hline.listed (a := b) h.closed hb
  cases hline with
  | up ha _ =>
    refine ⟨_, h.merged ha, ?_⟩
    rw [hlineage, mergeDefaults_ids hlisted]
    exact Fields.inherits_ofEntries _

/-- The defaults of a type begin with the names of each ancestor's. -/
theorem Settled.exists_inherited (h : t.Settled) (hline : Ascent t.types (some type) line)
    {declared : Fields} (hdeclared : declared.Inherits line) (hmem : other ∈ t.lineage type) :
    ∃ inherited, t.defaults other = some inherited ∧ inherited.names <+: declared.names := by
  rw [h.lineage_eq hline] at hmem
  obtain ⟨b, hb, rfl⟩ := List.mem_map.1 hmem
  obtain ⟨before, after, rfl⟩ := List.append_of_mem hb
  obtain ⟨inherited, hinherited, habove⟩ := h.inherits_of_ascent (hline.onwards h.closed rfl)
  exact ⟨inherited, hinherited, hdeclared.above_first habove⟩

end Taxonomy

namespace Actor

variable {actor : Actor} {type : TypeId} {given filled : Fields} {e : Error}

theorem filledFields_eq_ok (honce : given.NamedOnce) : actor.filledFields type given = .ok filled ↔
    (∀ entry ∈ given.entries, (actor.declared type).Fits entry) ∧
      filled = (actor.declared type).overlay given :=
  overlayFields_eq_ok (fun _ _ => rfl) honce

theorem filledFields_eq_error (honce : given.NamedOnce) : actor.filledFields type given = .error e ↔
    ∃ before entry after, given.entries = before ++ entry :: after ∧
      (∀ b ∈ before, (actor.declared type).Fits b) ∧
      (actor.declared type).Offends ((actor.rulebook.types.name? type).getD "?") entry e :=
  overlayFields_eq_error (fun _ _ => rfl) honce

end Actor

namespace Taxonomy

variable {decls : List TypeDecl} {t : Taxonomy} {type : TypeId} {a : Archetype}

/-- The defaults of a type have the names along its ascent in the order in which
they come up from the top, with the values nearest to the type, so they begin
with the names of every ancestor's. Given fields are laid over them if each is
declared with a value of that kind; otherwise the first that is not is named. -/
theorem defaults_are_inherited (hbuild : build decls = .ok t) (ha : t.get? type = some a) :
    ∃ line declared, Ascent t.types (some type) line ∧ t.defaults type = some declared ∧
      declared.Inherits line ∧
      (∀ other ∈ t.lineage type, ∃ inherited, t.defaults other = some inherited ∧
        inherited.names <+: declared.names) ∧
      ∀ (actor : Actor) (given : Fields), actor.rulebook.types = t → given.NamedOnce →
        ((∃ filled, actor.filledFields type given = .ok filled) ↔
          ∀ entry ∈ given.entries, declared.Fits entry) ∧
        (∀ filled, actor.filledFields type given = .ok filled → filled.names = declared.names ∧
          ∀ name, filled.get? name = (given.get? name).or (declared.get? name)) ∧
        ∀ e, actor.filledFields type given = .error e ↔ ∃ before entry after,
          given.entries = before ++ entry :: after ∧ (∀ b ∈ before, declared.Fits b) ∧
          declared.Offends a.name entry e := by
  have h := settled_of_build hbuild
  obtain ⟨line, hline, -⟩ := h.ascends ha
  obtain ⟨declared, hdeclared, hinherits⟩ := h.inherits_of_ascent hline
  refine ⟨line, declared, hline, hdeclared, hinherits,
    fun other hother => h.exists_inherited hline hinherits hother, ?_⟩
  rintro actor given rfl honce
  have hown : actor.declared type = declared := by
    rw [Actor.declared, hdeclared, Option.getD_some]
  have hname : (actor.rulebook.types.name? type).getD "?" = a.name := by
    unfold get? at ha
    rw [name?, ha]
    rfl
  refine ⟨?_, fun filled hfilled => ⟨?_, fun name => ?_⟩, fun e => ?_⟩
  · rw [← hown]
    constructor
    · rintro ⟨filled, hfilled⟩
      exact ((Actor.filledFields_eq_ok honce).1 hfilled).1
    · exact fun hfits => ⟨_, (Actor.filledFields_eq_ok honce).2 ⟨hfits, rfl⟩⟩
  · rw [← hown]
    exact (Actor.follows_filledFields honce hfilled).names
  · obtain ⟨-, rfl⟩ := (Actor.filledFields_eq_ok honce).1 hfilled
    rw [hown, Fields.get?_overlay, Fields.latest?_eq_get? honce]
  · rw [Actor.filledFields_eq_error honce, hown, hname]

end Taxonomy

/-! ## What penguins inherit -/

namespace Menagerie

/-- A third leg, which penguins can have, and wings, which they cannot. -/
def outfit : Fields := ⟨[("legs", .int 3), ("wings", .int 2)]⟩

end Menagerie

/-- Penguins have the fields of animals first. They have a bird's legs and do
not fly, and no wings can be given to them. -/
theorem Taxonomy.penguins_inherit_defaults :
    ∃ t, Taxonomy.build Menagerie.types = .ok t ∧
      t.get? Menagerie.penguin.type = some Menagerie.penguin.accepted ∧
      ∃ declared, t.defaults Menagerie.penguin.type = some declared ∧
        declared.names = ["legs", "name", "flies"] ∧
        declared.get? "legs" = some (.int 2) ∧ declared.get? "flies" = some (.bool false) ∧
        ∃ actor : Actor, actor.rulebook.types = t ∧ Menagerie.outfit.NamedOnce ∧
          actor.filledFields Menagerie.penguin.type Menagerie.outfit =
            .error (.unknownField "penguin" "wings") := by
  have hapart := Menagerie.types_distinguished
  obtain ⟨t, ht, ha, -⟩ := Menagerie.exists_built
  have hpenguin : Menagerie.penguin ∈ Menagerie.types := List.mem_cons_self
  have hchain : Ascent t.types (some Menagerie.penguin.type) _ :=
    (Taxonomy.listing_of_build ht).2 ▸
      Taxonomy.ascent_of_chain Menagerie.forest.once hapart hpenguin Menagerie.chain_penguin
  obtain ⟨line, declared, hline, hdeclared, hinherits, -, hfilled⟩ :=
    Taxonomy.defaults_are_inherited ht ha
  obtain rfl := hchain.unique hline
  have hnames : declared.names = ["legs", "name", "flies"] := by
    rw [hinherits.names]
    decide
  have hlegs : declared.get? "legs" = some (.int 2) := by
    rw [hinherits.value]
    rfl
  have hflies : declared.get? "flies" = some (.bool false) := by
    rw [hinherits.value]
    rfl
  have hwings : declared.get? "wings" = none := by
    rw [hinherits.value]
    rfl
  refine ⟨t, ht, ha, declared, hdeclared, hnames, hlegs, hflies,
    ⟨{ (default : Rulebook) with types := t }, default⟩, rfl, by decide, ?_⟩
  obtain ⟨-, -, herror⟩ :=
    hfilled ⟨{ (default : Rulebook) with types := t }, default⟩ Menagerie.outfit rfl (by decide)
  refine (herror _).2 ⟨[("legs", .int 3)], ("wings", .int 2), [], rfl, fun b hb => ?_,
    .unknown hwings⟩
  obtain rfl := List.mem_singleton.1 hb
  exact ⟨_, hlegs, .inr (.inr rfl)⟩

end Wayfarer
