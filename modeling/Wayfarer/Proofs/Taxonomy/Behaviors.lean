import Wayfarer.Proofs.Taxonomy.Forest

/-!
# What fires

* `AbilityDecl.Concerns` says of a declared ability that it is for an event, for
  a type that owns it and for a type on the other side. `Schema.selection` goes
  through all declared abilities and takes those.
* `Rulebook.owned_eq`: the duties of a type are the abilities owned along its
  lineage.
* `Rulebook.behaviors_are_selected`: what fires is selected, the traveler's part
  first on entry and the place's part first on exit, and nothing fires twice.
-/

namespace Wayfarer

/-- A declared ability is for an event, a type or an ancestor of it owns the
ability, and the filter is empty or lists the type on the other side or an
ancestor of that. -/
def AbilityDecl.Concerns (t : Taxonomy) (own other : TypeId) (event : Event)
    (decl : AbilityDecl) : Prop :=
  decl.event = event ∧ t.Descends own (.ofName decl.owner) ∧
    (decl.filter = [] ∨ ∃ name ∈ decl.filter, t.Descends other (.ofName name))

/-- The side that owns a declared ability. -/
def AbilityDecl.side (t : Taxonomy) (decl : AbilityDecl) : Side :=
  if t.kind? (.ofName decl.owner) = some .walker then .traveler else .place

/-- The ability that a declaration becomes at its place in the order. -/
def AbilityDecl.accepted (t : Taxonomy) (decl : AbilityDecl) (seq : Nat) : Ability where
  name := decl.name
  owner := .ofName decl.owner
  side := decl.side t
  event := decl.event
  filter := if decl.filter.isEmpty then .any else .oneOf (decl.filter.map TypeId.ofName)
  seq := seq

open Classical in
/-- All declared abilities that concern an event and two types, in the order of
their declaration. -/
noncomputable def Schema.selection (s : Schema) (t : Taxonomy) (own other : TypeId)
    (event : Event) :
    List Ability :=
  (s.abilities.zipIdx.filter fun d => d.1.Concerns t own other event).map
    fun d => d.1.accepted t d.2

namespace Rulebook

/-! ## Resolving abilities -/

variable {t : Taxonomy} {seen : List String} {seq : Nat} {decl : AbilityDecl} {a : Ability}

theorem id_of_resolveFor {ability name : String} {type : TypeId}
    (h : resolveFor t ability name = .ok type) :
    TypeId.ofName name = type := by
  unfold resolveFor Taxonomy.resolve at h
  split at h
  · rename_i id hid
    cases h
    simp only [Option.ite_none_right_eq_some, Option.some.injEq] at hid
    exact hid.2
  · cases h

theorem ids_of_resolveFor {ability : String} {names : List String} {types : List TypeId}
    (h : names.mapM (resolveFor t ability) = .ok types) : types = names.map TypeId.ofName := by
  induction names generalizing types with
  | nil =>
    cases h
    rfl
  | cons name rest ih =>
    obtain ⟨type, more, hname, hrest, rfl⟩ := mapM_cons_eq_ok.1 h
    rw [List.map_cons, id_of_resolveFor hname, ih hrest]

theorem accepted_of_resolveAbility (h : resolveAbility t seen seq decl = .ok a) :
    decl.name ∉ seen ∧ a = decl.accepted t seq := by
  unfold resolveAbility at h
  dsimp only at h
  split at h
  · cases h
  · rename_i hnew
    obtain ⟨owner, howner, h⟩ := bind_eq_ok.1 h
    obtain ⟨types, htypes, h⟩ := bind_eq_ok.1 h
    refine ⟨hnew, ?_⟩
    rw [← Except.ok.inj h, ← id_of_resolveFor howner, ids_of_resolveFor htypes]
    rfl

/-- Abilities are accepted in the order of their declaration, and no name stands
there twice. -/
theorem accepted_of_resolveAbilities {decls : List AbilityDecl} {abilities : List Ability}
    (h : resolveAbilities t seen seq decls = .ok abilities) :
    abilities = (decls.zipIdx seq).map (fun d => d.1.accepted t d.2) ∧
      (decls.map (·.name)).Nodup ∧ ∀ decl ∈ decls, decl.name ∉ seen := by
  induction decls generalizing seen seq abilities with
  | nil =>
    cases h
    exact ⟨rfl, List.nodup_nil, fun _ hd => absurd hd List.not_mem_nil⟩
  | cons decl rest ih =>
    obtain ⟨a, ha, h⟩ := bind_eq_ok.1 h
    obtain ⟨more, hmore, h⟩ := bind_eq_ok.1 h
    obtain ⟨hnew, rfl⟩ := accepted_of_resolveAbility ha
    obtain ⟨rfl, honce, hrest⟩ := ih hmore
    refine ⟨(Except.ok.inj h).symm, ?_, List.forall_mem_cons.2 ⟨hnew, fun d hd hseen => ?_⟩⟩
    · rw [List.map_cons, List.nodup_cons]
      refine ⟨fun hmem => ?_, honce⟩
      obtain ⟨d, hd, hname⟩ := List.mem_map.1 hmem
      exact hrest d hd (hname ▸ List.mem_cons_self)
    · exact hrest d hd (List.mem_cons_of_mem _ hseen)

variable {s : Schema} {r : Rulebook} {type other : TypeId} {event : Event}

theorem parts_of_build (h : build s = .ok r) :
    Taxonomy.build s.types = .ok r.types ∧
      resolveAbilities r.types [] 0 s.abilities = .ok r.abilities ∧
      r.duties = r.types.lineages.mapValues fun _ lineage => dutiesOf r.abilities lineage := by
  obtain ⟨types, htypes, h⟩ := bind_eq_ok.1 h
  obtain ⟨abilities, habilities, h⟩ := bind_eq_ok.1 h
  cases h
  exact ⟨htypes, habilities, rfl⟩

/-- The duties of a type are the abilities owned along its lineage. -/
theorem owned_eq (h : build s = .ok r) (type : TypeId) (event : Event) :
    r.owned type event =
      r.abilities.filter fun a => (r.types.lineage type).contains a.owner &&
        decide (a.event = event) := by
  obtain ⟨-, -, hduties⟩ := parts_of_build h
  unfold owned
  rw [hduties, Table.get?_mapValues, Taxonomy.lineage]
  cases r.types.lineages.get? type with
  | none => simp
  | some lineage =>
    cases event with
    | entry =>
      simp only [Option.map_some, dutiesOf, List.filter_filter, Option.getD_some, Bool.and_comm]
    | exit =>
      simp only [Option.map_some, dutiesOf, List.filter_filter, Option.getD_some, Bool.and_comm]

/-! ## Selecting abilities -/

variable {own : TypeId} {kind : Kind}

theorem accepts_iff (h : t.Settled) {b : Archetype} (hother : t.get? other = some b)
    (decl : AbilityDecl) (seq : Nat) :
    (decl.accepted t seq).filter.accepts t other = true ↔
      decl.filter = [] ∨ ∃ name ∈ decl.filter, t.Descends other (.ofName name) := by
  unfold AbilityDecl.accepted TypeFilter.accepts
  by_cases hempty : decl.filter = []
  · simp [hempty]
  · have hfilter : decl.filter.isEmpty = false := by simpa using hempty
    simp [hfilter, hempty, Taxonomy.isA_iff, h.descends_iff hother]

/-- The owner of an ability that a type has is of that type's kind. -/
theorem kind_of_concerns (h : build s = .ok r) (hapart : TypeDecl.Distinguished s.types)
    {b : Archetype} (hown : r.types.get? own = some b)
    (hconcerns : decl.Concerns r.types own other event) :
    r.types.kind? (.ofName decl.owner) = r.types.kind? own := by
  have htypes := (parts_of_build h).1
  have hmem := ((Taxonomy.settled_of_build htypes).descends_iff hown).1 hconcerns.2.1
  exact Taxonomy.kind_of_mem_lineage hapart htypes hmem

/-- What one type has for an event, as far as it looks for another type, is what
is selected of all declarations. -/
theorem filter_owned (h : build s = .ok r) {b c : Archetype} (hown : r.types.get? own = some b)
    (hother : r.types.get? other = some c) (event : Event) :
    (r.owned own event).filter (fun a => a.filter.accepts r.types other) =
      s.selection r.types own other event := by
  classical
  obtain ⟨htypes, habilities, -⟩ := parts_of_build h
  have hsettled := Taxonomy.settled_of_build htypes
  rw [owned_eq h, List.filter_filter, (accepted_of_resolveAbilities habilities).1, List.filter_map,
    Schema.selection]
  refine congrArg _ (List.filter_congr fun d _ => Bool.eq_iff_iff.2 ?_)
  simp only [Function.comp_apply, Bool.and_eq_true, decide_eq_true_eq, List.contains_iff_mem,
    accepts_iff hsettled hother, AbilityDecl.Concerns, hsettled.descends_iff hown]
  constructor
  · rintro ⟨hlooks, howner, hevent⟩
    exact ⟨hevent, howner, hlooks⟩
  · rintro ⟨hevent, howner, hlooks⟩
    exact ⟨hlooks, howner, hevent⟩

theorem mem_selection (ha : a ∈ s.selection t own other event) :
    ∃ decl ∈ s.abilities, ∃ seq, decl.Concerns t own other event ∧ a = decl.accepted t seq := by
  classical
  obtain ⟨d, hd, rfl⟩ := List.mem_map.1 ha
  obtain ⟨hmem, hconcerns⟩ := List.mem_filter.1 hd
  exact ⟨d.1, List.fst_mem_of_mem_zipIdx hmem, d.2, by simpa using hconcerns, rfl⟩

/-- What is selected for a type of some kind is on the side of that kind. -/
theorem side_of_mem_selection (h : build s = .ok r) (hapart : TypeDecl.Distinguished s.types)
    {b : Archetype} (hown : r.types.get? own = some b) (hkind : r.types.kind? own = some kind)
    (ha : a ∈ s.selection r.types own other event) :
    a.side = if kind = .walker then .traveler else .place := by
  obtain ⟨decl, -, seq, hconcerns, rfl⟩ := mem_selection ha
  change decl.side r.types = _
  rw [AbilityDecl.side, kind_of_concerns h hapart hown hconcerns, hkind]
  simp only [Option.some.injEq]

/-- No ability is selected twice. -/
theorem nodup_selection (honce : (s.abilities.map (·.name)).Nodup) :
    ((s.selection t own other event).map (·.name)).Nodup := by
  classical
  have hnames : (s.selection t own other event).map (·.name) =
      (s.abilities.zipIdx.filter fun d => d.1.Concerns t own other event).map (·.1.name) := by
    rw [Schema.selection, List.map_map]
    rfl
  have hall : s.abilities.zipIdx.map (·.1.name) = s.abilities.map (·.name) := calc
    s.abilities.zipIdx.map (·.1.name) = (s.abilities.zipIdx.map (·.1)).map (·.name) := by
      rw [List.map_map]
      rfl
    _ = s.abilities.map (·.name) := by rw [List.zipIdx_map_fst]
  rw [hnames]
  exact (hall ▸ honce).sublist (List.filter_sublist.map _)

/-- Types of different kinds have no ability in common. -/
theorem selection_disjoint (h : build s = .ok r) (hapart : TypeDecl.Distinguished s.types)
    {b c : Archetype} (hown : r.types.get? own = some b) (hother : r.types.get? other = some c)
    (hkinds : r.types.kind? own ≠ r.types.kind? other) :
    ∀ name ∈ (s.selection r.types own other event).map (·.name),
      ∀ name' ∈ (s.selection r.types other own event).map (·.name), name ≠ name' := by
  intro name hname name' hname' heq
  obtain ⟨x, hx, rfl⟩ := List.mem_map.1 hname
  obtain ⟨y, hy, rfl⟩ := List.mem_map.1 hname'
  obtain ⟨decl, hdecl, seq, hconcerns, rfl⟩ := mem_selection hx
  obtain ⟨decl', hdecl', seq', hconcerns', rfl⟩ := mem_selection hy
  have honce := (accepted_of_resolveAbilities (parts_of_build h).2.1).2.1
  obtain rfl : decl = decl' := List.inj_on_of_nodup_map honce hdecl hdecl' heq
  have hone := kind_of_concerns h hapart hown hconcerns
  have htwo := kind_of_concerns h hapart hother hconcerns'
  exact hkinds (hone.symm.trans htwo)

/-- What fires when a traveler meets a place is what the declarations say: of
all abilities in the order of their declaration those of the traveler's type
that look for the place, and those of the place's type that look for the
traveler. If names are told apart, each part is on its side and nothing fires
twice. -/
theorem behaviors_are_selected (h : build s = .ok r) {walker place : TypeId}
    (hwalker : r.types.kind? walker = some .walker) (hplace : r.types.kind? place = some kind)
    (hkind : kind ≠ .walker) :
    r.behaviors walker place .entry =
      s.selection r.types walker place .entry ++ s.selection r.types place walker .entry ∧
    r.behaviors walker place .exit =
      s.selection r.types place walker .exit ++ s.selection r.types walker place .exit ∧
    (TypeDecl.Distinguished s.types → ∀ event,
      (∀ a ∈ s.selection r.types walker place event, a.side = .traveler) ∧
      (∀ a ∈ s.selection r.types place walker event, a.side = .place) ∧
      ((r.behaviors walker place event).map (·.name)).Nodup) := by
  obtain ⟨a, ha, -⟩ := Option.map_eq_some_iff.1 hwalker
  obtain ⟨b, hb, -⟩ := Option.map_eq_some_iff.1 hplace
  have hentry : r.behaviors walker place .entry =
      s.selection r.types walker place .entry ++ s.selection r.types place walker .entry := by
    rw [behaviors, filter_owned h ha hb, filter_owned h hb ha]
  have hexit : r.behaviors walker place .exit =
      s.selection r.types place walker .exit ++ s.selection r.types walker place .exit := by
    rw [behaviors, filter_owned h ha hb, filter_owned h hb ha]
  refine ⟨hentry, hexit, fun hapart event => ⟨fun x hx => ?_, fun x hx => ?_, ?_⟩⟩
  · rw [side_of_mem_selection h hapart ha hwalker hx, if_pos rfl]
  · rw [side_of_mem_selection h hapart hb hplace hx, if_neg hkind]
  · have honce := (accepted_of_resolveAbilities (parts_of_build h).2.1).2.1
    have hne : r.types.kind? walker ≠ r.types.kind? place := by
      rw [hwalker, hplace]
      exact fun heq => hkind (Option.some.inj heq).symm
    cases event with
    | entry =>
      rw [hentry, List.map_append, List.nodup_append]
      exact ⟨nodup_selection honce, nodup_selection honce, selection_disjoint h hapart ha hb hne⟩
    | exit =>
      rw [hexit, List.map_append, List.nodup_append]
      exact ⟨nodup_selection honce, nodup_selection honce,
        selection_disjoint h hapart hb ha hne.symm⟩

end Rulebook

/-! ## A pilgrim at an inn -/

namespace Pilgrimage

/-- Tourists, one kind of whom is a pilgrim, and what happens when they enter an
inn. -/
def schema : Schema where
  types := [⟨"pilgrim", .walker, some "tourist", .empty⟩, ⟨"tourist", .walker, none, .empty⟩,
    ⟨"inn", .node, none, .empty⟩]
  abilities := [⟨"greet", "inn", .entry, ["tourist"]⟩, ⟨"look", "tourist", .entry, []⟩]

/-- The schema's rulebook. -/
def rules : Rulebook := (Rulebook.build schema).toOption.getD default

/-- The type of pilgrims. -/
def pilgrim : TypeId := .ofName "pilgrim"

/-- The type of inns. -/
def inn : TypeId := .ofName "inn"

theorem rules_done : (Rulebook.build schema).isOk = true ∧ TypeDecl.Distinguished schema.types ∧
    rules.types.kind? pilgrim = some .walker ∧ rules.types.kind? inn = some .node ∧
    (rules.behaviors pilgrim inn .entry).map (·.name) = ["look", "greet"] := by
  decide +kernel

theorem rules_built : Rulebook.build schema = .ok rules := by
  have hbuilds := rules_done.1
  unfold rules
  cases hbuilt : Rulebook.build schema with
  | error e =>
    rw [hbuilt] at hbuilds
    cases hbuilds
  | ok r => rfl

end Pilgrimage

/-- In an inn a pilgrim looks around as tourists do, then is greeted as a
tourist. -/
theorem Rulebook.behaviors_of_pilgrims_are_selected :
    Rulebook.build Pilgrimage.schema = .ok Pilgrimage.rules ∧
    TypeDecl.Distinguished Pilgrimage.schema.types ∧
    Pilgrimage.rules.types.kind? Pilgrimage.pilgrim = some .walker ∧
    Pilgrimage.rules.types.kind? Pilgrimage.inn = some .node ∧
    (Pilgrimage.rules.behaviors Pilgrimage.pilgrim Pilgrimage.inn .entry).map (·.name) =
      ["look", "greet"] ∧
    Pilgrimage.rules.behaviors Pilgrimage.pilgrim Pilgrimage.inn .entry =
      Pilgrimage.schema.selection Pilgrimage.rules.types Pilgrimage.pilgrim Pilgrimage.inn .entry ++
      Pilgrimage.schema.selection Pilgrimage.rules.types Pilgrimage.inn Pilgrimage.pilgrim .entry ∧
    ∀ a ∈ Pilgrimage.schema.selection Pilgrimage.rules.types Pilgrimage.inn
      Pilgrimage.pilgrim .entry,
      a.side = .place := by
  obtain ⟨-, hapart, hpilgrim, hinn, hnames⟩ := Pilgrimage.rules_done
  obtain ⟨hentry, -, hsides⟩ :=
    behaviors_are_selected Pilgrimage.rules_built hpilgrim hinn (by decide)
  exact ⟨Pilgrimage.rules_built, hapart, hpilgrim, hinn, hnames, hentry, (hsides hapart .entry).2.1⟩

end Wayfarer
