import Mathlib.Data.List.Forall2
import Mathlib.Data.List.Nodup
import Wayfarer.Graph.Linking

/-!
# What a schema says

* `Fields.Follows` says that fields are those that were declared, in the same
  order and with values that may stand there. Setting a field
  (`Fields.Follows.set`) and laying given fields over the defaults
  (`Actor.follows_filledFields`) keep to the declaration.
* `Taxonomy.build_declares`: every accepted type has merged defaults, and they
  name no field twice.
* `Rulebook.regular_of_build`: so it is in every rulebook, and roots have no
  fields.
-/

namespace Wayfarer

/-! ## Values and fields -/

/-- A value that may stand where another was declared: either is null, or they
are of one kind. -/
def Value.Suits (declared value : Value) : Prop :=
  value = .null ∨ declared = .null ∨ value.kind = declared.kind

namespace Value

theorem kind_eq_null {v : Value} : v.kind = .null ↔ v = .null := by
  cases v <;> simp [kind]

theorem suits_iff {declared value : Value} :
    declared.Suits value ↔ declared.sameKind value = true := by
  have hkind : value.kind = declared.kind ↔ declared.kind = value.kind := eq_comm
  simp only [Suits, sameKind, Bool.or_eq_true, beq_iff_eq, kind_eq_null, hkind, or_assoc]
  exact or_left_comm

theorem suits_self (v : Value) : v.Suits v := .inr (.inr rfl)

end Value

namespace Fields

/-- Fields are named once each. -/
def NamedOnce (f : Fields) : Prop := f.names.Nodup

instance (f : Fields) : Decidable f.NamedOnce := inferInstanceAs (Decidable f.names.Nodup)

/-- Fields that are those declared, in the same order, each with a value that
may stand there. -/
def Follows (declared f : Fields) : Prop :=
  List.Forall₂ (fun d e : String × Value => e.1 = d.1 ∧ d.2.Suits e.2) declared.entries f.entries

variable {f declared : Fields} {name : String} {value : Value}

theorem names_put (name : String) (value : Value) (entries : List (String × Value)) :
    (put name value entries).map (·.1) =
      if name ∈ entries.map (·.1) then entries.map (·.1) else entries.map (·.1) ++ [name] := by
  induction entries with
  | nil => rfl
  | cons head rest ih =>
    obtain ⟨n, v⟩ := head
    unfold put
    by_cases hn : n = name
    · simp [hn]
    · simp only [if_neg hn, List.map_cons, ih, List.mem_cons, Ne.symm hn, false_or]
      split <;> rfl

theorem NamedOnce.set (h : f.NamedOnce) (name : String) (value : Value) :
    (f.set name value).NamedOnce := by
  unfold NamedOnce names Fields.set at *
  rw [names_put]
  split
  · exact h
  · rename_i hname
    rw [List.nodup_append]
    refine ⟨h, by simp, fun n hn n' hn' => ?_⟩
    rw [List.mem_singleton.1 hn']
    exact fun heq => hname (heq ▸ hn)

theorem NamedOnce.overlay (h : f.NamedOnce) (given : Fields) : (f.overlay given).NamedOnce := by
  unfold Fields.overlay
  generalize given.entries = entries
  induction entries generalizing f with
  | nil => exact h
  | cons head rest ih => exact ih (h.set head.1 head.2)

theorem namedOnce_empty : empty.NamedOnce := List.nodup_nil

/-- Fields that are set one after another are named once each. -/
theorem namedOnce_ofEntries (entries : List (String × Value)) : (ofEntries entries).NamedOnce :=
  namedOnce_empty.overlay ⟨entries⟩

namespace Follows

theorem refl (f : Fields) : f.Follows f :=
  List.forall₂_same.2 fun e _ => ⟨rfl, Value.suits_self e.2⟩

theorem names (h : declared.Follows f) : f.names = declared.names := by
  unfold Follows at h
  unfold Fields.names
  generalize declared.entries = ds, f.entries = es at h
  induction h with
  | nil => rfl
  | cons hhead _ ih => rw [List.map_cons, List.map_cons, hhead.1, ih]

/-- A declared field can be set to what may stand there. -/
theorem set {old : Value} (h : declared.Follows f) (hold : declared.get? name = some old)
    (hvalue : old.Suits value) : declared.Follows (f.set name value) := by
  unfold Follows at h ⊢
  unfold Fields.get? at hold
  unfold Fields.set
  dsimp only
  generalize declared.entries = ds, f.entries = es at h hold ⊢
  induction h with
  | nil => cases hold
  | @cons d e ds es hhead hrest ih =>
    obtain ⟨n, v⟩ := e
    obtain ⟨m, w⟩ := d
    obtain ⟨rfl, hsuits⟩ := hhead
    unfold find at hold
    unfold put
    split at hold
    · rename_i hname
      cases hold
      rw [if_pos hname]
      exact .cons ⟨rfl, hvalue⟩ hrest
    · rename_i hname
      rw [if_neg hname]
      exact .cons ⟨rfl, hsuits⟩ (ih hold)

end Follows

end Fields

namespace Actor

variable {actor : Actor} {type : TypeId} {f filled given : Fields} {name : String} {value : Value}

/-- What passes the check of a field may stand there. -/
theorem suits_of_fieldFault? (h : actor.fieldFault? type f name value = none) :
    ∃ old, f.get? name = some old ∧ old.Suits value := by
  unfold fieldFault? at h
  cases hold : f.get? name with
  | none => simp [hold] at h
  | some old =>
    simp only [hold, ite_eq_left_iff, Bool.not_eq_true, reduceCtorEq, imp_false,
      Bool.not_eq_false] at h
    exact ⟨old, rfl, Value.suits_iff.2 h⟩

/-- Each given field is checked against a record in which others were set
before. As none of them has its name, that is a check against the
declaration. -/
theorem get?_set_of_nodup {declared : Fields} {entries : List (String × Value)}
    (hsame : ∀ other ∈ ((name, value) :: entries).map (·.1), f.get? other = declared.get? other)
    (honce : (((name, value) :: entries).map (·.1)).Nodup) :
    ∀ other ∈ entries.map (·.1), (f.set name value).get? other = declared.get? other := by
  intro other hother
  have hne : other ≠ name := by
    rintro rfl
    exact (List.nodup_cons.1 honce).1 hother
  rw [Fields.get?_set, if_neg hne]
  exact hsame other (List.mem_cons_of_mem name hother)

theorem follows_overlayFields {declared : Fields} {entries : List (String × Value)}
    (h : declared.Follows f) (hsame : ∀ name ∈ entries.map (·.1), f.get? name = declared.get? name)
    (honce : (entries.map (·.1)).Nodup)
    (hfilled : actor.overlayFields type f entries = .ok filled) :
    declared.Follows filled := by
  induction entries generalizing f with
  | nil =>
    cases hfilled
    exact h
  | cons head rest ih =>
    obtain ⟨name, value⟩ := head
    have hrest := get?_set_of_nodup hsame honce
    rw [overlayFields] at hfilled
    split at hfilled
    · cases hfilled
    · rename_i hfault
      obtain ⟨old, hold, hvalue⟩ := suits_of_fieldFault? hfault
      rw [hsame name List.mem_cons_self] at hold
      exact ih (h.set hold hvalue) hrest (List.nodup_cons.1 honce).2 hfilled

theorem follows_filledFields (honce : given.NamedOnce)
    (hfilled : actor.filledFields type given = .ok filled) : (actor.declared type).Follows filled :=
  follows_overlayFields (.refl _) (fun _ _ => rfl) honce hfilled

end Actor

/-! ## Accepted types -/

section

variable {α β ε : Type} {f : α → Except ε β} {l : List α} {r : List β}

theorem bind_eq_ok {x : Except ε α} {g : α → Except ε β} {b : β} :
    x >>= g = .ok b ↔ ∃ a, x = .ok a ∧ g a = .ok b := by
  cases x <;> simp [bind, Except.bind]

theorem mapM_cons_eq_ok {x : α} :
    (x :: l).mapM f = .ok r ↔ ∃ y ys, f x = .ok y ∧ l.mapM f = .ok ys ∧ r = y :: ys := by
  rw [List.mapM_cons, bind_eq_ok]
  simp only [bind_eq_ok, pure, Except.pure, Except.ok.injEq, eq_comm (a := r), exists_and_left]

theorem mapM_cons_eq_error {x : α} {e : ε} :
    (x :: l).mapM f = .error e ↔ f x = .error e ∨ ∃ y, f x = .ok y ∧ l.mapM f = .error e := by
  rw [List.mapM_cons]
  cases hx : f x with
  | error e => simp [bind, Except.bind]
  | ok y =>
    cases hl : l.mapM f with
    | error e => simp [bind, Except.bind]
    | ok ys => simp [bind, Except.bind, pure, Except.pure]

/-- What is made of the elements of a list is made of some of them, and of
all. -/
theorem mem_of_mapM_ok (h : l.mapM f = .ok r) :
    (∀ y ∈ r, ∃ x ∈ l, f x = .ok y) ∧ ∀ x ∈ l, ∃ y ∈ r, f x = .ok y := by
  induction l generalizing r with
  | nil =>
    rw [List.mapM_nil] at h
    cases h
    exact ⟨fun _ hy => absurd hy List.not_mem_nil, fun _ hx => absurd hx List.not_mem_nil⟩
  | cons x rest ih =>
    obtain ⟨y, ys, hx, hrest, rfl⟩ := mapM_cons_eq_ok.1 h
    obtain ⟨hback, hall⟩ := ih hrest
    refine ⟨List.forall_mem_cons.2 ⟨⟨x, List.mem_cons_self, hx⟩, fun z hz => ?_⟩,
      List.forall_mem_cons.2 ⟨⟨y, List.mem_cons_self, hx⟩, fun z hz => ?_⟩⟩
    · obtain ⟨w, hw, hfw⟩ := hback z hz
      exact ⟨w, List.mem_cons_of_mem x hw, hfw⟩
    · obtain ⟨w, hw, hfw⟩ := hall z hz
      exact ⟨w, List.mem_cons_of_mem y hw, hfw⟩

/-- A list is mapped without failure if every element of it is. -/
theorem exists_mapM_ok (h : ∀ x ∈ l, ∃ y, f x = .ok y) : ∃ r, l.mapM f = .ok r := by
  induction l with
  | nil => exact ⟨[], List.mapM_nil⟩
  | cons x rest ih =>
    obtain ⟨hx, hrest⟩ := List.forall_mem_cons.1 h
    obtain ⟨y, hy⟩ := hx
    obtain ⟨ys, hys⟩ := ih hrest
    exact ⟨y :: ys, mapM_cons_eq_ok.2 ⟨y, ys, hy, hys, rfl⟩⟩

/-- The failure of a list is that of the first element that fails. -/
theorem mapM_eq_error {e : ε} :
    l.mapM f = .error e ↔ ∃ before x after, l = before ++ x :: after ∧
      (∀ y ∈ before, ∃ z, f y = .ok z) ∧ f x = .error e := by
  induction l with
  | nil => simp [pure, Except.pure]
  | cons x rest ih =>
    rw [mapM_cons_eq_error, ih]
    constructor
    · rintro (hx | ⟨y, hy, before, w, after, rfl, hbefore, hw⟩)
      · exact ⟨[], x, rest, rfl, by simp, hx⟩
      · exact ⟨x :: before, w, after, rfl, List.forall_mem_cons.2 ⟨⟨y, hy⟩, hbefore⟩, hw⟩
    · rintro ⟨before, w, after, hsplit, hbefore, hw⟩
      cases before with
      | nil =>
        obtain ⟨rfl, -⟩ := List.cons.inj hsplit
        exact .inl hw
      | cons y before =>
        obtain ⟨rfl, rfl⟩ := List.cons.inj hsplit
        obtain ⟨⟨z, hz⟩, hbefore⟩ := List.forall_mem_cons.1 hbefore
        exact .inr ⟨z, hz, before, w, after, rfl, hbefore, hw⟩

end

namespace Table

variable {κ ν : Type} [Ord κ] [Std.TransOrd κ] [Std.LawfulEqOrd κ] [DecidableEq κ]
  {entries : List (κ × ν)} {k : κ} {v : ν}

theorem mem_of_get?_ofList (h : (ofList entries).get? k = some v) : (k, v) ∈ entries := by
  have hfold : ∀ (entries : List (κ × ν)) (t : Table κ ν),
      (entries.foldl (fun t e => t.insert e.1 e.2) t).get? k = some v →
        t.get? k = some v ∨ (k, v) ∈ entries := by
    intro entries
    induction entries with
    | nil => exact fun t h => .inl h
    | cons head rest ih =>
      intro t h
      rcases ih _ h with h | h
      · rw [get?_insert] at h
        split at h
        · rename_i hk
          cases h
          exact .inr (hk ▸ List.mem_cons_self)
        · exact .inl h
      · exact .inr (List.mem_cons_of_mem head h)
  exact (hfold entries empty h).resolve_left fun h => by cases h

theorem exists_get?_ofList (h : (k, v) ∈ entries) : ∃ v', (ofList entries).get? k = some v' := by
  have hfold : ∀ (entries : List (κ × ν)) (t : Table κ ν),
      ((∃ v, t.get? k = some v) ∨ ∃ v, (k, v) ∈ entries) →
        ∃ v', (entries.foldl (fun t e => t.insert e.1 e.2) t).get? k = some v' := by
    intro entries
    induction entries with
    | nil => exact fun t h => h.resolve_right fun ⟨_, hv⟩ => List.not_mem_nil hv
    | cons head rest ih =>
      intro t h
      refine ih _ ?_
      by_cases hk : k = head.1
      · exact .inl ⟨head.2, by rw [get?_insert, if_pos hk]⟩
      · rw [get?_insert, if_neg hk]
        refine h.imp_right fun ⟨v, hv⟩ => ⟨v, (List.mem_cons.1 hv).resolve_left fun heq => hk ?_⟩
        rw [← heq]
  exact hfold entries empty (.inr ⟨v, h⟩)

/-- A key that is listed with one value only has that value. -/
theorem get?_ofList_of_unique (h : (k, v) ∈ entries) (hunique : ∀ w, (k, w) ∈ entries → w = v) :
    (ofList entries).get? k = some v := by
  obtain ⟨w, hw⟩ := exists_get?_ofList h
  rw [hw, hunique w (mem_of_get?_ofList hw)]

end Table

namespace Taxonomy

variable {decls : List TypeDecl} {t : Taxonomy} {type : TypeId}

theorem nodup_of_firstRepeat {seen names : List String} (h : firstRepeat seen names = none) :
    names.Nodup ∧ ∀ name ∈ names, name ∉ seen := by
  induction names generalizing seen with
  | nil => exact ⟨List.nodup_nil, fun _ hn => absurd hn List.not_mem_nil⟩
  | cons name rest ih =>
    unfold firstRepeat at h
    split at h
    · cases h
    · rename_i hname
      obtain ⟨hnodup, hnew⟩ := ih h
      refine ⟨List.nodup_cons.2 ⟨fun hmem => hnew name hmem List.mem_cons_self, hnodup⟩,
        List.forall_mem_cons.2 ⟨hname, fun n hn => ?_⟩⟩
      exact fun hseen => hnew n hn (List.mem_cons_of_mem name hseen)

/-- How a taxonomy was made of declarations. -/
structure Made (decls : List TypeDecl) (archetypes : List Archetype)
    (lineages : List (TypeId × List TypeId)) (t : Taxonomy) : Prop where
  once : (decls.map (·.name)).Nodup
  resolved : decls.mapM (resolveDecl decls) = .ok archetypes
  types : t.types = Table.ofList (archetypes.map fun a => (a.id, a))
  climbed : (t.types.values.mapM fun a => do pure (a.id, ← lineageOf t.types a)) = .ok lineages
  filed : t.lineages = Table.ofList lineages
  merged : t.merged = Table.ofList (lineages.map
    fun (id, lineage) => (id, mergeDefaults t.types lineage))

theorem made_of_build (h : build decls = .ok t) :
    ∃ archetypes lineages, Made decls archetypes lineages t := by
  unfold build at h
  simp only [bind, Except.bind] at h
  split at h
  · cases h
  · rename_i hrepeat
    split at h
    · cases h
    · rename_i archetypes hresolved
      split at h
      · cases h
      · rename_i lineages hclimbed
        cases h
        exact ⟨archetypes, lineages, (nodup_of_firstRepeat hrepeat).1, hresolved, rfl,
          hclimbed, rfl,
          rfl⟩

variable {archetypes : List Archetype} {lineages : List (TypeId × List TypeId)} {a : Archetype}

/-- The defaults along a lineage are named once each, whatever the declarations
say. -/
theorem namedOnce_mergeDefaults (types : Table TypeId Archetype) (lineage : List TypeId) :
    (mergeDefaults types lineage).NamedOnce := by
  unfold mergeDefaults
  refine List.foldlRecOn (motive := Fields.NamedOnce) _ _ Fields.namedOnce_empty fun f h id _ => ?_
  split
  · exact h.overlay _
  · exact h

theorem id_of_resolveDecl {decl : TypeDecl} (h : resolveDecl decls decl = .ok a) :
    a.id = TypeId.ofName decl.name := by
  unfold resolveDecl at h
  split at h
  · rw [← Except.ok.inj h]
  · split at h
    · cases h
    · split at h
      · rw [← Except.ok.inj h]
      · cases h

namespace Made

theorem id_eq (h : Made decls archetypes lineages t) (ha : t.types.get? type = some a) :
    a.id = type := by
  rw [h.types] at ha
  obtain ⟨b, _, hb⟩ := List.mem_map.1 (Table.mem_of_get?_ofList ha)
  cases hb
  rfl

/-- Every accepted type was climbed from, and what came of it is listed under
the type. -/
theorem climbs (h : Made decls archetypes lineages t) (ha : t.types.get? type = some a) :
    ∃ lineage, lineageOf t.types a = .ok lineage ∧ (type, lineage) ∈ lineages := by
  obtain ⟨entry, hmem, hentry⟩ := (mem_of_mapM_ok h.climbed).2 a (Table.mem_values.2 ⟨type, ha⟩)
  cases hlineage : lineageOf t.types a with
  | error e =>
    rw [hlineage] at hentry
    cases hentry
  | ok lineage =>
    rw [hlineage] at hentry
    cases hentry
    exact ⟨lineage, rfl, h.id_eq ha ▸ hmem⟩

/-- What is listed under a type came of climbing from it. -/
theorem of_listed (h : Made decls archetypes lineages t) {lineage : List TypeId}
    (hmem : (type, lineage) ∈ lineages) :
    ∃ a, t.types.get? type = some a ∧ lineageOf t.types a = .ok lineage := by
  obtain ⟨a, ha, hentry⟩ := (mem_of_mapM_ok h.climbed).1 _ hmem
  obtain ⟨k, hk⟩ := Table.mem_values.1 ha
  cases hlineage : lineageOf t.types a with
  | error e =>
    rw [hlineage] at hentry
    cases hentry
  | ok found =>
    rw [hlineage] at hentry
    cases hentry
    exact ⟨a, by rw [h.id_eq hk, hk], hlineage⟩

theorem eq_of_listed (h : Made decls archetypes lineages t) {lineage other : List TypeId}
    (hmem : (type, lineage) ∈ lineages) (hother : (type, other) ∈ lineages) : other = lineage := by
  obtain ⟨a, ha, hlineage⟩ := h.of_listed hmem
  obtain ⟨b, hb, hfound⟩ := h.of_listed hother
  rw [ha] at hb
  obtain rfl := Option.some.inj hb
  rw [hlineage] at hfound
  exact (Except.ok.inj hfound).symm

/-- Every accepted type has the lineage that came of climbing from it. -/
theorem lineage (h : Made decls archetypes lineages t) (ha : t.types.get? type = some a) :
    lineageOf t.types a = .ok (t.lineage type) := by
  obtain ⟨lineage, hlineage, hmem⟩ := h.climbs ha
  have hfiled : t.lineages.get? type = some lineage := by
    rw [h.filed]
    exact Table.get?_ofList_of_unique hmem fun _ hother => h.eq_of_listed hmem hother
  rw [hlineage, Taxonomy.lineage, hfiled]
  rfl

/-- Without an accepted type there is no lineage. -/
theorem unlisted (h : Made decls archetypes lineages t) (hnone : t.types.get? type = none) :
    t.lineage type = [] := by
  rw [Taxonomy.lineage]
  cases hget : t.lineages.get? type with
  | none => rfl
  | some lineage =>
    rw [h.filed] at hget
    obtain ⟨a, ha, -⟩ := h.of_listed (Table.mem_of_get?_ofList hget)
    rw [hnone] at ha
    cases ha

/-- Every accepted type has defaults: those along its lineage. -/
theorem defaults (h : Made decls archetypes lineages t) (ha : t.types.get? type = some a) :
    ∃ lineage, lineageOf t.types a = .ok lineage ∧
      t.defaults type = some (mergeDefaults t.types lineage) := by
  obtain ⟨lineage, hlineage, hmem⟩ := h.climbs ha
  refine ⟨lineage, hlineage, ?_⟩
  rw [Taxonomy.defaults, h.merged]
  refine Table.get?_ofList_of_unique (List.mem_map.2 ⟨_, hmem, rfl⟩) fun fields hfields => ?_
  obtain ⟨⟨k, other⟩, hother, heq⟩ := List.mem_map.1 hfields
  obtain ⟨rfl, rfl⟩ := Prod.mk.inj heq
  rw [h.eq_of_listed hmem hother]

end Made

/-- Every accepted type has merged defaults, which are named once each. -/
theorem build_declares (h : build decls = .ok t) {kind : Kind} (hkind : t.kind? type = some kind) :
    ∃ declared, t.defaults type = some declared ∧ declared.NamedOnce := by
  obtain ⟨archetypes, lineages, hmade⟩ := made_of_build h
  rw [kind?, Option.map_eq_some_iff] at hkind
  obtain ⟨a, ha, _⟩ := hkind
  obtain ⟨lineage, _, hdefaults⟩ := hmade.defaults ha
  exact ⟨_, hdefaults, namedOnce_mergeDefaults t.types lineage⟩

/-- A type of its own name without a parent and without fields has no fields. -/
theorem build_plain (h : build decls = .ok t) {name : String} {kind : Kind}
    (hdecl : ⟨name, kind, none, Fields.empty⟩ ∈ decls)
    (hown : ∀ decl ∈ decls, TypeId.ofName decl.name = TypeId.ofName name → decl.name = name) :
    t.kind? (TypeId.ofName name) = some kind ∧ t.defaults (TypeId.ofName name) =
      some Fields.empty := by
  obtain ⟨archetypes, lineages, hmade⟩ := made_of_build h
  have hresolve : resolveDecl decls ⟨name, kind, none, Fields.empty⟩ =
      .ok ⟨TypeId.ofName name, name, kind, none, Fields.empty⟩ := rfl
  generalize TypeId.ofName name = id at hown hresolve ⊢
  obtain ⟨hback, hall⟩ := mem_of_mapM_ok hmade.resolved
  obtain ⟨a, ha, hmem⟩ :
      ∃ a, t.types.get? id = some a ∧ (id, a) ∈ archetypes.map fun a => (a.id, a) := by
    obtain ⟨a, ha, hdone⟩ := hall _ hdecl
    rw [hresolve] at hdone
    obtain rfl := Except.ok.inj hdone
    obtain ⟨b, hb⟩ := Table.exists_get?_ofList (List.mem_map_of_mem (f := fun a => (a.id, a)) ha)
    exact ⟨b, hmade.types ▸ hb, Table.mem_of_get?_ofList hb⟩
  obtain ⟨b, hb, hsame⟩ := List.mem_map.1 hmem
  obtain ⟨hid, rfl⟩ := Prod.mk.inj hsame
  -- No other declaration has the name, so the type is the one that was declared.
  obtain ⟨decl, hmemDecl, hdone⟩ := hback b hb
  have hname := hown decl hmemDecl ((id_of_resolveDecl hdone).symm.trans hid)
  have hdeclEq := List.inj_on_of_nodup_map hmade.once hmemDecl hdecl hname
  rw [hdeclEq, hresolve] at hdone
  obtain rfl := Except.ok.inj hdone
  refine ⟨by rw [kind?, ha]; rfl, ?_⟩
  obtain ⟨lineage, hlineage, hdefaults⟩ := hmade.defaults ha
  have hsingle : lineage = [id] := by
    unfold lineageOf climb at hlineage
    exact (Except.ok.inj hlineage).symm
  rw [hdefaults, hsingle]
  simp only [mergeDefaults, List.reverse_singleton, List.foldl_cons, List.foldl_nil, ha]
  rfl

end Taxonomy

/-! ## Rulebooks -/

namespace Rulebook

variable {rules : Rulebook} {type : TypeId}

/-- A rulebook in which every type has its defaults, named once each, and roots
have none. -/
structure Regular (rules : Rulebook) : Prop where
  declares : ∀ {type kind}, rules.types.kind? type = some kind →
    ∃ declared, rules.types.defaults type = some declared ∧ declared.NamedOnce
  root : rules.types.kind? rootType = some .node
  bare : rules.types.defaults rootType = some Fields.empty

theorem types_of_build {s : Schema} (h : build s = .ok rules) :
    Taxonomy.build s.types = .ok rules.types := by
  unfold build at h
  simp only [bind, Except.bind] at h
  split at h
  · cases h
  · rename_i types htypes
    split at h
    · cases h
    · cases h
      exact htypes

theorem plainEdge_ne_rootType : TypeId.ofName plainEdgeName ≠ rootType := by decide +kernel

/-- So is every rulebook that was built, unless the name of another type is
taken for that of roots. -/
theorem regular_of_build {types : List TypeDecl} {abilities : List AbilityDecl}
    (h : build (Schema.base.extend types abilities) = .ok rules)
    (hroot : ∀ decl ∈ types, TypeId.ofName decl.name = rootType → decl.name = rootTypeName) :
    rules.Regular := by
  have htypes := types_of_build h
  have hown : ∀ decl ∈ (Schema.base.extend types abilities).types,
      TypeId.ofName decl.name = TypeId.ofName rootTypeName → decl.name = rootTypeName := by
    intro decl hdecl hname
    rcases List.mem_append.1 hdecl with hbase | hmore
    · rcases List.mem_cons.1 hbase with rfl | hbase
      · rfl
      · rw [List.mem_singleton.1 hbase] at hname
        exact absurd hname plainEdge_ne_rootType
    · exact hroot decl hmore hname
  have hplain := Taxonomy.build_plain htypes (List.mem_append_left _ List.mem_cons_self) hown
  exact ⟨fun hkind => Taxonomy.build_declares htypes hkind, hplain.1, hplain.2⟩

end Rulebook

end Wayfarer
