import Wayfarer.Proofs.Taxonomy

/-!
# Which declarations are accepted

* `TypeDecl.Chain` is a declaration with everything above it. Declarations are a
  `Forest` if their names differ, every parent is declared with the same kind
  and every chain ends.
* `Refused` says for declarations that are no forest which error they are
  refused with.
* `Taxonomy.accepts_forests`: forests are accepted and all else is refused, each
  with the error that `Refused` says. The lineage of a declared type is its
  chain, and `isA` is an order that type filters respect.
-/

namespace Wayfarer

/-! ## Declarations -/

namespace TypeDecl

/-- A declaration followed by its parent, its grandparent and so on, up to one
without a parent. -/
inductive Chain (decls : List TypeDecl) : TypeDecl → List TypeDecl → Prop
  | top {d : TypeDecl} : d.parent = none → Chain decls d [d]
  | under {d above : TypeDecl} {chain : List TypeDecl} :
    above ∈ decls → d.parent = some above.name → Chain decls above chain →
      Chain decls d (d :: chain)

/-- The chain of a declaration ends. -/
def Ends (decls : List TypeDecl) (d : TypeDecl) : Prop := ∃ chain, d.Chain decls chain

/-- What is wrong with the parent that a declaration names: it is not declared,
or with another kind. -/
inductive Misplaced (decls : List TypeDecl) (d : TypeDecl) : SchemaError → Prop
  | orphan {parent : String} : d.parent = some parent → parent ∉ decls.map (·.name) →
    Misplaced decls d (.unknownParent d.name parent)
  | misfit {above : TypeDecl} : above ∈ decls → d.parent = some above.name → above.kind ≠ d.kind →
    Misplaced decls d (.kindMismatch d.name above.name)

/-- No two of the declared names have the same digest. -/
def Distinguished (decls : List TypeDecl) : Prop :=
  ∀ d ∈ decls, ∀ e ∈ decls, d.type = e.type → d.name = e.name

instance (decls : List TypeDecl) : Decidable (Distinguished decls) :=
  inferInstanceAs (Decidable (∀ d ∈ decls, ∀ e ∈ decls, d.type = e.type → d.name = e.name))

end TypeDecl

/-- Declarations of different names in which every parent is declared with the
same kind and every chain ends. -/
structure Forest (decls : List TypeDecl) : Prop where
  once : (decls.map (·.name)).Nodup
  parented : ∀ d ∈ decls, d.Parented decls
  ends : ∀ d ∈ decls, d.Ends decls

/-- Why declarations are refused. A name that stands there again comes first,
then the first declaration whose parent is wrong, then a chain without end: of
those, the one whose type has the least identity. -/
inductive Refused (decls : List TypeDecl) : SchemaError → Prop
  | repeated {before after : List String} {name : String} :
    decls.map (·.name) = before ++ name :: after → before.Nodup → name ∈ before →
    Refused decls (.duplicateType name)
  | misplaced {before after : List TypeDecl} {d : TypeDecl} {e : SchemaError} :
    (decls.map (·.name)).Nodup → decls = before ++ d :: after → (∀ b ∈ before, b.Parented decls) →
    d.Misplaced decls e → Refused decls e
  | endless {d : TypeDecl} :
    (decls.map (·.name)).Nodup → (∀ b ∈ decls, b.Parented decls) → d ∈ decls → ¬ d.Ends decls →
    (∀ b ∈ decls, compare b.type d.type = .lt → b.Ends decls) → Refused decls (.cycle d.name)

/-- Among things whose keys differ, each is found by its key. -/
theorem find?_of_nodup {α κ : Type} [BEq κ] [LawfulBEq κ] {key : α → κ} {l : List α} {x : α}
    (honce : (l.map key).Nodup) (hx : x ∈ l) : l.find? (fun y => key y == key x) = some x := by
  cases hy : l.find? (fun y => key y == key x) with
  | none => exact absurd BEq.rfl (List.find?_eq_none.1 hy x hx)
  | some y =>
    have hkey : key y = key x := by simpa using List.find?_some hy
    rw [List.inj_on_of_nodup_map honce (List.mem_of_find?_eq_some hy) hx hkey]

namespace TypeDecl

variable {decls chain : List TypeDecl} {d above : TypeDecl} {e : SchemaError}

theorem eq_of_name (honce : (decls.map (·.name)).Nodup) (hd : d ∈ decls) (habove : above ∈ decls)
    (hname : d.name = above.name) : d = above :=
  List.inj_on_of_nodup_map honce hd habove hname

/-! ## Resolving a declaration -/

theorem resolveDecl_of_top (h : d.parent = none) :
    Taxonomy.resolveDecl decls d = .ok d.accepted := by
  unfold Taxonomy.resolveDecl accepted
  rw [h]
  rfl

theorem resolveDecl_of_orphan {parent : String} (h : d.parent = some parent)
    (hnone : parent ∉ decls.map (·.name)) :
    Taxonomy.resolveDecl decls d = .error (.unknownParent d.name parent) := by
  have hfind : decls.find? (fun b => b.name == parent) = none := by
    rw [List.find?_eq_none]
    intro b hb hname
    exact hnone (beq_iff_eq.1 hname ▸ List.mem_map_of_mem hb)
  unfold Taxonomy.resolveDecl
  simp only [h, hfind]

theorem resolveDecl_of_parent (honce : (decls.map (·.name)).Nodup) (habove : above ∈ decls)
    (h : d.parent = some above.name) :
    Taxonomy.resolveDecl decls d =
      if above.kind = d.kind then .ok d.accepted else .error (.kindMismatch d.name above.name) := by
  have hfind : decls.find? (fun b => b.name == above.name) = some above :=
    find?_of_nodup honce habove
  unfold Taxonomy.resolveDecl accepted
  simp only [h, hfind]
  rfl

/-- A declaration has no parent, one that is not declared, or one that is. -/
theorem parent_cases (decls : List TypeDecl) (d : TypeDecl) :
    d.parent = none ∨ (∃ parent, d.parent = some parent ∧ parent ∉ decls.map (·.name)) ∨
      ∃ above ∈ decls, d.parent = some above.name := by
  cases hparent : d.parent with
  | none => exact .inl rfl
  | some parent =>
    by_cases hmem : parent ∈ decls.map (·.name)
    · obtain ⟨above, habove, rfl⟩ := List.mem_map.1 hmem
      exact .inr (.inr ⟨above, habove, rfl⟩)
    · exact .inr (.inl ⟨parent, rfl, hmem⟩)

theorem resolveDecl_eq_ok (honce : (decls.map (·.name)).Nodup) :
    (∃ a, Taxonomy.resolveDecl decls d = .ok a) ↔ d.Parented decls := by
  constructor
  · rintro ⟨a, ha⟩
    exact (accepted_of_resolveDecl ha).1
  · intro hparented
    rcases parent_cases decls d with htop | ⟨parent, hparent, hnone⟩ | ⟨above, habove, hparent⟩
    · exact ⟨_, resolveDecl_of_top htop⟩
    · obtain ⟨above, habove, rfl, -⟩ := hparented parent hparent
      exact absurd (List.mem_map_of_mem habove) hnone
    · obtain ⟨other, hother, hname, hkind⟩ := hparented above.name hparent
      obtain rfl := eq_of_name honce hother habove hname
      exact ⟨_, by rw [resolveDecl_of_parent honce habove hparent, if_pos hkind]⟩

theorem resolveDecl_eq_error (honce : (decls.map (·.name)).Nodup) :
    Taxonomy.resolveDecl decls d = .error e ↔ d.Misplaced decls e := by
  constructor
  · intro h
    rcases parent_cases decls d with htop | ⟨parent, hparent, hnone⟩ | ⟨above, habove, hparent⟩
    · rw [resolveDecl_of_top htop] at h
      cases h
    · rw [resolveDecl_of_orphan hparent hnone] at h
      cases h
      exact .orphan hparent hnone
    · rw [resolveDecl_of_parent honce habove hparent] at h
      split at h
      · cases h
      · rename_i hkind
        cases h
        exact .misfit habove hparent hkind
  · intro h
    cases h with
    | orphan hparent hnone => exact resolveDecl_of_orphan hparent hnone
    | misfit habove hparent hkind => rw [resolveDecl_of_parent honce habove hparent, if_neg hkind]

/-! ## Chains -/

/-- Every type of a chain is declared with the kind of the first. -/
theorem Chain.alike (honce : (decls.map (·.name)).Nodup) (hparented : ∀ d ∈ decls, d.Parented decls)
    (h : d.Chain decls chain) (hd : d ∈ decls) : ∀ b ∈ chain, b ∈ decls ∧ b.kind = d.kind := by
  induction h with
  | top _ => simpa using hd
  | @under d above chain habove hparent _ ih =>
    refine List.forall_mem_cons.2 ⟨⟨hd, rfl⟩, fun b hb => ?_⟩
    obtain ⟨other, hother, hname, hkind⟩ := hparented d hd above.name hparent
    obtain rfl := eq_of_name honce hother habove hname
    obtain ⟨hmem, hsame⟩ := ih habove b hb
    exact ⟨hmem, hsame.trans hkind⟩

theorem Chain.unique (honce : (decls.map (·.name)).Nodup) (h : d.Chain decls chain)
    {other : List TypeDecl} (hother : d.Chain decls other) : other = chain := by
  induction h generalizing other with
  | top htop =>
    cases hother with
    | top _ => rfl
    | under _ hparent _ =>
      rw [htop] at hparent
      cases hparent
  | under habove hparent _ ih =>
    cases hother with
    | top htop =>
      rw [htop] at hparent
      cases hparent
    | @under _ b _ hb hname hchain =>
      rw [hparent] at hname
      obtain rfl := eq_of_name honce habove hb (Option.some.inj hname)
      rw [ih hchain]

end TypeDecl

namespace Table

variable {κ ν : Type} [Ord κ] [Std.TransOrd κ] [Std.LawfulEqOrd κ] {t : Table κ ν} {k : κ} {v : ν}
  {before after : List ν}

/-- In front of a value stand the values of smaller keys only. -/
theorem values_split (h : t.get? k = some v) :
    ∃ before after, t.values = before ++ v :: after ∧
      ∀ w ∈ before, ∃ j, t.get? j = some w ∧ compare j k = .lt := by
  obtain ⟨front, back, hsplit⟩ := List.append_of_mem (mem_toList.2 h)
  refine ⟨front.map (·.2), back.map (·.2), ?_, fun w hw => ?_⟩
  · rw [values, show t.entries = _ from hsplit, List.map_append, List.map_cons]
  · obtain ⟨⟨j, w⟩, hmem, rfl⟩ := List.mem_map.1 hw
    have hsorted : KeyOrdered (front ++ (k, v) :: back) := hsplit ▸ t.sorted
    refine ⟨j, mem_toList.1 ?_, (List.pairwise_append.1 hsorted).2.2 _ hmem _ List.mem_cons_self⟩
    rw [hsplit]
    exact List.mem_append_left _ hmem

/-- In front of a value stand all values of smaller keys. -/
theorem mem_before_of_lt (h : t.values = before ++ v :: after) :
    ∃ k, t.get? k = some v ∧ ∀ j w, t.get? j = some w → compare j k = .lt → w ∈ before := by
  obtain ⟨front, back, hsplit, rfl, hback⟩ := List.map_eq_append_iff.1 h
  obtain ⟨⟨k, v⟩, rest, rfl, rfl, rfl⟩ := List.map_eq_cons_iff.1 hback
  have hsorted : KeyOrdered (front ++ (k, v) :: rest) := hsplit ▸ t.sorted
  refine ⟨k, mem_toList.1 ?_, fun j w hw hlt => ?_⟩
  · rw [toList, hsplit]
    exact List.mem_append_right _ List.mem_cons_self
  · have hmem : (j, w) ∈ front ++ (k, v) :: rest := hsplit ▸ mem_toList.2 hw
    rcases List.mem_append.1 hmem with hmem | hmem
    · exact List.mem_map_of_mem hmem
    · rcases List.mem_cons.1 hmem with heq | hmem
      · obtain ⟨rfl, -⟩ := Prod.mk.inj heq
        simp at hlt
      · have hgt := (List.pairwise_cons.1 (List.pairwise_append.1 hsorted).2.1).1 _ hmem
        rw [Std.OrientedCmp.gt_of_lt hgt] at hlt
        cases hlt

end Table

namespace Taxonomy

open TypeDecl

variable {decls chain : List TypeDecl} {d : TypeDecl} {line : List Archetype}

theorem get?_listing (honce : (decls.map (·.name)).Nodup) (hapart : Distinguished decls)
    (hd : d ∈ decls) :
    (listing decls).get? d.type = some d.accepted := by
  refine Table.get?_ofList_of_unique (List.mem_map_of_mem hd) fun a ha => ?_
  obtain ⟨other, hother, heq⟩ := List.mem_map.1 ha
  obtain ⟨htype, rfl⟩ := Prod.mk.inj heq
  rw [eq_of_name honce hother hd (hapart other hother d hd htype)]

/-- The ascent of a declared type is its chain. -/
theorem ascent_of_chain (honce : (decls.map (·.name)).Nodup) (hapart : Distinguished decls)
    (hd : d ∈ decls) (h : d.Chain decls chain) :
    Ascent (listing decls) (some d.type) (chain.map TypeDecl.accepted) := by
  induction h with
  | @top d htop =>
    refine .up (get?_listing honce hapart hd) ?_
    rw [TypeDecl.accepted, htop]
    exact .top
  | @under d above chain habove hparent _ ih =>
    refine .up (get?_listing honce hapart hd) ?_
    rw [TypeDecl.accepted, hparent]
    exact ih habove

theorem chain_of_ascent (honce : (decls.map (·.name)).Nodup) (hapart : Distinguished decls)
    (hparented : ∀ d ∈ decls, d.Parented decls) {cursor : Option TypeId}
    (h : Ascent (listing decls) cursor line) (hcursor : cursor = some d.type) (hd : d ∈ decls) :
    d.Ends decls := by
  -- on the ascent, each step of which leads from a declaration to its parent's
  induction h generalizing d with
  | top => cases hcursor
  | @up type a line ha hrest ih =>
    obtain rfl := Option.some.inj hcursor
    rw [get?_listing honce hapart hd] at ha
    obtain rfl := Option.some.inj ha
    cases hparent : d.parent with
    | none => exact ⟨_, .top hparent⟩
    | some name =>
      obtain ⟨above, habove, rfl, -⟩ := hparented d hd name hparent
      obtain ⟨chain, hchain⟩ := ih (by rw [TypeDecl.accepted, hparent]; rfl) habove
      exact ⟨_, .under habove hparent hchain⟩

theorem exists_ascent_iff (honce : (decls.map (·.name)).Nodup) (hapart : Distinguished decls)
    (hparented : ∀ d ∈ decls, d.Parented decls) (hd : d ∈ decls) :
    (∃ line, Ascent (listing decls) (some d.type) line) ↔ d.Ends decls := by
  constructor
  · rintro ⟨line, hline⟩
    exact chain_of_ascent honce hapart hparented hline rfl hd
  · rintro ⟨chain, hchain⟩
    exact ⟨_, ascent_of_chain honce hapart hd hchain⟩

/-! ## Refusals -/

theorem firstRepeat_eq_none {seen names : List String} :
    firstRepeat seen names = none ↔ names.Nodup ∧ ∀ name ∈ names, name ∉ seen := by
  constructor
  · exact nodup_of_firstRepeat
  · rintro ⟨honce, hnew⟩
    induction names generalizing seen with
    | nil => rfl
    | cons name rest ih =>
      obtain ⟨hname, hrest⟩ := List.forall_mem_cons.1 hnew
      obtain ⟨hnot, honce⟩ := List.nodup_cons.1 honce
      rw [firstRepeat, if_neg hname]
      refine ih honce fun n hn hmem => ?_
      rcases List.mem_cons.1 hmem with rfl | hmem
      · exact hnot hn
      · exact hrest n hn hmem

theorem firstRepeat_eq_some {seen names : List String} {name : String} :
    firstRepeat seen names = some name ↔ ∃ before after, names = before ++ name :: after ∧
      firstRepeat seen before = none ∧ (name ∈ before ∨ name ∈ seen) := by
  -- a head that is new moves from the names in front to those that were seen
  induction names generalizing seen with
  | nil => simp [firstRepeat]
  | cons n rest ih =>
    by_cases hn : n ∈ seen
    · rw [firstRepeat, if_pos hn, Option.some.injEq]
      constructor
      · rintro rfl
        exact ⟨[], rest, rfl, rfl, .inr hn⟩
      · rintro ⟨before, after, hsplit, hnone, -⟩
        cases before with
        | nil => exact (List.cons.inj hsplit).1
        | cons m before =>
          obtain ⟨rfl, -⟩ := List.cons.inj hsplit
          rw [firstRepeat, if_pos hn] at hnone
          cases hnone
    · have hstep : ∀ before, firstRepeat seen (n :: before) = firstRepeat (n :: seen) before := by
        intro before
        rw [firstRepeat, if_neg hn]
      have hmem : ∀ before,
          (name ∈ n :: before ∨ name ∈ seen) ↔ (name ∈ before ∨ name ∈ n :: seen) := by
        intro before
        rw [List.mem_cons, List.mem_cons, or_assoc, or_left_comm]
      rw [hstep, ih]
      constructor
      · rintro ⟨before, after, rfl, hnone, hagain⟩
        exact ⟨n :: before, after, rfl, (hstep before).trans hnone, (hmem before).2 hagain⟩
      · rintro ⟨before, after, hsplit, hnone, hagain⟩
        cases before with
        | nil =>
          obtain ⟨rfl, -⟩ := List.cons.inj hsplit
          exact absurd (hagain.resolve_left List.not_mem_nil) hn
        | cons m before =>
          obtain ⟨rfl, rfl⟩ := List.cons.inj hsplit
          exact ⟨before, after, rfl, (hstep before).symm.trans hnone, (hmem before).1 hagain⟩

/-- A name that stands in a list again. -/
theorem firstRepeat_eq_some_iff {names : List String} {name : String} :
    firstRepeat [] names = some name ↔
      ∃ before after, names = before ++ name :: after ∧ before.Nodup ∧ name ∈ before := by
  rw [firstRepeat_eq_some]
  simp only [firstRepeat_eq_none, List.not_mem_nil, not_false_eq_true, implies_true,
    and_true, or_false]

theorem firstRepeat_eq_none_iff {names : List String} :
    firstRepeat [] names = none ↔ names.Nodup := by
  rw [firstRepeat_eq_none]
  simp only [List.not_mem_nil, not_false_eq_true, implies_true, and_true]

/-- The lineages of all listed types, under their identities. -/
def climbAll (types : Table TypeId Archetype) : Except SchemaError (List (TypeId × List TypeId)) :=
  types.values.mapM fun a => do pure (a.id, ← lineageOf types a)

theorem build_of_repeat {name : String} (h : firstRepeat [] (decls.map (·.name)) = some name) :
    build decls = .error (.duplicateType name) := by
  unfold build
  simp only [h]
  rfl

theorem build_of_misplaced {e : SchemaError} (honce : (decls.map (·.name)).Nodup)
    (h : decls.mapM (resolveDecl decls) = .error e) : build decls = .error e := by
  unfold build
  simp only [firstRepeat_eq_none_iff.2 honce, h]
  rfl

theorem build_of_parented (honce : (decls.map (·.name)).Nodup)
    (hparented : ∀ d ∈ decls, d.Parented decls) :
    build decls = (climbAll (listing decls)).map fun lineages =>
      ⟨listing decls, .ofList lineages,
        .ofList (lineages.map fun (id, lineage) =>
          (id, mergeDefaults (listing decls) lineage))⟩ := by
  obtain ⟨archetypes, h⟩ := exists_mapM_ok fun d hd => (resolveDecl_eq_ok honce).2 (hparented d hd)
  obtain ⟨-, rfl⟩ := accepted_of_resolved h
  have hlisting : Table.ofList ((decls.map TypeDecl.accepted).map fun a => (a.id, a)) =
      listing decls := by
    rw [List.map_map]
    rfl
  unfold build
  simp only [firstRepeat_eq_none_iff.2 honce, h]
  change
    climbAll (Table.ofList ((decls.map TypeDecl.accepted).map fun a => (a.id, a))) >>= _ = _
  rw [hlisting]
  cases climbAll (listing decls) with
  | error e => rfl
  | ok lineages => rfl

theorem climbAll_eq_error {types : Table TypeId Archetype} (hclosed : Closed types)
    {e : SchemaError} :
    climbAll types = .error e ↔ ∃ type a, types.get? type = some a ∧
      (¬ ∃ line, Ascent types (some type) line) ∧
      (∀ other b, types.get? other = some b → compare other type = .lt →
        ∃ line, Ascent types (some other) line) ∧ e = .cycle a.name := by
  have hfails :
      ∀ a, (do pure (a.id, ← lineageOf types a) : Except SchemaError (TypeId × List TypeId)) =
      .error e ↔ lineageOf types a = .error e := by
    intro a
    cases lineageOf types a <;> simp [bind, Except.bind, pure, Except.pure]
  have hdone : ∀ {type a}, types.get? type = some a →
      ((∃ entry, (do pure (a.id, ← lineageOf types a) : Except SchemaError (TypeId × List TypeId)) =
        .ok entry) ↔ ∃ line, Ascent types (some type) line) := by
    intro type a ha
    have hok : ∀ found, lineageOf types a = .ok found ↔
        ∃ line, Ascent types (some type) line ∧ found = ids line := fun _ =>
      lineageOf_eq_ok hclosed ha
    cases hlineage : lineageOf types a with
    | error e =>
      rw [lineageOf_eq_error hclosed ha] at hlineage
      simp [bind, Except.bind, hlineage.2]
    | ok found =>
      obtain ⟨line, hline, -⟩ := (hok found).1 hlineage
      simp [bind, Except.bind, pure, Except.pure, Exists.intro line hline]
  rw [climbAll, mapM_eq_error]
  -- types stand in the order of their identities, so what comes before the failure has
  -- smaller ones
  constructor
  · rintro ⟨before, a, after, hsplit, hbefore, ha⟩
    obtain ⟨type, htype, hsmaller⟩ := Table.mem_before_of_lt hsplit
    obtain ⟨rfl, hendless⟩ := (lineageOf_eq_error hclosed htype).1 ((hfails a).1 ha)
    exact ⟨type, a, htype, hendless,
      fun other b hb hlt => (hdone hb).1 (hbefore b (hsmaller other b hb hlt)), rfl⟩
  · rintro ⟨type, a, htype, hendless, hsmaller, rfl⟩
    obtain ⟨before, after, hsplit, hbefore⟩ := Table.values_split htype
    refine ⟨before, a, after, hsplit, fun b hb => ?_,
      (hfails a).2 ((lineageOf_eq_error hclosed htype).2 ⟨rfl, hendless⟩)⟩
    obtain ⟨other, hother, hlt⟩ := hbefore b hb
    exact (hdone hother).2 (hsmaller other b hother hlt)

/-- Climbing fails at the declared type of least identity whose chain does not
end. -/
theorem climbAll_listing_eq_error (honce : (decls.map (·.name)).Nodup)
    (hapart : Distinguished decls) (hparented : ∀ d ∈ decls, d.Parented decls) {e : SchemaError} :
    climbAll (listing decls) = .error e ↔ ∃ d ∈ decls, ¬ d.Ends decls ∧
      (∀ b ∈ decls, compare b.type d.type = .lt → b.Ends decls) ∧ e = .cycle d.name := by
  rw [climbAll_eq_error (closed_listing hparented)]
  constructor
  · rintro ⟨type, a, ha, hendless, hsmaller, rfl⟩
    obtain ⟨d, hd, rfl, rfl⟩ := mem_of_listing ha
    rw [exists_ascent_iff honce hapart hparented hd] at hendless
    refine ⟨d, hd, hendless, fun b hb hlt => ?_, rfl⟩
    exact (exists_ascent_iff honce hapart hparented hb).1
      (hsmaller b.type _ (get?_listing honce hapart hb) hlt)
  · rintro ⟨d, hd, hendless, hsmaller, rfl⟩
    refine ⟨d.type, d.accepted, get?_listing honce hapart hd, ?_, fun other b hb hlt => ?_, rfl⟩
    · rwa [exists_ascent_iff honce hapart hparented hd]
    · obtain ⟨c, hc, rfl, rfl⟩ := mem_of_listing hb
      exact (exists_ascent_iff honce hapart hparented hc).2 (hsmaller c hc hlt)

theorem refused_iff (hapart : Distinguished decls) {e : SchemaError} :
    build decls = .error e ↔ Refused decls e := by
  constructor
  · intro h
    -- each pass sees only declarations that those before it let through
    cases hrepeat : firstRepeat [] (decls.map (·.name)) with
    | some name =>
      rw [build_of_repeat hrepeat] at h
      obtain ⟨before, after, hsplit, honce, hagain⟩ := firstRepeat_eq_some_iff.1 hrepeat
      cases h
      exact .repeated hsplit honce hagain
    | none =>
      have honce := firstRepeat_eq_none_iff.1 hrepeat
      cases hresolved : decls.mapM (resolveDecl decls) with
      | error e' =>
        rw [build_of_misplaced honce hresolved] at h
        cases h
        obtain ⟨before, d, after, hsplit, hbefore, hd⟩ := mapM_eq_error.1 hresolved
        exact .misplaced honce hsplit (fun b hb => (resolveDecl_eq_ok honce).1 (hbefore b hb))
          ((resolveDecl_eq_error honce).1 hd)
      | ok archetypes =>
        obtain ⟨hparented, -⟩ := accepted_of_resolved hresolved
        rw [build_of_parented honce hparented] at h
        cases hclimb : climbAll (listing decls) with
        | ok lineages =>
          rw [hclimb] at h
          cases h
        | error e' =>
          rw [hclimb] at h
          cases h
          obtain ⟨d, hd, hendless, hsmaller, rfl⟩ :=
            (climbAll_listing_eq_error honce hapart hparented).1 hclimb
          exact .endless honce hparented hd hendless hsmaller
  · intro h
    cases h with
    | repeated hsplit honce hagain =>
      exact build_of_repeat (firstRepeat_eq_some_iff.2 ⟨_, _, hsplit, honce, hagain⟩)
    | misplaced honce hsplit hbefore hd =>
      refine build_of_misplaced honce (mapM_eq_error.2 ⟨_, _, _, hsplit, fun b hb => ?_, ?_⟩)
      · exact (resolveDecl_eq_ok honce).2 (hbefore b hb)
      · exact (resolveDecl_eq_error honce).2 hd
    | endless honce hparented hd hendless hsmaller =>
      rw [build_of_parented honce hparented,
        (climbAll_listing_eq_error honce hapart hparented).2 ⟨_, hd, hendless, hsmaller, rfl⟩]
      rfl

theorem forest_of_build (hapart : Distinguished decls) {t : Taxonomy} (h : build decls = .ok t) :
    Forest decls := by
  obtain ⟨archetypes, lineages, hmade⟩ := made_of_build h
  obtain ⟨hparented, htypes⟩ := listing_of_build h
  refine ⟨hmade.once, hparented, fun d hd => ?_⟩
  have hlisted : t.get? d.type = some d.accepted := by
    rw [get?, htypes, get?_listing hmade.once hapart hd]
  obtain ⟨line, hline, -⟩ := (settled_of_build h).ascends hlisted
  exact (exists_ascent_iff hmade.once hapart hparented hd).1 ⟨line, htypes ▸ hline⟩

end Taxonomy

theorem Forest.not_refused {decls : List TypeDecl} (h : Forest decls) {e : SchemaError} :
    ¬ Refused decls e := by
  intro hrefused
  cases hrefused with
  | repeated hsplit _ hagain =>
    have honce := h.once
    rw [hsplit, List.nodup_append] at honce
    exact honce.2.2 _ hagain _ List.mem_cons_self rfl
  | @misplaced before after d e honce hsplit _ hd =>
    have hmem : d ∈ decls := hsplit ▸ List.mem_append_right _ List.mem_cons_self
    obtain ⟨a, ha⟩ := (TypeDecl.resolveDecl_eq_ok honce).2 (h.parented _ hmem)
    rw [(TypeDecl.resolveDecl_eq_error honce).2 hd] at ha
    cases ha
  | endless _ _ hd hendless _ => exact hendless (h.ends _ hd)

namespace Taxonomy

open TypeDecl

variable {decls : List TypeDecl} {t : Taxonomy} {d : TypeDecl}

theorem accepted_iff (hapart : Distinguished decls) :
    (∃ t, build decls = .ok t) ↔ Forest decls := by
  constructor
  · rintro ⟨t, h⟩
    exact forest_of_build hapart h
  · intro hforest
    cases h : build decls with
    | ok t => exact ⟨t, rfl⟩
    | error e => exact absurd ((refused_iff hapart).1 h) hforest.not_refused

/-- The lineage of a declared type is its chain. -/
theorem lineage_of_chain (hapart : Distinguished decls) (h : build decls = .ok t) (hd : d ∈ decls)
    {chain : List TypeDecl} (hchain : d.Chain decls chain) : t.lineage d.type = chain.map type := by
  have hforest := forest_of_build hapart h
  have hline := ascent_of_chain hforest.once hapart hd hchain
  rw [(settled_of_build h).lineage_eq ((listing_of_build h).2 ▸ hline), ids, List.map_map]
  rfl

theorem get?_of_build (hapart : Distinguished decls) (h : build decls = .ok t) (hd : d ∈ decls) :
    t.get? d.type = some d.accepted := by
  rw [get?, (listing_of_build h).2, get?_listing (forest_of_build hapart h).once hapart hd]

/-- The types of a lineage are all of one kind. -/
theorem kind_of_mem_lineage (hapart : Distinguished decls) (h : build decls = .ok t)
    {type other : TypeId} (hmem : other ∈ t.lineage type) : t.kind? other = t.kind? type := by
  have hforest := forest_of_build hapart h
  obtain ⟨a, ha⟩ := (settled_of_build h).exists_of_mem hmem
  rw [get?, (listing_of_build h).2] at ha
  obtain ⟨d, hd, rfl, -⟩ := mem_of_listing ha
  obtain ⟨chain, hchain⟩ := hforest.ends d hd
  rw [lineage_of_chain hapart h hd hchain] at hmem
  obtain ⟨b, hb, rfl⟩ := List.mem_map.1 hmem
  obtain ⟨hbmem, hkind⟩ := hchain.alike hforest.once hforest.parented hd b hb
  have hb' := get?_of_build hapart h hbmem
  have hd' := get?_of_build hapart h hd
  unfold get? at hb' hd'
  rw [kind?, kind?, hb', hd']
  exact congrArg some hkind

/-- Forests are accepted, all else is refused with the error that says why, and
what is accepted is an order of types that filters respect. -/
theorem accepts_forests (decls : List TypeDecl) (hapart : Distinguished decls) :
    ((∃ t, build decls = .ok t) ↔ Forest decls) ∧
    (∀ e, build decls = .error e ↔ Refused decls e) ∧
    ∀ t, build decls = .ok t →
      (∀ d ∈ decls, ∃ chain, d.Chain decls chain ∧ t.lineage d.type = chain.map type ∧
        (t.lineage d.type).Nodup ∧ ∀ other ∈ t.lineage d.type, t.kind? other = some d.kind) ∧
      (∀ type, (∀ d ∈ decls, d.type ≠ type) → t.lineage type = []) ∧
      (∀ d ∈ decls, t.isA d.type d.type = true) ∧
      (∀ low mid high, t.isA low mid = true → t.isA mid high = true → t.isA low high = true) ∧
      (∀ low high, t.isA low high = true → t.isA high low = true → low = high) ∧
      ∀ (filter : TypeFilter) (low high : TypeId), t.isA low high = true →
        filter.accepts t high = true →
        filter.accepts t low = true := by
  refine ⟨accepted_iff hapart, fun e => refused_iff hapart, fun t h => ?_⟩
  have hsettled := settled_of_build h
  refine ⟨fun d hd => ?_, fun type hnone => ?_, fun d hd => ?_,
    fun low mid high => hsettled.isA_trans,
    fun low high => hsettled.isA_antisymm, fun filter low high => hsettled.accepts_of_isA filter⟩
  · obtain ⟨chain, hchain⟩ := (forest_of_build hapart h).ends d hd
    refine ⟨chain, hchain, lineage_of_chain hapart h hd hchain, hsettled.nodup_lineage d.type,
      fun other hother => ?_⟩
    have hd' := get?_of_build hapart h hd
    unfold get? at hd'
    rw [kind_of_mem_lineage hapart h hother, kind?, hd']
    rfl
  · refine hsettled.unlisted (Option.eq_none_iff_forall_ne_some.2 fun a ha => ?_)
    rw [get?, (listing_of_build h).2] at ha
    obtain ⟨d, hd, htype, -⟩ := mem_of_listing ha
    exact hnone d hd htype
  · exact hsettled.isA_refl (get?_of_build hapart h hd)

end Taxonomy

/-! ## A forest of three -/

namespace Menagerie

/-- Animals have four legs. -/
def animal : TypeDecl := ⟨"animal", .node, none, ⟨[("legs", .int 4), ("name", .str "")]⟩⟩

/-- Birds are animals with two legs that fly. -/
def bird : TypeDecl := ⟨"bird", .node, some "animal", ⟨[("legs", .int 2), ("flies", .bool true)]⟩⟩

/-- Penguins are birds that do not fly. -/
def penguin : TypeDecl := ⟨"penguin", .node, some "bird", ⟨[("flies", .bool false)]⟩⟩

/-- All three, the lowest first. -/
def types : List TypeDecl := [penguin, bird, animal]

theorem types_distinguished : TypeDecl.Distinguished types := by decide +kernel

theorem chain_animal : animal.Chain types [animal] := .top rfl

theorem chain_bird : bird.Chain types [bird, animal] :=
  .under (List.mem_cons_of_mem _ (List.mem_cons_of_mem _ List.mem_cons_self)) rfl chain_animal

theorem chain_penguin : penguin.Chain types [penguin, bird, animal] :=
  .under (List.mem_cons_of_mem _ List.mem_cons_self) rfl chain_bird

theorem forest : Forest types where
  once := by decide
  parented := by
    intro d hd name hname
    simp only [types, List.mem_cons, List.not_mem_nil, or_false] at hd
    rcases hd with rfl | rfl | rfl
    · exact ⟨bird, by simp [types], Option.some.inj hname, rfl⟩
    · exact ⟨animal, by simp [types], Option.some.inj hname, rfl⟩
    · cases hname
  ends := by
    intro d hd
    simp only [types, List.mem_cons, List.not_mem_nil, or_false] at hd
    rcases hd with rfl | rfl | rfl
    · exact ⟨_, chain_penguin⟩
    · exact ⟨_, chain_bird⟩
    · exact ⟨_, chain_animal⟩

theorem exists_built : ∃ t, Taxonomy.build types = .ok t ∧
    t.get? penguin.type = some penguin.accepted ∧
    t.lineage penguin.type = [penguin.type, bird.type, animal.type] ∧
    t.get? animal.type = some animal.accepted ∧ t.lineage animal.type = [animal.type] := by
  obtain ⟨t, ht⟩ := (Taxonomy.accepted_iff types_distinguished).2 forest
  have hpenguin : penguin ∈ types := List.mem_cons_self
  have hanimal : animal ∈ types :=
    List.mem_cons_of_mem _ (List.mem_cons_of_mem _ List.mem_cons_self)
  exact ⟨t, ht, Taxonomy.get?_of_build types_distinguished ht hpenguin,
    Taxonomy.lineage_of_chain types_distinguished ht hpenguin chain_penguin,
    Taxonomy.get?_of_build types_distinguished ht hanimal,
    Taxonomy.lineage_of_chain types_distinguished ht hanimal chain_animal⟩

end Menagerie

/-- Though it is declared first, a penguin's lineage is known, and it is an
animal. -/
theorem Taxonomy.menagerie_is_accepted :
    TypeDecl.Distinguished Menagerie.types ∧ ∃ t, Taxonomy.build Menagerie.types = .ok t ∧
      t.lineage Menagerie.penguin.type =
        [Menagerie.penguin.type, Menagerie.bird.type, Menagerie.animal.type] ∧
      t.isA Menagerie.penguin.type Menagerie.animal.type = true := by
  obtain ⟨hiff, -, hok⟩ := Taxonomy.accepts_forests Menagerie.types Menagerie.types_distinguished
  obtain ⟨t, ht⟩ := hiff.2 Menagerie.forest
  have hpenguin : Menagerie.penguin ∈ Menagerie.types := List.mem_cons_self
  obtain ⟨chain, hchain, hlineage, -⟩ := (hok t ht).1 _ hpenguin
  obtain rfl := Menagerie.chain_penguin.unique Menagerie.forest.once hchain
  refine ⟨Menagerie.types_distinguished, t, ht, hlineage, ?_⟩
  rw [Taxonomy.isA_iff, hlineage]
  exact List.mem_cons_of_mem _ (List.mem_cons_of_mem _ List.mem_cons_self)

end Wayfarer
