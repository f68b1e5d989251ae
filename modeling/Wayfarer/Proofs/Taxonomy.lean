import Mathlib.Data.List.Nodup
import Mathlib.Logic.Relation
import Wayfarer.Proofs.Schema

/-!
# What an accepted taxonomy is

* `Taxonomy.Ascent` lists the accepted types from one upwards. There is one such
  list at most (`Ascent.unique`), and no type stands in it twice
  (`Ascent.nodup`).
* `Taxonomy.lineageOf_eq_ok` and `Taxonomy.lineageOf_eq_error`: climbing finds
  the ascent if there is one, and otherwise says that there is a cycle. The
  bound on the climb is never what stops it.
* `Taxonomy.Settled` is what is relied on of an accepted taxonomy
  (`settled_of_build`). The types at and above a type (`Taxonomy.Descends`) are
  those of its lineage (`Settled.descends_iff`), and `isA` orders the types
  (`Settled.isA_trans`, `Settled.isA_antisymm`).
-/

namespace Wayfarer

namespace Taxonomy

/-! ## Climbing -/

/-- The accepted types from one upwards: its own, its parent's and so on, up to
one without a parent. -/
inductive Ascent (types : Table TypeId Archetype) : Option TypeId → List Archetype → Prop
  | top : Ascent types none []
  | up {type : TypeId} {a : Archetype} {line : List Archetype} :
    types.get? type = some a → Ascent types a.parent line → Ascent types (some type) (a :: line)

/-- A table in which every type is listed under its identity, and every parent
is listed. -/
structure Closed (types : Table TypeId Archetype) : Prop where
  id_eq : ∀ {type a}, types.get? type = some a → a.id = type
  parent : ∀ {type a above}, types.get? type = some a → a.parent = some above →
    ∃ b, types.get? above = some b

/-- The identities of archetypes. -/
abbrev ids (line : List Archetype) : List TypeId := line.map (·.id)

variable {types : Table TypeId Archetype} {cursor : Option TypeId} {type : TypeId} {a : Archetype}
  {line : List Archetype}

namespace Ascent

theorem unique (h : Ascent types cursor line) {other : List Archetype}
    (hother : Ascent types cursor other) : other = line := by
  induction h generalizing other with
  | top =>
    cases hother
    rfl
  | up ha _ ih =>
    cases hother with
    | up hb hrest =>
      rw [ha] at hb
      obtain rfl := Option.some.inj hb
      rw [ih hrest]

/-- The ascent of a listed type starts with it and goes on from its parent. -/
theorem up_iff (ha : types.get? type = some a) :
    Ascent types (some type) line ↔ ∃ rest, Ascent types a.parent rest ∧ line = a :: rest := by
  constructor
  · intro h
    cases h with
    | up hb hrest =>
      rw [ha] at hb
      obtain rfl := Option.some.inj hb
      exact ⟨_, hrest, rfl⟩
  · rintro ⟨rest, hrest, rfl⟩
    exact .up ha hrest

/-- From any type of it, an ascent goes on as that type's own. -/
theorem onwards (hclosed : Closed types) (h : Ascent types cursor line)
    {before after : List Archetype} (hline : line = before ++ a :: after) :
    Ascent types (some a.id) (a :: after) := by
  induction h generalizing before with
  | top => simp at hline
  | up hb hrest ih =>
    cases before with
    | nil =>
      obtain ⟨rfl, rfl⟩ := List.cons.inj hline
      exact .up (hclosed.id_eq hb ▸ hb) hrest
    | cons c before =>
      obtain ⟨-, hline⟩ := List.cons.inj hline
      exact ih hline

/-- A type that came up again would be followed by the same types again, without
end. -/
theorem nodup (hclosed : Closed types) (h : Ascent types cursor line) : (ids line).Nodup := by
  induction h with
  | top => exact List.nodup_nil
  | @up type b rest hb hrest ih =>
    refine List.nodup_cons.2 ⟨fun hmem => ?_, ih⟩
    obtain ⟨c, hc, hid⟩ := List.mem_map.1 hmem
    obtain ⟨before, after, hsplit⟩ := List.append_of_mem hc
    have hagain : Ascent types (some type) (c :: after) := by
      have hown : type = c.id := (hclosed.id_eq hb).symm.trans hid.symm
      exact hown ▸ onwards hclosed hrest hsplit
    have hsame : c :: after = b :: rest := (up hb hrest).unique hagain
    have hlength := congrArg List.length (List.cons.inj hsame).2
    rw [hsplit, List.length_append, List.length_cons] at hlength
    omega

/-- Every type of an ascent is listed. -/
theorem listed (hclosed : Closed types) (h : Ascent types cursor line) (ha : a ∈ line) :
    types.get? a.id = some a := by
  obtain ⟨before, after, hline⟩ := List.append_of_mem ha
  cases onwards hclosed h hline with
  | up hfound _ => exact hfound

end Ascent

/-- There is nothing to climb without a parent. -/
theorem climb_none_eq_some {fuel : Nat} {lineage found : List TypeId} (honce : lineage.Nodup) :
    climb types fuel lineage none = some found ↔
      ∃ line, Ascent types none line ∧ (lineage ++ ids line).Nodup ∧ line.length ≤ fuel ∧
        found = lineage ++ ids line := by
  have hclimb : climb types fuel lineage none = some lineage := by
    cases fuel <;> rfl
  rw [hclimb]
  constructor
  · intro h
    obtain rfl := Option.some.inj h
    exact ⟨[], .top, by simpa using honce, Nat.zero_le _, by simp⟩
  · rintro ⟨line, hline, -, -, rfl⟩
    cases hline
    simp

/-- Climbing appends the ascent, if that is within reach and meets nothing that
stands in the list already. -/
theorem climb_eq_some (hclosed : Closed types) {fuel : Nat} {lineage found : List TypeId}
    (honce : lineage.Nodup) (hcursor : ∀ type, cursor = some type → ∃ a, types.get? type = some a) :
    climb types fuel lineage cursor = some found ↔
      ∃ line, Ascent types cursor line ∧ (lineage ++ ids line).Nodup ∧ line.length ≤ fuel ∧
        found = lineage ++ ids line := by
  -- with one type of fuel fewer, one more type stands in the list
  induction fuel generalizing lineage cursor with
  | zero =>
    cases cursor with
    | none => exact climb_none_eq_some honce
    | some type =>
      constructor
      · intro h
        cases h
      · rintro ⟨line, hline, -, hlength, -⟩
        cases hline
        simp at hlength
  | succ fuel ih =>
    cases cursor with
    | none => exact climb_none_eq_some honce
    | some type =>
      obtain ⟨a, ha⟩ := hcursor type rfl
      have hstep : ∀ line, lineage ++ ids (a :: line) = (lineage ++ [type]) ++ ids line := by
        intro line
        simp [ids, hclosed.id_eq ha]
      unfold climb
      by_cases hmem : type ∈ lineage
      · rw [if_pos hmem]
        constructor
        · intro h
          cases h
        · rintro ⟨line, hline, hnodup, -, -⟩
          obtain ⟨rest, -, rfl⟩ := (Ascent.up_iff ha).1 hline
          rw [hstep, List.nodup_append, List.nodup_append] at hnodup
          exact absurd rfl (hnodup.1.2.2 type hmem type List.mem_cons_self)
      · rw [if_neg hmem, ha, Option.bind_some]
        have honce' : (lineage ++ [type]).Nodup :=
          List.nodup_append_comm.1 (List.nodup_cons.2 ⟨hmem, honce⟩)
        rw [ih honce' fun above habove => hclosed.parent ha habove]
        constructor
        · rintro ⟨line, hline, hnodup, hlength, rfl⟩
          refine ⟨a :: line, .up ha hline, ?_, Nat.succ_le_succ hlength, (hstep line).symm⟩
          rwa [hstep]
        · rintro ⟨line, hline, hnodup, hlength, rfl⟩
          obtain ⟨rest, hrest, rfl⟩ := (Ascent.up_iff ha).1 hline
          rw [hstep] at hnodup
          exact ⟨rest, hrest, hnodup, Nat.le_of_succ_le_succ hlength, hstep rest⟩

/-- An ascent has at most as many types as are listed. -/
theorem Ascent.length_le (hclosed : Closed types) (h : Ascent types cursor line) :
    line.length ≤ types.size := by
  have hkeys : ids line ⊆ types.keys := by
    intro type htype
    obtain ⟨a, ha, rfl⟩ := List.mem_map.1 htype
    exact Table.mem_keys.2 ⟨a, h.listed hclosed ha⟩
  have hle := List.Nodup.length_le_of_subset (h.nodup hclosed) hkeys
  simpa [ids, Table.keys, Table.size] using hle

theorem climb_listed (hclosed : Closed types) (ha : types.get? type = some a)
    {found : List TypeId} :
    climb types types.size [a.id] a.parent = some found ↔
      ∃ line, Ascent types (some type) line ∧ found = ids line := by
  rw [climb_eq_some hclosed (List.nodup_singleton _) fun _ habove => hclosed.parent ha habove]
  constructor
  · rintro ⟨line, hline, -, -, rfl⟩
    exact ⟨a :: line, .up ha hline, rfl⟩
  · rintro ⟨line, hline, rfl⟩
    have hnodup := hline.nodup hclosed
    have hlength := hline.length_le hclosed
    obtain ⟨rest, hrest, rfl⟩ := (Ascent.up_iff ha).1 hline
    exact ⟨rest, hrest, hnodup, Nat.le_of_succ_le hlength, rfl⟩

theorem lineageOf_eq_ok (hclosed : Closed types) (ha : types.get? type = some a)
    {found : List TypeId} :
    lineageOf types a = .ok found ↔ ∃ line, Ascent types (some type) line ∧ found = ids line := by
  rw [← climb_listed hclosed ha]
  unfold lineageOf
  split
  · rename_i lineage hclimb
    simp [hclimb]
  · rename_i hclimb
    simp [hclimb]

theorem lineageOf_eq_error (hclosed : Closed types) (ha : types.get? type = some a)
    {e : SchemaError} :
    lineageOf types a = .error e ↔ e = .cycle a.name ∧ ¬ ∃ line, Ascent types (some type) line := by
  have hclimb : (¬ ∃ line, Ascent types (some type) line) ↔
      climb types types.size [a.id] a.parent = none := by
    rw [Option.eq_none_iff_forall_ne_some]
    constructor
    · intro hnone found hfound
      obtain ⟨line, hline, -⟩ := (climb_listed hclosed ha).1 hfound
      exact hnone ⟨line, hline⟩
    · rintro hnone ⟨line, hline⟩
      exact hnone _ ((climb_listed hclosed ha).2 ⟨line, hline, rfl⟩)
  rw [hclimb]
  unfold lineageOf
  split
  · rename_i lineage hsome
    simp [hsome]
  · rename_i hnone
    simp [hnone, eq_comm]

/-! ## Accepted taxonomies -/

/-- The parent of an accepted type. -/
def parent? (t : Taxonomy) (type : TypeId) : Option TypeId := (t.get? type).bind (·.parent)

/-- One type is another or one of its ancestors: steps from parent to parent
lead there. -/
def Descends (t : Taxonomy) : TypeId → TypeId → Prop :=
  Relation.ReflTransGen fun type above => t.parent? type = some above

/-- A taxonomy in which every listed type has its ascent as lineage, and its
defaults along it. -/
structure Settled (t : Taxonomy) : Prop where
  closed : Closed t.types
  ascends : ∀ {type a}, t.get? type = some a →
    ∃ line, Ascent t.types (some type) line ∧ t.lineage type = ids line
  unlisted : ∀ {type}, t.get? type = none → t.lineage type = []
  merged : ∀ {type a}, t.get? type = some a →
    t.defaults type = some (mergeDefaults t.types (t.lineage type))

variable {decls : List TypeDecl} {t : Taxonomy}

end Taxonomy

namespace TypeDecl

variable {decls : List TypeDecl} {d : TypeDecl} {a : Archetype}

/-- The identity of the declared type. -/
def type (d : TypeDecl) : TypeId := TypeId.ofName d.name

/-- The accepted type. -/
def accepted (d : TypeDecl) : Archetype :=
  ⟨d.type, d.name, d.kind, d.parent.map TypeId.ofName, d.fields⟩

/-- The parent that a declaration names, if it names one, is declared with the
same kind. -/
def Parented (decls : List TypeDecl) (d : TypeDecl) : Prop :=
  ∀ name, d.parent = some name → ∃ above ∈ decls, above.name = name ∧ above.kind = d.kind

theorem accepted_of_resolveDecl (h : Taxonomy.resolveDecl decls d = .ok a) :
    d.Parented decls ∧ a = d.accepted := by
  unfold Taxonomy.resolveDecl at h
  unfold Parented accepted
  split at h
  · rename_i hnone
    rw [← Except.ok.inj h, hnone]
    exact ⟨fun _ hname => (nomatch hname), rfl⟩
  · rename_i parent hparent
    split at h
    · cases h
    · rename_i above hfind
      split at h
      · rename_i hkind
        rw [← Except.ok.inj h, hparent]
        refine ⟨fun name hname => ?_, rfl⟩
        obtain rfl := Option.some.inj hname
        exact ⟨above, List.mem_of_find?_eq_some hfind, by simpa using List.find?_some hfind, hkind⟩
      · cases h

end TypeDecl

namespace Taxonomy

variable {decls : List TypeDecl} {t : Taxonomy} {type : TypeId} {a : Archetype}

/-- The table of declared types. A later declaration of an identity replaces an
earlier one. -/
def listing (decls : List TypeDecl) : Table TypeId Archetype :=
  Table.ofList (decls.map fun d => (d.type, d.accepted))

theorem mem_of_listing (h : (listing decls).get? type = some a) :
    ∃ d ∈ decls, d.type = type ∧ d.accepted = a := by
  obtain ⟨d, hd, heq⟩ := List.mem_map.1 (Table.mem_of_get?_ofList h)
  obtain ⟨htype, ha⟩ := Prod.mk.inj heq
  exact ⟨d, hd, htype, ha⟩

theorem exists_listing {d : TypeDecl} (hd : d ∈ decls) :
    ∃ a, (listing decls).get? d.type = some a :=
  Table.exists_get?_ofList (List.mem_map.2 ⟨d, hd, rfl⟩)

theorem closed_listing (hparented : ∀ d ∈ decls, d.Parented decls) : Closed (listing decls) where
  id_eq := by
    intro type a h
    obtain ⟨d, -, htype, rfl⟩ := mem_of_listing h
    exact htype
  parent := by
    intro type a above h habove
    obtain ⟨d, hd, -, rfl⟩ := mem_of_listing h
    obtain ⟨name, hname, rfl⟩ := Option.map_eq_some_iff.1 habove
    obtain ⟨above, hmem, rfl, -⟩ := hparented d hd name hname
    exact exists_listing hmem

/-- Declarations that are resolved become accepted one by one. -/
theorem accepted_of_resolved {rest : List TypeDecl} {archetypes : List Archetype}
    (h : rest.mapM (resolveDecl decls) = .ok archetypes) :
    (∀ d ∈ rest, d.Parented decls) ∧ archetypes = rest.map TypeDecl.accepted := by
  induction rest generalizing archetypes with
  | nil =>
    cases h
    exact ⟨fun _ hd => absurd hd List.not_mem_nil, rfl⟩
  | cons d rest ih =>
    obtain ⟨a, more, hd, hrest, rfl⟩ := mapM_cons_eq_ok.1 h
    obtain ⟨hparented, rfl⟩ := TypeDecl.accepted_of_resolveDecl hd
    obtain ⟨hall, rfl⟩ := ih hrest
    exact ⟨List.forall_mem_cons.2 ⟨hparented, hall⟩, rfl⟩

/-- An accepted taxonomy lists the declared types, and every named parent is
among them. -/
theorem listing_of_build (h : build decls = .ok t) :
    (∀ d ∈ decls, d.Parented decls) ∧ t.types = listing decls := by
  obtain ⟨archetypes, lineages, hmade⟩ := made_of_build h
  obtain ⟨hparented, rfl⟩ := accepted_of_resolved hmade.resolved
  refine ⟨hparented, ?_⟩
  rw [hmade.types, listing, List.map_map]
  rfl

theorem settled_of_build (h : build decls = .ok t) : t.Settled := by
  obtain ⟨hparented, htypes⟩ := listing_of_build h
  obtain ⟨archetypes, lineages, hmade⟩ := made_of_build h
  have hclosed : Closed t.types := htypes ▸ closed_listing hparented
  refine ⟨hclosed, fun ha => ?_, fun hnone => ?_, fun ha => ?_⟩
  · exact (lineageOf_eq_ok hclosed ha).1 (hmade.lineage ha)
  · exact hmade.unlisted hnone
  · obtain ⟨lineage, hlineage, hdefaults⟩ := hmade.defaults ha
    rw [hmade.lineage ha] at hlineage
    rw [hdefaults, Except.ok.inj hlineage]

variable {line : List Archetype} {other third : TypeId}

theorem isA_iff (t : Taxonomy) : t.isA type other = true ↔ other ∈ t.lineage type := by
  unfold isA distance
  rw [List.findIdx?_isSome, List.any_eq_true]
  constructor
  · rintro ⟨x, hx, heq⟩
    exact beq_iff_eq.1 heq ▸ hx
  · intro hmem
    exact ⟨other, hmem, BEq.rfl⟩

namespace Settled

theorem lineage_eq (h : t.Settled) (hline : Ascent t.types (some type) line) :
    t.lineage type = ids line := by
  cases hline with
  | up ha hrest =>
    obtain ⟨line', hline', heq⟩ := h.ascends ha
    rw [heq, hline'.unique (.up ha hrest)]

/-- A type has a lineage if and only if it is accepted. -/
theorem exists_of_mem (h : t.Settled) (hmem : other ∈ t.lineage type) :
    ∃ a, t.get? type = some a := by
  cases ha : t.get? type with
  | none =>
    rw [h.unlisted ha] at hmem
    exact absurd hmem List.not_mem_nil
  | some a => exact ⟨a, rfl⟩

theorem nodup_lineage (h : t.Settled) (type : TypeId) : (t.lineage type).Nodup := by
  cases ha : t.get? type with
  | none =>
    rw [h.unlisted ha]
    exact List.nodup_nil
  | some a =>
    obtain ⟨line, hline, heq⟩ := h.ascends ha
    exact heq ▸ hline.nodup h.closed

/-- The lineage of an accepted type starts with the type. -/
theorem lineage_cons (h : t.Settled) (ha : t.get? type = some a) :
    ∃ rest, t.lineage type = type :: rest := by
  obtain ⟨line, hline, heq⟩ := h.ascends ha
  obtain ⟨rest, -, rfl⟩ := (Ascent.up_iff ha).1 hline
  exact ⟨ids rest, by rw [heq, ids, List.map_cons, h.closed.id_eq ha]⟩

/-- The lineage of an ancestor is what follows it in the lineage. -/
theorem lineage_split (h : t.Settled) {before after : List TypeId}
    (hsplit : t.lineage type = before ++ other :: after) : t.lineage other = other :: after := by
  obtain ⟨a, ha⟩ := h.exists_of_mem (hsplit ▸ List.mem_append_right before List.mem_cons_self)
  obtain ⟨line, hline, heq⟩ := h.ascends ha
  rw [heq] at hsplit
  obtain ⟨front, back, rfl, rfl, hback⟩ := List.map_eq_append_iff.1 hsplit
  obtain ⟨b, rest, rfl, rfl, rfl⟩ := List.map_eq_cons_iff.1 hback
  exact h.lineage_eq (hline.onwards h.closed rfl)

theorem lineage_suffix (h : t.Settled) (hmem : other ∈ t.lineage type) :
    t.lineage other <:+ t.lineage type := by
  obtain ⟨before, after, hsplit⟩ := List.append_of_mem hmem
  rw [h.lineage_split hsplit, hsplit]
  exact List.suffix_append _ _

theorem isA_refl (h : t.Settled) (ha : t.get? type = some a) : t.isA type type = true := by
  obtain ⟨rest, hrest⟩ := h.lineage_cons ha
  rw [isA_iff, hrest]
  exact List.mem_cons_self

theorem isA_trans (h : t.Settled) (hlow : t.isA type other = true)
    (hhigh : t.isA other third = true) :
    t.isA type third = true := by
  rw [isA_iff] at hlow hhigh ⊢
  exact (h.lineage_suffix hlow).subset hhigh

/-- Two types each of which descends from the other have the same lineage, which
starts with both. -/
theorem isA_antisymm (h : t.Settled) (hup : t.isA type other = true)
    (hdown : t.isA other type = true) :
    type = other := by
  rw [isA_iff] at hup hdown
  have hsame : t.lineage other = t.lineage type :=
    (h.lineage_suffix hup).eq_of_length_le (h.lineage_suffix hdown).length_le
  obtain ⟨a, ha⟩ := h.exists_of_mem hup
  obtain ⟨b, hb⟩ := h.exists_of_mem hdown
  obtain ⟨rest, hrest⟩ := h.lineage_cons ha
  obtain ⟨more, hmore⟩ := h.lineage_cons hb
  rw [hrest, hmore] at hsame
  exact (List.cons.inj hsame).1.symm

/-- A filter that lets a type pass lets all its descendants pass. -/
theorem accepts_of_isA (h : t.Settled) (filter : TypeFilter) (hlow : t.isA type other = true)
    (hhigh : filter.accepts t other = true) : filter.accepts t type = true := by
  cases filter with
  | any => rfl
  | oneOf listed =>
    obtain ⟨x, hx, hother⟩ := List.any_eq_true.1 hhigh
    exact List.any_eq_true.2 ⟨x, hx, h.isA_trans hlow hother⟩

/-- From a type, steps from parent to parent lead to every type of its
ascent. -/
theorem descends_of_ascent (h : t.Settled) {cursor : Option TypeId}
    (hline : Ascent t.types cursor line) (hcursor : cursor = some type) (ha : a ∈ line) :
    t.Descends type a.id := by
  induction hline generalizing type with
  | top => cases hcursor
  | @up type b rest hb hrest ih =>
    obtain rfl := Option.some.inj hcursor
    rcases List.mem_cons.1 ha with rfl | ha
    · rw [h.closed.id_eq hb]
      exact .refl
    · cases hparent : b.parent with
      | none =>
        rw [hparent] at hrest
        cases hrest
        exact absurd ha List.not_mem_nil
      | some above =>
        refine .head ?_ (ih hparent ha)
        rw [parent?, get?, hb]
        exact hparent

theorem parent_mem_lineage (h : t.Settled) (hparent : t.parent? type = some other) :
    other ∈ t.lineage type := by
  obtain ⟨a, ha, habove⟩ := Option.bind_eq_some_iff.1 hparent
  obtain ⟨b, hb⟩ := h.closed.parent ha habove
  obtain ⟨line, hline, -⟩ := h.ascends hb
  rw [h.lineage_eq (.up ha (habove ▸ hline))]
  obtain ⟨rest, -, rfl⟩ := (Ascent.up_iff hb).1 hline
  rw [ids, List.map_cons, List.map_cons, h.closed.id_eq hb]
  exact List.mem_cons_of_mem _ List.mem_cons_self

theorem descends_iff (h : t.Settled) (ha : t.get? type = some a) :
    t.Descends type other ↔ other ∈ t.lineage type := by
  constructor
  · intro hdescends
    -- the lineage of each type on the way is what is left of the lineage
    induction hdescends with
    | refl => exact (isA_iff t).1 (h.isA_refl ha)
    | tail _ hstep ih => exact (h.lineage_suffix ih).subset (h.parent_mem_lineage hstep)
  · intro hmem
    obtain ⟨line, hline, heq⟩ := h.ascends ha
    rw [heq] at hmem
    obtain ⟨b, hb, rfl⟩ := List.mem_map.1 hmem
    exact h.descends_of_ascent hline rfl hb

end Settled

end Taxonomy

end Wayfarer
