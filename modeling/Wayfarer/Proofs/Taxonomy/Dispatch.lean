import Mathlib.Data.List.MinMax
import Wayfarer.Proofs.Taxonomy.Forest
import Wayfarer.Walk.Conduct

/-!
# Which block runs

* `Taxonomy.Nearest` says which of several candidates is nearest above a type:
  one that the type descends from such that no other one stands in between.
  `Taxonomy.First` says where a candidate stands first.
* `Taxonomy.mostSpecific_eq_some` and `Taxonomy.mostSpecific_eq_none`: that is
  what is found, if anything is.
* `Conduct.Chosen` is the body that a dispatch runs. There is one and no other
  (`Conduct.chosen_unique`).
* `Conduct.dispatch_is_specific`: neither the order of blocks of different types
  matters nor blocks that are further away than the chosen one.
-/

namespace Wayfarer

namespace Taxonomy

/-- Among the candidates that a type descends from, one that no other of them
descends from. -/
structure Nearest (t : Taxonomy) (type : TypeId) (candidates : List TypeId)
    (c : TypeId) : Prop where
  mem : c ∈ candidates
  above : t.Descends type c
  least : ∀ other ∈ candidates, t.Descends type other → t.Descends other c → other = c

/-- The position at which something stands first. -/
def First {α : Type} (l : List α) (x : α) (i : Nat) : Prop :=
  l[i]? = some x ∧ ∀ j < i, l[j]? ≠ some x

/-! ## Ranks -/

variable {t : Taxonomy} {type c other : TypeId} {candidates : List TypeId}
  {a : Archetype} {i d : Nat}

/-- The candidates that a type descends from, by how far up they stand and by
their position. -/
def ranks (t : Taxonomy) (type : TypeId) (candidates : List TypeId) : List (Nat × Nat) :=
  candidates.zipIdx.filterMap fun c => (t.distance type c.1).map fun d => (d, c.2)

theorem mostSpecific_eq_argmin (t : Taxonomy) (type : TypeId) (candidates : List TypeId) :
    t.mostSpecific type candidates = ((ranks t type candidates).argmin (·.1)).map (·.2) := by
  have hnearer : nearer = List.argAux fun b c : Nat × Nat => b.1 < c.1 := by
    funext best next
    cases best with
    | none => rfl
    | some b => rfl
  have hranks :
      (candidates.mapIdx fun i c => (t.distance type c).map fun d => (d, i)).filterMap id =
      ranks t type candidates := by
    rw [List.mapIdx_eq_zipIdx_map, List.filterMap_map]
    rfl
  unfold mostSpecific List.argmin
  dsimp only
  rw [hranks, hnearer]

theorem mem_ranks : (d, i) ∈ ranks t type candidates ↔
    ∃ c, candidates[i]? = some c ∧ t.distance type c = some d := by
  simp only [ranks, List.mem_filterMap, Prod.exists, List.mem_zipIdx_iff_getElem?,
    Option.map_eq_some_iff, Prod.mk.injEq]
  constructor
  · rintro ⟨c, j, hc, d, hd, rfl, rfl⟩
    exact ⟨c, hc, hd⟩
  · rintro ⟨c, hc, hd⟩
    exact ⟨c, i, hc, d, hd, rfl, rfl⟩

/-- Ranks stand in the order of their positions. -/
theorem ranks_ordered (t : Taxonomy) (type : TypeId) (candidates : List TypeId) :
    (ranks t type candidates).Pairwise fun x y => x.2 < y.2 := by
  rw [ranks, List.pairwise_filterMap]
  have hzip : candidates.zipIdx.Pairwise fun x y => x.2 < y.2 := by
    rw [← List.pairwise_map, List.zipIdx_map_snd]
    exact List.pairwise_lt_range'
  refine hzip.imp fun hlt x hx y hy => ?_
  obtain ⟨_, -, rfl⟩ := Option.map_eq_some_iff.1 hx
  obtain ⟨_, -, rfl⟩ := Option.map_eq_some_iff.1 hy
  exact hlt

/-- In a list that is ordered by a key, what comes first has the smaller key. -/
theorem idxOf_le_iff {α : Type} [DecidableEq α] {key : α → Nat} {l : List α}
    (h : l.Pairwise fun x y => key x < key y) {x y : α} (hx : x ∈ l) (hy : y ∈ l) :
    l.idxOf x ≤ l.idxOf y ↔ key x ≤ key y := by
  have hlt : ∀ {x y : α}, x ∈ l → y ∈ l → l.idxOf x < l.idxOf y → key x < key y := by
    intro x y hx hy hlt
    have hpair := List.pairwise_iff_getElem.1 h _ _ (List.idxOf_lt_length_of_mem hx)
      (List.idxOf_lt_length_of_mem hy) hlt
    rwa [List.getElem_idxOf, List.getElem_idxOf] at hpair
  constructor
  · intro hle
    rcases Nat.lt_or_eq_of_le hle with hless | heq
    · exact Nat.le_of_lt (hlt hx hy hless)
    · exact Nat.le_of_eq (congrArg key ((List.idxOf_inj hx).1 heq))
  · intro hle
    exact Nat.le_of_not_lt fun hless => Nat.not_lt.2 hle (hlt hy hx hless)

theorem mostSpecific_eq_some_rank :
    t.mostSpecific type candidates = some i ↔ ∃ d, (d, i) ∈ ranks t type candidates ∧
      ∀ d' j, (d', j) ∈ ranks t type candidates → d ≤ d' ∧ (d' ≤ d → i ≤ j) := by
  rw [mostSpecific_eq_argmin, Option.map_eq_some_iff]
  have hordered := ranks_ordered t type candidates
  constructor
  · rintro ⟨⟨d, i⟩, hmin, rfl⟩
    obtain ⟨hmem, hleast, hfirst⟩ := List.mem_argmin_iff.1 hmin
    exact ⟨d, hmem, fun d' j hj =>
      ⟨hleast _ hj, fun hle => (idxOf_le_iff hordered hmem hj).1 (hfirst _ hj hle)⟩⟩
  · rintro ⟨d, hmem, hleast⟩
    refine ⟨(d, i), List.mem_argmin_iff.2 ⟨hmem, fun x hx => (hleast x.1 x.2 hx).1,
      fun x hx hle => ?_⟩, rfl⟩
    exact (idxOf_le_iff hordered hmem hx).2 ((hleast x.1 x.2 hx).2 hle)

theorem mostSpecific_eq_none_rank :
    t.mostSpecific type candidates = none ↔ ranks t type candidates = [] := by
  rw [mostSpecific_eq_argmin, Option.map_eq_none_iff, List.argmin_eq_none]

/-! ## Distances -/

namespace Settled

variable {d' : Nat}

theorem distance_eq_some (h : t.Settled) : t.distance type c = some d ↔
    (t.lineage type)[d]? = some c := by
  unfold distance
  rw [List.findIdx?_eq_some_iff_getElem, List.getElem?_eq_some_iff]
  constructor
  · rintro ⟨hd, hc, -⟩
    exact ⟨hd, beq_iff_eq.1 hc⟩
  · rintro ⟨hd, rfl⟩
    refine ⟨hd, BEq.rfl, fun j hj heq => ?_⟩
    have hsame := (List.Nodup.getElem_inj_iff (h.nodup_lineage type)).1 (beq_iff_eq.1 heq)
    omega

theorem exists_distance (h : t.Settled) (ha : t.get? type = some a) :
    (∃ d, t.distance type c = some d) ↔ t.Descends type c := by
  rw [h.descends_iff ha, List.mem_iff_getElem?]
  exact exists_congr fun d => h.distance_eq_some

/-- Of two types that a type descends from, the one that is nearer descends from
the other. -/
theorem descends_iff_le (h : t.Settled) (hc : t.distance type c = some d)
    (hother : t.distance type other = some d') : t.Descends other c ↔ d' ≤ d := by
  rw [h.distance_eq_some] at hc hother
  obtain ⟨hlt, hget⟩ := List.getElem?_eq_some_iff.1 hother
  have hsplit : t.lineage type =
      (t.lineage type).take d' ++ other :: (t.lineage type).drop (d' + 1) := by
    rw [← hget, List.getElem_cons_drop, List.take_append_drop]
  have hlineage := h.lineage_split hsplit
  obtain ⟨b, hb⟩ := h.exists_of_mem (hlineage ▸ List.mem_cons_self)
  rw [h.descends_iff hb, hlineage, ← hget, List.getElem_cons_drop, List.mem_iff_getElem?]
  constructor
  · rintro ⟨k, hk⟩
    rw [List.getElem?_drop, ← hc] at hk
    have hle :=
      (List.getElem?_inj (List.getElem?_eq_some_iff.1 hc).1 (h.nodup_lineage type)).1 hk.symm
    omega
  · intro hle
    refine ⟨d - d', ?_⟩
    rw [List.getElem?_drop, Nat.add_sub_cancel' hle, hc]

theorem eq_of_distance (h : t.Settled) (hc : t.distance type c = some d)
    (hother : t.distance type other = some d) : other = c := by
  rw [h.distance_eq_some] at hc hother
  exact Option.some.inj (hother.symm.trans hc)

/-- Two types that a type descends from are the same if each descends from the
other. -/
theorem eq_of_descends (h : t.Settled) (ha : t.get? type = some a) (hother : t.Descends type other)
    (hc : t.Descends type c) (hdown : t.Descends other c) (hup : t.Descends c other) :
    other = c := by
  obtain ⟨d, hd⟩ := (h.exists_distance ha).2 hc
  obtain ⟨d', hd'⟩ := (h.exists_distance ha).2 hother
  have hle := (h.descends_iff_le hd hd').1 hdown
  have hge := (h.descends_iff_le hd' hd).1 hup
  obtain rfl := Nat.le_antisymm hle hge
  exact h.eq_of_distance hd hd'

theorem mostSpecific_eq_some (h : t.Settled) (ha : t.get? type = some a) :
    t.mostSpecific type candidates = some i ↔ ∃ c, Nearest t type candidates c ∧
      First candidates c i := by
  -- the least distance is that of the nearest candidate, the least position that of its
  -- first mention
  rw [mostSpecific_eq_some_rank]
  constructor
  · rintro ⟨d, hmem, hleast⟩
    obtain ⟨c, hc, hd⟩ := mem_ranks.1 hmem
    refine ⟨c, ⟨List.mem_of_getElem? hc, (h.exists_distance ha).1 ⟨d, hd⟩,
      fun other hother habove hbelow => ?_⟩, hc, fun j hj hsame => ?_⟩
    · obtain ⟨j, hj⟩ := List.mem_iff_getElem?.1 hother
      obtain ⟨d', hd'⟩ := (h.exists_distance ha).2 habove
      have hle := (h.descends_iff_le hd hd').1 hbelow
      have hge := (hleast d' j (mem_ranks.2 ⟨other, hj, hd'⟩)).1
      obtain rfl := Nat.le_antisymm hle hge
      exact h.eq_of_distance hd hd'
    · have hle := (hleast d j (mem_ranks.2 ⟨c, hsame, hd⟩)).2 (Nat.le_refl d)
      omega
  · rintro ⟨c, hnearest, hc, hfirst⟩
    obtain ⟨d, hd⟩ := (h.exists_distance ha).2 hnearest.above
    refine ⟨d, mem_ranks.2 ⟨c, hc, hd⟩, fun d' j hj => ?_⟩
    obtain ⟨other, hother, hd'⟩ := mem_ranks.1 hj
    have habove := (h.exists_distance ha).1 ⟨d', hd'⟩
    have hsame : d' ≤ d → other = c := fun hle =>
      hnearest.least other (List.mem_of_getElem? hother) habove ((h.descends_iff_le hd hd').2 hle)
    refine ⟨Nat.le_of_not_lt fun hlt => ?_, fun hle => Nat.le_of_not_lt fun hlt => ?_⟩
    · rw [hsame (Nat.le_of_lt hlt), hd] at hd'
      have heq := Option.some.inj hd'
      omega
    · exact hfirst j hlt (hsame hle ▸ hother)

theorem mostSpecific_eq_none (h : t.Settled) (ha : t.get? type = some a) :
    t.mostSpecific type candidates = none ↔ ∀ c ∈ candidates, ¬ t.Descends type c := by
  rw [mostSpecific_eq_none_rank, List.eq_nil_iff_forall_not_mem]
  constructor
  · intro hnone c hc habove
    obtain ⟨i, hi⟩ := List.mem_iff_getElem?.1 hc
    obtain ⟨d, hd⟩ := (h.exists_distance ha).2 habove
    exact hnone (d, i) (mem_ranks.2 ⟨c, hi, hd⟩)
  · rintro hnone ⟨d, i⟩ hmem
    obtain ⟨c, hc, hd⟩ := mem_ranks.1 hmem
    exact hnone c (List.mem_of_getElem? hc) ((h.exists_distance ha).1 ⟨d, hd⟩)

theorem nearest_unique (h : t.Settled) (ha : t.get? type = some a)
    (hc : Nearest t type candidates c) (hother : Nearest t type candidates other) : other = c := by
  obtain ⟨d, hd⟩ := (h.exists_distance ha).2 hc.above
  obtain ⟨d', hd'⟩ := (h.exists_distance ha).2 hother.above
  rcases Nat.le_total d' d with hle | hle
  · exact hc.least other hother.mem hother.above ((h.descends_iff_le hd hd').2 hle)
  · exact (hother.least c hc.mem hc.above ((h.descends_iff_le hd' hd).2 hle)).symm

end Settled

end Taxonomy

/-! ## Dispatching -/

namespace Conduct

/-- The type that a block is for. -/
def blockType (block : String × Conduct Unit) : TypeId := .ofName block.1

/-- The body that a dispatch on a type runs: that of the first block for the
nearest type, or the default if the subject descends from none of the types. -/
inductive Chosen (t : Taxonomy) (subject : TypeId) (blocks : List (String × Conduct Unit))
    (default : Conduct Unit) : Conduct Unit → Prop
  | block {c : TypeId} {i : Nat} {block : String × Conduct Unit} :
    Taxonomy.Nearest t subject (blocks.map blockType) c →
      Taxonomy.First (blocks.map blockType) c i →
    blocks[i]? = some block → Chosen t subject blocks default block.2
  | default : (∀ block ∈ blocks, ¬ t.Descends subject (blockType block)) →
    Chosen t subject blocks default default

/-- A list with further elements put in anywhere, each of which has a
property. -/
inductive Widened {α : Type} (P : α → Prop) : List α → List α → Prop
  | nil : Widened P [] []
  | keep {x : α} {l l' : List α} : Widened P l l' → Widened P (x :: l) (x :: l')
  | add {x : α} {l l' : List α} : P x → Widened P l l' → Widened P l (x :: l')

/-- A block that does not matter beside others: the subject does not descend
from its type, or the nearest of the other types is a proper descendant of its
type. -/
def Idle (t : Taxonomy) (subject : TypeId) (blocks : List (String × Conduct Unit))
    (block : String × Conduct Unit) : Prop :=
  ¬ t.Descends subject (blockType block) ∨
    ∃ c, Taxonomy.Nearest t subject (blocks.map blockType) c ∧ t.Descends c (blockType block) ∧
      blockType block ≠ c

/-- In every walk over the types, the one conduct does as the other. -/
def RunsAs (t : Taxonomy) (conduct body : Conduct Unit) : Prop :=
  ∀ (σ : Type) [Durable σ] (actor : Actor) (stop : Stop) (v : Visit σ), stop.types = t →
    conduct.run actor stop v = body.run actor stop v

/-- A dispatch runs the chosen body, and there is no other choice. -/
structure Picks (t : Taxonomy) (subject : TypeId) (blocks : List (String × Conduct Unit))
    (default body : Conduct Unit) : Prop where
  only : ∀ other, Chosen t subject blocks default other ↔ other = body
  runs : RunsAs t (dispatch subject blocks default) body

variable {t : Taxonomy} {subject c : TypeId} {a : Archetype}
  {blocks blocks' : List (String × Conduct Unit)}
  {block : String × Conduct Unit} {default body other : Conduct Unit}

theorem first_iff_find? :
    (∃ i, Taxonomy.First (blocks.map blockType) c i ∧ blocks[i]? = some block) ↔
      blocks.find? (fun b => blockType b == c) = some block := by
  rw [List.find?_eq_some_iff_getElem]
  constructor
  · rintro ⟨i, ⟨hi, hfirst⟩, hblock⟩
    rw [List.getElem?_map, hblock] at hi
    obtain ⟨hlt, hget⟩ := List.getElem?_eq_some_iff.1 hblock
    refine ⟨beq_iff_eq.2 (Option.some.inj hi), i, hlt, hget, fun j hj => ?_⟩
    have hother := hfirst j hj
    rw [List.getElem?_map, List.getElem?_eq_getElem (hj.trans hlt)] at hother
    simpa using hother
  · rintro ⟨htype, i, hlt, hget, hbefore⟩
    have hblock : blocks[i]? = some block := List.getElem?_eq_some_iff.2 ⟨hlt, hget⟩
    refine ⟨i, ⟨?_, fun j hj => ?_⟩, hblock⟩
    · rw [List.getElem?_map, hblock]
      exact congrArg some (beq_iff_eq.1 htype)
    · rw [List.getElem?_map, List.getElem?_eq_getElem (hj.trans hlt)]
      simpa using hbefore j hj

theorem chosen_of_find? (hnearest : Taxonomy.Nearest t subject (blocks.map blockType) c)
    (hfind : blocks.find? (fun b => blockType b == c) = some block) :
    Chosen t subject blocks default block.2 := by
  obtain ⟨i, hfirst, hblock⟩ := first_iff_find?.2 hfind
  exact .block hnearest hfirst hblock

/-! ### The choice -/

/-- What is found to be most specific is chosen. -/
theorem chosen_of_mostSpecific (h : t.Settled) (ha : t.get? subject = some a) :
    Chosen t subject blocks default
      (match (t.mostSpecific subject (blocks.map blockType)).bind (blocks[·]?) with
        | some block => block.2
        | none => default) := by
  cases hfound : t.mostSpecific subject (blocks.map blockType) with
  | none =>
    exact .default fun block hblock =>
      (h.mostSpecific_eq_none ha).1 hfound _ (List.mem_map_of_mem hblock)
  | some i =>
    obtain ⟨c, hnearest, hfirst⟩ := (h.mostSpecific_eq_some ha).1 hfound
    have hi := hfirst.1
    rw [List.getElem?_map] at hi
    obtain ⟨block, hblock, -⟩ := Option.map_eq_some_iff.1 hi
    rw [Option.bind_some, hblock]
    exact .block hnearest hfirst hblock

theorem chosen_unique (h : t.Settled) (ha : t.get? subject = some a)
    (hbody : Chosen t subject blocks default body)
    (hother : Chosen t subject blocks default other) :
    other = body := by
  have happlies : ∀ {c}, Taxonomy.Nearest t subject (blocks.map blockType) c →
      ∃ block ∈ blocks, t.Descends subject (blockType block) := by
    intro c hc
    obtain ⟨block, hblock, rfl⟩ := List.mem_map.1 hc.mem
    exact ⟨block, hblock, hc.above⟩
  cases hbody with
  | block hnearest hfirst hblock =>
    cases hother with
    | block hnearest' hfirst' hblock' =>
      obtain rfl := h.nearest_unique ha hnearest hnearest'
      have hfind := first_iff_find?.1 ⟨_, hfirst, hblock⟩
      rw [first_iff_find?.1 ⟨_, hfirst', hblock'⟩] at hfind
      rw [Option.some.inj hfind]
    | default hnone =>
      obtain ⟨block, hmem, habove⟩ := happlies hnearest
      exact absurd habove (hnone block hmem)
  | default hnone =>
    cases hother with
    | block hnearest _ _ =>
      obtain ⟨block, hmem, habove⟩ := happlies hnearest
      exact absurd habove (hnone block hmem)
    | default _ => rfl

theorem picks_of_chosen (h : t.Settled) (ha : t.get? subject = some a)
    (hbody : Chosen t subject blocks default body) : Picks t subject blocks default body where
  only other := by
    constructor
    · exact chosen_unique h ha hbody
    · rintro rfl
      exact hbody
  runs := by
    rintro σ _ actor stop v rfl
    obtain rfl := chosen_unique h ha hbody (chosen_of_mostSpecific h ha)
    rfl

/-! ### Other blocks -/

/-- Blocks of different types may stand in any order. -/
theorem Chosen.perm (hperm : blocks.Perm blocks') (honce : (blocks.map blockType).Nodup)
    (h : Chosen t subject blocks default body) : Chosen t subject blocks' default body := by
  cases h with
  | @block c i block hnearest hfirst hblock =>
    have hmem : block ∈ blocks' := hperm.mem_iff.1 (List.mem_of_getElem? hblock)
    have htype : blockType block = c := by
      have hi := hfirst.1
      rw [List.getElem?_map, hblock] at hi
      exact Option.some.inj hi
    have hsame := hperm.map blockType
    refine chosen_of_find? ⟨hsame.mem_iff.1 hnearest.mem, hnearest.above, fun other hother =>
      hnearest.least other (hsame.mem_iff.2 hother)⟩ ?_
    rw [← htype]
    exact find?_of_nodup (hsame.nodup_iff.1 honce) hmem
  | default hnone => exact .default fun block hblock => hnone block (hperm.mem_iff.2 hblock)

section

variable {α : Type} {P : α → Prop} {l l' : List α} {x : α}

theorem Widened.mem (h : Widened P l l') (hx : x ∈ l) : x ∈ l' := by
  induction h with
  | nil => exact hx
  | keep _ ih =>
    rcases List.mem_cons.1 hx with rfl | hx
    · exact List.mem_cons_self
    · exact List.mem_cons_of_mem _ (ih hx)
  | add _ _ ih => exact List.mem_cons_of_mem _ (ih hx)

theorem Widened.mem_or (h : Widened P l l') (hx : x ∈ l') : x ∈ l ∨ P x := by
  induction h with
  | nil => exact .inl hx
  | keep _ ih =>
    rcases List.mem_cons.1 hx with rfl | hx
    · exact .inl List.mem_cons_self
    · exact (ih hx).imp_left (List.mem_cons_of_mem _)
  | add hP _ ih =>
    rcases List.mem_cons.1 hx with rfl | hx
    · exact .inr hP
    · exact ih hx

/-- What none of the further elements is found as is found among the others. -/
theorem Widened.find?_eq (h : Widened P l l') {p : α → Bool} (hnone : ∀ x, P x → p x = false) :
    l'.find? p = l.find? p := by
  induction h with
  | nil => rfl
  | keep _ ih => rw [List.find?_cons, List.find?_cons, ih]
  | add hP _ ih => rw [List.find?_cons, hnone _ hP, ih]

end

/-- Blocks that are idle beside others may stand among them. -/
theorem Chosen.widen (h : t.Settled) (ha : t.get? subject = some a)
    (hwider : Widened (Idle t subject blocks) blocks blocks')
    (hchosen : Chosen t subject blocks default body) : Chosen t subject blocks' default body := by
  cases hchosen with
  | @block c i block hnearest hfirst hblock =>
    -- an idle block that the subject descends from stands above the nearest type
    have hidle : ∀ b, Idle t subject blocks b → t.Descends subject (blockType b) →
        t.Descends c (blockType b) ∧ blockType b ≠ c := by
      rintro b (hnot | ⟨c', hnearest', hbelow, hne⟩) habove
      · exact absurd habove hnot
      · obtain rfl := h.nearest_unique ha hnearest hnearest'
        exact ⟨hbelow, hne⟩
    have hnearest' : Taxonomy.Nearest t subject (blocks'.map blockType) c := by
      refine ⟨?_, hnearest.above, fun other hother habove hbelow => ?_⟩
      · obtain ⟨b, hb, htype⟩ := List.mem_map.1 hnearest.mem
        exact List.mem_map.2 ⟨b, hwider.mem hb, htype⟩
      · obtain ⟨b, hb, rfl⟩ := List.mem_map.1 hother
        rcases hwider.mem_or hb with hb | hb
        · exact hnearest.least _ (List.mem_map_of_mem hb) habove hbelow
        · obtain ⟨hup, -⟩ := hidle b hb habove
          exact h.eq_of_descends ha habove hnearest.above hbelow hup
    refine chosen_of_find? hnearest' ?_
    rw [hwider.find?_eq fun b hb => ?_]
    · exact first_iff_find?.1 ⟨i, hfirst, hblock⟩
    · refine beq_eq_false_iff_ne.2 fun htype => ?_
      exact (hidle b hb (htype ▸ hnearest.above)).2 htype
  | default hnone =>
    refine .default fun b hb habove => ?_
    rcases hwider.mem_or hb with hb | hb | ⟨c, hnearest, -⟩
    · exact hnone b hb habove
    · exact hb habove
    · obtain ⟨b', hb', rfl⟩ := List.mem_map.1 hnearest.mem
      exact hnone b' hb' hnearest.above

/-- Of the candidates, the first of the nearest type is found, and nothing if
the subject descends from none. A dispatch runs the body of that block and no
other. It runs the same one with blocks of different types in another order and
with idle blocks among them. -/
theorem dispatch_is_specific {decls : List TypeDecl} (hbuild : Taxonomy.build decls = .ok t)
    (ha : t.get? subject = some a) :
    (∀ candidates i, t.mostSpecific subject candidates = some i ↔
      ∃ c, Taxonomy.Nearest t subject candidates c ∧ Taxonomy.First candidates c i) ∧
    (∀ candidates, t.mostSpecific subject candidates = none ↔
      ∀ c ∈ candidates, ¬ t.Descends subject c) ∧
    ∀ blocks default, ∃ body, Picks t subject blocks default body ∧
      (∀ blocks', blocks.Perm blocks' → (blocks.map blockType).Nodup →
        Picks t subject blocks' default body) ∧
      ∀ blocks', Widened (Idle t subject blocks) blocks blocks' →
        Picks t subject blocks' default body := by
  have h := Taxonomy.settled_of_build hbuild
  refine ⟨fun candidates i => h.mostSpecific_eq_some ha,
    fun candidates => h.mostSpecific_eq_none ha,
    fun blocks default => ?_⟩
  have hchosen : Chosen t subject blocks default _ := chosen_of_mostSpecific h ha
  exact ⟨_, picks_of_chosen h ha hchosen,
    fun blocks' hperm honce => picks_of_chosen h ha (hchosen.perm hperm honce),
    fun blocks' hwider => picks_of_chosen h ha (hchosen.widen h ha hwider)⟩

end Conduct

/-! ## A penguin among birds and animals -/

namespace Menagerie

/-- A block for animals, then one for birds. -/
def blocks (asAnimal asBird : Conduct Unit) : List (String × Conduct Unit) :=
  [("animal", asAnimal), ("bird", asBird)]

end Menagerie

/-- Though the block for animals comes first, a penguin is met as a bird. -/
theorem Conduct.penguins_are_dispatched_as_birds :
    ∃ t, Taxonomy.build Menagerie.types = .ok t ∧
      t.get? Menagerie.penguin.type = some Menagerie.penguin.accepted ∧
      t.mostSpecific Menagerie.penguin.type [Menagerie.animal.type, Menagerie.bird.type] = some 1 ∧
      ∀ asAnimal asBird default,
        Picks t Menagerie.penguin.type (Menagerie.blocks asAnimal asBird) default asBird := by
  obtain ⟨t, ht, ha, hlineage, hanimal, htop⟩ := Menagerie.exists_built
  have h := Taxonomy.settled_of_build ht
  have hnearest :
      Taxonomy.Nearest t Menagerie.penguin.type [Menagerie.animal.type, Menagerie.bird.type]
      Menagerie.bird.type := by
    refine ⟨List.mem_cons_of_mem _ List.mem_cons_self, ?_, fun other hother _ hbelow => ?_⟩
    · rw [h.descends_iff ha, hlineage]
      exact List.mem_cons_of_mem _ List.mem_cons_self
    · rcases List.mem_cons.1 hother with rfl | hother
      · rw [h.descends_iff hanimal, htop] at hbelow
        exact (List.mem_singleton.1 hbelow).symm
      · exact List.mem_singleton.1 hother
  have hfirst :
      Taxonomy.First [Menagerie.animal.type, Menagerie.bird.type] Menagerie.bird.type 1 := by
    refine ⟨rfl, fun j hj heq => ?_⟩
    obtain rfl : j = 0 := by omega
    have hname := Menagerie.types_distinguished Menagerie.animal (by simp [Menagerie.types])
      Menagerie.bird (by simp [Menagerie.types]) (Option.some.inj heq)
    exact absurd hname (by decide)
  obtain ⟨hfound, -, hpicks⟩ := Conduct.dispatch_is_specific ht ha
  refine ⟨t, ht, ha, (hfound _ _).2 ⟨_, hnearest, hfirst⟩, fun asAnimal asBird default => ?_⟩
  obtain ⟨body, hbody, -⟩ := hpicks (Menagerie.blocks asAnimal asBird) default
  have hchosen : Chosen t Menagerie.penguin.type (Menagerie.blocks asAnimal asBird)
      default asBird :=
    @Chosen.block t _ (Menagerie.blocks asAnimal asBird) default _ 1 ("bird", asBird)
      hnearest hfirst rfl
  exact (hbody.only asBird).1 hchosen ▸ hbody

end Wayfarer
