import Wayfarer.Archive.Format
import Wayfarer.Proofs.Codec.Shapes

/-!
# Reading back anchor files

The file of an anchor, whatever comes after it, is read back as the anchor
without its mark of change, provided that it is nested in no more levels than
the reader may open. If it is, it is not read at all.

* `Value.levels` and the functions after it count the levels of each part of a
  file.
* `Value.Ordered` is about maps in values: their entries stand in the order of
  their keys.
* `AnchorFile.value?_takes` is about values; there is a lemma for each kind of
  record after it, up to `AnchorFile.anchor?_takes`.
-/

namespace Wayfarer

/-! ## Levels -/

namespace Value

mutual

/-- The levels in which a written value is nested: one for the variant, one for
a list or map. -/
def levels : Value → Nat
  | .list items => levelsOfItems items + 1 + 1
  | .map entries => levelsOfEntries entries + 1 + 1
  | .ref _ => 3
  | _ => 1

/-- The most levels of a value in a list. -/
def levelsOfItems : List Value → Nat
  | [] => 0
  | v :: rest => max v.levels (levelsOfItems rest)

/-- The most levels of a value in a list of entries. -/
def levelsOfEntries : List (String × Value) → Nat
  | [] => 0
  | (_, v) :: rest => max v.levels (levelsOfEntries rest)

end

theorem levelsOfItems_eq (items : List Value) : levelsOfItems items = deepest levels items := by
  induction items with
  | nil => rfl
  | cons v rest ih => rw [levelsOfItems, ih, deepest]

theorem levelsOfEntries_eq (entries : List (String × Value)) :
    levelsOfEntries entries = deepest (fun e => e.2.levels) entries := by
  induction entries with
  | nil => rfl
  | cons e rest ih => rw [levelsOfEntries, ih, deepest]

end Value

/-- The levels of written fields. -/
def Fields.levels (f : Fields) : Nat := deepest (fun e => e.2.levels + 1) f.entries + 1

/-- The levels of a written list of edges. -/
def EdgeId.levels (edges : List EdgeId) : Nat := deepest (fun _ => 1) edges + 1

/-- The levels of a written access list. -/
def Access.levels (a : Access) : Nat :=
  [if a.everyone.isSome then 1 else 0, deepest (fun _ => 1) a.roots.toList + 1].foldr max 0 + 1

/-- The levels of a written node record. -/
def NodeRecord.levels (n : NodeRecord) : Nat :=
  [1, n.fields.levels, EdgeId.levels n.outgoing, EdgeId.levels n.incoming].foldr max 0 + 1

/-- The levels of a written edge record. -/
def EdgeRecord.levels (e : EdgeRecord) : Nat :=
  [1, e.fields.levels, 1, 1, 0, if e.twin.isSome then 1 else 0].foldr max 0 + 1

/-- The levels of a written body. -/
def Body.levels : Body → Nat
  | .node n => n.levels + 1
  | .edge e => e.levels + 1

/-- The levels of an anchor file. -/
def Anchor.levels (a : Anchor) : Nat :=
  [2, 1, a.access.levels, 0, a.body.levels].foldr max 0 + 1

/-! ## Order -/

/-- Every map in the value lists its entries in key order. -/
inductive Value.Ordered : Value → Prop
  | null : Ordered .null
  | bool (b : Bool) : Ordered (.bool b)
  | int (n : Int64) : Ordered (.int n)
  | float (x : Double) : Ordered (.float x)
  | str (s : String) : Ordered (.str s)
  | list {items : List Value} (h : ∀ v ∈ items, Ordered v) : Ordered (.list items)
  | map {entries : List (String × Value)} (hkeys : KeyOrdered entries)
      (h : ∀ e ∈ entries, Ordered e.2) : Ordered (.map entries)
  | ref (id : ObjectId) : Ordered (.ref id)

/-- Every map in a field of the object lists its entries in key order. -/
def Anchor.Ordered (a : Anchor) : Prop := ∀ e ∈ a.fields.entries, e.2.Ordered

namespace Table

variable {κ ν : Type} [Ord κ]

theorem put_of_last [Std.OrientedOrd κ] {k : κ} {v : ν} {entries : List (κ × ν)}
    (h : ∀ e ∈ entries, compare e.1 k = .lt) : put k v entries = entries ++ [(k, v)] := by
  induction entries with
  | nil => rfl
  | cons e rest ih =>
    have hgt : compare k e.1 = .gt := Std.OrientedCmp.gt_of_lt (h e List.mem_cons_self)
    simp only [put, hgt, List.cons_append]
    rw [ih fun e' he => h e' (List.mem_cons_of_mem e he)]

/-- Entries put in their order stay in it. -/
theorem foldl_put [Std.OrientedOrd κ] (acc : List (κ × ν)) {entries : List (κ × ν)}
    (h : KeyOrdered (acc ++ entries)) :
    entries.foldl (fun acc e => put e.1 e.2 acc) acc = acc ++ entries := by
  induction entries generalizing acc with
  | nil => simp
  | cons e rest ih =>
    have hlast : ∀ e' ∈ acc, compare e'.1 e.1 = .lt := fun e' he =>
      (List.pairwise_append.1 h).2.2 e' he e List.mem_cons_self
    have hrest := ih (acc ++ [e]) (by simpa using h)
    rw [List.foldl_cons, put_of_last hlast, hrest, List.append_assoc, List.singleton_append]

theorem eq_of_entries {t t' : Table κ ν} (h : t.entries = t'.entries) : t = t' := by
  cases t
  cases t'
  cases h
  rfl

theorem foldl_insert [Std.TransOrd κ] [Std.LawfulEqOrd κ] (t : Table κ ν) :
    t.toList.foldl (fun acc e => acc.insert e.1 e.2) empty = t := by
  have hentries : ∀ (l : List (κ × ν)) (acc : Table κ ν),
      (l.foldl (fun acc e => acc.insert e.1 e.2) acc).entries =
        l.foldl (fun acc e => put e.1 e.2 acc) acc.entries := by
    intro l
    induction l with
    | nil => exact fun _ => rfl
    | cons e rest ih => exact fun acc => ih (acc.insert e.1 e.2)
  exact eq_of_entries ((hentries t.entries empty).trans (foldl_put [] t.sorted))

end Table

namespace AnchorFile

open Cbor Reader

variable {limit : Nat}

/-- Names of fields and variants are told apart as texts. -/
theorem named_iff {key name : String} : named (Bytes.ofString key) name = true ↔ key = name := by
  rw [named, beq_iff_eq, Bytes.ofString_inj]

/-! ## Identities and levels of access -/

theorem digest?_takes (d : Digest) : (digest? limit).Takes (ofDigest d) (within 1 limit d) :=
  (fixed?_takes d.length_bytes).yields (congrArg pure d.ofBytes_bytes)

theorem object?_takes (id : ObjectId) :
    (object? limit).Takes (ofObject id) (within 2 limit id) := by
  cases id with
  | node id =>
    refine choice_variant (by decide) fun limit => ?_
    simp only [named_iff, ite_true]
    exact (digest?_takes id.digest).yields rfl
  | edge id =>
    refine choice_variant (by decide) fun limit => ?_
    simp only [named_iff, String.reduceEq, ite_true, ite_false]
    exact (digest?_takes id.digest).yields rfl

theorem level?_takes (l : Level) : (level? limit).Takes (ofLevel l) (within 1 limit l) := by
  cases l with
  | read =>
    refine choice_text (by decide) fun limit => ?_
    simp only [named_iff, Level.text, ite_true]
    exact .pure _
  | connect =>
    refine choice_text (by decide) fun limit => ?_
    simp only [named_iff, Level.text, String.reduceEq, ite_true, ite_false]
    exact .pure _
  | write =>
    refine choice_text (by decide) fun limit => ?_
    simp only [named_iff, Level.text, String.reduceEq, ite_true, ite_false]
    exact .pure _

/-! ## Values -/

/-- A value, whose parts are read with the levels that remain inside of the list
or map. -/
theorem value?_eq (limit : Nat) : value? limit = choice limit fun limit name =>
    if named name "Null" then pure .null
    else if named name "Bool" then do pure (.bool (← bool?))
    else if named name "Int" then do pure (.int (← signed?))
    else if named name "Float" then do pure (.float (← float?))
    else if named name "Str" then do pure (.str (← text?))
    else if named name "List" then do pure (.list (← list? limit value?))
    else if named name "Map" then do
      let entries ← entries? limit [] fun limit acc => do
        let key ← text?
        let v ← value? limit
        pure (acc ++ [(key, v)])
      pure (Value.ofEntries entries)
    else if named name "Ref" then do pure (.ref (← object? limit))
    else failure := by
  match limit with
  | 0 => exact choice_zero.symm
  | 1 =>
    refine choice_congr fun limit hlimit => ?_
    cases hlimit
    rfl
  | limit + 2 =>
    refine choice_congr fun limit hlimit => ?_
    cases hlimit
    rfl

theorem ofItems_eq (items : List Value) : ofItems items = items.map ofValue := by
  induction items with
  | nil => rfl
  | cons v rest ih => rw [ofItems, ih, List.map_cons]

theorem ofEntries_eq (entries : List (String × Value)) :
    ofEntries entries = entries.map fun e => (text e.1, ofValue e.2) := by
  induction entries with
  | nil => rfl
  | cons e rest ih => rw [ofEntries, ih, List.map_cons]

theorem text_ne_nil (s : String) : text s ≠ [] := fun h =>
  head_ne_nil 3 _ (List.append_eq_nil_iff.1 h).1

theorem variant_ne_nil (name : String) (content : Bytes) : variant name content ≠ [] := fun h =>
  head_ne_nil 5 _ (List.append_eq_nil_iff.1 h).1

theorem array_ne_nil (items : List Bytes) : array items ≠ [] := fun h =>
  head_ne_nil 4 _ (List.append_eq_nil_iff.1 h).1

theorem ofValue_ne_nil (v : Value) : ofValue v ≠ [] := by
  cases v with
  | null => exact text_ne_nil _
  | _ => exact variant_ne_nil _ _

/-- Keys in order are put back in the same order. -/
theorem ofEntries_of_keyOrdered {entries : List (String × Value)} (h : KeyOrdered entries) :
    Value.ofEntries entries = .map entries :=
  congrArg Value.map (Table.foldl_put [] h)

theorem value?_takes {v : Value} (hv : v.Ordered) (limit : Nat) :
    (value? limit).Takes (ofValue v) (within v.levels limit v) := by
  -- the cases are those of the variants; a list or map has the induction hypothesis for
  -- its parts
  induction hv generalizing limit with
  | null =>
    rw [value?_eq]
    refine choice_text (by decide) fun limit => ?_
    simp only [named_iff, ite_true]
    exact .pure _
  | bool b =>
    rw [value?_eq]
    refine choice_variant (by decide) fun limit => ?_
    simp only [named_iff, String.reduceEq, ite_true, ite_false, within_zero]
    exact (bool_takes b).map Value.bool
  | int n =>
    rw [value?_eq]
    refine choice_variant (by decide) fun limit => ?_
    simp only [named_iff, String.reduceEq, ite_true, ite_false, within_zero]
    exact (signed?_takes n).map Value.int
  | float x =>
    rw [value?_eq]
    refine choice_variant (by decide) fun limit => ?_
    simp only [named_iff, String.reduceEq, ite_true, ite_false, within_zero]
    exact (float?_takes x).map Value.float
  | str s =>
    rw [value?_eq]
    refine choice_variant (by decide) fun limit => ?_
    simp only [named_iff, String.reduceEq, ite_true, ite_false, within_zero]
    exact (text?_takes s).map Value.str
  | @list items _ ih =>
    rw [value?_eq, ofValue, ofItems_eq, Value.levels, Value.levelsOfItems_eq]
    refine choice_variant (by decide) fun limit => ?_
    simp only [named_iff, String.reduceEq, ite_true, ite_false]
    exact (list?_takes ofValue_ne_nil fun v hv limit => ih v hv limit).yields rfl
  | @map entries hkeys _ ih =>
    rw [value?_eq, ofValue, ofEntries_eq, Value.levels, Value.levelsOfEntries_eq]
    refine choice_variant (by decide) fun limit => ?_
    simp only [named_iff, String.reduceEq, ite_true, ite_false]
    rw [map, List.length_map, List.map_map]
    have hrounds : ∀ limit, Rounds (fun acc => do
        let key ← text?
        let v ← value? limit
        pure (acc ++ [(key, v)])) entries.length []
        (entries.map fun e => text e.1 ++ ofValue e.2).flatten
        (within (deepest (fun e => e.2.levels) entries) limit entries) := by
      intro limit
      refine .gather _ entries (fun e => by simp [text_ne_nil]) fun e he acc => ?_
      refine (text?_takes e.1).andThen (f := fun key => do
        let v ← value? limit
        pure (acc ++ [(key, v)])) ?_
      exact (ih e he limit).yields rfl
    refine (entries?_takes entries hrounds).yields ?_
    rw [ofEntries_of_keyOrdered hkeys]
  | ref id =>
    rw [value?_eq]
    refine choice_variant (by decide) fun limit => ?_
    simp only [named_iff, String.reduceEq, ite_true, ite_false]
    exact (object?_takes id).yields rfl

/-! ## Records -/

theorem fields?_takes {f : Fields} (hf : ∀ e ∈ f.entries, e.2.Ordered) :
    (fields? limit).Takes (ofFields f) (within f.levels limit f) := by
  refine (list?_takes (fun e => array_ne_nil _) fun e he limit => ?_).yields rfl
  rw [← Nat.zero_max (e.2.levels)]
  refine pair?_takes (text_ne_nil _) (ofValue_ne_nil _) (fun limit => ?_) (value?_takes (hf e he))
  rw [within_zero]
  exact text?_takes e.1

theorem edges?_takes (edges : List EdgeId) :
    (edges? limit).Takes (ofEdges edges) (within (EdgeId.levels edges) limit edges) :=
  list?_takes (fun _ => array_ne_nil _) fun e _ _ => (digest?_takes e.digest).yields rfl

/-- The named tenants of an access list, each put into the table in its turn. -/
theorem roots?_takes (roots : Table RootId Level) :
    (entries? limit Table.empty fun limit acc => do
        let root ← digest? limit
        let l ← level? limit
        pure (acc.insert (⟨⟨root⟩⟩ : RootId) l) : Reader (Table RootId Level)).Takes
      (map (roots.toList.map fun e => (ofDigest e.1.node.digest, ofLevel e.2)))
      (within (deepest (fun _ => 1) roots.toList + 1) limit roots) := by
  rw [map, List.length_map, List.map_map]
  refine entries?_takes roots fun limit => ?_
  have hstep : ∀ e ∈ roots.toList, ∀ acc : Table RootId Level, (do
      let root ← digest? limit
      let l ← level? limit
      pure (acc.insert (⟨⟨root⟩⟩ : RootId) l)).Takes (ofDigest e.1.node.digest ++ ofLevel e.2)
      (within 1 limit (acc.insert e.1 e.2)) := by
    intro e _ acc
    show Takes _ _ (within (max 1 1) limit _)
    refine (digest?_takes e.1.node.digest).both (f := fun root => do
      let l ← level? limit
      pure (acc.insert (⟨⟨root⟩⟩ : RootId) l)) ?_
    exact (level?_takes e.2).yields rfl
  have hfold := Rounds.fold (fun e : RootId × Level => ofDigest e.1.node.digest ++ ofLevel e.2)
    (fun _ => 1) (fun acc e => acc.insert e.1 e.2) roots.toList
    (fun e => by simp [ofDigest, array_ne_nil]) hstep Table.empty
  rw [Table.foldl_insert] at hfold
  exact hfold

theorem public?_takes (everyone : Option Level) :
    (option? (level? limit)).Takes (match everyone with
        | none => null
        | some l => ofLevel l)
      (within (if everyone.isSome then 1 else 0) limit everyone) := by
  cases everyone with
  | none => exact option?_null _
  | some l =>
    have hlevel : (option? (level? limit)).Takes (ofLevel l) ((within 1 limit l).map some) :=
      option?_head (by decide) (Nat.le_refl _) (level?_takes l)
    rw [map_within] at hlevel
    exact hlevel

theorem twin?_takes (twin : Option EdgeId) :
    (option? (digest? limit)).Takes (match twin with
        | none => null
        | some t => ofDigest t.digest)
      (within (if twin.isSome then 1 else 0) limit (twin.map EdgeId.digest)) := by
  cases twin with
  | none => exact option?_null _
  | some t =>
    have hdigest : (option? (digest? limit)).Takes (ofDigest t.digest)
        ((within 1 limit t.digest).map some) :=
      option?_head (by decide) (by
        rw [List.length_map]
        exact length_le_flatten (fun b : UInt8 => head_ne_nil 0 b.toNat) _) (digest?_takes t.digest)
    rw [map_within] at hdigest
    exact hdigest

theorem access?_takes (a : Access) :
    (access? limit).Takes (ofAccess a) (within a.levels limit a) := by
  refine (entries?_takes ⟨some a.everyone, some a.roots⟩ fun limit => ?_).yields rfl
  refine .next ⟨some a.everyone, none⟩ (by simp [text_ne_nil]) (named_takes (by decide) ?_) ?_
  · simp only [named_iff, ite_true]
    exact (public?_takes a.everyone).yields rfl
  refine .next _ (by simp [text_ne_nil]) (named_takes (by decide) ?_) (.stop _)
  · simp only [named_iff, String.reduceEq, ite_true, ite_false]
    exact (roots?_takes a.roots).yields rfl

theorem node?_takes {n : NodeRecord} (hn : ∀ e ∈ n.fields.entries, e.2.Ordered) :
    (node? limit).Takes (ofNode n) (within n.levels limit n) := by
  refine (entries?_takes ⟨some n.type, some n.fields, some n.outgoing, some n.incoming⟩
    fun limit => ?_).yields rfl
  refine .next ⟨some n.type, none, none, none⟩ (by simp [text_ne_nil])
    (named_takes (by decide) ?_) ?_
  · simp only [named_iff, ite_true]
    exact (digest?_takes n.type.digest).yields rfl
  refine .next ⟨some n.type, some n.fields, none, none⟩ (by simp [text_ne_nil])
    (named_takes (by decide) ?_) ?_
  · simp only [named_iff, String.reduceEq, ite_true, ite_false]
    exact (fields?_takes hn).yields rfl
  refine .next ⟨some n.type, some n.fields, some n.outgoing, none⟩ (by simp [text_ne_nil])
    (named_takes (by decide) ?_) ?_
  · simp only [named_iff, String.reduceEq, ite_true, ite_false]
    exact (edges?_takes n.outgoing).yields rfl
  refine .next _ (by simp [text_ne_nil]) (named_takes (by decide) ?_) (.stop _)
  · simp only [named_iff, String.reduceEq, ite_true, ite_false]
    exact (edges?_takes n.incoming).yields rfl

theorem edge?_takes {e : EdgeRecord} (he : ∀ f ∈ e.fields.entries, f.2.Ordered) :
    (edge? limit).Takes (ofEdge e) (within e.levels limit e) := by
  refine (entries?_takes ⟨some e.type, some e.fields, some e.source, some e.target, some e.directed,
    some e.twin⟩ fun limit => ?_).yields rfl
  refine .next ⟨some e.type, none, none, none, none, none⟩ (by simp [text_ne_nil])
    (named_takes (by decide) ?_) ?_
  · simp only [named_iff, ite_true]
    exact (digest?_takes e.type.digest).yields rfl
  refine .next ⟨some e.type, some e.fields, none, none, none, none⟩ (by simp [text_ne_nil])
    (named_takes (by decide) ?_) ?_
  · simp only [named_iff, String.reduceEq, ite_true, ite_false]
    exact (fields?_takes he).yields rfl
  refine .next ⟨some e.type, some e.fields, some e.source, none, none, none⟩ (by simp [text_ne_nil])
    (named_takes (by decide) ?_) ?_
  · simp only [named_iff, String.reduceEq, ite_true, ite_false]
    exact (digest?_takes e.source.digest).yields rfl
  refine .next ⟨some e.type, some e.fields, some e.source, some e.target, none, none⟩
    (by simp [text_ne_nil]) (named_takes (by decide) ?_) ?_
  · simp only [named_iff, String.reduceEq, ite_true, ite_false]
    exact (digest?_takes e.target.digest).yields rfl
  refine .next ⟨some e.type, some e.fields, some e.source, some e.target, some e.directed, none⟩
    (by simp [text_ne_nil]) (named_takes (by decide) ?_) ?_
  · simp only [named_iff, String.reduceEq, ite_true, ite_false, within_zero]
    exact (bool_takes e.directed).map _
  refine .next _ (by simp [text_ne_nil]) (named_takes (by decide) ?_) (.stop _)
  · simp only [named_iff, String.reduceEq, ite_true, ite_false]
    exact (twin?_takes e.twin).yields (by cases e.twin <;> rfl)

theorem body?_takes {a : Anchor} (ha : a.Ordered) :
    (body? limit).Takes (ofBody a.body) (within a.body.levels limit a.body) := by
  obtain ⟨_, _, _, _, body, _⟩ := a
  cases body with
  | node n =>
    refine choice_variant (by decide) fun limit => ?_
    simp only [named_iff, ite_true]
    exact (node?_takes ha).yields rfl
  | edge e =>
    refine choice_variant (by decide) fun limit => ?_
    simp only [named_iff, String.reduceEq, ite_true, ite_false]
    exact (edge?_takes ha).yields rfl

theorem anchor?_takes {a : Anchor} (ha : a.Ordered) :
    (anchor? limit).Takes (encode a) (within a.levels limit a.clean) := by
  refine (entries?_takes ⟨some a.id, some a.owner, some a.access, some a.version, some a.body⟩
    fun limit => ?_).yields rfl
  refine .next ⟨some a.id, none, none, none, none⟩ (by simp [text_ne_nil])
    (named_takes (by decide) ?_) ?_
  · simp only [named_iff, ite_true]
    exact (object?_takes a.id).yields rfl
  refine .next ⟨some a.id, some a.owner, none, none, none⟩ (by simp [text_ne_nil])
    (named_takes (by decide) ?_) ?_
  · simp only [named_iff, String.reduceEq, ite_true, ite_false]
    exact (digest?_takes a.owner.node.digest).yields rfl
  refine .next ⟨some a.id, some a.owner, some a.access, none, none⟩ (by simp [text_ne_nil])
    (named_takes (by decide) ?_) ?_
  · simp only [named_iff, String.reduceEq, ite_true, ite_false]
    exact (access?_takes a.access).yields rfl
  refine .next ⟨some a.id, some a.owner, some a.access, some a.version, none⟩
    (by simp [text_ne_nil])
    (named_takes (by decide) ?_) ?_
  · simp only [named_iff, String.reduceEq, ite_true, ite_false, within_zero]
    exact (word?_takes a.version).map _
  refine .next _ (by simp [text_ne_nil]) (named_takes (by decide) ?_) (.stop _)
  · simp only [named_iff, String.reduceEq, ite_true, ite_false]
    exact (body?_takes ha).yields rfl

/-- A file with anything after it is read back as the anchor without its mark of
change if it is nested in no more levels than may be opened, and otherwise it is
not read. -/
theorem decode_encode {a : Anchor} (ha : a.Ordered) (hsize : (encode a).length < Bytes.limit 8)
    (rest : Bytes) : decode (encode a ++ rest) = within a.levels maxLevels a.clean := by
  rw [decode, anchor?_takes ha hsize rest]
  cases within a.levels maxLevels a.clean <;> rfl

/-- Whatever comes after it, the file of an anchor is read back as the anchor,
clean: every kind of value, every 64-bit pattern of a number with a point bit
for bit, every text, version, access list and list of edges. The file may open
`maxLevels` levels, and eight bytes suffice for every length in it. -/
theorem reads_back {a : Anchor} (hordered : a.Ordered) (hlevels : a.levels ≤ maxLevels)
    (hsize : (encode a).length < Bytes.limit 8) (rest : Bytes) :
    decode (encode a ++ rest) = some a.clean := by
  rw [decode_encode hordered hsize, within, if_pos hlevels]

/-- A signalling NaN, the least integer, and a map in a list. -/
def specimen : Anchor :=
  let fields : Fields := ⟨[("x", .float ⟨0x7FF0000000000001⟩), ("n", .int (-9223372036854775808)),
    ("m", .list [.map [("a", .str "ä"), ("b", .null)], .bool true]), ("r", .ref (.edge ⟨⟨5⟩⟩))]⟩
  { Anchor.ofEdge ⟨⟨1⟩⟩ ⟨⟨⟨2⟩⟩⟩ ⟨⟨⟨3⟩⟩, fields, ⟨⟨6⟩⟩, ⟨⟨7⟩⟩, false, some ⟨⟨8⟩⟩⟩ with
    access := (Access.ownerOnly.grant .read).allow ⟨⟨⟨9⟩⟩⟩ .connect,
    version := 18446744073709551615 }

theorem specimen_ordered : specimen.Ordered := by
  intro e he
  have hmap : Value.Ordered (.map [("a", .str "ä"), ("b", .null)]) := by
    refine .map (by decide) fun e he => ?_
    simp only [List.mem_cons, List.not_mem_nil, or_false] at he
    obtain rfl | rfl := he
    · exact .str _
    · exact .null
  simp only [specimen, Anchor.fields, Anchor.ofEdge, List.mem_cons, List.not_mem_nil,
    or_false] at he
  obtain rfl | rfl | rfl | rfl := he
  · exact .float _
  · exact .int _
  · refine .list fun v hv => ?_
    simp only [List.mem_cons, List.not_mem_nil, or_false] at hv
    obtain rfl | rfl := hv
    · exact hmap
    · exact .bool _
  · exact .ref _

theorem specimen_reads_back : specimen.levels ≤ maxLevels ∧
    (encode specimen).length < Bytes.limit 8 ∧
    decode (encode specimen ++ [0, 1]) = some { specimen with dirty := false } := by
  have hlevels : specimen.levels ≤ maxLevels := by decide
  have hsize : (encode specimen).length < Bytes.limit 8 := by decide +kernel
  exact ⟨hlevels, hsize, reads_back specimen_ordered hlevels hsize [0, 1]⟩

end AnchorFile

end Wayfarer
