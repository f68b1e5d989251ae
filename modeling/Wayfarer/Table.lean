/-!
# Tables

A `Table κ ν` maps keys to values and is read in key order. It is a list of
entries whose keys increase strictly, so two tables with the same look-ups are
the same table (`Table.ext_get?`).

* `Table.get?` looks a key up, `Table.insert` and `Table.erase` change one key,
  `Table.modify` and `Table.filter` keep the keys in order.
* `Table.toList`, `Table.keys` and `Table.values` read everything in key order.
* An ordered set is a table of units: `OrdSet`.
-/

namespace Wayfarer

/-- Entries ordered by strictly increasing key. -/
abbrev KeyOrdered {κ ν : Type} [Ord κ] (entries : List (κ × ν)) : Prop :=
  entries.Pairwise fun a b => compare a.1 b.1 = .lt

/-- A finite map whose entries stand in strictly increasing key order. -/
structure Table (κ ν : Type) [Ord κ] where
  entries : List (κ × ν)
  sorted : KeyOrdered entries

namespace Table

variable {κ ν : Type} [Ord κ]

instance [DecidableEq κ] [DecidableEq ν] : DecidableEq (Table κ ν) := fun a b =>
  if h : a.entries = b.entries then
    isTrue (by cases a; cases b; simp_all)
  else isFalse (by intro e; exact h (e ▸ rfl))

/-- The table without entries. -/
def empty : Table κ ν := ⟨[], List.Pairwise.nil⟩

instance : EmptyCollection (Table κ ν) := ⟨empty⟩

instance : Inhabited (Table κ ν) := ⟨empty⟩

/-- The value of the first entry whose key is `k`. -/
def find (k : κ) : List (κ × ν) → Option ν
  | [] => none
  | (k', v) :: rest => if compare k k' = .eq then some v else find k rest

/-- The entry list with `k` set to `v`, put before the first larger key. -/
def put (k : κ) (v : ν) : List (κ × ν) → List (κ × ν)
  | [] => [(k, v)]
  | (k', v') :: rest =>
    match compare k k' with
    | .lt => (k, v) :: (k', v') :: rest
    | .eq => (k, v) :: rest
    | .gt => (k', v') :: put k v rest

/-- The value stored under `k`. -/
def get? (t : Table κ ν) (k : κ) : Option ν := find k t.entries

/-- Whether `k` has a value. -/
def contains (t : Table κ ν) (k : κ) : Bool := (t.get? k).isSome

/-- The number of keys. -/
def size (t : Table κ ν) : Nat := t.entries.length

/-- Whether the table has no entry. -/
def isEmpty (t : Table κ ν) : Bool := t.entries.isEmpty

/-- All entries in key order. -/
def toList (t : Table κ ν) : List (κ × ν) := t.entries

/-- All keys in order. -/
def keys (t : Table κ ν) : List κ := t.entries.map (·.1)

/-- All values in the order of their keys. -/
def values (t : Table κ ν) : List ν := t.entries.map (·.2)

/-- A key of the changed list is the new key or was there before. -/
theorem mem_put {k : κ} {v : ν} {entries : List (κ × ν)} {e : κ × ν}
    (h : e ∈ put k v entries) : e = (k, v) ∨ e ∈ entries := by
  induction entries with
  | nil => simpa [put] using h
  | cons head rest ih =>
    obtain ⟨k', v'⟩ := head
    unfold put at h
    split at h
    · simpa using h
    · simp only [List.mem_cons] at h ⊢
      rcases h with h | h
      · exact .inl h
      · exact .inr (.inr h)
    · simp only [List.mem_cons] at h ⊢
      rcases h with h | h
      · exact .inr (.inl h)
      · rcases ih h with h | h
        · exact .inl h
        · exact .inr (.inr h)

/-- Setting a key keeps the entries in key order. -/
theorem sorted_put [Std.TransOrd κ] [Std.LawfulEqOrd κ] (k : κ) (v : ν)
    {entries : List (κ × ν)} (h : KeyOrdered entries) : KeyOrdered (put k v entries) := by
  induction entries with
  | nil => simp [put, KeyOrdered]
  | cons head rest ih =>
    obtain ⟨k', v'⟩ := head
    have hrest := (List.pairwise_cons.1 h).2
    have hhead := (List.pairwise_cons.1 h).1
    unfold put
    split
    · rename_i hlt
      refine List.pairwise_cons.2 ⟨?_, h⟩
      intro e he
      rcases List.mem_cons.1 he with rfl | he
      · exact hlt
      · exact Std.TransCmp.lt_trans hlt (hhead e he)
    · rename_i heq
      have hk : k = k' := Std.LawfulEqCmp.eq_of_compare heq
      subst hk
      exact List.pairwise_cons.2 ⟨hhead, hrest⟩
    · rename_i hgt
      refine List.pairwise_cons.2 ⟨?_, ih hrest⟩
      intro e he
      rcases mem_put he with rfl | he
      · exact Std.OrientedCmp.lt_of_gt hgt
      · exact hhead e he

/-- Leaving entries out keeps the rest in key order. -/
theorem sorted_filter (p : κ × ν → Bool) {entries : List (κ × ν)} (h : KeyOrdered entries) :
    KeyOrdered (entries.filter p) :=
  List.Pairwise.sublist List.filter_sublist h

/-- Changing values alone keeps the key order. -/
theorem sorted_map {μ : Type} (f : κ → ν → μ) {entries : List (κ × ν)} (h : KeyOrdered entries) :
    KeyOrdered (entries.map fun e => (e.1, f e.1 e.2)) := by
  unfold KeyOrdered
  rw [List.pairwise_map]
  exact h

section Ops

variable [Std.TransOrd κ] [Std.LawfulEqOrd κ]

/-- The table with `k` set to `v`. -/
def insert (t : Table κ ν) (k : κ) (v : ν) : Table κ ν :=
  ⟨put k v t.entries, sorted_put k v t.sorted⟩

/-- The entries that satisfy `p`. -/
def filter (t : Table κ ν) (p : κ → ν → Bool) : Table κ ν :=
  ⟨t.entries.filter fun e => p e.1 e.2, sorted_filter _ t.sorted⟩

/-- The table without `k`. -/
def erase (t : Table κ ν) (k : κ) : Table κ ν :=
  t.filter fun k' _ => compare k k' != .eq

/-- Every value changed by `f`, keys unchanged. -/
def mapValues {μ : Type} (t : Table κ ν) (f : κ → ν → μ) : Table κ μ :=
  ⟨t.entries.map fun e => (e.1, f e.1 e.2), sorted_map f t.sorted⟩

/-- The value under `k` changed by `f`, if there is one. -/
def modify (t : Table κ ν) (k : κ) (f : ν → ν) : Table κ ν :=
  t.mapValues fun k' v => if compare k k' = .eq then f v else v

/-- The table of a list of entries; a later entry of a key replaces an earlier
one. -/
def ofList (entries : List (κ × ν)) : Table κ ν :=
  entries.foldl (fun t e => t.insert e.1 e.2) empty

end Ops

/-! ## Look-ups after each operation -/

@[simp] theorem get?_empty (k : κ) : (empty : Table κ ν).get? k = none := rfl

/-- A key below every key of the list has no value. -/
theorem find_eq_none_of_lt {k : κ} {entries : List (κ × ν)}
    (h : ∀ e ∈ entries, compare k e.1 = .lt) : find k entries = none := by
  induction entries with
  | nil => rfl
  | cons head rest ih =>
    have hk : ¬ compare k head.1 = .eq := by rw [h head (by simp)]; decide
    simp only [find, if_neg hk]
    exact ih fun e he => h e (by simp [he])

theorem find_put [Std.TransOrd κ] [Std.LawfulEqOrd κ] [DecidableEq κ] (k : κ) (v : ν)
    (entries : List (κ × ν)) (j : κ) :
    find j (put k v entries) = if j = k then some v else find j entries := by
  induction entries with
  | nil => simp [put, find]
  | cons head rest ih =>
    obtain ⟨k', v'⟩ := head
    unfold put
    split
    · simp [find]
    · rename_i heq
      have hk : k = k' := Std.LawfulEqCmp.eq_of_compare heq
      subst hk
      by_cases h : j = k <;> simp [find, h]
    · rename_i hgt
      have hne : k ≠ k' := by
        intro e
        subst e
        simp at hgt
      by_cases hj : j = k'
      · subst hj
        simp [find, Ne.symm hne]
      · simp [find, hj, ih]

theorem get?_insert [Std.TransOrd κ] [Std.LawfulEqOrd κ] [DecidableEq κ] (t : Table κ ν)
    (k : κ) (v : ν) (j : κ) :
    (t.insert k v).get? j = if j = k then some v else t.get? j :=
  find_put k v t.entries j

theorem find_filter [Std.TransOrd κ] [Std.LawfulEqOrd κ] (p : κ → ν → Bool)
    {entries : List (κ × ν)} (h : KeyOrdered entries) (j : κ) :
    find j (entries.filter fun e => p e.1 e.2) = (find j entries).filter (p j) := by
  induction entries with
  | nil => rfl
  | cons head rest ih =>
    obtain ⟨k', v'⟩ := head
    have hrest := (List.pairwise_cons.1 h).2
    have hhead := (List.pairwise_cons.1 h).1
    by_cases hj : compare j k' = .eq
    · have hk : j = k' := Std.LawfulEqCmp.eq_of_compare hj
      subst hk
      have hnone : find j (rest.filter fun e => p e.1 e.2) = none :=
        find_eq_none_of_lt fun e he => hhead e (List.mem_filter.1 he).1
      by_cases hp : p j v' = true
      · simp [find, hp, Option.filter]
      · simp [find, hp, hnone, Option.filter]
    · by_cases hp : p k' v' = true <;> simp [find, hp, hj, ih hrest]

theorem get?_filter [Std.TransOrd κ] [Std.LawfulEqOrd κ] (t : Table κ ν) (p : κ → ν → Bool)
    (j : κ) : (t.filter p).get? j = (t.get? j).filter (p j) :=
  find_filter p t.sorted j

theorem get?_erase [Std.TransOrd κ] [Std.LawfulEqOrd κ] [DecidableEq κ] (t : Table κ ν)
    (k j : κ) : (t.erase k).get? j = if j = k then none else t.get? j := by
  rw [erase, get?_filter]
  by_cases h : j = k
  · subst h
    cases t.get? j <;> simp
  · cases t.get? j <;> simp [h, Ne.symm h]

/-- Entry lists in key order with the same look-ups are the same list. -/
theorem eq_of_find_eq [Std.TransOrd κ] [Std.LawfulEqOrd κ] {xs ys : List (κ × ν)}
    (hx : KeyOrdered xs) (hy : KeyOrdered ys) (h : ∀ k, find k xs = find k ys) : xs = ys := by
  induction xs generalizing ys with
  | nil =>
    cases ys with
    | nil => rfl
    | cons head rest =>
      have := h head.1
      simp [find] at this
  | cons x xs ih =>
    have hx' := List.pairwise_cons.1 hx
    cases ys with
    | nil =>
      have := h x.1
      simp [find] at this
    | cons y ys =>
      have hy' := List.pairwise_cons.1 hy
      have hkey : compare x.1 y.1 = .eq := by
        cases hc : compare x.1 y.1 with
        | eq => rfl
        | lt =>
          have hnone : find x.1 (y :: ys) = none := find_eq_none_of_lt fun e he => by
            rcases List.mem_cons.1 he with rfl | he
            · exact hc
            · exact Std.TransCmp.lt_trans hc (hy'.1 e he)
          have := h x.1
          rw [hnone] at this
          simp [find] at this
        | gt =>
          have hc' := Std.OrientedCmp.lt_of_gt hc
          have hnone : find y.1 (x :: xs) = none := find_eq_none_of_lt fun e he => by
            rcases List.mem_cons.1 he with rfl | he
            · exact hc'
            · exact Std.TransCmp.lt_trans hc' (hx'.1 e he)
          have := h y.1
          rw [hnone] at this
          simp [find] at this
      have hk : x.1 = y.1 := Std.LawfulEqCmp.eq_of_compare hkey
      have hv : x.2 = y.2 := by
        have := h x.1
        simpa [find, hk] using this
      have hrest : xs = ys := by
        refine ih hx'.2 hy'.2 fun k => ?_
        by_cases hkx : compare k x.1 = .eq
        · have hk' : k = x.1 := Std.LawfulEqCmp.eq_of_compare hkx
          subst hk'
          rw [find_eq_none_of_lt hx'.1, hk, find_eq_none_of_lt hy'.1]
        · have := h k
          rw [hk] at hkx
          simpa [find, hk, hkx] using this
      rw [hrest, show x = y from Prod.ext hk hv]

/-- Tables with the same look-ups are equal. -/
theorem ext_get? [Std.TransOrd κ] [Std.LawfulEqOrd κ] {s t : Table κ ν}
    (h : ∀ k, s.get? k = t.get? k) : s = t := by
  have he := eq_of_find_eq s.sorted t.sorted h
  cases s
  cases t
  simpa using he

/-- In key order, a look-up finds exactly the entries. -/
theorem find_eq_some_iff [Std.TransOrd κ] [Std.LawfulEqOrd κ] {entries : List (κ × ν)}
    (h : KeyOrdered entries) {k : κ} {v : ν} : find k entries = some v ↔ (k, v) ∈ entries := by
  induction entries with
  | nil => simp [find]
  | cons head rest ih =>
    obtain ⟨k', v'⟩ := head
    have hrest := (List.pairwise_cons.1 h).2
    have hhead := (List.pairwise_cons.1 h).1
    by_cases hk : compare k k' = .eq
    · have hkk : k = k' := Std.LawfulEqCmp.eq_of_compare hk
      subst hkk
      have hnot : (k, v) ∉ rest := by
        intro hm
        have hlt := hhead _ hm
        simp at hlt
      simp [find, hnot, eq_comm]
    · have hne : k ≠ k' := by
        intro e
        subst e
        simp at hk
      simp [find, hk, hne, ih hrest]

theorem mem_toList [Std.TransOrd κ] [Std.LawfulEqOrd κ] {t : Table κ ν} {k : κ} {v : ν} :
    (k, v) ∈ t.toList ↔ t.get? k = some v :=
  (find_eq_some_iff t.sorted).symm

theorem mem_values [Std.TransOrd κ] [Std.LawfulEqOrd κ] {t : Table κ ν} {v : ν} :
    v ∈ t.values ↔ ∃ k, t.get? k = some v := by
  simp only [values, List.mem_map, Prod.exists, exists_eq_right]
  exact exists_congr fun _ => mem_toList

theorem mem_keys [Std.TransOrd κ] [Std.LawfulEqOrd κ] {t : Table κ ν} {k : κ} :
    k ∈ t.keys ↔ ∃ v, t.get? k = some v := by
  simp only [keys, List.mem_map, Prod.exists, exists_and_right, exists_eq_right]
  exact exists_congr fun _ => mem_toList

theorem contains_iff {t : Table κ ν} {k : κ} : t.contains k = true ↔ ∃ v, t.get? k = some v := by
  simp [contains, Option.isSome_iff_exists]

theorem mem_keys_iff_contains [Std.TransOrd κ] [Std.LawfulEqOrd κ] {t : Table κ ν} {k : κ} :
    k ∈ t.keys ↔ t.contains k = true := by
  rw [mem_keys, contains_iff]

/-- No key is listed twice. -/
theorem nodup_keys [Std.LawfulEqOrd κ] (t : Table κ ν) : t.keys.Nodup := by
  refine List.pairwise_map.2 (t.sorted.imp fun {a b} h e => ?_)
  rw [e] at h
  simp at h

theorem get?_mapValues [Std.LawfulEqOrd κ] {μ : Type} (t : Table κ ν) (f : κ → ν → μ)
    (k : κ) : (t.mapValues f).get? k = (t.get? k).map (f k) := by
  unfold mapValues get?
  simp only
  induction t.entries with
  | nil => rfl
  | cons head rest ih =>
    by_cases hk : compare k head.1 = .eq
    · have hkk : k = head.1 := Std.LawfulEqCmp.eq_of_compare hk
      simp [find, hkk]
    · simp [find, hk, ih]

theorem get?_modify [Std.LawfulEqOrd κ] [DecidableEq κ] (t : Table κ ν) (k : κ)
    (f : ν → ν) (j : κ) :
    (t.modify k f).get? j = if j = k then (t.get? k).map f else t.get? j := by
  rw [modify, get?_mapValues]
  by_cases h : j = k
  · subst h
    simp
  · simp [h, Ne.symm h]

end Table

/-- A finite set read in increasing order. -/
abbrev OrdSet (κ : Type) [Ord κ] := Table κ Unit

namespace OrdSet

variable {κ : Type} [Ord κ] [Std.TransOrd κ] [Std.LawfulEqOrd κ]

/-- The set with `k` added. -/
def add (s : OrdSet κ) (k : κ) : OrdSet κ := Table.insert s k ()

/-- The set with every member of a list added. -/
def addAll (s : OrdSet κ) (ks : List κ) : OrdSet κ := ks.foldl add s

/-- The members of a list as a set. -/
def ofList (ks : List κ) : OrdSet κ := addAll Table.empty ks

theorem contains_add [DecidableEq κ] (s : OrdSet κ) (k j : κ) :
    (s.add k).contains j = true ↔ j = k ∨ s.contains j = true := by
  unfold add Table.contains
  rw [Table.get?_insert]
  by_cases h : j = k <;> simp [h]

theorem contains_addAll [DecidableEq κ] (s : OrdSet κ) (ks : List κ) (j : κ) :
    (s.addAll ks).contains j = true ↔ j ∈ ks ∨ s.contains j = true := by
  induction ks generalizing s with
  | nil => simp [addAll]
  | cons k ks ih =>
    have hstep : s.addAll (k :: ks) = (s.add k).addAll ks := rfl
    rw [hstep, ih, contains_add, List.mem_cons]
    rw [← or_assoc, or_comm (a := j ∈ ks), or_assoc]

theorem contains_ofList [DecidableEq κ] (ks : List κ) (j : κ) :
    (ofList ks).contains j = true ↔ j ∈ ks := by
  rw [ofList, contains_addAll]
  simp [Table.contains]

end OrdSet

end Wayfarer
