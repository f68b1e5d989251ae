import Mathlib.Data.List.Nodup
import Wayfarer.Proofs.Shared

/-!
# What the cache serves

A cache is told of commits and asked for anchors at increasing instants. Every
entry goes back to the call that stored it, and no later call had anything to
say against it (`Cache.Traced`). So the cache serves no anchor that is expired
or superseded, holds no more entries than it has room for, and gives up an entry
that is still fresh only if it must: the one stored earliest
(`Cache.serves_what_was_put`).

* `Cache.play` carries out a history of calls.
* `Cache.Spares` says which entries of other objects an insertion leaves alone.
-/

namespace Wayfarer

/-! ## Sizes of tables -/

namespace Table

variable {κ ν : Type} [Ord κ]

theorem length_put_le (k : κ) (v : ν) (entries : List (κ × ν)) :
    (put k v entries).length ≤ entries.length + 1 := by
  induction entries with
  | nil => simp [put]
  | cons head rest ih =>
    unfold put
    split <;> simp [ih]

theorem length_put_of_find [Std.TransOrd κ] {k : κ} {v old : ν} {entries : List (κ × ν)}
    (h : KeyOrdered entries) (hold : find k entries = some old) :
    (put k v entries).length = entries.length := by
  induction entries with
  | nil => cases hold
  | cons head rest ih =>
    obtain ⟨k', v'⟩ := head
    obtain ⟨hhead, hrest⟩ := List.pairwise_cons.1 h
    unfold put
    split
    · -- a key before the first one is not there
      rename_i hlt
      have hnone : find k ((k', v') :: rest) = none := find_eq_none_of_lt fun e he => by
        rcases List.mem_cons.1 he with rfl | he
        · exact hlt
        · exact Std.TransCmp.lt_trans hlt (hhead e he)
      rw [hnone] at hold
      cases hold
    · simp
    · rename_i hgt
      have hold : find k rest = some old := by simpa [find, hgt] using hold
      simp [ih hrest hold]

theorem size_filter_le (t : Table κ ν) (p : κ → ν → Bool) : (t.filter p).size ≤ t.size :=
  List.length_filter_le ..

variable [Std.TransOrd κ] [Std.LawfulEqOrd κ]

theorem size_insert_le (t : Table κ ν) (k : κ) (v : ν) : (t.insert k v).size ≤ t.size + 1 :=
  length_put_le k v t.entries

theorem size_insert_of_get? {t : Table κ ν} {k : κ} {v old : ν} (h : t.get? k = some old) :
    (t.insert k v).size = t.size :=
  length_put_of_find t.sorted h

theorem size_erase_lt {t : Table κ ν} {k : κ} {v : ν} (h : t.get? k = some v) :
    (t.erase k).size < t.size := by
  have hmem : (k, v) ∈ t.entries := mem_toList.2 h
  exact List.length_filter_lt_length_iff_exists.2 ⟨(k, v), hmem, by simp⟩

end Table

namespace Cache

variable {c c' : Cache} {now : Instant} {id : ObjectId} {e f : CacheEntry}

/-! ## Calls -/

/-- What may be asked of a cache, or told to it. -/
inductive Call
  | put (a : Anchor)
  | invalidate (id : ObjectId) (version : UInt64)
  | get (id : ObjectId)
  | clear

/-- Calls in their order, each with the instant at which it is made. -/
abbrev History := List (Instant × Call)

/-- Every call is made later than those before it. -/
def History.Timed (h : History) : Prop := h.Pairwise fun x y => x.1 < y.1

instance (h : History) : Decidable h.Timed :=
  inferInstanceAs (Decidable (h.Pairwise fun x y => x.1 < y.1))

/-- What a call has the cache remember: an object, its version, and its anchor
unless it was removed. -/
def Call.tells : Call → Option (ObjectId × UInt64 × Option Anchor)
  | .put a => some (a.id, a.version, some a.clean)
  | .invalidate id version => some (id, version, none)
  | .get _ => none
  | .clear => none

/-- The cache after a call. -/
def after (c : Cache) (now : Instant) : Call → Cache
  | .put a => c.put now a
  | .invalidate id version => c.invalidate now id version
  | .get _ => c
  | .clear => c.clear

/-- The cache after a history of calls. -/
def play (c : Cache) (history : History) : Cache := history.foldl (fun c x => c.after x.1 x.2) c

/-- A cache that has not been told anything. -/
def blank (ttl capacity : Nat) : Cache := ⟨ttl, capacity, Table.empty⟩

/-- The call takes the version of an object out of circulation: the cache is
told of a newer one, or that this one or a newer one was removed, or is
cleared. -/
def Call.Retires (id : ObjectId) (version : UInt64) : Call → Prop
  | .put a => a.id = id ∧ version < a.version
  | .invalidate removed last => removed = id ∧ version ≤ last
  | .get _ => False
  | .clear => True

theorem after_of_tells {call : Call} {version : UInt64} {anchor : Option Anchor}
    (h : call.tells = some (id, version, anchor)) :
    c.after now call = c.remember now id version anchor := by
  cases call <;> cases h <;> rfl

theorem after_limits (c : Cache) (now : Instant) (call : Call) :
    (c.after now call).ttl = c.ttl ∧ (c.after now call).capacity = c.capacity := by
  cases call with
  | put a => exact ⟨remember_ttl .., remember_capacity ..⟩
  | invalidate id version => exact ⟨remember_ttl .., remember_capacity ..⟩
  | get id => exact ⟨rfl, rfl⟩
  | clear => exact ⟨rfl, rfl⟩

theorem play_limits (c : Cache) (history : History) :
    (c.play history).ttl = c.ttl ∧ (c.play history).capacity = c.capacity := by
  induction history generalizing c with
  | nil => exact ⟨rfl, rfl⟩
  | cons x rest ih =>
    obtain ⟨httl, hcap⟩ := ih (c.after x.1 x.2)
    obtain ⟨httl', hcap'⟩ := c.after_limits x.1 x.2
    exact ⟨httl.trans httl', hcap.trans hcap'⟩

/-! ## Making room -/

/-- The entries that have not outlived their time. -/
def fresh (c : Cache) (now : Instant) : Table ObjectId CacheEntry :=
  c.entries.filter fun _ e => c.live now e

theorem get?_fresh :
    (c.fresh now).get? id = some e ↔ c.entries.get? id = some e ∧ c.live now e = true := by
  rw [fresh, Table.get?_filter, Option.filter_eq_some_iff]

theorem of_get?_fresh (h : (c.fresh now).get? id = some e) : c.entries.get? id = some e :=
  (get?_fresh.1 h).1

/-- The fold finds an entry that was stored no later than any other. -/
theorem foldl_older (l : List (ObjectId × CacheEntry)) (best : ObjectId × CacheEntry) :
    ∃ m, l.foldl older (some best) = some m ∧ (m = best ∨ m ∈ l) ∧
      m.2.storedAt ≤ best.2.storedAt ∧ ∀ x ∈ l, m.2.storedAt ≤ x.2.storedAt := by
  induction l generalizing best with
  | nil => exact ⟨best, rfl, .inl rfl, Nat.le_refl _, by simp⟩
  | cons x rest ih =>
    rw [List.foldl_cons, older]
    split
    · rename_i hlt
      obtain ⟨m, hm, hmem, hle, hall⟩ := ih x
      refine ⟨m, hm, .inr (List.mem_cons.2 hmem), Nat.le_of_lt (Nat.lt_of_le_of_lt hle hlt), ?_⟩
      exact List.forall_mem_cons.2 ⟨hle, hall⟩
    · rename_i hge
      obtain ⟨m, hm, hmem, hle, hall⟩ := ih best
      refine ⟨m, hm, hmem.imp_right (List.mem_cons_of_mem _), hle, ?_⟩
      exact List.forall_mem_cons.2 ⟨Nat.le_trans hle (Nat.not_lt.1 hge), hall⟩

/-- If there are entries at all, one of them was stored earliest. -/
theorem oldest?_eq_some {t : Table ObjectId CacheEntry} (h : 0 < t.size) :
    ∃ j e, oldest? t = some j ∧ t.get? j = some e ∧
      ∀ k f, t.get? k = some f → e.storedAt ≤ f.storedAt := by
  have hmem : ∀ x, x ∈ t.toList ↔ t.get? x.1 = some x.2 := fun x => Table.mem_toList
  unfold oldest?
  cases hl : t.toList with
  | nil =>
    have hlen : t.size = t.toList.length := rfl
    rw [hlen, hl] at h
    cases h
  | cons x rest =>
    obtain ⟨m, hm, hfrom, hle, hall⟩ := foldl_older rest x
    rw [List.foldl_cons, older, hm]
    refine ⟨m.1, m.2, rfl, (hmem m).1 ?_, fun k f hf => ?_⟩
    · rw [hl]
      exact List.mem_cons.2 hfrom
    · have hkf := (hmem (k, f)).2 hf
      rw [hl] at hkf
      exact (List.forall_mem_cons.2 ⟨hle, hall⟩ : ∀ y ∈ x :: rest, _) (k, f) hkf

/-- A cache that was told of an object leaves the unexpired entries of others
alone, unless there are as many unexpired entries as it has room for. Then it
takes away the one that was stored before all others, and no second one. -/
structure Spares (c c' : Cache) (now : Instant) (id : ObjectId) : Prop where
  full : ∀ {j e}, j ≠ id → (c.fresh now).get? j = some e → c'.entries.get? j ≠ some e →
    (c.fresh now).size = c.capacity
  first : ∀ {j e}, j ≠ id → (c.fresh now).get? j = some e → c'.entries.get? j ≠ some e →
    ∀ {k f}, k ≠ j → (c.fresh now).get? k = some f →
      e.storedAt < f.storedAt ∧ c'.entries.get? k = some f
  gone : c.enabled = true → c.entries.get? id = none → (c.fresh now).size = c.capacity →
    ∃ j e, (c.fresh now).get? j = some e ∧ c'.entries.get? j = none

/-- What a cache does when it is told of an object: nothing if it is switched
off or knows better, otherwise it stores an entry, in the place of an older one
or after making room. -/
theorem remember_cases (c : Cache) (now : Instant) (id : ObjectId) (version : UInt64)
    (anchor : Option Anchor) :
    (c.remember now id version anchor = c ∧ (c.enabled = false ∨
      ∃ e, c.entries.get? id = some e ∧ c.supersedes now e version anchor = true)) ∨
    (c.enabled = true ∧ ∃ room : Table ObjectId CacheEntry,
      c.remember now id version anchor =
        { c with entries := room.insert id ⟨now, version, anchor⟩ } ∧
      ((∃ e, c.entries.get? id = some e ∧ room = c.entries) ∨
        (c.entries.get? id = none ∧ c.entries.size < c.capacity ∧ room = c.entries) ∨
        (c.entries.get? id = none ∧ c.capacity ≤ c.entries.size ∧ room = c.makeRoom now))) := by
  by_cases hon : c.enabled = true
  · cases hid : c.entries.get? id with
    | some e =>
      have heq : c.remember now id version anchor = if c.supersedes now e version anchor then c
          else { c with entries := c.entries.insert id ⟨now, version, anchor⟩ } := by
        simp only [remember, hon, hid, Bool.not_true, Bool.false_eq_true, if_false]
      by_cases hsup : c.supersedes now e version anchor = true
      · exact .inl ⟨heq.trans (if_pos hsup), .inr ⟨e, rfl, hsup⟩⟩
      · exact .inr ⟨hon, c.entries, heq.trans (if_neg hsup), .inl ⟨e, rfl, rfl⟩⟩
    | none =>
      have heq : c.remember now id version anchor =
          let room := if c.capacity ≤ c.entries.size then c.makeRoom now else c.entries
          { c with entries := room.insert id ⟨now, version, anchor⟩ } := by
        simp only [remember, hon, hid, Bool.not_true, Bool.false_eq_true, if_false]
      refine .inr ⟨hon, _, heq, .inr ?_⟩
      by_cases hfull : c.capacity ≤ c.entries.size
      · exact .inr ⟨rfl, hfull, if_pos hfull⟩
      · exact .inl ⟨rfl, Nat.not_le.1 hfull, if_neg hfull⟩
  · have hoff : c.enabled = false := by simpa using hon
    exact .inl ⟨remember_of_disabled hoff now id version anchor, .inl hoff⟩

/-- Expired entries go, and if that is not enough, so does the unexpired one
stored earliest. -/
theorem makeRoom_cases (hcap : 0 < c.capacity) (now : Instant) :
    ((c.fresh now).size < c.capacity ∧ c.makeRoom now = c.fresh now) ∨
    (c.capacity ≤ (c.fresh now).size ∧ ∃ j e, (c.fresh now).get? j = some e ∧
      (∀ k f, (c.fresh now).get? k = some f → e.storedAt ≤ f.storedAt) ∧
      c.makeRoom now = (c.fresh now).erase j) := by
  by_cases hfull : c.capacity ≤ (c.fresh now).size
  · obtain ⟨j, e, hj, hje, hmin⟩ := oldest?_eq_some (Nat.lt_of_lt_of_le hcap hfull)
    have hroom : c.makeRoom now = (c.fresh now).erase j := by
      refine (if_pos hfull).trans ?_
      rw [show oldest? (c.entries.filter fun _ e => c.live now e) = some j from hj]
      rfl
    exact .inr ⟨hfull, j, e, hje, hmin, hroom⟩
  · exact .inl ⟨by omega, if_neg hfull⟩

theorem capacity_pos (hon : c.enabled = true) : 0 < c.ttl ∧ 0 < c.capacity := by
  simpa [enabled] using hon

theorem size_fresh_le (c : Cache) (now : Instant) : (c.fresh now).size ≤ c.entries.size :=
  Table.size_filter_le ..

/-- A cache never grows beyond its capacity. -/
theorem size_remember_le (h : c.size ≤ c.capacity) (now : Instant) (id : ObjectId)
    (version : UInt64) (anchor : Option Anchor) :
    (c.remember now id version anchor).size ≤ c.capacity := by
  have hsize : c.entries.size ≤ c.capacity := h
  rcases c.remember_cases now id version anchor with ⟨hsame, -⟩ | ⟨hon, room, hnew, hroom⟩
  · rw [hsame]
    exact h
  · rw [hnew]
    show (room.insert id ⟨now, version, anchor⟩).size ≤ c.capacity
    rcases hroom with ⟨e, he, rfl⟩ | ⟨-, hless, rfl⟩ | ⟨-, -, rfl⟩
    · rw [Table.size_insert_of_get? he]
      exact hsize
    · have hins := Table.size_insert_le c.entries id ⟨now, version, anchor⟩
      omega
    · have hins := Table.size_insert_le (c.makeRoom now) id ⟨now, version, anchor⟩
      have hfresh := c.size_fresh_le now
      rcases makeRoom_cases (capacity_pos hon).2 now with ⟨hless, heq⟩ |
        ⟨-, j, e, hj, -, heq⟩
      · rw [heq] at hins ⊢
        omega
      · have hgone := Table.size_erase_lt hj
        rw [heq] at hins ⊢
        omega

/-- No two entries of a cache were stored at the same instant. -/
def Apart (c : Cache) : Prop :=
  ∀ {j k e f}, c.entries.get? j = some e → c.entries.get? k = some f →
    e.storedAt = f.storedAt → j = k

/-- Where all unexpired entries of other objects stay, none is lost, and none
had to be if a new one fits. -/
theorem Spares.of_kept {c' : Cache}
    (hkept : ∀ {j e}, j ≠ id → (c.fresh now).get? j = some e → c'.entries.get? j = some e)
    (hroom : c.enabled = true → c.entries.get? id = none → (c.fresh now).size ≠ c.capacity) :
    Spares c c' now id :=
  ⟨fun hj he hne => absurd (hkept hj he) hne, fun hj he hne => absurd (hkept hj he) hne,
    fun hon hnone hfull => absurd hfull (hroom hon hnone)⟩

/-- Where a new object finds the cache full, only the unexpired entry that was
stored earliest goes. -/
theorem Spares.of_evicted {c' : Cache} {i : ObjectId} {d : CacheEntry} (hapart : c.Apart)
    (hnone : c.entries.get? id = none) (hfull : (c.fresh now).size = c.capacity)
    (hi : (c.fresh now).get? i = some d)
    (hmin : ∀ k f, (c.fresh now).get? k = some f → d.storedAt ≤ f.storedAt)
    (hlost : ∀ {j e}, j ≠ id → (c.fresh now).get? j = some e →
      c'.entries.get? j = if j = i then none else some e) : Spares c c' now id := by
  have hother : ∀ {k f}, (c.fresh now).get? k = some f → k ≠ id := by
    rintro k f hk rfl
    cases hnone.symm.trans (of_get?_fresh hk)
  refine ⟨fun _ _ _ => hfull, fun {j e} hj he hne {k f} hk hf => ?_, fun _ _ _ => ⟨i, d, hi, ?_⟩⟩
  · have hji : j = i := by
      by_contra hji
      exact hne ((hlost hj he).trans (if_neg hji))
    subst hji
    obtain rfl := Option.some.inj (hi.symm.trans he)
    have hlt : d.storedAt ≠ f.storedAt := fun heq =>
      hk (hapart (of_get?_fresh hf) (of_get?_fresh hi) heq.symm)
    exact ⟨Nat.lt_of_le_of_ne (hmin k f hf) hlt, (hlost (hother hf) hf).trans (if_neg hk)⟩
  · rw [hlost (hother hi) hi, if_pos rfl]

theorem remember_spares (hsize : c.size ≤ c.capacity) (hapart : c.Apart) (version : UInt64)
    (anchor : Option Anchor) : Spares c (c.remember now id version anchor) now id := by
  have hle := c.size_fresh_le now
  have hbound : c.entries.size ≤ c.capacity := hsize
  rcases c.remember_cases now id version anchor with ⟨hsame, hwhy⟩ | ⟨hon, room, hnew, hroom⟩
  · rw [hsame]
    refine .of_kept (fun _ he => of_get?_fresh he) fun hon hnone => ?_
    rcases hwhy with hoff | ⟨e, he, -⟩
    · cases hon.symm.trans hoff
    · cases hnone.symm.trans he
  · have hget : ∀ {j}, j ≠ id → (c.remember now id version anchor).entries.get? j = room.get? j :=
      fun hj => by
        rw [hnew]
        exact (Table.get?_insert ..).trans (if_neg hj)
    rcases hroom with ⟨e, he, rfl⟩ | ⟨-, hless, rfl⟩ | ⟨hnone, -, rfl⟩
    · exact .of_kept (fun hj he => (hget hj).trans (of_get?_fresh he)) fun _ hnone =>
        by cases hnone.symm.trans he
    · exact .of_kept (fun hj he => (hget hj).trans (of_get?_fresh he)) fun _ _ => by omega
    · rcases makeRoom_cases (capacity_pos hon).2 now with ⟨hless, heq⟩ |
        ⟨hfull, i, d, hi, hmin, heq⟩
      · rw [heq] at hget
        exact .of_kept (fun hj he => (hget hj).trans he) fun _ _ => by omega
      · refine .of_evicted hapart hnone (by omega) hi hmin fun hj he => ?_
        rw [hget hj, heq, Table.get?_erase, he]

/-! ## Where entries come from -/

/-- Every entry was stored by a call in the past, and no call after that one had
anything to say against it. -/
structure Traced (c : Cache) (past : History) : Prop where
  size_le : c.size ≤ c.capacity
  idle : c.enabled = false → c.entries = Table.empty
  origin : ∀ {id e}, c.entries.get? id = some e → ∃ earlier call later,
    past = earlier ++ (e.storedAt, call) :: later ∧ call.tells = some (id, e.version, e.anchor) ∧
      ∀ y ∈ later, ¬ y.2.Retires id e.version

/-- A call that an entry survives does not retire it. -/
theorem not_retires_of_supersedes {call : Call} {version : UInt64} {anchor : Option Anchor}
    (htells : call.tells = some (id, version, anchor))
    (hsup : c.supersedes now e version anchor = true) : ¬ call.Retires id e.version := by
  simp only [supersedes, Bool.and_eq_true, Bool.or_eq_true, decide_eq_true_eq, beq_iff_eq] at hsup
  cases call with
  | put a =>
    cases htells
    rintro ⟨-, hlt⟩
    rcases hsup.2 with hgt | ⟨heq, -⟩
    · exact absurd hgt (UInt64.lt_asymm hlt)
    · exact absurd (heq ▸ hlt) (UInt64.lt_irrefl _)
  | invalidate removed last =>
    cases htells
    rintro ⟨-, hle⟩
    rcases hsup.2 with hgt | ⟨-, hsome⟩
    · exact absurd hgt (UInt64.not_lt.2 hle)
    · cases hsome
  | get id => cases htells
  | clear => cases htells

/-- A call about one object retires no version of another. -/
theorem not_retires_of_ne {call : Call} {j : ObjectId} {version : UInt64} {anchor : Option Anchor}
    {v : UInt64} (htells : call.tells = some (id, version, anchor)) (hj : j ≠ id) :
    ¬ call.Retires j v := by
  cases call with
  | put a =>
    cases htells
    exact fun h => hj h.1.symm
  | invalidate removed last =>
    cases htells
    exact fun h => hj h.1.symm
  | get id => cases htells
  | clear => cases htells

namespace Traced

variable {past : History}

theorem blank (ttl capacity : Nat) : Traced (blank ttl capacity) [] :=
  ⟨Nat.zero_le _, fun _ => rfl, fun h => by cases h⟩

theorem remember (h : Traced c past) {call : Call} {version : UInt64} {anchor : Option Anchor}
    (htells : call.tells = some (id, version, anchor)) (now : Instant) :
    Traced (c.remember now id version anchor) (past ++ [(now, call)]) := by
  refine ⟨?_, ?_, ?_⟩
  · rw [remember_capacity]
    exact size_remember_le h.size_le ..
  · intro hoff
    rw [remember_enabled] at hoff
    rw [remember_of_disabled hoff]
    exact h.idle hoff
  · intro j e he
    rcases get?_of_remember he with ⟨rfl, rfl⟩ | ⟨hold, hsup⟩
    · exact ⟨past, call, [], by simp, htells, by simp⟩
    · obtain ⟨earlier, stored, later, rfl, htold, hlater⟩ := h.origin hold
      refine ⟨earlier, stored, later ++ [(now, call)], by simp, htold, ?_⟩
      have hcall : ¬ call.Retires j e.version := by
        by_cases hj : j = id
        · subst hj
          rcases hsup rfl with hoff | hsup
          · rw [h.idle hoff] at hold
            cases hold
          · exact not_retires_of_supersedes htells hsup
        · exact not_retires_of_ne htells hj
      intro y hy
      rcases List.mem_append.1 hy with hy | hy
      · exact hlater y hy
      · rw [List.mem_singleton.1 hy]
        exact hcall

/-- One more call. -/
theorem after (h : Traced c past) (now : Instant) (call : Call) :
    Traced (c.after now call) (past ++ [(now, call)]) := by
  cases htells : call.tells with
  | some told =>
    obtain ⟨id, version, anchor⟩ := told
    rw [after_of_tells htells]
    exact h.remember htells now
  | none =>
    cases call with
    | put a => cases htells
    | invalidate id version => cases htells
    | clear => exact ⟨Nat.zero_le _, fun _ => rfl, fun he => by cases he⟩
    | get id =>
      refine ⟨h.size_le, h.idle, fun he => ?_⟩
      obtain ⟨earlier, stored, later, rfl, htold, hlater⟩ := h.origin he
      refine ⟨earlier, stored, later ++ [(now, .get id)], by simp, htold, ?_⟩
      intro y hy
      rcases List.mem_append.1 hy with hy | hy
      · exact hlater y hy
      · rw [List.mem_singleton.1 hy]
        exact fun hr => hr

theorem play (h : Traced c past) (history : History) :
    Traced (c.play history) (past ++ history) := by
  induction history generalizing c past with
  | nil =>
    rw [List.append_nil]
    exact h
  | cons x rest ih =>
    have hnext := ih (h.after x.1 x.2)
    rw [List.append_assoc, List.singleton_append] at hnext
    exact hnext

/-- At increasing instants, no two entries are of the same age. -/
theorem apart (h : Traced c past) (htimed : past.Timed) : c.Apart := by
  intro j k e f he hf heq
  obtain ⟨earlier, call, later, hpast, htells, -⟩ := h.origin he
  obtain ⟨earlier', call', later', hpast', htells', -⟩ := h.origin hf
  have hmem : (e.storedAt, call) ∈ past := by simp [hpast]
  have hmem' : (f.storedAt, call') ∈ past := by simp [hpast']
  have hnodup : (past.map Prod.fst).Nodup :=
    List.pairwise_map.2 (htimed.imp fun hlt => Nat.ne_of_lt hlt)
  have hsame := List.inj_on_of_nodup_map hnodup hmem hmem' heq
  obtain rfl : call = call' := congrArg Prod.snd hsame
  rw [htells, Option.some.injEq, Prod.mk.injEq] at htells'
  exact htells'.1

/-- What is served was put, and neither expired nor was retired since. -/
theorem served {history : History} {a : Anchor} (h : Traced c history)
    (hget : c.get? now id = some a) :
    ∃ earlier stored x later, history = earlier ++ (stored, .put x) :: later ∧ x.clean = a ∧
      a.id = id ∧ now - stored < c.ttl ∧ ∀ y ∈ later, ¬ y.2.Retires id a.version := by
  unfold Cache.get? at hget
  split at hget
  · cases hget
  · rename_i e he
    split at hget
    · rename_i hlive
      obtain ⟨earlier, call, later, hpast, htells, hlater⟩ := h.origin he
      rw [hget] at htells
      cases call with
      | put x =>
        obtain ⟨rfl, hversion, rfl⟩ : x.id = id ∧ x.version = e.version ∧ x.clean = a := by
          simpa [Call.tells] using htells
        refine ⟨earlier, e.storedAt, x, later, hpast, rfl, rfl, ?_, ?_⟩
        · simpa [live] using hlive
        · intro y hy
          rw [show x.clean.version = e.version from hversion]
          exact hlater y hy
      | invalidate removed last => cases htells
      | get id => cases htells
      | clear => cases htells
    · cases hget

end Traced

/-- What is put is served at once, unless an unexpired entry is at least as
new. -/
theorem get?_put (hon : c.enabled = true) (now : Instant) (a : Anchor) :
    (c.put now a).get? now a.id = some a.clean ∨
      ∃ e, (c.fresh now).get? a.id = some e ∧ a.version ≤ e.version := by
  rcases c.remember_cases now a.id a.version (some a.clean) with
    ⟨-, hoff | ⟨e, he, hsup⟩⟩ | ⟨-, room, hnew, -⟩
  · rw [hon] at hoff
    cases hoff
  · simp only [supersedes, Bool.and_eq_true, Bool.or_eq_true, decide_eq_true_eq, beq_iff_eq] at hsup
    refine .inr ⟨e, get?_fresh.2 ⟨he, hsup.1⟩, ?_⟩
    rcases hsup.2 with hlt | ⟨heq, -⟩
    · exact UInt64.le_of_lt hlt
    · rw [heq]
      exact UInt64.le_refl _
  · refine .inl ?_
    have hlive : c.live now ⟨now, a.version, some a.clean⟩ = true := by
      simp [live, (capacity_pos hon).1]
    rw [put, hnew, Cache.get?]
    simp only [Table.get?_insert, if_true]
    exact if_pos hlive

/-- A cache that is asked and told at increasing instants serves only what was
put into it less than its lifetime ago and not retired since. It never holds
more entries than it has room for, and holds none if it has no lifetime or no
room. What is put into it is served at once, unless something at least as new is
there, and nothing unexpired is given up for it but the entry stored earliest,
in a full cache. -/
theorem serves_what_was_put (ttl capacity : Nat) (history : History) (htimed : history.Timed) :
    let c := (blank ttl capacity).play history
    c.size ≤ capacity ∧
    (ttl = 0 ∨ capacity = 0 → c.entries = Table.empty) ∧
    ∀ now, (∀ x ∈ history, x.1 < now) →
      (∀ id a, c.get? now id = some a → ∃ earlier stored x later,
        history = earlier ++ (stored, .put x) :: later ∧ x.clean = a ∧ a.id = id ∧
          stored < now ∧ now - stored < ttl ∧ ∀ y ∈ later, ¬ y.2.Retires id a.version) ∧
      (∀ a, 0 < ttl → 0 < capacity → (c.put now a).get? now a.id = some a.clean ∨
        ∃ e, (c.fresh now).get? a.id = some e ∧ a.version ≤ e.version) ∧
      ∀ call id version anchor, call.tells = some (id, version, anchor) →
        Spares c (c.after now call) now id := by
  intro c
  have htraced : Traced c history := (Traced.blank ttl capacity).play history
  obtain ⟨httl, hcap⟩ := (blank ttl capacity).play_limits history
  replace httl : c.ttl = ttl := httl
  replace hcap : c.capacity = capacity := hcap
  have henabled : c.enabled = (decide (0 < ttl) && decide (0 < capacity)) := by
    rw [enabled, httl, hcap]
  refine ⟨hcap ▸ htraced.size_le, fun hzero => htraced.idle ?_, fun now hlate => ⟨?_, ?_, ?_⟩⟩
  · rw [henabled]
    rcases hzero with rfl | rfl <;> simp
  · intro id a hget
    obtain ⟨earlier, stored, x, later, hpast, hx, hid, hlive, hlater⟩ := htraced.served hget
    have hbefore : stored < now := hlate (stored, .put x) (by simp [hpast])
    exact ⟨earlier, stored, x, later, hpast, hx, hid, hbefore, httl ▸ hlive, hlater⟩
  · intro a hpos hroom
    refine get?_put ?_ now a
    rw [henabled]
    simp [hpos, hroom]
  · intro call id version anchor htells
    rw [after_of_tells htells]
    exact remember_spares htraced.size_le (htraced.apart htimed) version anchor

/-- Two objects in a cache that has room for two. One is renewed, so that a
third takes the place of the other; the third is removed again. -/
def crowd : History :=
  let node : Nat → UInt64 → Anchor := fun n version =>
    { Anchor.ofNode ⟨⟨n⟩⟩ ⟨⟨⟨0⟩⟩⟩ (.isolated ⟨⟨9⟩⟩ Fields.empty) with version := version }
  [(1, .put (node 1 1)), (2, .put (node 2 1)), (4, .put (node 1 2)), (5, .get (.node ⟨⟨2⟩⟩)),
    (6, .put (node 3 1)), (7, .invalidate (.node ⟨⟨3⟩⟩) 1)]

theorem crowded_cache_serves_what_was_put : crowd.Timed ∧ (∀ x ∈ crowd, x.1 < 8) ∧
    ∃ a, ((blank 5 2).play crowd).get? 8 (.node ⟨⟨1⟩⟩) = some a ∧ a.version = 2 ∧
      ∃ earlier stored x later, crowd = earlier ++ (stored, .put x) :: later ∧ x.clean = a ∧
        a.id = .node ⟨⟨1⟩⟩ ∧ stored < 8 ∧ 8 - stored < 5 ∧ ∀ y ∈ later,
          ¬ y.2.Retires (.node ⟨⟨1⟩⟩) a.version :=
  have htimed : crowd.Timed := by decide
  have hlate : ∀ x ∈ crowd, x.1 < 8 := by decide
  ⟨htimed, hlate, _, rfl, rfl,
    ((serves_what_was_put 5 2 crowd htimed).2.2 8 hlate).1 (.node ⟨⟨1⟩⟩) _ rfl⟩

end Cache

end Wayfarer
