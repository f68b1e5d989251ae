import Wayfarer.Graph.Op

/-!
# Fresh identities

A mint derives every identity from its count alone. `Mint.Ample` says of a mint
that the next few identities are new and differ from one another; each use of
the mint takes one off.
-/

namespace Wayfarer

namespace Mint

/-- The mint after some more identities. -/
def after (m : Mint) : Nat → Mint
  | 0 => m
  | i + 1 => m.advance.after i

/-- The two objects that can be named by the mint's `i`-th identity from now. -/
def Names (m : Mint) (i : Nat) (id : ObjectId) : Prop :=
  id = .node (m.after i).nextNode ∨ id = .edge (m.after i).nextEdge

/-- The next `n` identities are not known and differ from one another. -/
structure Ample (m : Mint) (n : Nat) (known : ObjectId → Prop) : Prop where
  fresh : ∀ {i id}, i < n → m.Names i id → ¬ known id
  distinct : ∀ {i j id}, i < j → j < n → m.Names i id → ¬ m.Names j id

variable {m : Mint} {n k : Nat} {known known' : ObjectId → Prop}

theorem advance_names {i : Nat} {id : ObjectId} : m.advance.Names i id ↔ m.Names (i + 1) id :=
  Iff.rfl

theorem after_after {i j : Nat} : (m.after i).after j = m.after (i + j) := by
  induction i generalizing m with
  | zero => rw [Nat.zero_add]; rfl
  | succ i ih =>
    rw [Nat.succ_add]
    exact ih

theorem after_succ {i : Nat} : m.after (i + 1) = (m.after i).advance :=
  after_after.symm

theorem after_names {i j : Nat} {id : ObjectId} :
    (m.after i).Names j id ↔ m.Names (i + j) id := by
  unfold Names
  rw [after_after]

theorem Ample.mono (h : m.Ample n known) (hle : k ≤ n) (hk : ∀ id, known' id → known id) :
    m.Ample k known' :=
  ⟨fun hi hn hid => h.fresh (Nat.lt_of_lt_of_le hi hle) hn (hk _ hid),
    fun hij hj => h.distinct hij (Nat.lt_of_lt_of_le hj hle)⟩

/-- After one use of the mint, whatever it named is known as well. -/
theorem Ample.advance (h : m.Ample (n + 1) known) :
    m.advance.Ample n fun id => known id ∨ m.Names 0 id := by
  refine ⟨?_, ?_⟩
  · intro i id hi hn
    rw [advance_names] at hn
    rintro (hid | hid)
    · exact h.fresh (Nat.succ_lt_succ hi) hn hid
    · exact h.distinct (Nat.succ_pos i) (Nat.succ_lt_succ hi) hid hn
  · intro i j id hij hj hi
    rw [advance_names] at hi ⊢
    exact h.distinct (Nat.succ_lt_succ hij) (Nat.succ_lt_succ hj) hi

theorem names_nextNode : m.Names 0 (.node m.nextNode) := .inl rfl

theorem names_nextEdge : m.Names 0 (.edge m.nextEdge) := .inr rfl

/-- The objects that the next `n` identities can name. -/
def upcoming (m : Mint) : Nat → List ObjectId
  | 0 => []
  | n + 1 => .node m.nextNode :: .edge m.nextEdge :: m.advance.upcoming n

theorem mem_upcoming {id : ObjectId} : id ∈ m.upcoming n ↔ ∃ i < n, m.Names i id := by
  induction n generalizing m with
  | zero => simp [upcoming]
  | succ n ih =>
    rw [upcoming, List.mem_cons, List.mem_cons, ih]
    constructor
    · rintro (rfl | rfl | ⟨i, hi, hn⟩)
      · exact ⟨0, Nat.succ_pos n, .inl rfl⟩
      · exact ⟨0, Nat.succ_pos n, .inr rfl⟩
      · exact ⟨i + 1, Nat.succ_lt_succ hi, advance_names.1 hn⟩
    · rintro ⟨_ | i, hi, hn⟩
      · exact hn.imp_right .inl
      · exact .inr (.inr ⟨i, Nat.lt_of_succ_lt_succ hi, advance_names.2 hn⟩)

/-- Whether a mint has enough identities can be seen from the list of them. -/
theorem ample_of_nodup (hd : (m.upcoming n).Nodup) (hk : ∀ id ∈ m.upcoming n, ¬ known id) :
    m.Ample n known := by
  refine ⟨fun hi hn => hk _ (mem_upcoming.2 ⟨_, hi, hn⟩), ?_⟩
  clear hk
  induction n generalizing m with
  | zero => exact fun _ hj => absurd hj (Nat.not_lt_zero _)
  | succ n ih =>
    rw [upcoming, List.nodup_cons, List.nodup_cons, List.mem_cons, not_or] at hd
    obtain ⟨⟨_, hnode⟩, hedge, hrest⟩ := hd
    rintro (_ | i) (_ | j) id hij hj hni hnj
    · exact Nat.lt_irrefl 0 hij
    · have hmem : id ∈ m.advance.upcoming n :=
        mem_upcoming.2 ⟨j, Nat.lt_of_succ_lt_succ hj, advance_names.2 hnj⟩
      rcases hni with rfl | rfl
      · exact hnode hmem
      · exact hedge hmem
    · exact Nat.not_lt_zero _ hij
    · exact ih hrest (Nat.lt_of_succ_lt_succ hij) (Nat.lt_of_succ_lt_succ hj)
        (advance_names.2 hni) (advance_names.2 hnj)

end Mint

/-- How many identities an operation mints at most. -/
def Op.mints : Op → Nat
  | .create .. => 1
  | .createLinked .. => 3
  | .connect .. => 2
  | .connectMany _ targets .. => 2 * targets.length
  | _ => 0

end Wayfarer
