import Wayfarer.Proofs.Confinement.Linking

/-!
# Building on a view

What creating nodes and linking them does to a view. Each operation checks
before it changes anything; a failure leaves the view as it was. What it builds
is new (`Desk.Coined`), so that the view has grown (`Desk.Grew`).
-/

namespace Wayfarer

variable {σ : Type} [Durable σ] {t : Tier σ} {d₀ d : Desk σ} {n N : Nat} {v : View}
  {actor : Actor}

/-- The type of nodes that can be created under a name; roots cannot. -/
def TypeId.Creatable (name : String) (type : TypeId) : Prop :=
  type = TypeId.ofName name ∧ name ≠ rootTypeName

/-- An object that the mint has named in the course of work and that nobody
knows yet. -/
structure Desk.Coined (t : Tier σ) (d₀ : Desk σ) (n : Nat) (d : Desk σ) (id : ObjectId) : Prop where
  named : ∃ i < n, d₀.shared.mint.Names i id
  unknown : ¬ d.Knows t id

/-- A desk at which an orderly view has grown out of `v`, with at most so many
uses of the mint. -/
def Desk.Grew (t : Tier σ) (d₀ : Desk σ) (N : Nat) (root : RootId) (ends : NodeId → Prop)
    (types : TypeId → Prop) (v : View) (d : Desk σ) : Prop :=
  ∃ n v', n ≤ N ∧ Reached t d₀ n v' d ∧ v'.Orderly ∧ v.Grown root ends types v'

theorem View.Linkable.grew {new : List (EdgeId × EdgeRecord)} {root : RootId}
    {ends : NodeId → Prop} {types : TypeId → Prop} (hl : v.Linkable new) (hv : v.Orderly)
    (h : Desk.Reached t d₀ n (v.linked root new) d) (hn : n ≤ N)
    (hends : ∀ x ∈ new, ∀ p, ends (x.2.endAt p)) : Desk.Grew t d₀ N root ends types v d :=
  ⟨n, _, hn, h, hl.orderly hv, hl.grown hv hends⟩

namespace Desk

namespace Reached

/-! ## Looking -/

theorem check (h : Reached t d₀ n v d) (actor : Actor) (id : ObjectId) (level : Level) :
    Work.Ends (actor.check id level) d
      (fun a d' => v id = some a.clean ∧ a.permits actor.requester level = true ∧
        Reached t d₀ n v d')
      fun _ => Reached t d₀ n v := by
  rw [← h.view_eq]
  refine ((Fetched.refl h.sane.above).check actor id level).mono ?_ fun _ _ hc => ?_
  · exact fun _ _ hc => ⟨hc.1, hc.2.1, h.view_eq ▸ h.fetched hc.2.2⟩
  · exact h.view_eq ▸ h.fetched hc.2

/-- A check for leave to link has seen a node, if the view is in order. -/
theorem checkEnd (h : Reached t d₀ n v d) (actor : Actor) (m : NodeId) (level : Level) :
    Work.Ends (actor.check m level) d
      (fun _ d' => v.Permits actor.requester m level ∧ Reached t d₀ n v d')
      fun _ => Reached t d₀ n v :=
  (h.check actor m level).imp fun a _ hc => ⟨⟨a.clean, hc.1, hc.2.1⟩, hc.2.2⟩

theorem resolve (h : Reached t d₀ n v d) (actor : Actor) (kind : Kind) (name : String) :
    Work.Ends (actor.resolve kind name) d
      (fun type d' => type = TypeId.ofName name ∧ Reached t d₀ n v d')
      fun _ => Reached t d₀ n v := by
  unfold Actor.resolve Taxonomy.resolveKind
  split
  · rename_i type hfound
    simp only at hfound
    split at hfound
    · split at hfound
      · exact .pure ⟨(Option.some.inj hfound).symm, h⟩
      · cases hfound
    · cases hfound
  · exact .throw h

/-! ## New objects -/

/-- What nobody knows is not seen. -/
theorem unseen (h : Reached t d₀ n v d) {id : ObjectId} (hid : ¬ d.Knows t id) : v id = none := by
  rw [← h.view_eq]
  exact unseen_of_not_knows hid

/-- What the mint names next is unknown, as long as its supply lasts. -/
theorem coined (h : Reached t d₀ n v d) (hs : d₀.shared.mint.Ample N (d₀.Knows t)) (hn : n < N)
    {id : ObjectId} (hid : d.shared.mint.Names 0 id) : Coined t d₀ (n + 1) d.minted id := by
  refine ⟨⟨n, Nat.lt_succ_self n, ?_⟩, fun hk => h.steps.not_knows hs hn hid hk⟩
  rw [h.steps.mint, Mint.after_names] at hid
  exact hid

theorem mintNode (h : Reached t d₀ n v d) (hs : d₀.shared.mint.Ample N (d₀.Knows t))
    (hn : n < N) :
    Work.Ends Actor.mintNode d
      (fun m d' => Coined t d₀ (n + 1) d' (.node m) ∧ Reached t d₀ (n + 1) v d')
      fun _ _ => False :=
  .bind (.get (.bind (.modify (.pure ⟨h.coined hs hn Mint.names_nextNode, h.minted⟩))))

/-- Objects that were coined before differ from the next one. -/
theorem mintEdge (h : Reached t d₀ n v d) (hs : d₀.shared.mint.Ample N (d₀.Knows t))
    (hn : n < N) :
    Work.Ends Actor.mintEdge d
      (fun e d' => Coined t d₀ (n + 1) d' (.edge e) ∧ Reached t d₀ (n + 1) v d' ∧
        ∀ id, Coined t d₀ n d id → Coined t d₀ (n + 1) d' id ∧ id ≠ .edge e)
      fun _ _ => False := by
  refine .bind (.get (.bind (.modify (.pure ⟨h.coined hs hn Mint.names_nextEdge, h.minted, ?_⟩))))
  rintro id ⟨⟨i, hi, hname⟩, hunknown⟩
  refine ⟨⟨⟨i, Nat.lt_succ_of_lt hi, hname⟩, hunknown⟩, ?_⟩
  rintro rfl
  have hnext := Mint.names_nextEdge (m := d.shared.mint)
  rw [h.steps.mint, Mint.after_names] at hnext
  rw [h.steps.mint] at hname
  exact hs.distinct hi hn hname hnext

theorem stage (h : Reached t d₀ n v d) {a : Anchor} (hz : a.version = 0)
    (hc : Coined t d₀ n d a.id) :
    Work.Ends (Desk.stage a) d
      (fun _ d' => Reached t d₀ n (v.put a.id a.clean) d' ∧
        ∀ id, id ≠ a.id → Coined t d₀ n d id → Coined t d₀ n d' id)
      fun _ _ => False := by
  refine .modify ⟨h.staged hz hc.named hc.unknown, fun id hne hid => ⟨hid.named, ?_⟩⟩
  rintro (hm | hcontent)
  · exact (Draft.mentions_of_stage hm).elim hne fun hm => hid.unknown (.inl hm)
  · exact hid.unknown (.inr hcontent)

theorem create (h : Reached t d₀ n v d) (hs : d₀.shared.mint.Ample N (d₀.Knows t)) (hn : n < N)
    (hv : v.Orderly) (actor : Actor) (type : String) (fields : Fields) (ends : NodeId → Prop) :
    Work.Ends (actor.create type fields) d
      (fun m d' => v (.node m) = none ∧ ∃ v' : View, (∃ a, v' (.node m) = some a) ∧
        Reached t d₀ (n + 1) v' d' ∧ v'.Orderly ∧
        v.Grown actor.requester ends (TypeId.Creatable type) v')
      fun _ => Reached t d₀ n v := by
  refine (h.resolve actor .node type).andThen ?_
  rintro _ d₁ ⟨rfl, h₁⟩
  split
  · exact .throw h₁
  rename_i hroot
  refine (h₁.reads (.fillFields actor _ fields)).andThen ?_
  intro filled d₂ h₂
  refine (h₂.mintNode hs hn).surely.andThen ?_
  rintro m d₃ ⟨hm, h₃⟩
  have hnone : v (.node m) = none := h₃.unseen hm.unknown
  refine (h₃.stage (a := Anchor.ofNode m actor.requester _) rfl hm).surely.andThen ?_
  rintro _ d₄ ⟨h₄, _⟩
  have hempty : ∀ p, (NodeRecord.isolated (TypeId.ofName type) filled).edgesAt p = [] := by
    intro p
    cases p <;> rfl
  exact .pure ⟨hnone, _, ⟨_, if_pos rfl⟩, h₄, hv.putNode hnone rfl hempty,
    .put hnone rfl rfl ⟨rfl, hroot⟩⟩

/-! ## Linking -/

/-- Linking two nodes that are there makes the view grow by edges between
them. -/
theorem link (h : Reached t d₀ n v d) (hs : d₀.shared.mint.Ample N (d₀.Knows t)) (hn : n + 2 ≤ N)
    (hv : v.Orderly) {source target : NodeId} (hsource : ∃ a, v (.node source) = some a)
    (htarget : ∃ a, v (.node target) = some a) (actor : Actor) (type : TypeId) (fields : Fields)
    (directed : Bool) (types : TypeId → Prop) {ends : NodeId → Prop} (hes : ends source)
    (het : ends target) :
    Work.Ends (actor.link source target type fields directed) d
      (fun _ => Grew t d₀ (n + 2) actor.requester ends types v) fun _ _ => False := by
  refine (h.mintEdge hs (by omega)).andThen ?_
  rintro e d₁ ⟨he, h₁, _⟩
  have hnode : ∀ {m}, (∃ a, v (.node m) = some a) → ∃ a s, NodeIn v m a s := fun ⟨a, ha⟩ =>
    (hv.nodes ha).elim fun s hs => ⟨a, s, ha, hs⟩
  have hends : ∀ {directed twin} p,
      ends (EdgeRecord.endAt ⟨type, fields, source, target, directed, twin⟩ p) := by
    rintro _ _ (_ | _)
    · exact hes
    · exact het
  have hnodes : ∀ {directed twin} p, ∃ a s,
      NodeIn v (EdgeRecord.endAt ⟨type, fields, source, target, directed, twin⟩ p) a s := by
    rintro _ _ (_ | _)
    · exact hnode hsource
    · exact hnode htarget
  have hunseen := h₁.unseen he.unknown
  cases directed with
  | true =>
    rw [if_pos rfl]
    refine (h₁.stage (a := Anchor.ofEdge e actor.requester _) rfl he).andThen ?_
    rintro _ d₂ ⟨h₂, _⟩
    refine Reached.tracks.linkOne (r := ⟨type, fields, source, target, true, none⟩) hnodes h₂
      fun d₃ h₃ => .pure ?_
    have hl : v.Linkable [(e, ⟨type, fields, source, target, true, none⟩)] :=
      .one hunseen rfl fun p => (hnodes p).imp fun a ⟨_, ha⟩ => ha.1
    refine hl.grew hv h₃ (by omega) fun x hx p => ?_
    rw [List.mem_singleton.1 hx]
    exact hends p
  | false =>
    rw [if_neg (by simp)]
    refine (h₁.mintEdge hs (by omega)).andThen ?_
    rintro twin d₂ ⟨ht, h₂, hold⟩
    obtain ⟨he₂, hne⟩ := hold _ he
    have hne : e ≠ twin := fun hh => hne (congrArg _ hh)
    refine (h₂.stage (a := Anchor.ofEdge twin actor.requester _) rfl ht).andThen ?_
    rintro _ d₃ ⟨h₃, hold₃⟩
    have he₃ := hold₃ (.edge e) (fun hh => hne (ObjectId.edge.inj hh)) he₂
    refine (h₃.stage (a := Anchor.ofEdge e actor.requester _) rfl he₃).andThen ?_
    rintro _ d₄ ⟨h₄, _⟩
    have hmir : ∀ p, EdgeRecord.endAt ⟨type, fields, target, source, false, some e⟩ p =
        EdgeRecord.endAt ⟨type, fields, source, target, false, some twin⟩ p.flip := by
      rintro (_ | _) <;> rfl
    refine Reached.tracks.linkBoth (r := ⟨type, fields, source, target, false, some twin⟩)
      (s := ⟨type, fields, target, source, false, some e⟩) hnodes h₄ hmir fun d₅ h₅ => .pure ?_
    have hl : v.Linkable [(e, ⟨type, fields, source, target, false, some twin⟩),
        (twin, ⟨type, fields, target, source, false, some e⟩)] := by
      refine .two hne hunseen (h₂.unseen ht.unknown) ⟨rfl, hmir⟩ ⟨rfl, ?_⟩
        fun p => (hnodes p).imp fun a ⟨_, ha⟩ => ha.1
      rintro (_ | _) <;> rfl
    refine hl.grew hv h₅ (by omega) fun x hx p => ?_
    rcases List.mem_cons.1 hx with rfl | hx
    · exact hends p
    · rw [List.mem_singleton.1 hx, hmir]
      exact hends p.flip

end Reached

end Desk

end Wayfarer
