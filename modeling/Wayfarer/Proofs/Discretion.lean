import Wayfarer.Proofs.View.Listing

/-!
# What a tenant cannot read does not show

Two desks are `Desk.Indistinct` to a tenant if the same objects are seen at
both, and each of them is the same unless the tenant may read neither. What such
a tenant reads comes to the same at both (`Actor.reads_discreet`): the same
answer, or the same failure, after which the desks are still indistinct.

* `Work.Agree` says that work at two desks comes to the same. As for `Work.Ends`
  there is one rule for each way of putting work together.
* `Actor.spread_agree`: a search has as much fuel as it needs at either desk,
  however much more the one may hold than the other.
-/

namespace Wayfarer

/-- What comes of work begun at a desk, apart from the desk it leaves. -/
def Work.outcome {σ α : Type} (w : Work σ α) (d : Desk σ) : Except Error α :=
  match w d with
  | .ok a _ => .ok a
  | .error e _ => .error e

/-! ## The same work at two desks -/

/-- Work begun at two desks comes to the same: to one answer, and `Q` holds of
it and of the desks, or to one failure, and `E` holds of the desks. -/
def Work.Agree {σ τ α : Type} (w : Work σ α) (w' : Work τ α) (d : Desk σ) (d' : Desk τ)
    (Q : α → Desk σ → Desk τ → Prop) (E : Desk σ → Desk τ → Prop) : Prop :=
  match w d, w' d' with
  | .ok a d₁, .ok a' d₁' => a' = a ∧ Q a d₁ d₁'
  | .error e d₁, .error e' d₁' => e' = e ∧ E d₁ d₁'
  | _, _ => False

namespace Work.Agree

variable {σ τ α β : Type} {w : Work σ α} {w' : Work τ α} {f : α → Work σ β} {f' : α → Work τ β}
  {d : Desk σ} {d' : Desk τ} {Q Q' : α → Desk σ → Desk τ → Prop} {P : β → Desk σ → Desk τ → Prop}
  {E : Desk σ → Desk τ → Prop}

theorem outcome_eq (h : w.Agree w' d d' Q E) : w'.outcome d' = w.outcome d := by
  unfold Agree at h
  unfold outcome
  split at h
  · rename_i hw hw'
    rw [hw, hw', h.1]
  · rename_i hw hw'
    rw [hw, hw', h.1]
  · exact h.elim

theorem mono (h : w.Agree w' d d' Q E) (hQ : ∀ a d₁ d₁', Q a d₁ d₁' → Q' a d₁ d₁') :
    w.Agree w' d d' Q' E := by
  unfold Agree at h ⊢
  split at h
  · exact ⟨h.1, hQ _ _ _ h.2⟩
  · exact h
  · exact h.elim

/-- What is known of the answer at the one desk. -/
theorem and_ends {q : α → Desk σ → Prop} {e : Error → Desk σ → Prop} (h : w.Agree w' d d' Q E)
    (hw : Ends w d q e) : w.Agree w' d d' (fun a d₁ d₁' => Q a d₁ d₁' ∧ q a d₁) E := by
  unfold Agree at h ⊢
  unfold Ends at hw
  split at h
  · rename_i heq _
    rw [heq] at hw
    exact ⟨h.1, h.2, hw⟩
  · exact h
  · exact h.elim

/-- What is known of the answer at the other desk. -/
theorem and_ends' {q : α → Desk τ → Prop} {e : Error → Desk τ → Prop} (h : w.Agree w' d d' Q E)
    (hw : Ends w' d' q e) : w.Agree w' d d' (fun a d₁ d₁' => Q a d₁ d₁' ∧ q a d₁') E := by
  unfold Agree at h ⊢
  unfold Ends at hw
  split at h
  · rename_i _ heq
    rw [heq, h.1] at hw
    exact ⟨h.1, h.2, hw⟩
  · exact h
  · exact h.elim

theorem pure {a : α} (h : Q a d d') : Agree (pure a) (pure a) d d' Q E := ⟨rfl, h⟩

theorem throw {e : Error} (h : E d d') : Agree (throw e) (throw e) d d' Q E := ⟨rfl, h⟩

theorem bind (h : w.Agree w' d d' (fun a d₁ d₁' => (f a).Agree (f' a) d₁ d₁' P E) E) :
    (w >>= f).Agree (w' >>= f') d d' P E := by
  unfold Agree at h ⊢
  simp only [Bind.bind, EStateM.bind]
  split at h
  · rename_i a d₁ a' d₁' hw hw'
    obtain ⟨rfl, h⟩ := h
    simp only [hw, hw']
    exact h
  · rename_i hw hw'
    simp only [hw, hw']
    exact h
  · exact h.elim

/-- Each desk goes on with what it finds in itself. -/
theorem get {f : Desk σ → Work σ β} {f' : Desk τ → Work τ β}
    (h : (f d).Agree (f' d') d d' P E) : (get >>= f).Agree (get >>= f') d d' P E := h

/-- A failure that the work comes to is caught at both desks. -/
theorem tryCatch {g : Error → Work σ α} {g' : Error → Work τ α} (h : w.Agree w' d d' Q E)
    (hg : ∀ e d₁ d₁', E d₁ d₁' → (g e).Agree (g' e) d₁ d₁' Q E) :
    Agree (tryCatch w g) (tryCatch w' g') d d' Q E := by
  unfold Agree at h
  change Agree (EStateM.tryCatch w g) (EStateM.tryCatch w' g') d d' Q E
  delta EStateM.tryCatch
  unfold Agree
  split at h
  · rename_i hw hw'
    simp only [hw, hw']
    exact h
  · rename_i e d₁ e' d₁' hw hw'
    obtain ⟨rfl, h⟩ := h
    simp only [hw, hw']
    exact hg _ _ _ h
  · exact h.elim

end Work.Agree

/-! ## Desks that a tenant cannot tell apart -/

/-- What two people see of an object is the same to a tenant: it is missing in
both places, or the same in both, or there in both and not to be read in
either. -/
inductive Anchor.Alike (r : RootId) : Option Anchor → Option Anchor → Prop
  | same (x : Option Anchor) : Alike r x x
  | hidden {a b : Anchor} (ha : a.permits r .read = false) (hb : b.permits r .read = false) :
      Alike r (some a) (some b)

namespace Anchor.Alike

variable {r : RootId} {x y : Option Anchor}

/-- What may be read is the same. -/
theorem filter_eq (h : Alike r x y) :
    (y.filter fun a => a.permits r .read) = x.filter fun a => a.permits r .read := by
  cases h with
  | same => rfl
  | hidden ha hb => simp [Option.filter, ha, hb]

end Anchor.Alike

/-- Two desks over tiers of their own at which a tenant sees the same, apart
from objects that the tenant may read at neither. The same tokens are set and
the same notes taken down. -/
structure Desk.Indistinct {σ τ : Type} [Durable σ] [Durable τ] (r : RootId) (t : Tier σ)
    (t' : Tier τ) (d : Desk σ) (d' : Desk τ) : Prop where
  above : d.Over t
  above' : d'.Over t'
  alike : ∀ id, Anchor.Alike r (d.draft.view t.content id) (d'.draft.view t'.content id)
  cancelled : d'.shared.cancelled = d.shared.cancelled
  notes : d'.shared.notes = d.shared.notes

section

variable {σ τ : Type} [Durable σ] [Durable τ] {t : Tier σ} {t' : Tier τ} {d : Desk σ} {d' : Desk τ}

/-- Reading sets no tokens and takes no notes. -/
theorem Desk.load_marks (h : d.Over t) (id : ObjectId) :
    Work.Ends (load id) d (fun _ d₁ => d₁.shared.cancelled = d.shared.cancelled ∧
      d₁.shared.notes = d.shared.notes) fun _ _ => False := by
  have hfetch : Work.Ends (ensure id) d (fun _ d₁ => d₁.shared.cancelled = d.shared.cancelled ∧
      d₁.shared.notes = d.shared.notes) fun _ _ => False := by
    refine .bind (.get ?_)
    split
    · exact .pure ⟨rfl, rfl⟩
    split
    · exact .bind (.set (.pure ⟨rfl, rfl⟩))
    split
    · exact .bind (.set (.pure ⟨rfl, rfl⟩))
    · obtain ⟨s', hs, -⟩ := t.fetch h.holds id
      refine .bind (.modify (.bind (.of_ok (onDurable_of_ok hs) ?_)))
      split
      · exact .pure ⟨rfl, rfl⟩
      · exact .bind (.modify (.pure ⟨rfl, rfl⟩))
  refine hfetch.andThen fun found d₁ hm => ?_
  split
  · exact .bind (.get (.pure hm))
  · exact .pure hm

namespace Desk.Indistinct

variable {r : RootId}

/-- Both desks may have read something since. -/
theorem fetched (h : Indistinct r t t' d d') {d₁ : Desk σ} {d₁' : Desk τ} (hd : Fetched t d d₁)
    (hd' : Fetched t' d' d₁') (hc : d₁'.shared.cancelled = d₁.shared.cancelled)
    (hn : d₁'.shared.notes = d₁.shared.notes) : Indistinct r t t' d₁ d₁' := by
  refine ⟨hd.above, hd'.above, fun id => ?_, hc, hn⟩
  rw [hd.view_eq, hd'.view_eq]
  exact h.alike id

/-- What is known of two answers when an object is read at both desks. -/
theorem load (h : Indistinct r t t' d d') (id : ObjectId) {α : Type} {f : Option Anchor → Work σ α}
    {f' : Option Anchor → Work τ α} {Q : α → Desk σ → Desk τ → Prop}
    {E : Desk σ → Desk τ → Prop}
    (hf : ∀ {x y d₁ d₁'}, Anchor.Alike r x y → Indistinct r t t' d₁ d₁' →
      (f x).Agree (f' y) d₁ d₁' Q E) :
    (Desk.load id >>= f).Agree (Desk.load id >>= f') d d' Q E := by
  obtain ⟨x, d₁, hl, ⟨⟨hx, hr⟩, hc, hn⟩⟩ :=
    (((load_ends h.above id).and (load_marks h.above id)).mono (fun _ _ hq => hq)
      fun _ _ he => he.1).exists_ok
  obtain ⟨y, d₁', hl', ⟨⟨hy, hr'⟩, hc', hn'⟩⟩ :=
    (((load_ends h.above' id).and (load_marks h.above' id)).mono (fun _ _ hq => hq)
      fun _ _ he => he.1).exists_ok
  have hind : Indistinct r t t' d₁ d₁' := h.fetched hr.fetched hr'.fetched
    (by rw [hc', hc, h.cancelled]) (by rw [hn', hn, h.notes])
  have halike : Anchor.Alike r x y := by
    rw [hx, hy]
    exact h.alike id
  unfold Work.Agree
  simp only [Bind.bind, EStateM.bind, hl, hl']
  exact hf halike hind

end Desk.Indistinct

/-- The same work at two desks: if they are indistinct to a tenant, it comes to
the same at both and they are indistinct afterwards. -/
def Work.Discreet {α : Type} (r : RootId) (t : Tier σ) (t' : Tier τ) (w : Work σ α)
    (w' : Work τ α) : Prop :=
  ∀ d d', Desk.Indistinct r t t' d d' →
    w.Agree w' d d' (fun _ => Desk.Indistinct r t t') (Desk.Indistinct r t t')

namespace Work.Discreet

variable {α β : Type} {r : RootId} {w : Work σ α} {w' : Work τ α} {f : α → Work σ β}
  {f' : α → Work τ β}

theorem pure (a : α) : Discreet r t t' (pure a) (pure a) := fun _ _ h => .pure h

theorem throw (e : Error) : Discreet r t t' (throw e : Work σ α) (throw e) :=
  fun _ _ h => .throw h

theorem bind (hw : Discreet r t t' w w') (hf : ∀ a, Discreet r t t' (f a) (f' a)) :
    Discreet r t t' (w >>= f) (w' >>= f') := fun d d' h =>
  .bind ((hw d d' h).mono fun a d₁ d₁' h₁ => hf a d₁ d₁' h₁)

theorem tryCatch {g : Error → Work σ α} {g' : Error → Work τ α} (hw : Discreet r t t' w w')
    (hg : ∀ e, Discreet r t t' (g e) (g' e)) :
    Discreet r t t' (tryCatch w g) (tryCatch w' g') := fun d d' h =>
  .tryCatch (hw d d' h) fun e d₁ d₁' h₁ => hg e d₁ d₁' h₁

theorem ite {p : Prop} [Decidable p] {v : Work σ α} {v' : Work τ α} (hw : Discreet r t t' w w')
    (hv : Discreet r t t' v v') :
    Discreet r t t' (if p then w else v) (if p then w' else v') := by
  split
  · exact hw
  · exact hv

end Work.Discreet

end

/-! ## Reading one object -/

namespace Actor

open Work (Discreet)

variable {σ τ : Type} [Durable σ] [Durable τ] {t : Tier σ} {t' : Tier τ} (actor : Actor)

/-- An object that may not be read is refused like any other of its kind. -/
theorem check_discreet (id : ObjectId) :
    Discreet actor.requester t t' (actor.check id .read) (actor.check id .read) := by
  intro d d' h
  refine h.load id fun halike h₁ => ?_
  cases halike with
  | same =>
    cases ‹Option Anchor› with
    | none => exact .throw h₁
    | some a => exact Discreet.ite (.pure a) (.throw _) _ _ h₁
  | hidden ha hb =>
    simp only [ha, hb]
    exact .throw h₁

theorem readable_discreet (id : ObjectId) :
    Discreet actor.requester t t' (actor.readable id) (actor.readable id) := by
  intro d d' h
  refine h.load id fun halike h₁ => ?_
  rw [halike.filter_eq]
  exact .pure h₁

theorem readableType_discreet (id : ObjectId) :
    Discreet actor.requester t t' (actor.readableType id) (actor.readableType id) :=
  .bind (actor.readable_discreet id) fun _ => .pure _

theorem part_discreet {α : Type} (id : ObjectId) (found : Option α) :
    Discreet actor.requester t t' (part id found) (part id found) := by
  cases found with
  | none => exact .throw _
  | some a => exact .pure a

theorem node_discreet (id : NodeId) :
    Discreet actor.requester t t' (actor.node id) (actor.node id) :=
  .bind (actor.check_discreet id) fun _ => actor.part_discreet _ _

theorem edge_discreet (id : EdgeId) :
    Discreet actor.requester t t' (actor.edge id) (actor.edge id) :=
  .bind (actor.check_discreet id) fun _ => actor.part_discreet _ _

/-! ## Listing what is next to a node -/

theorem neighborAt_discreet (q : NeighborQuery) (side : Direction) (e : EdgeRecord) :
    Discreet actor.requester t t' (actor.neighborAt q side e) (actor.neighborAt q side e) := by
  refine .ite (.pure _) (.bind (actor.readableType_discreet _) fun found => ?_)
  cases found with
  | none => exact .pure _
  | some type => exact .pure _

theorem matchingFrom_discreet (q : NeighborQuery) (pairs : OrdSet EdgeId)
    (edges : List (EdgeId × Direction)) :
    Discreet actor.requester t t' (actor.matchingFrom q pairs edges)
      (actor.matchingFrom q pairs edges) := by
  induction edges generalizing pairs with
  | nil => exact .pure _
  | cons head rest ih =>
    obtain ⟨edge, side⟩ := head
    refine .bind (actor.readable_discreet edge) fun found => ?_
    cases found.bind Anchor.edge? with
    | none => exact ih pairs
    | some e =>
      dsimp only
      cases notePair pairs edge e.twin with
      | none => exact ih pairs
      | some noted =>
        refine .bind (actor.neighborAt_discreet q side e) fun neighbor => ?_
        cases neighbor with
        | none => exact ih noted
        | some n => exact .bind (ih noted) fun _ => .pure _

theorem matching_discreet (n : NodeId) (q : NeighborQuery) :
    Discreet actor.requester t t' (actor.matching n q) (actor.matching n q) :=
  .bind (actor.node_discreet n) fun _ => actor.matchingFrom_discreet q _ _

theorem neighbors_discreet (n : NodeId) (q : NeighborQuery) :
    Discreet actor.requester t t' (actor.neighbors n q) (actor.neighbors n q) :=
  .bind (actor.matching_discreet n q) fun _ => .pure _

theorem edges_discreet (n : NodeId) (q : NeighborQuery) :
    Discreet actor.requester t t' (actor.edges n q) (actor.edges n q) :=
  .bind (actor.matching_discreet n q) fun _ => .pure _

/-! ## Following edges -/

/-- A node that a request sees in some place. -/
def Found (t : Tier σ) (d : Desk σ) (n : NodeId) : Prop := ∃ a, d.view t (.node n) = some a

/-- The neighbors that are listed are there. -/
theorem neighbors_found {d₀ d : Desk σ} (h : Desk.Fetched t d₀ d) (n : NodeId) (q : NeighborQuery) :
    Work.Ends (actor.neighbors n q) d (fun found d₁ => Desk.Fetched t d₀ d₁ ∧
      ∀ m ∈ found, Found t d₀ m) fun _ _ => True := by
  refine .bind ((actor.matching_ends h n q).mono ?_ fun _ _ _ => trivial)
  rintro _ d₁ ⟨h₁, a, r, -, rfl⟩
  refine .pure ⟨h₁, fun m hm => ?_⟩
  obtain ⟨⟨e, _⟩, hx, rfl⟩ := List.mem_map.1 hm
  obtain ⟨p, -, -, hleads⟩ := leads_of_mem_listing hx
  obtain ⟨b, hb, -⟩ := hleads.neighbor
  exact ⟨b, (View.shown_eq_some.1 hb).1⟩

/-- What a search has before it: the nodes that wait, and those it may still
meet. -/
def ahead (nodes : List NodeId) (seen : OrdSet NodeId) (waiting : List NodeId) : Nat :=
  waiting.length + seen.missing nodes

/-- Nodes that are met for the first time wait now, but they are not missing any
more. -/
theorem ahead_meet {nodes next : List NodeId} (h : ∀ n ∈ next, n ∈ nodes) (seen : OrdSet NodeId)
    (waiting : List NodeId) :
    ahead nodes (meet seen waiting next).1 (meet seen waiting next).2 ≤
      ahead nodes seen waiting := by
  induction next generalizing seen waiting with
  | nil => exact Nat.le_refl _
  | cons n rest ih =>
    have hrest : ∀ m ∈ rest, m ∈ nodes := fun m hm => h m (List.mem_cons_of_mem _ hm)
    rw [meet]
    split
    · exact ih hrest seen waiting
    · rename_i hnew
      have hless := OrdSet.missing_add_lt (h n (List.mem_cons_self ..)) (Bool.eq_false_iff.2 hnew)
      have hle := ih hrest (seen.add n) (waiting ++ [n])
      unfold ahead at hle ⊢
      rw [List.length_append, List.length_singleton] at hle
      omega

/-- Two searches with enough fuel each come to the same. -/
theorem spread_agree {d₀ d : Desk σ} {d₀' d' : Desk τ}
    (h : Desk.Indistinct actor.requester t t' d d') (hd : Desk.Fetched t d₀ d)
    (hd' : Desk.Fetched t' d₀' d') {nodes nodes' : List NodeId}
    (hnodes : ∀ n, Found t d₀ n → n ∈ nodes) (hnodes' : ∀ n, Found t' d₀' n → n ∈ nodes')
    {fuel fuel' : Nat} {seen : OrdSet NodeId} {waiting : List NodeId}
    (hfuel : ahead nodes seen waiting ≤ fuel) (hfuel' : ahead nodes' seen waiting ≤ fuel') :
    (actor.spread fuel seen waiting).Agree (actor.spread fuel' seen waiting) d d'
      (fun _ => Desk.Indistinct actor.requester t t') (Desk.Indistinct actor.requester t t') := by
  -- both searches have fuel for all that they can still find, so neither ends before
  -- the other
  induction fuel generalizing d d' fuel' seen waiting with
  | zero =>
    cases waiting with
    | nil => cases fuel' <;> exact .pure h
    | cons n rest =>
      unfold ahead at hfuel
      rw [List.length_cons] at hfuel
      omega
  | succ fuel ih =>
    cases waiting with
    | nil => cases fuel' <;> exact .pure h
    | cons n rest =>
      cases fuel' with
      | zero =>
        unfold ahead at hfuel'
        rw [List.length_cons] at hfuel'
        omega
      | succ fuel' =>
        have hboth := (((actor.neighbors_discreet n .outgoing) d d' h).and_ends
          (actor.neighbors_found hd n .outgoing)).and_ends' (actor.neighbors_found hd' n .outgoing)
        refine .bind (hboth.mono fun next d₁ d₁' h₁ => ?_)
        obtain ⟨⟨h₁, hd₁, hnext⟩, hd₁', hnext'⟩ := h₁
        have hle := ahead_meet (fun m hm => hnodes m (hnext m hm)) seen rest
        have hle' := ahead_meet (fun m hm => hnodes' m (hnext' m hm)) seen rest
        refine ih h₁ hd₁ hd₁' ?_ ?_
        · unfold ahead at hle hfuel ⊢
          rw [List.length_cons] at hfuel
          omega
        · unfold ahead at hle' hfuel' ⊢
          rw [List.length_cons] at hfuel'
          omega

/-- The fuel that a desk gives a search from one node suffices. -/
theorem ahead_le_bound {d : Desk σ} (h : d.Over t) (start : NodeId) :
    ahead (d.findable t) (OrdSet.ofList [start]) [start] ≤ d.bound + 1 := by
  have hmissing := OrdSet.missing_le_length (OrdSet.ofList [start]) (d.findable t)
  have hlength := h.length_findable
  simp only [ahead, List.length_singleton]
  omega

theorem reachable_discreet (start : NodeId) :
    Discreet actor.requester t t' (actor.reachable start) (actor.reachable start) := by
  refine .bind (actor.check_discreet start) fun _ d d' h => ?_
  have hsearch := actor.spread_agree h (.refl h.above) (.refl h.above')
    (fun n hn => Desk.mem_findable hn.choose_spec) (fun n hn => Desk.mem_findable hn.choose_spec)
    (ahead_le_bound h.above start) (ahead_le_bound h.above' start)
  exact .get (.bind (hsearch.mono fun _ _ _ h₁ => .pure h₁))

/-- Whatever a tenant reads at two desks that are indistinct to it, comes to the
same. -/
theorem reads_discreet {op : Op} (hop : op.isRead = true) :
    Discreet actor.requester t t' (op.run actor) (op.run actor) := by
  cases op with
  | anchor id => exact actor.check_discreet id
  | node id => exact actor.node_discreet id
  | edge id => exact actor.edge_discreet id
  | get id field => exact .bind (actor.check_discreet id) fun _ => .pure _
  | typeOf id => exact .bind (actor.check_discreet id) fun _ => .pure _
  | readableType id => exact actor.readableType_discreet id
  | neighbors n q => exact actor.neighbors_discreet n q
  | edges n q => exact actor.edges_discreet n q
  | reachable n => exact actor.reachable_discreet n
  | _ => cases hop

end Actor

end Wayfarer
