import Mathlib.Data.List.Chain
import Mathlib.Logic.Relation
import Wayfarer.Proofs.View
import Wayfarer.Reclaim

/-!
# Searching for roots

Which nodes of a view are led to by a root, and what the searches of `Reclaim`
find out about it.

* `View.Rooted` and `View.Doomed` say it without a search.
* `Reclaim.scan_ends`, `Reclaim.explore_ends` and `Reclaim.anchored_ends` are
  about one search. It treats the nodes that it has seen fairly (`Search.Fair`),
  and what it leaves for later searches is true (`Reach.Truthful`).
* `Reclaim.rounds_ends`: what the rounds find dead are exactly the doomed nodes.

Nothing is asked of the view. If lists and ends of edges contradict each other,
a search backwards goes by the lists of incoming edges and a search forwards by
those of outgoing ones.
-/

namespace Wayfarer

namespace View

/-- The node `n` lists at a port an edge whose other end is `m`. -/
def Beside (v : View) (p : Port) (n m : NodeId) : Prop :=
  ∃ a r e b s, NodeIn v n a r ∧ e ∈ r.edgesAt p ∧ EdgeIn v e b s ∧ s.endAt p.flip = m

/-- The node `n` lists an edge that enters it from `m`. -/
def Feeds (v : View) (m n : NodeId) : Prop := v.Beside .into n m

/-- The node `m` lists an edge that leaves it for `n`. -/
def Offers (v : View) (m n : NodeId) : Prop := v.Beside .out m n

/-- Some root leads to the node by steps of a certain kind. -/
def Rooted (v : View) (leads : NodeId → NodeId → Prop) (n : NodeId) : Prop :=
  ∃ m a, v (.node m) = some a ∧ a.type = rootType ∧ Relation.ReflTransGen leads m n

/-- A node of the tenant that is no root itself. -/
def Owned (v : View) (root : RootId) (n : NodeId) : Prop :=
  ∃ a, v (.node n) = some a ∧ a.owner = root ∧ a.type ≠ rootType

/-- The nodes that have to go: the tenant's first nodes that no root leads to,
and the tenant's nodes that such nodes offer an edge to and that no root leads
to either. -/
inductive Doomed (v : View) (feeds offers : NodeId → NodeId → Prop) (root : RootId)
    (first : NodeId → Prop) : NodeId → Prop
  | first {n} (h : first n) (ho : v.Owned root n) (hr : ¬ v.Rooted feeds n) :
      Doomed v feeds offers root first n
  | next {m n} (h : Doomed v feeds offers root first m) (hstep : offers m n)
      (ho : v.Owned root n) (hr : ¬ v.Rooted feeds n) : Doomed v feeds offers root first n

variable {v : View} {leads feeds offers : NodeId → NodeId → Prop} {m n : NodeId} {root : RootId}
  {first : NodeId → Prop}

theorem Rooted.step (h : v.Rooted leads m) (hs : leads m n) : v.Rooted leads n := by
  obtain ⟨k, a, ha, hty, hpath⟩ := h
  exact ⟨k, a, ha, hty, hpath.tail hs⟩

theorem Rooted.of_root {a : Anchor} (ha : v (.node n) = some a) (hty : a.type = rootType) :
    v.Rooted leads n := ⟨n, a, ha, hty, .refl⟩

theorem Doomed.owned (h : v.Doomed feeds offers root first n) : v.Owned root n := by
  cases h with
  | first _ ho _ => exact ho
  | next _ _ ho _ => exact ho

theorem Doomed.not_rooted (h : v.Doomed feeds offers root first n) : ¬ v.Rooted feeds n := by
  cases h with
  | first _ _ hr => exact hr
  | next _ _ _ hr => exact hr

end View

/-! ## What is missing from a set -/

/-- How many entries of a list are missing from a set. -/
def OrdSet.missing {κ : Type} [Ord κ] (s : OrdSet κ) (l : List κ) : Nat :=
  l.countP fun k => !s.contains k

namespace OrdSet

variable {κ : Type} [Ord κ]

theorem missing_le_length (s : OrdSet κ) (l : List κ) : s.missing l ≤ l.length :=
  List.countP_le_length

theorem missing_le {s t : OrdSet κ} (h : ∀ k, s.contains k = true → t.contains k = true)
    (l : List κ) : t.missing l ≤ s.missing l := by
  refine List.countP_mono_left fun k _ hk => ?_
  cases hs : s.contains k with
  | false => rfl
  | true => simp [h k hs] at hk

variable [Std.TransOrd κ] [Std.LawfulEqOrd κ] [DecidableEq κ]

theorem missing_add_le (s : OrdSet κ) (k : κ) (l : List κ) : (s.add k).missing l ≤ s.missing l :=
  missing_le (fun j hj => (contains_add s k j).2 (.inr hj)) l

/-- A new member that the list has leaves fewer missing. -/
theorem missing_add_lt {s : OrdSet κ} {k : κ} {l : List κ} (hk : k ∈ l)
    (hs : s.contains k = false) : (s.add k).missing l < s.missing l := by
  induction l with
  | nil => cases hk
  | cons x rest ih =>
    unfold missing
    rw [List.countP_cons, List.countP_cons]
    have hrest := missing_add_le s k rest
    unfold missing at hrest ih
    by_cases hx : x = k
    · have hadd : (s.add k).contains x = true := (contains_add s k x).2 (.inl hx)
      subst hx
      simp only [hadd, hs]
      simp only [Bool.not_true, Bool.not_false, Bool.false_eq_true, if_false, if_true]
      omega
    · have hsame : (s.add k).contains x = s.contains x := by
        have := contains_add s k x
        simp only [hx, false_or] at this
        exact Bool.eq_iff_iff.2 this
      have hin : k ∈ rest := (List.mem_cons.1 hk).resolve_left (Ne.symm hx)
      have := ih hin
      rw [hsame]
      omega

end OrdSet

/-! ## The nodes that can be found -/

variable {σ : Type} [Durable σ] {t : Tier σ} {d₀ d d' : Desk σ}

/-- The nodes that a request can find at all: those of its draft and those of
the tier. -/
def Desk.findable (t : Tier σ) (d : Desk σ) : List NodeId :=
  (d.draft.volatile.keys ++ t.content.keys).filterMap ObjectId.node?

theorem Desk.Over.length_findable (h : d.Over t) : (d.findable t).length ≤ d.bound := by
  have hlen : (d.findable t).length ≤ (d.draft.volatile.keys ++ t.content.keys).length :=
    List.length_filterMap_le ..
  rw [List.length_append] at hlen
  have hv : d.draft.volatile.keys.length = d.draft.volatile.size := List.length_map ..
  have hc : t.content.keys.length = t.content.size := List.length_map ..
  have hs := t.size_le h.holds
  unfold Desk.bound
  omega

theorem Desk.mem_findable {m : NodeId} {a : Anchor} (h : d.view t (.node m) = some a) :
    m ∈ d.findable t := by
  unfold findable
  rw [List.mem_filterMap]
  refine ⟨.node m, ?_, rfl⟩
  rw [List.mem_append, Table.mem_keys, Table.mem_keys]
  obtain ⟨x, hx, _⟩ := Option.map_eq_some_iff.1 h
  obtain ⟨_, hcopy | ⟨_, hst⟩⟩ := Draft.view_eq_some hx
  · exact .inl ⟨x, hcopy⟩
  · exact .inr ⟨x, hst⟩

namespace Reclaim

open Desk (Fetched)

variable {v : View} {dead : OrdSet NodeId} {reach : Reach} {search : Search} {nodes : List NodeId}
  {start node : NodeId} {path : List NodeId} {edges : List EdgeId} {m n : NodeId} {root : RootId}

/-! ## One search -/

/-- What earlier searches found is true. -/
structure Reach.Truthful (v : View) (dead : OrdSet NodeId) (reach : Reach) : Prop where
  dead : ∀ {m}, dead.contains m = true → ¬ v.Rooted v.Feeds m
  anchored : ∀ {m}, reach.anchored.contains m = true → v.Rooted v.Feeds m
  stranded : ∀ {m}, reach.stranded.contains m = true → ¬ v.Rooted v.Feeds m

/-- A path of nodes that feed one another, with `start` on it. -/
def Trail (v : View) (start : NodeId) (path : List NodeId) : Prop :=
  path.IsChain v.Feeds ∧ start ∈ path

/-- A node that a search need not look at, or has seen. -/
def Settled (dead : OrdSet NodeId) (reach : Reach) (search : Search) (m : NodeId) : Prop :=
  dead.contains m = true ∨ reach.stranded.contains m = true ∨ search.seen.contains m = true

/-- A search from `start` that has got as far as some edges which enter `node`.
It has seen no root, and what feeds a node that it has seen is settled, unless
that node still waits or one of the edges is to thank for it. -/
structure Search.Fair (v : View) (dead : OrdSet NodeId) (reach : Reach) (start node : NodeId)
    (edges : List EdgeId) (search : Search) : Prop where
  begun : search.seen.contains start = true
  plain : ∀ {m a}, search.seen.contains m = true → v (.node m) = some a → a.type ≠ rootType
  trails : ∀ p ∈ search.waiting, Trail v start p
  fed : ∀ {m n}, search.seen.contains n = true → v.Feeds m n → Settled dead reach search m ∨
    (∃ below, n :: below ∈ search.waiting) ∨
    (n = node ∧ ∃ e ∈ edges, ∃ b s, EdgeIn v e b s ∧ s.source = m)

/-- What a search has before it: the nodes that wait, and those it may still
meet. -/
def Search.work (search : Search) (nodes : List NodeId) : Nat :=
  search.waiting.length + search.seen.missing nodes

/-- A path that shows that a root leads to `start`. -/
def Shows (v : View) (start : NodeId) (path : List NodeId) : Prop :=
  start ∈ path ∧ ∀ m ∈ path, v.Rooted v.Feeds m

theorem Trail.shows (h : Trail v start (m :: path)) (hm : v.Rooted v.Feeds m) :
    Shows v start (m :: path) := by
  refine ⟨h.2, ?_⟩
  have hchain := h.1
  clear h
  induction path generalizing m with
  | nil => exact fun x hx => List.mem_singleton.1 hx ▸ hm
  | cons k rest ih =>
    intro x hx
    rw [List.isChain_cons_cons] at hchain
    rcases List.mem_cons.1 hx with rfl | hx
    · exact hm
    · exact ih (hm.step hchain.1) hchain.2 x hx

namespace Search.Fair

/-- An edge that comes from nowhere new is done with. -/
theorem pass {e : EdgeId} (h : search.Fair v dead reach start node (e :: edges))
    (hsource : ∀ b s, EdgeIn v e b s → Settled dead reach search s.source) :
    search.Fair v dead reach start node edges := by
  refine ⟨h.begun, h.plain, h.trails, fun hn hm => ?_⟩
  rcases h.fed hn hm with hset | hwait | ⟨hnode, x, hx, b, s, hb, rfl⟩
  · exact .inl hset
  · exact .inr (.inl hwait)
  · rcases List.mem_cons.1 hx with rfl | hx
    · exact .inl (hsource b s hb)
    · exact .inr (.inr ⟨hnode, x, hx, b, s, hb, rfl⟩)

/-- A node is seen for the first time. It has to wait if it is there. -/
theorem meet (h : search.Fair v dead reach start node edges) {search' : Search}
    (hseen : search'.seen = search.seen.add m) (hwait : ∀ p ∈ search.waiting, p ∈ search'.waiting)
    (htrails : ∀ p ∈ search'.waiting, Trail v start p)
    (hplain : ∀ a, v (.node m) = some a → a.type ≠ rootType ∧ ∃ below,
      m :: below ∈ search'.waiting) :
    search'.Fair v dead reach start node edges := by
  have hold : ∀ k, search.seen.contains k = true → search'.seen.contains k = true := by
    intro k hk
    rw [hseen, OrdSet.contains_add]
    exact .inr hk
  refine ⟨hold _ h.begun, fun {k a} hk ha => ?_, htrails, fun {j k} hk hj => ?_⟩
  · rw [hseen, OrdSet.contains_add] at hk
    rcases hk with rfl | hk
    · exact (hplain a ha).1
    · exact h.plain hk ha
  · rw [hseen, OrdSet.contains_add] at hk
    rcases hk with rfl | hk
    · obtain ⟨a, _, _, _, _, ha, _⟩ := hj
      exact .inr (.inl (hplain a ha.1).2)
    · rcases h.fed hk hj with hset | ⟨below, hb⟩ | hedge
      · exact .inl (hset.imp_right (.imp_right (hold j)))
      · exact .inr (.inl ⟨below, hwait _ hb⟩)
      · exact .inr (.inr hedge)

/-- An edge comes from a node that is not there. -/
theorem overlook {e : EdgeId} {b : Anchor} {s : EdgeRecord}
    (h : search.Fair v dead reach start node (e :: edges)) (hb : EdgeIn v e b s)
    (hnone : v (.node s.source) = none) :
    Search.Fair v dead reach start node edges
      { search with seen := search.seen.add s.source } := by
  refine .pass (.meet h (m := s.source) rfl (fun _ hp => hp) h.trails fun a ha => ?_)
    fun x u hx => ?_
  · cases hnone.symm.trans ha
  · obtain ⟨_, rfl⟩ := hx.unique hb
    exact .inr (.inr ((OrdSet.contains_add ..).2 (.inl rfl)))

/-- An edge comes from a node that is there and is no root: it has to wait for
its turn. -/
theorem await {e : EdgeId} {a b : Anchor} {s : EdgeRecord}
    (h : search.Fair v dead reach start node (e :: edges)) (hb : EdgeIn v e b s)
    (ha : v (.node s.source) = some a) (hty : a.type ≠ rootType)
    (htrail : Trail v start (s.source :: path)) :
    Search.Fair v dead reach start node edges
      { seen := search.seen.add s.source, waiting := search.waiting ++ [s.source :: path] } := by
  refine .pass (.meet h (m := s.source) rfl (fun p hp => List.mem_append_left _ hp) (fun p hp => ?_)
    fun x hx => ?_) fun x u hx => ?_
  · rcases List.mem_append.1 hp with hp | hp
    · exact h.trails p hp
    · exact List.mem_singleton.1 hp ▸ htrail
  · cases ha.symm.trans hx
    exact ⟨hty, path, List.mem_append_right _ (List.mem_singleton_self _)⟩
  · obtain ⟨_, rfl⟩ := hx.unique hb
    exact .inr (.inr ((OrdSet.contains_add ..).2 (.inl rfl)))

/-- A node takes its turn: the edges that enter it are what is still to be
looked at. -/
theorem turn {found : Option NodeRecord} {waiting : List (List NodeId)}
    (h : search.Fair v dead reach start node []) (hwait : search.waiting = (n :: path) :: waiting)
    (hfound : found = (v (.node n)).bind Anchor.node?) :
    Search.Fair v dead reach start n ((found.map (·.incoming)).getD [])
      { search with waiting := waiting } := by
  refine ⟨h.begun, h.plain, fun p hp => h.trails p ?_, fun {j k} hk hj => ?_⟩
  · rw [hwait]
    exact List.mem_cons_of_mem _ hp
  · rcases h.fed hk hj with hset | ⟨below, hb⟩ | ⟨_, _, hx, _⟩
    · exact .inl hset
    · rw [hwait] at hb
      rcases List.mem_cons.1 hb with hb | hb
      · obtain ⟨rfl, -⟩ := List.cons.inj hb
        obtain ⟨a, r, e, b, s, ha, hin, hb, hend⟩ := hj
        have hlisted : (found.map (·.incoming)).getD [] = r.incoming := by
          rw [hfound, ha.1, Option.bind_some, ha.2]
          rfl
        exact .inr (.inr ⟨rfl, e, hlisted.symm ▸ hin, b, s, hb, hend⟩)
      · exact .inr (.inl ⟨below, hb⟩)
    · cases hx

/-- When nothing waits, no root leads to a node that was seen: on the way from
the root there would be a last node that was not seen, and it would be
settled. -/
theorem not_rooted (h : search.Fair v dead reach start node []) (hr : reach.Truthful v dead)
    (hwait : search.waiting = []) (hn : search.seen.contains n = true) : ¬ v.Rooted v.Feeds n := by
  rintro ⟨m, a, ha, hty, hpath⟩
  induction hpath with
  | refl => exact h.plain hn ha hty
  | @tail j k hjk hfeeds ih =>
    rcases h.fed hn hfeeds with (hdead | hstr | hseen) | ⟨_, hb⟩ | ⟨_, _, hx, _⟩
    · exact hr.dead hdead ⟨m, a, ha, hty, hjk⟩
    · exact hr.stranded hstr ⟨m, a, ha, hty, hjk⟩
    · exact ih hseen
    · rw [hwait] at hb
      cases hb
    · cases hx

end Search.Fair

/-- Looking at edges that enter a node. Either a root is found by way of one of
them, or they are done with, and no more is before the search than there was. -/
theorem scan_ends (hd : Fetched t d₀ d) (hr : reach.Truthful (d₀.view t) dead)
    (hpath : Trail (d₀.view t) start (node :: path))
    (hedges : ∀ e ∈ edges, ∃ a r, NodeIn (d₀.view t) node a r ∧ e ∈ r.incoming)
    (hf : search.Fair (d₀.view t) dead reach start node edges)
    (hnodes : ∀ {m a}, d₀.view t (.node m) = some a → m ∈ nodes) :
    Work.Ends (scan dead reach (node :: path) edges search) d (fun found d' => Fetched t d₀ d' ∧
      found.elim (Shows (d₀.view t) start) fun search' =>
        search'.Fair (d₀.view t) dead reach start node [] ∧ search'.work nodes ≤ search.work nodes)
      fun _ _ => False := by
  induction edges generalizing d search with
  | nil => exact .pure ⟨hd, hf, Nat.le_refl _⟩
  | cons e rest ih =>
    have hrest : ∀ x ∈ rest, ∃ a r, NodeIn (d₀.view t) node a r ∧ x ∈ r.incoming :=
      fun x hx => hedges x (List.mem_cons_of_mem _ hx)
    have hnext : ∀ {d' search'}, Fetched t d₀ d' →
        search'.Fair (d₀.view t) dead reach start node rest →
        search'.work nodes ≤ search.work nodes →
        Work.Ends (scan dead reach (node :: path) rest search') d' (fun found d'' =>
          Fetched t d₀ d'' ∧ found.elim (Shows (d₀.view t) start) fun search'' =>
            search''.Fair (d₀.view t) dead reach start node [] ∧
              search''.work nodes ≤ search.work nodes) fun _ _ => False := by
      intro d' search' hd' hf' hle
      refine (ih hd' hrest hf').imp ?_
      rintro (trail | search'') d'' ⟨hd'', hfound⟩
      · exact ⟨hd'', hfound⟩
      · exact ⟨hd'', hfound.1, Nat.le_trans hfound.2 hle⟩
    refine (hd.loadEdge e).andThen ?_
    rintro found d₁ ⟨hfound, hd₁⟩
    cases found with
    | none =>
      refine hnext hd₁ (hf.pass fun b s hb => ?_) (Nat.le_refl _)
      rw [hb.1, Option.bind_some, hb.2] at hfound
      cases hfound
    | some s =>
      obtain ⟨b, hb, hs⟩ := Option.bind_eq_some_iff.1 hfound.symm
      simp only
      split
      · rename_i hskip
        rw [Bool.or_eq_true, Bool.or_eq_true, or_assoc] at hskip
        refine hnext hd₁ (hf.pass fun x u hx => ?_) (Nat.le_refl _)
        obtain ⟨_, rfl⟩ := hx.unique ⟨hb, hs⟩
        exact hskip
      rename_i hskip
      simp only [Bool.or_eq_true, not_or, Bool.not_eq_true] at hskip
      refine (hd₁.load (.node s.source)).andThen ?_
      rintro found d₂ ⟨hsource, _, hd₂⟩
      cases found with
      | none =>
        exact hnext hd₂ (hf.overlook ⟨hb, hs⟩ hsource.symm)
          (Nat.add_le_add_left (OrdSet.missing_add_le ..) _)
      | some a =>
        obtain ⟨c, r, hc, hin⟩ := hedges e (List.mem_cons_self ..)
        have htrail : Trail (d₀.view t) start (s.source :: node :: path) := by
          refine ⟨List.isChain_cons_cons.2 ⟨?_, hpath.1⟩, List.mem_cons_of_mem _ hpath.2⟩
          exact ⟨c, r, e, b, s, hc, hin, ⟨hb, hs⟩, rfl⟩
        simp only
        split
        · rename_i hroot
          refine .pure ⟨hd₂, htrail.shows ?_⟩
          rcases (Bool.or_eq_true_iff ..).1 hroot with hty | hanch
          · exact .of_root hsource.symm (of_decide_eq_true hty)
          · exact hr.anchored hanch
        · rename_i hroot
          have hty : a.type ≠ rootType := fun hty =>
            hroot ((Bool.or_eq_true_iff ..).2 (.inl (decide_eq_true hty)))
          -- one more waits, but one less is still to be met
          have hless := OrdSet.missing_add_lt (hnodes hsource.symm) hskip.2
          refine hnext hd₂ (hf.await ⟨hb, hs⟩ hsource.symm hty htrail) ?_
          simp only [Search.work, List.length_append, List.length_singleton]
          omega

/-- A search answers with a path that shows that a root leads to `start`, or
with nodes to none of which a root leads. -/
theorem explore_ends (nodes : List NodeId) (hd : Fetched t d₀ d)
    (hr : reach.Truthful (d₀.view t) dead) {fuel : Nat}
    (hf : search.Fair (d₀.view t) dead reach start node [])
    (hnodes : ∀ {m a}, d₀.view t (.node m) = some a → m ∈ nodes)
    (hfuel : search.work nodes < fuel) :
    Work.Ends (explore dead reach fuel search) d (fun found d' => Fetched t d₀ d' ∧
      found.elim (Shows (d₀.view t) start) fun seen => seen.contains start = true ∧
        ∀ m, seen.contains m = true → ¬ (d₀.view t).Rooted (d₀.view t).Feeds m)
      fun _ _ => False := by
  induction fuel generalizing d search node with
  | zero => omega
  | succ fuel ih =>
    unfold explore
    split
    -- nothing awaits its turn: whoever feeds a node that was seen was seen too
    · rename_i hwait
      exact .pure ⟨hd, hf.begun, fun m hm => hf.not_rooted hr hwait hm⟩
    · rename_i waiting hwait
      have hnil := hf.trails [] (by rw [hwait]; exact List.mem_cons_self ..)
      cases hnil.2
    · rename_i n below waiting hwait
      refine (hd.loadNode n).andThen ?_
      rintro found d₁ ⟨hfound, hd₁⟩
      have hpath := hf.trails (n :: below) (by rw [hwait]; exact List.mem_cons_self ..)
      refine (scan_ends hd₁ hr hpath ?_ (hf.turn hwait hfound) hnodes).andThen ?_
      · intro e he
        cases found with
        | none => cases he
        | some r =>
          obtain ⟨a, ha, hr⟩ := Option.bind_eq_some_iff.1 hfound.symm
          exact ⟨a, r, ⟨ha, hr⟩, he⟩
      rintro (trail | search') d₂ ⟨hd₂, hfound⟩
      · exact .pure ⟨hd₂, hfound⟩
      · refine ih hd₂ hfound.1 ?_
        have hle := hfound.2
        simp only [Search.work, hwait, List.length_cons] at hfuel hle ⊢
        omega

/-- A node that is no root itself is kept if and only if some root leads to
it. -/
theorem anchored_ends (hd : Fetched t d₀ d) (hr : reach.Truthful (d₀.view t) dead)
    (hplain : ∀ {a}, d₀.view t (.node node) = some a → a.type ≠ rootType) :
    Work.Ends (anchored node dead reach) d (fun found d' => Fetched t d₀ d' ∧
      (found.1 = true ↔ (d₀.view t).Rooted (d₀.view t).Feeds node) ∧
      found.2.Truthful (d₀.view t) dead) fun _ _ => False := by
  unfold anchored
  split
  · rename_i hanch
    exact .pure ⟨hd, iff_of_true rfl (hr.anchored hanch), hr⟩
  split
  · rename_i hstr
    exact .pure ⟨hd, iff_of_false Bool.false_ne_true (hr.stranded hstr), hr⟩
  have hone : ∀ m, (OrdSet.ofList [node]).contains m = true ↔ m = node := fun m => by
    rw [OrdSet.contains_ofList, List.mem_singleton]
  -- the search begins with the node alone, and one path of length one
  have hstart : Search.Fair (d₀.view t) dead reach node node []
      ⟨OrdSet.ofList [node], [[node]]⟩ := by
    refine ⟨(hone _).2 rfl, fun {m a} hm ha => ?_, fun p hp => ?_, fun hn _ => ?_⟩
    · cases (hone m).1 hm
      exact hplain ha
    · rw [List.mem_singleton] at hp
      exact hp ▸ ⟨List.isChain_singleton _, List.mem_singleton_self _⟩
    · cases (hone _).1 hn
      exact .inr (.inl ⟨[], List.mem_singleton_self _⟩)
  refine .bind (.get ((explore_ends (d.findable t) hd hr hstart ?_ ?_).andThen ?_))
  · intro m a ha
    exact Desk.mem_findable (hd.same_view.symm ▸ ha)
  · have hmiss := OrdSet.missing_le_length (OrdSet.ofList [node]) (d.findable t)
    have hlen := hd.above.length_findable
    simp only [Search.work, List.length_singleton]
    omega
  rintro (path | seen) d₁ ⟨hd₁, hfound⟩
  -- a path to an anchor shows all its nodes anchored; a search without one shows all it
  -- saw stranded
  · refine .pure ⟨hd₁, iff_of_true rfl (hfound.2 _ hfound.1), hr.dead, fun {m} hm => ?_,
      hr.stranded⟩
    rcases (OrdSet.contains_addAll ..).1 hm with hm | hm
    · exact hfound.2 m hm
    · exact hr.anchored hm
  · refine .pure ⟨hd₁, iff_of_false Bool.false_ne_true (hfound.2 _ hfound.1), hr.dead, hr.anchored,
      fun {m} hm => ?_⟩
    rcases (OrdSet.contains_addAll ..).1 hm with hm | hm
    · exact hfound.2 m (Table.mem_keys_iff_contains.1 hm)
    · exact hr.stranded hm

/-! ## Rounds -/

/-- What examining a list of nodes finds out: which of them died just now, and
that a root leads to the others. -/
structure Examined (v : View) (nodes list : List NodeId) (survey : Survey) (newly : List NodeId)
    (survey' : Survey) : Prop where
  candidates : survey'.candidates = survey.candidates
  truthful : survey'.reach.Truthful v survey'.dead
  contains_dead : ∀ m, survey'.dead.contains m = true ↔ m ∈ newly ∨ survey.dead.contains m = true
  listed : ∀ m ∈ newly, m ∈ list
  decided : ∀ m ∈ list, survey'.dead.contains m = true ∨ v.Rooted v.Feeds m
  fewer : survey'.dead.missing nodes + newly.length ≤ survey.dead.missing nodes

namespace Examined

variable {list newly : List NodeId} {survey survey' : Survey}

theorem nil (hr : survey.reach.Truthful v survey.dead) : Examined v nodes [] survey [] survey :=
  ⟨rfl, hr, by simp, by simp, by simp, Nat.le_refl _⟩

/-- A node is dead already, or kept. -/
theorem keep (reach : Reach)
    (h : Examined v nodes list { survey with reach := reach } newly survey')
    (hm : survey.dead.contains m = true ∨ v.Rooted v.Feeds m) :
    Examined v nodes (m :: list) survey newly survey' := by
  refine ⟨h.candidates, h.truthful, h.contains_dead,
    fun x hx => List.mem_cons_of_mem _ (h.listed x hx), fun x hx => ?_, h.fewer⟩
  rcases List.mem_cons.1 hx with rfl | hx
  · exact hm.imp_left fun hdead => (h.contains_dead x).2 (.inr hdead)
  · exact h.decided x hx

/-- A node is found dead. -/
theorem lose (h : Examined v nodes list
      { survey with dead := survey.dead.add m, reach := reach } newly survey')
    (hm : m ∈ nodes) (hnew : survey.dead.contains m = false) :
    Examined v nodes (m :: list) survey (m :: newly) survey' := by
  have hdead : ∀ x, survey'.dead.contains x = true ↔
      x ∈ m :: newly ∨ survey.dead.contains x = true := by
    intro x
    rw [h.contains_dead, OrdSet.contains_add, List.mem_cons, or_left_comm, ← or_assoc]
  refine ⟨h.candidates, h.truthful, hdead, fun x hx => ?_, fun x hx => ?_, ?_⟩
  · rcases List.mem_cons.1 hx with rfl | hx
    · exact List.mem_cons_self ..
    · exact List.mem_cons_of_mem _ (h.listed x hx)
  · rcases List.mem_cons.1 hx with rfl | hx
    · exact .inl ((hdead x).2 (.inl (List.mem_cons_self ..)))
    · exact h.decided x hx
  · have hless := OrdSet.missing_add_lt hm hnew
    have hfewer := h.fewer
    simp only [List.length_cons] at hfewer ⊢
    omega

end Examined

/-- Examining nodes that are no roots. The list says which ones died just
now. -/
theorem examine_ends (nodes : List NodeId) (hd : Fetched t d₀ d) (list : List NodeId)
    (survey : Survey) (hr : survey.reach.Truthful (d₀.view t) survey.dead)
    (hplain : ∀ m ∈ list, ∀ {a}, d₀.view t (.node m) = some a → a.type ≠ rootType)
    (hlist : ∀ m ∈ list, m ∈ nodes) :
    Work.Ends (examine list survey) d (fun found d' => Fetched t d₀ d' ∧
      Examined (d₀.view t) nodes list survey found.1 found.2) fun _ _ => False := by
  induction list generalizing d survey with
  | nil => exact .pure ⟨hd, .nil hr⟩
  | cons m rest ih =>
    have hrest : ∀ x ∈ rest, x ∈ nodes := fun x hx => hlist x (List.mem_cons_of_mem _ hx)
    have hplain' : ∀ x ∈ rest, ∀ {a}, d₀.view t (.node x) = some a → a.type ≠ rootType :=
      fun x hx => hplain x (List.mem_cons_of_mem _ hx)
    unfold examine
    split
    · rename_i hdead
      exact (ih hd survey hr hplain' hrest).imp fun _ _ ⟨hd₁, hx⟩ =>
        ⟨hd₁, hx.keep survey.reach (.inl hdead)⟩
    rename_i hnew
    refine (anchored_ends hd hr (hplain m (List.mem_cons_self ..))).andThen ?_
    rintro ⟨kept, reach⟩ d₁ ⟨hd₁, hkept, hr₁⟩
    cases kept with
    | true =>
      exact (ih hd₁ { survey with reach := reach } hr₁ hplain' hrest).imp fun _ _ ⟨hd₂, hx⟩ =>
        ⟨hd₂, hx.keep reach (.inr (hkept.1 rfl))⟩
    | false =>
      have hlost : ¬ (d₀.view t).Rooted (d₀.view t).Feeds m := fun h => by cases hkept.2 h
      have hr₂ : reach.Truthful (d₀.view t) (survey.dead.add m) := by
        refine ⟨fun {x} hx => ?_, hr₁.anchored, hr₁.stranded⟩
        rcases (OrdSet.contains_add ..).1 hx with rfl | hx
        · exact hlost
        · exact hr₁.dead hx
      refine (ih hd₁ { survey with dead := survey.dead.add m, reach := reach } hr₂ hplain'
        hrest).andThen ?_
      rintro ⟨more, survey'⟩ d₂ ⟨hd₂, hx⟩
      exact .pure ⟨hd₂, hx.lose (hlist m (List.mem_cons_self ..)) (by simpa using hnew)⟩

/-- The children of a node are the nodes that it offers an edge to. -/
theorem children_ends (hd : Fetched t d₀ d) (m : NodeId) :
    Work.Ends (children m) d (fun found d' => Fetched t d₀ d' ∧
      ∀ n, n ∈ found ↔ (d₀.view t).Offers m n) fun _ _ => False := by
  refine (hd.loadNode m).andThen ?_
  rintro found d₁ ⟨hfound, hd₁⟩
  cases found with
  | none =>
    refine .pure ⟨hd₁, fun n => iff_of_false (by simp) ?_⟩
    rintro ⟨a, r, e, b, s, ha, _⟩
    rw [ha.1, Option.bind_some, ha.2] at hfound
    cases hfound
  | some r =>
    obtain ⟨a, ha, hr⟩ := Option.bind_eq_some_iff.1 hfound.symm
    refine (Work.Ends.mapM_map (I := Fetched t d₀)
      (f := fun e => (d₀.view t (.edge e)).bind Anchor.edge?) hd₁
      fun e d' hd' => hd'.loadEdge e).andThen ?_
    rintro _ d₂ ⟨rfl, hd₂⟩
    refine .pure ⟨hd₂, fun n => ?_⟩
    simp only [List.mem_map, List.mem_filterMap, id]
    constructor
    · rintro ⟨s, ⟨_, ⟨e, he, rfl⟩, hs⟩, rfl⟩
      obtain ⟨b, hb, hs⟩ := Option.bind_eq_some_iff.1 hs
      exact ⟨a, r, e, b, s, ⟨ha, hr⟩, he, ⟨hb, hs⟩, rfl⟩
    · rintro ⟨a', r', e, b, s, ha', he, hb, rfl⟩
      obtain ⟨rfl, rfl⟩ := ha'.unique ⟨ha, hr⟩
      refine ⟨s, ⟨_, ⟨e, he, rfl⟩, ?_⟩, rfl⟩
      rw [hb.1, Option.bind_some, hb.2]

/-- The request has a copy of every member. -/
def Copied (d : Desk σ) (set : OrdSet NodeId) : Prop :=
  ∀ m, set.contains m = true → ∃ a, d.draft.copy? (.node m) = some a

theorem Copied.fetched {set : OrdSet NodeId} (h : Copied d set) (hd : Fetched t d d') :
    Copied d' set := fun m hm => (h m hm).imp fun _ ha => hd.kept ha

/-- A child becomes a candidate if it belongs to the tenant and is no root. -/
theorem nominate_ends (hd : Fetched t d₀ d) (root : RootId) {candidates : OrdSet NodeId}
    (hc : Copied d candidates) (child : NodeId) :
    Work.Ends (nominate root candidates child) d (fun candidates' d' => (Fetched t d₀ d' ∧
      Copied d' candidates') ∧ ∀ m, candidates'.contains m = true ↔
        candidates.contains m = true ∨ (m = child ∧ (d₀.view t).Owned root m))
      fun _ _ => False := by
  refine ((Fetched.refl hd.above).load (.node child)).andThen ?_
  rintro found d₁ ⟨hfound, hcopy, hd₁⟩
  have hc₁ := hc.fetched hd₁
  rw [hd.same_view] at hfound
  -- what was loaded differs from what is seen in the dirty flag only
  have howned : ∀ m, m = child → ((d₀.view t).Owned root m ↔
      ∃ a, found = some a ∧ a.owner = root ∧ a.type ≠ rootType) := by
    rintro m rfl
    constructor
    · rintro ⟨a, ha, hrest⟩
      obtain ⟨x, rfl, rfl⟩ := Option.map_eq_some_iff.1 (hfound.trans ha)
      exact ⟨x, rfl, hrest⟩
    · rintro ⟨a, rfl, hrest⟩
      exact ⟨a.clean, hfound.symm, hrest⟩
  cases found with
  | none =>
    refine .pure ⟨⟨hd.trans hd₁, hc₁⟩, fun m => ⟨.inl, ?_⟩⟩
    rintro (hm | ⟨hm, ho⟩)
    · exact hm
    · obtain ⟨a, ha, _⟩ := (howned m hm).1 ho
      cases ha
  | some a =>
    refine .pure ?_
    split
    · rename_i hown
      refine ⟨⟨hd.trans hd₁, fun m hm => ?_⟩, fun m => ?_⟩
      · rcases (OrdSet.contains_add ..).1 hm with rfl | hm
        · exact ⟨a, hcopy a rfl⟩
        · exact hc₁ m hm
      · rw [OrdSet.contains_add, or_comm]
        exact or_congr_right ⟨fun hm => ⟨hm, (howned m hm).2 ⟨a, rfl, hown⟩⟩, And.left⟩
    · rename_i hown
      refine ⟨⟨hd.trans hd₁, hc₁⟩, fun m => ⟨.inl, ?_⟩⟩
      rintro (hm | ⟨hm, ho⟩)
      · exact hm
      · obtain ⟨_, ⟨⟩, ho⟩ := (howned m hm).1 ho
        exact absurd ho hown

/-- The children of nodes that died become candidates. -/
theorem nominations_ends (hd : Fetched t d₀ d) (root : RootId) (newly : List NodeId)
    (candidates : OrdSet NodeId) (hc : Copied d candidates) :
    Work.Ends (newly.foldlM (fun candidates node => do
        (← children node).foldlM (nominate root) candidates) candidates) d
      (fun candidates' d' => (Fetched t d₀ d' ∧ Copied d' candidates') ∧
        ∀ m, candidates'.contains m = true ↔ candidates.contains m = true ∨
          ∃ k ∈ newly, (d₀.view t).Offers k m ∧ (d₀.view t).Owned root m) fun _ _ => False := by
  refine .foldlM_gather _ ⟨hd, hc⟩ ?_
  rintro k cs d₁ ⟨hd₁, hc₁⟩
  refine (children_ends (.refl hd₁.above) k).andThen ?_
  rintro found d₂ ⟨hd₂, hfound⟩
  rw [hd₁.same_view] at hfound
  refine (Work.Ends.foldlM_gather (K := fun cs d' => Fetched t d₀ d' ∧ Copied d' cs)
    (fun c m => m = c ∧ (d₀.view t).Owned root m) ⟨hd₁.trans hd₂, hc₁.fetched hd₂⟩ ?_).mono
    ?_ fun _ _ hf => hf
  · rintro c cs' d₃ ⟨hd₃, hc₃⟩
    exact nominate_ends hd₃ root hc₃ c
  · rintro cs' d₃ ⟨hd₃, hiff⟩
    refine ⟨hd₃, fun m => ?_⟩
    rw [hiff]
    refine or_congr_right ⟨?_, fun ⟨ho, hown⟩ => ⟨m, (hfound m).2 ho, rfl, hown⟩⟩
    rintro ⟨c, hcm, rfl, hown⟩
    exact ⟨(hfound m).1 hcm, hown⟩

/-- What holds between rounds. Every candidate is the tenant's and has been
named by a dead node unless it was there from the first; and no such node is
missing. -/
structure Survey.Correct (v : View) (root : RootId) (first : NodeId → Prop) (survey : Survey) :
    Prop where
  truthful : survey.reach.Truthful v survey.dead
  doomed : ∀ {m}, survey.dead.contains m = true → v.Doomed v.Feeds v.Offers root first m
  owned : ∀ {m}, survey.candidates.contains m = true → v.Owned root m
  named : ∀ {m}, survey.candidates.contains m = true →
    first m ∨ ∃ k, survey.dead.contains k = true ∧ v.Offers k m
  firsts : ∀ {m}, first m → v.Owned root m → survey.candidates.contains m = true
  offered : ∀ {k m}, survey.dead.contains k = true → v.Offers k m → v.Owned root m →
    survey.candidates.contains m = true

/-- When every candidate is dead or led to by a root, all doomed nodes are
dead. -/
theorem Survey.Correct.complete {first : NodeId → Prop} {survey : Survey}
    (h : survey.Correct v root first) (hall : ∀ m, survey.candidates.contains m = true →
      survey.dead.contains m = true ∨ v.Rooted v.Feeds m)
    (hm : v.Doomed v.Feeds v.Offers root first m) : survey.dead.contains m = true := by
  induction hm with
  | first hf ho hr => exact (hall _ (h.firsts hf ho)).resolve_right hr
  | next _ hstep ho hr ih => exact (hall _ (h.offered ih hstep ho)).resolve_right hr

/-- After a round the candidates are those there were, with the children of the
nodes that died. -/
theorem Survey.Correct.examined {first : NodeId → Prop} {survey survey' : Survey}
    {newly : List NodeId} {candidates : OrdSet NodeId} (h : survey.Correct v root first)
    (hx : Examined v nodes survey.candidates.keys
      { survey with reach := { survey.reach with anchored := Table.empty } } newly survey')
    (hmore : ∀ m, candidates.contains m = true ↔ survey'.candidates.contains m = true ∨
      ∃ k ∈ newly, v.Offers k m ∧ v.Owned root m) :
    Survey.Correct v root first { survey' with candidates := candidates } := by
  rw [hx.candidates] at hmore
  have hcandidate : ∀ {m}, m ∈ newly → survey.candidates.contains m = true := fun hm =>
    Table.mem_keys_iff_contains.1 (hx.listed _ hm)
  refine { truthful := hx.truthful, doomed := fun {m} hm => ?_, owned := fun {m} hm => ?_,
           named := fun {m} hm => ?_,
           firsts := fun hf hown => (hmore _).2 (.inl (h.firsts hf hown)),
           offered := fun {k m} hk hoffer hown => ?_ }
  · rcases (hx.contains_dead m).1 hm with hnew | hold
    · have hcm := hcandidate hnew
      rcases h.named hcm with hf | ⟨k, hk, hoffer⟩
      · exact .first hf (h.owned hcm) (hx.truthful.dead hm)
      · exact .next (h.doomed hk) hoffer (h.owned hcm) (hx.truthful.dead hm)
    · exact h.doomed hold
  · rcases (hmore m).1 hm with hold | ⟨_, _, _, hown⟩
    · exact h.owned hold
    · exact hown
  · rcases (hmore m).1 hm with hold | ⟨k, hk, hoffer, _⟩
    · exact (h.named hold).imp_right fun ⟨k, hk, hoffer⟩ =>
        ⟨k, (hx.contains_dead k).2 (.inr hk), hoffer⟩
    · exact .inr ⟨k, (hx.contains_dead k).2 (.inl hk), hoffer⟩
  · rcases (hx.contains_dead k).1 hk with hnew | hold
    · exact (hmore m).2 (.inr ⟨k, hnew, hoffer, hown⟩)
    · exact (hmore m).2 (.inl (h.offered hold hoffer hown))

/-- The rounds find exactly the doomed nodes. -/
theorem rounds_ends (nodes : List NodeId) (hd : d.Over t) (hv : d.view t = v)
    {first : NodeId → Prop} (fuel : Nat) (survey : Survey) (hs : survey.Correct v root first)
    (hnodes : ∀ {m a}, v (.node m) = some a → m ∈ nodes)
    (hfuel : survey.dead.missing nodes < fuel) (hcand : Copied d survey.candidates)
    (hdead : Copied d survey.dead) :
    Work.Ends (rounds root fuel survey) d (fun dead d' => Fetched t d d' ∧ Copied d' dead ∧
      ∀ m, dead.contains m = true ↔ v.Doomed v.Feeds v.Offers root first m)
      fun _ _ => False := by
  -- each round that finds somebody leaves fewer nodes to find, so the fuel is never
  -- what stops it
  induction fuel generalizing d survey with
  | zero => omega
  | succ fuel ih =>
    subst hv
    have hkeys : ∀ {m}, m ∈ survey.candidates.keys → survey.candidates.contains m = true :=
      Table.mem_keys_iff_contains.1
    -- what was found anchored may not be after the last round; what was found stranded
    -- still is
    have hfresh : Reach.Truthful (d.view t) survey.dead
        { survey.reach with anchored := Table.empty } :=
      ⟨hs.truthful.dead, fun hm => by simp [Table.contains] at hm, hs.truthful.stranded⟩
    refine (examine_ends nodes (.refl hd) survey.candidates.keys
      { survey with reach := { survey.reach with anchored := Table.empty } } hfresh
      (fun m hm a ha => ?_) fun m hm => ?_).andThen ?_
    · obtain ⟨b, hb, _, hty⟩ := hs.owned (hkeys hm)
      cases ha.symm.trans hb
      exact hty
    · obtain ⟨a, ha, _⟩ := hs.owned (hkeys hm)
      exact hnodes ha
    rintro ⟨newly, survey'⟩ d₁ ⟨hd₁, hx⟩
    have hcopied : Copied d₁ survey'.dead := by
      intro m hm
      rcases (hx.contains_dead m).1 hm with hnew | hold
      · exact hcand.fetched hd₁ m (hkeys (hx.listed m hnew))
      · exact hdead.fetched hd₁ m hold
    simp only
    split
    · rename_i hnone
      have hnil : newly = [] := List.isEmpty_iff.1 hnone
      have hcorrect : survey'.Correct (d.view t) root first :=
        hs.examined hx fun m => by simp [hnil]
      refine .pure ⟨hd₁, hcopied, fun m => ⟨hcorrect.doomed, hcorrect.complete fun k hk => ?_⟩⟩
      exact hx.decided k (Table.mem_keys_iff_contains.2 (hx.candidates ▸ hk))
    · rename_i hsome
      have hpos : 0 < newly.length :=
        List.length_pos_iff.2 fun hnil => hsome (List.isEmpty_iff.2 hnil)
      have hcand₁ : Copied d₁ survey'.candidates := hx.candidates ▸ hcand.fetched hd₁
      refine (nominations_ends (.refl hd₁.above) root newly survey'.candidates hcand₁).andThen ?_
      rintro candidates d₂ ⟨⟨hd₂, hcand₂⟩, hmore⟩
      rw [hd₁.same_view] at hmore
      refine (ih hd₂.above (hd₂.same_view.trans hd₁.same_view)
        { survey' with candidates := candidates } (hs.examined hx hmore) ?_ hcand₂
        (hcopied.fetched hd₂)).mono
        (fun _ _ hd₃ => ⟨(hd₁.trans hd₂).trans hd₃.1, hd₃.2⟩) fun _ _ hf => hf
      have hfewer := hx.fewer
      simp only at hfewer ⊢
      omega

/-! ## From the changed nodes of a request -/

/-- A node that the request has changed. -/
def Touched (d : Desk σ) (m : NodeId) : Prop :=
  ∃ a, d.draft.copy? (.node m) = some a ∧ a.dirty = true

/-- The first candidates are the changed nodes of the tenant that are no
roots. -/
theorem contains_candidates (hk : d.draft.Keyed) :
    (candidates d.draft root).contains m = true ↔ Touched d m ∧ (d.view t).Owned root m := by
  unfold candidates
  rw [OrdSet.contains_ofList, List.mem_filterMap]
  constructor
  · rintro ⟨a, ha, hid⟩
    obtain ⟨hmem, hkeep⟩ := List.mem_filter.1 ha
    obtain ⟨id, hcopy⟩ := Table.mem_values.1 hmem
    have hidm : id = .node m := by
      rw [hk.own hcopy] at hid
      cases id with
      | node k => exact congrArg _ (Option.some.inj hid)
      | edge e => cases hid
    subst hidm
    simp only [Bool.and_eq_true, decide_eq_true_eq] at hkeep
    exact ⟨⟨a, hcopy, hkeep.1.1⟩, a.clean,
      Desk.view_of_copy? (hk.removed?_of_copy? hcopy) hcopy, hkeep.1.2, hkeep.2⟩
  · rintro ⟨⟨a, hcopy, hdirty⟩, b, hb, hown, hty⟩
    rw [Desk.view_of_copy? (hk.removed?_of_copy? hcopy) hcopy] at hb
    cases hb
    refine ⟨a, List.mem_filter.2 ⟨Table.mem_values.2 ⟨_, hcopy⟩, ?_⟩, ?_⟩
    · simp only [Bool.and_eq_true, decide_eq_true_eq]
      exact ⟨⟨hdirty, hown⟩, hty⟩
    · rw [hk.own hcopy]
      rfl

/-- What `Desk.evictUnreachable` finds dead. -/
theorem survey_ends (hd : d.Over t) (hk : d.draft.Keyed) (root : RootId) :
    Work.Ends (rounds root (d.bound + 2)
      ⟨candidates d.draft root, Table.empty, ⟨Table.empty, Table.empty⟩⟩) d
      (fun dead d' => Fetched t d d' ∧ Copied d' dead ∧ ∀ m, dead.contains m = true ↔
        (d.view t).Doomed (d.view t).Feeds (d.view t).Offers root (Touched d) m)
      fun _ _ => False := by
  have hnone : ∀ {m}, ¬ (Table.empty : OrdSet NodeId).contains m = true := by simp [Table.contains]
  refine rounds_ends (d.findable t) hd rfl _ _ ⟨⟨?_, ?_, ?_⟩, ?_, ?_, ?_, ?_, ?_⟩
    Desk.mem_findable ?_ ?_ ?_
  · exact fun hm => (hnone hm).elim
  · exact fun hm => (hnone hm).elim
  · exact fun hm => (hnone hm).elim
  · exact fun hm => (hnone hm).elim
  · exact fun hm => ((contains_candidates hk).1 hm).2
  · exact fun hm => .inl ((contains_candidates (t := t) hk).1 hm).1
  · exact fun hf hown => (contains_candidates hk).2 ⟨hf, hown⟩
  · exact fun hm => (hnone hm).elim
  · have hmiss := OrdSet.missing_le_length (Table.empty : OrdSet NodeId) (d.findable t)
    have hlen := hd.length_findable
    simp only
    omega
  · intro m hm
    obtain ⟨a, ha, _⟩ := ((contains_candidates (t := t) hk).1 hm).1
    exact ⟨a, ha⟩
  · exact fun m hm => (hnone hm).elim

end Reclaim

end Wayfarer
