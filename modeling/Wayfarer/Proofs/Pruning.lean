import Wayfarer.Proofs.Reading

/-!
# Pruning

Removing things from the graph comes down to a few steps: loading an object,
taking an edge off a node's lists, and deleting an edge or a node. Only nodes
that were seen not to be roots are deleted, here called expendable. A condition
on desks that these steps keep (`Desk.Culls`) is kept by every operation that
removes, and by the reclaiming at the end of a request. `Desk.Prunes` is the
case in which any object may be deleted.
-/

namespace Wayfarer

variable {σ : Type} [Durable σ]

/-- What is loaded is in the draft. -/
theorem Desk.load_found (id : ObjectId) (d : Desk σ) :
    Work.Ends (Desk.load id) d
      (fun found d' => ∀ a, found = some a → d'.draft.volatile.get? id = some a)
      fun _ _ => True := by
  refine .bind (Work.Ends.trivial.mono (fun there d' _ => ?_) fun _ _ _ => trivial)
  split
  · exact .bind (.get (.pure fun a ha => ha))
  · exact .pure fun a ha => by cases ha

theorem Desk.Browses.load {I : Desk σ → Prop} (h : Desk.Browses I) {d : Desk σ} (hd : I d)
    (id : ObjectId) :
    Work.Ends (Desk.load id) d
      (fun found d' => I d' ∧ ∀ a, found = some a → d'.draft.volatile.get? id = some a)
      fun _ => I :=
  ((h id d hd).and (Desk.load_found id d)).mono (fun _ _ h => h) fun _ _ h => h.1

theorem Desk.Browses.and {I J : Desk σ → Prop} (hI : Desk.Browses I) (hJ : Desk.Browses J) :
    Desk.Browses fun d => I d ∧ J d := fun id d h =>
  ((hI id d h.1).and (hJ id d h.2)).mono (fun _ _ h => h) fun _ _ h => h

/-- What loading an object does not touch: the copies that there are, what was
removed, the mint, and the durable tier but for what fetching does to it. -/
structure Desk.Spares (id : ObjectId) (d d' : Desk σ) : Prop where
  copies : ∀ {j a}, d.draft.volatile.get? j = some a → d'.draft.volatile.get? j = some a
  tombstones : d'.draft.tombstones = d.draft.tombstones
  mint : d'.shared.mint = d.shared.mint
  durable : d'.shared.durable = d.shared.durable ∨
    (∃ found, Durable.fetch id d.shared.durable = .ok found d'.shared.durable) ∨
      ∃ e, Durable.fetch id d.shared.durable = .error e d'.shared.durable

theorem Desk.ensure_spares (id : ObjectId) (d : Desk σ) :
    Work.Ends (Desk.ensure id) d (fun _ => d.Spares id) fun _ => d.Spares id := by
  have hkeep : d.draft.volatile.contains id ≠ true → ∀ {a b j}, d.draft.volatile.get? j = some a →
      (d.draft.volatile.insert id b).get? j = some a := by
    intro hnew a b j hcopy
    rw [Table.get?_insert, if_neg, hcopy]
    rintro rfl
    exact hnew (Table.contains_iff.2 ⟨a, hcopy⟩)
  refine .bind (.get ?_)
  split
  · exact .pure ⟨fun h => h, rfl, rfl, .inl rfl⟩
  · split
    · exact .bind (.set (.pure ⟨fun h => h, rfl, rfl, .inl rfl⟩))
    · rename_i hnew
      split
      · exact .bind (.set (.pure ⟨hkeep hnew, rfl, rfl, .inl rfl⟩))
      · refine .bind (.modify (.bind ?_))
        cases hfetch : Durable.fetch id d.shared.durable with
        | error e s =>
          exact .of_error (Desk.onDurable_of_error hfetch)
            ⟨fun h => h, rfl, rfl, .inr (.inr ⟨e, hfetch⟩)⟩
        | ok found s =>
          refine .of_ok (Desk.onDurable_of_ok hfetch) ?_
          have hdurable : ∃ found', Durable.fetch id d.shared.durable = .ok found' s :=
            ⟨found, hfetch⟩
          cases found with
          | none => exact .pure ⟨fun h => h, rfl, rfl, .inr (.inl hdurable)⟩
          | some b => exact .bind (.modify (.pure ⟨hkeep hnew, rfl, rfl, .inr (.inl hdurable)⟩))

theorem Desk.load_spares (id : ObjectId) (d : Desk σ) :
    Work.Ends (Desk.load id) d (fun _ => d.Spares id) fun _ => d.Spares id := by
  refine (Desk.ensure_spares id d).andThen fun there d' h => ?_
  split
  · exact .bind (.get (.pure h))
  · exact .pure h

/-- Loading leaves alone what is in the draft. -/
theorem Desk.Browses.copied (id : ObjectId) (a : Anchor) :
    Desk.Browses (σ := σ) fun d => d.draft.volatile.get? id = some a := fun j d h =>
  (Desk.load_spares j d).mono (fun _ _ hs => hs.copies h) fun _ _ hs => hs.copies h

/-- Over any durable tier it leaves removals and the mint alone. -/
theorem Desk.Browses.still (p : Table ObjectId UInt64 → Mint → Prop) :
    Desk.Browses (σ := σ) fun d => p d.draft.tombstones d.shared.mint := by
  intro id d h
  have hkeeps : ∀ d', d.Spares id d' → p d'.draft.tombstones d'.shared.mint := by
    rintro d' ⟨_, htomb, hmint, _⟩
    rwa [htomb, hmint]
  exact (Desk.load_spares id d).mono (fun _ => hkeeps) fun _ => hkeeps

/-- Over a vault it leaves all alone but copies and the cache. -/
theorem Desk.Browses.steady (p : Table ObjectId UInt64 → Vault → Mint → Prop) :
    Desk.Browses fun d => p d.draft.tombstones d.shared.durable d.shared.mint := by
  intro id d h
  have hkeeps : ∀ d', d.Spares id d' → p d'.draft.tombstones d'.shared.durable d'.shared.mint := by
    rintro d' ⟨_, htomb, hmint, hsame | ⟨_, hfetch⟩ | ⟨_, hfetch⟩⟩
    · rwa [htomb, hmint, hsame]
    · injection hfetch with _ hsame
      rwa [htomb, hmint, ← hsame]
    · cases hfetch
  exact (Desk.load_spares id d).mono (fun _ => hkeeps) fun _ => hkeeps

/-- Loading an object, taking an edge off a node, and deleting an edge or an
expendable node keep a condition. A node is expendable if it was seen to be no
root. -/
structure Desk.Culls (I : Desk σ → Prop) (expendable : NodeId → Prop) : Prop where
  browses : Desk.Browses I
  seen : ∀ {d id m a}, I d → d.draft.volatile.get? id = some a → a.type ≠ rootType →
    (id = .node m ∨ a.id = .node m) → expendable m
  detach : ∀ (e : EdgeId) (m : NodeId), Work.Keeps I (Desk.update? m (·.mapNode (·.detach e)))
  edge : ∀ e : EdgeId, Work.Keeps I (Desk.delete e)
  node : ∀ m : NodeId, expendable m → Work.Keeps I (Desk.delete m)

namespace Desk.Culls

variable {I : Desk σ → Prop} {expendable : NodeId → Prop} (h : Culls I expendable)

include h

theorem unlink (edge : EdgeId) : Work.Keeps I (Actor.unlink edge) := by
  refine .bind (h.browses.loadEdge edge) fun found => ?_
  cases found with
  | none => exact .pure _
  | some e =>
    exact .bind (.bind (h.detach edge _) fun _ => .pure _) fun _ =>
      .bind (.bind (h.detach edge _) fun _ => .pure _) fun _ => h.edge _

theorem disconnect (actor : Actor) (edge : EdgeId) : Work.Keeps I (actor.disconnect edge) := by
  refine .bind (h.browses.loadEdge edge) fun found => .bind (Browses.part _ _) fun e => ?_
  refine .bind (h.browses.check actor _ _) fun _ => .bind (h.browses.check actor _ _) fun _ => ?_
  refine .bind (h.unlink edge) fun _ => ?_
  cases e.twin with
  | none => exact .pure _
  | some twin => exact h.unlink twin

theorem destroyable (actor : Actor) (node : NodeId) {d : Desk σ} (hd : I d) :
    Work.Ends (actor.destroyable node) d (fun _ d' => I d' ∧ expendable node) fun _ => I := by
  refine .bind ((h.browses.load hd _).andThen ?_)
  rintro found d₁ ⟨h₁, hcopy⟩
  cases found with
  | none => exact .throw h₁
  | some a =>
    simp only
    split
    · refine .pure (.bind ?_)
      have hpart : a.node? = none ∨ ∃ n, a.node? = some n ∧ a.type = n.type := by
        unfold Anchor.node? Anchor.type
        cases a.body with
        | node n => exact .inr ⟨n, rfl, rfl⟩
        | edge e => exact .inl rfl
      rcases hpart with hn | ⟨n, hn, htype⟩
      · rw [hn]
        exact .throw h₁
      · rw [hn]
        refine .pure ?_
        split
        · exact .bind (.throw h₁)
        · rename_i hplain
          exact .pure ⟨h₁, h.seen h₁ (hcopy a rfl) (htype ▸ hplain) (.inl rfl)⟩
    · exact .throw h₁

theorem destroy (actor : Actor) (node : NodeId) : Work.Keeps I (actor.destroy node) := by
  refine fun d hd => (h.destroyable actor node hd).andThen ?_
  rintro n d₁ ⟨h₁, hnode⟩
  exact Work.Keeps.bind (h.browses.doomed n) (fun _ => .bind (.forM fun e => h.unlink e)
    fun _ => h.node node hnode) d₁ h₁

theorem destroyIsolated (actor : Actor) (node : NodeId) :
    Work.Keeps I (actor.destroyIsolated node) := by
  refine fun d hd => (h.destroyable actor node hd).andThen ?_
  rintro n d₁ ⟨h₁, hnode⟩
  simp only
  split
  · exact .bind (.throw h₁)
  · exact h.node node hnode d₁ h₁

/-! ## Reclaiming -/

theorem release (edge : EdgeId) (dead : OrdSet NodeId) (node : NodeId) :
    Work.Keeps I (Reclaim.release edge dead node) := by
  unfold Reclaim.release
  split
  · exact .pure _
  · exact .bind (h.detach edge _) fun _ => .pure _

theorem removeEdge (dead : OrdSet NodeId) (edge : EdgeId) :
    Work.Keeps I (Reclaim.removeEdge dead edge) := by
  refine .bind (h.browses.loadEdge edge) fun found => ?_
  cases found with
  | none => exact .pure _
  | some e =>
    exact .bind (h.release edge dead _) fun _ => .bind (h.release edge dead _) fun _ =>
      .bind (h.edge _) fun _ => .pure _

theorem removeNode (dead : OrdSet NodeId) {node : NodeId} (hnode : expendable node) :
    Work.Keeps I (Reclaim.removeNode dead node) := by
  refine .bind (h.browses.loadNode node) fun found => ?_
  cases found with
  | none => exact .pure _
  | some n =>
    refine .bind (fun d hd => ?_) fun _ => .bind (h.node node hnode) fun _ => .pure _
    exact Work.Ends.filterM (J := fun _ => I) hd fun e _ d' hd' => h.removeEdge dead e d' hd'

omit h in
/-- Examining nodes finds no others to be dead. -/
theorem examine (hb : Browses I) (nodes : List NodeId) (survey : Reclaim.Survey) {d : Desk σ}
    (hd : I d) :
    Work.Ends (Reclaim.examine nodes survey) d (fun found d' => I d' ∧
      found.2.candidates = survey.candidates ∧
      ∀ m, found.2.dead.contains m = true → survey.dead.contains m = true ∨ m ∈ nodes)
      fun _ => I := by
  induction nodes generalizing survey d with
  | nil => exact .pure ⟨hd, rfl, fun _ hm => .inl hm⟩
  | cons node rest ih =>
    have hlater : ∀ {P : Prop} {m : NodeId}, P ∨ m ∈ rest → P ∨ m ∈ node :: rest :=
      fun hm => hm.imp_right (List.mem_cons_of_mem _)
    unfold Reclaim.examine
    split
    · exact (ih survey hd).imp fun _ _ ⟨h₁, hcand, hdead⟩ =>
        ⟨h₁, hcand, fun m hm => hlater (hdead m hm)⟩
    · refine (hb.anchored node _ _ d hd).andThen ?_
      rintro ⟨kept, reach⟩ d₁ h₁
      simp only
      split
      · exact (ih _ h₁).imp fun _ _ ⟨h₂, hcand, hdead⟩ =>
          ⟨h₂, hcand, fun m hm => hlater (hdead m hm)⟩
      · refine (ih _ h₁).andThen ?_
        rintro ⟨more, found⟩ d₂ ⟨h₂, hcand, hdead⟩
        refine .pure ⟨h₂, hcand, fun m hm => ?_⟩
        rcases hdead m hm with hold | hin
        · rcases (OrdSet.contains_add ..).1 hold with rfl | hold
          · exact .inr (List.mem_cons_self ..)
          · exact .inl hold
        · exact hlater (.inr hin)

theorem nominate (root : RootId) {candidates : OrdSet NodeId} (child : NodeId) {d : Desk σ}
    (hd : I d) (hcand : ∀ m, candidates.contains m = true → expendable m) :
    Work.Ends (Reclaim.nominate root candidates child) d (fun candidates' d' => I d' ∧
      ∀ m, candidates'.contains m = true → expendable m) fun _ => I := by
  refine (h.browses.load hd _).andThen ?_
  rintro found d₁ ⟨h₁, hcopy⟩
  cases found with
  | none => exact .pure ⟨h₁, hcand⟩
  | some a =>
    refine .pure ⟨h₁, fun m hm => ?_⟩
    split at hm
    · rename_i hplain
      rcases (OrdSet.contains_add ..).1 hm with rfl | hm
      · exact h.seen h₁ (hcopy a rfl) hplain.2 (.inl rfl)
      · exact hcand m hm
    · exact hcand m hm

/-- As long as the candidates are expendable, nothing else is found dead. -/
theorem rounds (root : RootId) (fuel : Nat) (survey : Reclaim.Survey) {d : Desk σ} (hd : I d)
    (hcand : ∀ m, survey.candidates.contains m = true → expendable m)
    (hdead : ∀ m, survey.dead.contains m = true → expendable m) :
    Work.Ends (Reclaim.rounds root fuel survey) d (fun dead d' => I d' ∧
      ∀ m, dead.contains m = true → expendable m) fun _ => I := by
  induction fuel generalizing survey d with
  | zero => exact .throw hd
  | succ fuel ih =>
    unfold Reclaim.rounds
    refine (examine h.browses _ _ hd).andThen ?_
    rintro ⟨newly, found⟩ d₁ ⟨h₁, hsame, hfound⟩
    have hdead₁ : ∀ m, found.dead.contains m = true → expendable m := by
      intro m hm
      rcases hfound m hm with hold | hin
      · exact hdead m hold
      · exact hcand m (Table.mem_keys_iff_contains.1 hin)
    simp only
    split
    · exact .pure ⟨h₁, hdead₁⟩
    · have hstart : I d₁ ∧ ∀ m, found.candidates.contains m = true → expendable m :=
        ⟨h₁, fun m hm => hcand m (hsame ▸ hm)⟩
      refine (Work.Ends.foldlM (K := fun _ (candidates : OrdSet NodeId) d' => I d' ∧
        ∀ m, candidates.contains m = true → expendable m) hstart ?_).andThen ?_
      · rintro node _ candidates d₂ ⟨h₂, hcand₂⟩
        refine (h.browses.children node d₂ h₂).andThen fun children d₃ h₃ => ?_
        have hstart : I d₃ ∧ ∀ m, candidates.contains m = true → expendable m := ⟨h₃, hcand₂⟩
        exact Work.Ends.foldlM (K := fun _ (candidates : OrdSet NodeId) d' => I d' ∧
          ∀ m, candidates.contains m = true → expendable m) hstart
          fun child _ _ _ hk => h.nominate root child hk.1 hk.2
      · rintro candidates d₂ ⟨h₂, hcand₂⟩
        exact ih _ h₂ hcand₂ hdead₁

/-- The removal of what no root leads to. -/
theorem evictUnreachable (root : RootId) : Work.Keeps I (Desk.evictUnreachable root) := by
  intro d hd
  have hcand : ∀ m, (Reclaim.candidates d.draft root).contains m = true → expendable m := by
    intro m hm
    rw [Reclaim.candidates, OrdSet.contains_ofList, List.mem_filterMap] at hm
    obtain ⟨a, ha, hnode⟩ := hm
    obtain ⟨hvalue, htouched⟩ := List.mem_filter.1 ha
    obtain ⟨id, hid⟩ := Table.mem_values.1 hvalue
    refine h.seen hd hid (by simpa using (Bool.and_eq_true_iff.1 htouched).2) (.inr ?_)
    cases hkind : a.id <;> rw [hkind] at hnode <;> cases hnode
    rfl
  have hnone : ∀ m, (Table.empty : OrdSet NodeId).contains m = true → expendable m :=
    fun m hm => by cases hm
  refine .bind (.get ((h.rounds root _ _ hd hcand hnone).andThen ?_))
  rintro dead d₁ ⟨h₁, hdead⟩
  have hstart : I d₁ ∧ ∀ m ∈ dead.keys, expendable m :=
    ⟨h₁, fun m hm => hdead m (Table.mem_keys_iff_contains.1 hm)⟩
  refine (Work.Ends.mapM (J := fun rest d' => I d' ∧ ∀ m ∈ rest, expendable m) hstart
    ?_).andThen fun _ _ h₂ => .pure h₂.1
  rintro node rest d₂ ⟨h₂, hrest⟩
  rw [List.forall_mem_cons] at hrest
  exact (h.removeNode dead hrest.1 d₂ h₂).imp fun _ _ h₃ => ⟨h₃, hrest.2⟩

end Desk.Culls

/-! ## Anything may go -/

/-- Loading an object, taking an edge off a node and deleting an object keep a
condition. -/
structure Desk.Prunes (I : Desk σ → Prop) : Prop where
  browses : Desk.Browses I
  detach : ∀ (e : EdgeId) (m : NodeId), Work.Keeps I (Desk.update? m (·.mapNode (·.detach e)))
  delete : ∀ id, Work.Keeps I (Desk.delete id)

theorem Desk.Prunes.culls {I : Desk σ → Prop} (h : Desk.Prunes I) : Desk.Culls I fun _ => True :=
  ⟨h.browses, fun _ _ _ _ => trivial, h.detach, fun _ => h.delete _, fun _ _ => h.delete _⟩

end Wayfarer
