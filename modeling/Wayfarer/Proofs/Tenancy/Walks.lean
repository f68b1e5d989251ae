import Mathlib.Algebra.GroupWithZero.Nat
import Wayfarer.Proofs.Reading
import Wayfarer.Proofs.Tenancy.Journal
import Wayfarer.Proofs.Tenancy.Storing

/-!
# What a walk keeps

Conducts reach the tiers through graph operations, and so does everything that a
walk does between its firings, apart from arriving at places. `Walk.Affords`
says that arriving keeps a condition on desks, and firings too if their
operations are permitted and the mint has identities enough; then the whole walk
keeps it (`Walk.Affords.run`). `Walk.Carries` is the case of a condition that
does not care for the mint, and `Walk.Minds` of one that reading keeps. The
firings of a tenant's abilities keep a request of the tenant in order
(`Desk.Attends.minds`).
-/

namespace Wayfarer

theorem Work.Ends.endOf {σ α : Type} {w : Work σ α} {d : Desk σ} {I : Desk σ → Prop}
    (h : Work.Ends w d (fun _ => I) fun _ => I) : I (endOf w d) := by
  unfold Wayfarer.endOf
  unfold Work.Ends at h
  split <;> rename_i hw <;> rw [hw] at h <;> exact h

/-- How many identities some operations may mint at most. -/
def Op.totalMints {σ : Type} (ops : List (Desk σ × Op)) : Nat := (ops.map fun x => x.2.mints).sum

theorem Op.totalMints_append {σ : Type} (n : Nat) (before after : List (Desk σ × Op)) :
    n + Op.totalMints (before ++ after) = n + Op.totalMints after + Op.totalMints before := by
  simp only [Op.totalMints, List.map_append, List.sum_append]
  omega

/-- The desk at which a transition leaves a walk. -/
def Turn.desk {σ : Type} : Turn σ → Desk σ
  | .goOn s | .halt _ s | .fail _ s => s.desk

namespace Walk

variable {σ : Type} [Durable σ] {w : Walk σ} {done : Ability → Stop → Visit σ → List (Desk σ × Op)}
  {I : Desk σ → Prop} {P V : Desk σ × Op → Prop}

omit [Durable σ] in
@[simp] theorem settle_desk (s : WalkState σ) : (settle s).desk = s.desk := by
  unfold settle
  split <;> rfl

/-- A condition on desks that depends on how many identities may still be
minted. Arriving at places keeps it, and firings too if their operations are
permitted and there are as many identities as they may mint; then something can
be said of each of these operations. -/
structure Affords (w : Walk σ) (done : Ability → Stop → Visit σ → List (Desk σ × Op))
    (I : Nat → Desk σ → Prop) (P V : Desk σ × Op → Prop) : Prop where
  arrives : ∀ n place origin, Work.Keeps (I n) (arrive w.actor place origin)
  fires : ∀ {n ability stop v}, I (n + Op.totalMints (done ability stop v)) v.desk →
    (∀ x ∈ done ability stop v, P x) →
      I n (endOf (w.semantics ability stop) v).desk ∧ ∀ x ∈ done ability stop v, V x

/-- Arriving at a place does nothing but read. -/
theorem arrive_keeps (h : Desk.Browses I) (actor : Actor) (place : ObjectId)
    (origin : Option ObjectId) : Work.Keeps I (arrive actor place origin) := by
  refine .bind (h.readableType actor place) fun found => ?_
  cases found with
  | none => exact .pure _
  | some type =>
    cases place with
    | node n => exact .pure _
    | edge e =>
      refine .tryCatch (.bind (.bind (h.check actor _ _) fun _ => Desk.Browses.part _ _)
        fun _ => .pure _) fun cause => ?_
      cases cause <;> first | exact .pure _ | exact .throw _

namespace Affords

variable {I : Nat → Desk σ → Prop} {n : Nat}

theorem fire (h : w.Affords done I P V) {place : ObjectId} {placeType : TypeId}
    {abilities : List Ability} {f : Firing σ}
    (hI : I (n + Op.totalMints (w.fireOps done place placeType abilities f)) f.desk)
    (hP : ∀ x ∈ w.fireOps done place placeType abilities f, P x) :
    I n (w.fire place placeType abilities f).desk ∧
      ∀ x ∈ w.fireOps done place placeType abilities f, V x := by
  induction abilities generalizing f with
  | nil => exact ⟨hI, fun _ hx => by cases hx⟩
  | cons ability rest ih =>
    simp only [fireOps, List.forall_mem_append, Op.totalMints_append] at hI hP ⊢
    obtain ⟨hfirst, hrest⟩ := hP
    obtain ⟨hv, hdone⟩ := h.fires (v := Visit.start f.desk f.traveler.fields) hI hfirst
    unfold endOf at hv
    simp only [Walk.fire]
    split at hv <;> rename_i hsem <;> simp only [hsem] at hv hrest ⊢
    all_goals
      split at hrest
      · rename_i hstop
        simp only [if_pos hstop] at hv ⊢
        exact ⟨hv, hdone, fun _ hx => by cases hx⟩
      · rename_i hstop
        simp only [if_neg hstop] at hv ⊢
        obtain ⟨hend, hothers⟩ := ih hv hrest
        exact ⟨hend, hdone, hothers⟩

theorem enter (h : w.Affords done I P V) {s : WalkState σ} {place : ObjectId}
    {origin : Option ObjectId}
    (hI : I (n + Op.totalMints (w.enterOps done s place origin)) s.desk)
    (hP : ∀ x ∈ w.enterOps done s place origin, P x) :
    I n (w.enter s place origin).desk ∧ ∀ x ∈ w.enterOps done s place origin, V x := by
  have ha := h.arrives (n + Op.totalMints (w.enterOps done s place origin)) place origin s.desk hI
  unfold enterOps at hP ha ⊢
  unfold Walk.enter
  cases hw : arrive w.actor place origin s.desk with
  | error e d =>
    simp only [hw] at ha ⊢
    exact ⟨ha.error hw, fun _ hx => by cases hx⟩
  | ok found d =>
    simp only [hw] at ha hP ⊢
    cases found with
    | none =>
      rw [settle_desk]
      exact ⟨ha.ok hw, fun _ hx => by cases hx⟩
    | some arrival =>
      simp only [settle_desk]
      exact h.fire (ha.ok hw) hP

theorem leave (h : w.Affords done I P V) {s : WalkState σ} {top : Frame} {below : List Frame}
    (hI : I (n + Op.totalMints (w.leaveOps done s top)) s.desk)
    (hP : ∀ x ∈ w.leaveOps done s top, P x) :
    I n (w.leave s top below).desk ∧ ∀ x ∈ w.leaveOps done s top, V x := by
  unfold Walk.leave
  simp only [settle_desk]
  exact h.fire hI hP

/-- One transition keeps the condition. -/
theorem advance (h : w.Affords done I P V) {s : WalkState σ}
    (hI : I (n + Op.totalMints (w.advanceOps done s)) s.desk)
    (hP : ∀ x ∈ w.advanceOps done s, P x) :
    I n (w.advance s).desk ∧ ∀ x ∈ w.advanceOps done s, V x := by
  -- in most cases a transition carries out no operation
  have hidle : ∀ {ops : List (Desk σ × Op)} {d : Desk σ}, ops = [] →
      I (n + Op.totalMints ops) d → I n d ∧ ∀ x ∈ ops, V x := by
    rintro _ d rfl hd
    exact ⟨hd, fun _ hx => by cases hx⟩
  cases hgate : w.gate s with
  | some halt =>
    simp only [Walk.advance, advanceOps, hgate] at hI ⊢
    exact hidle rfl hI
  | none =>
  cases hpending : s.pending with
  | some next =>
    simp only [Walk.advance, advanceOps, hgate, hpending] at hI hP ⊢
    split
    · rename_i hfull
      simp only [if_pos hfull] at hI ⊢
      exact hidle rfl hI
    · rename_i hmore
      simp only [if_neg hmore] at hI hP ⊢
      exact h.enter hI hP
  | none =>
  cases hnext : takeNext s.stack with
  | some next =>
    simp only [Walk.advance, advanceOps, hgate, hpending, hnext] at hI ⊢
    exact hidle rfl hI
  | none =>
  cases hstack : s.stack with
  | nil =>
    rw [hstack] at hnext
    simp only [Walk.advance, advanceOps, hgate, hpending, hstack, hnext] at hI ⊢
    exact hidle rfl hI
  | cons top below =>
    rw [hstack] at hnext
    simp only [Walk.advance, advanceOps, hgate, hpending, hstack, hnext] at hI hP ⊢
    split
    · rename_i hexit
      simp only [if_pos hexit] at hI ⊢
      exact hidle rfl hI
    · rename_i hexit
      simp only [if_neg hexit] at hI hP ⊢
      exact h.leave hI hP

/-- So does the whole walk. -/
theorem run (h : w.Affords done I P V) {fuel : Nat} {traveler : Traveler} {start : ObjectId}
    {d : Desk σ} (hI : I (n + Op.totalMints (w.ops done fuel (initial d traveler start))) d)
    (hP : ∀ x ∈ w.ops done fuel (initial d traveler start), P x) :
    Work.Ends (w.run fuel traveler start) d (fun _ => I n) (fun _ => I n) ∧
      ∀ x ∈ w.ops done fuel (initial d traveler start), V x := by
  have hloop : ∀ s : WalkState σ, I (n + Op.totalMints (w.ops done fuel s)) s.desk →
      (∀ x ∈ w.ops done fuel s, P x) →
      Work.Ends (fun _ => w.loop fuel s) d (fun _ => I n) (fun _ => I n) ∧
        ∀ x ∈ w.ops done fuel s, V x := by
    clear hI hP
    induction fuel with
    | zero => exact fun s hs _ => ⟨hs, fun _ hx => by cases hx⟩
    | succ fuel ih =>
      intro s hs hP
      simp only [ops, List.forall_mem_append, Op.totalMints_append] at hs hP ⊢
      obtain ⟨hnext, hfirst⟩ := h.advance hs hP.1
      unfold Work.Ends loop
      cases hturn : w.advance s with
      | goOn s' =>
        rw [hturn] at hP hnext
        obtain ⟨hend, hrest⟩ := ih s' hnext hP.2
        exact ⟨hend, hfirst, hrest⟩
      | halt why s' =>
        rw [hturn] at hnext
        exact ⟨hnext, hfirst, fun _ hx => by cases hx⟩
      | fail e s' =>
        rw [hturn] at hnext
        exact ⟨hnext, hfirst, fun _ hx => by cases hx⟩
  exact hloop _ hI hP

end Affords

/-- A condition on desks that arriving at places keeps, and firings too if their
operations are permitted. -/
structure Carries (w : Walk σ) (done : Ability → Stop → Visit σ → List (Desk σ × Op))
    (I : Desk σ → Prop) (P : Desk σ × Op → Prop) : Prop where
  arrives : ∀ place origin, Work.Keeps I (arrive w.actor place origin)
  fires : ∀ {ability stop v}, I v.desk → (∀ x ∈ done ability stop v, P x) →
    I (endOf (w.semantics ability stop) v).desk

namespace Carries

theorem affords (h : w.Carries done I P) : w.Affords done (fun _ => I) P fun _ => True :=
  ⟨fun _ => h.arrives, fun hI hP => ⟨h.fires hI hP, fun _ _ => trivial⟩⟩

/-- The whole walk keeps the condition. -/
theorem run (h : w.Carries done I P) {fuel : Nat} {traveler : Traveler} {start : ObjectId}
    {d : Desk σ} (hI : I d) (hP : ∀ x ∈ w.ops done fuel (initial d traveler start), P x) :
    Work.Ends (w.run fuel traveler start) d (fun _ => I) fun _ => I :=
  (h.affords.run (n := 0) hI hP).1

end Carries

/-- A condition on desks that reading keeps, and firings too if their operations
are permitted. -/
structure Minds (w : Walk σ) (done : Ability → Stop → Visit σ → List (Desk σ × Op))
    (I : Desk σ → Prop) (P : Desk σ × Op → Prop) : Prop where
  reads : ∀ {α : Type} {work : Work σ α}, Desk.Reads work → work.Keeps I
  fires : ∀ {ability stop v}, I v.desk → (∀ x ∈ done ability stop v, P x) →
    I (endOf (w.semantics ability stop) v).desk

theorem Minds.carries (h : w.Minds done I P) : w.Carries done I P :=
  ⟨fun place origin => arrive_keeps (fun id => h.reads (.load id)) w.actor place origin, h.fires⟩

end Walk

/-! ## Walks of the tenant -/

namespace Desk.Attends

variable {σ : Type} [Durable σ] {store : Store σ} {s : σ} {hs : store.holds s} {root : RootId}
  {d : Desk σ} {actor : Actor}

/-- An operation that is admitted keeps a request of the tenant in order. -/
theorem admitted {op : Op} (h : d.Attends (store.tier hs) root) (ha : actor.requester = root)
    (hop : store.Admits d op) : Work.Ends (op.run actor) d
      (fun _ d' => d'.Attends (store.tier hs) root)
      fun _ d' => d'.Attends (store.tier hs) root := by
  have hsupply := hop.supply
  unfold Store.stored at hsupply
  rw [h.sane.above.holds.2] at hsupply
  exact h.perform ha hsupply hop.plain

/-- Time may pass. -/
theorem later {t : Tier σ} (h : d.Attends t root) {now : Instant} (hle : d.shared.now ≤ now) :
    ({ d with shared := { d.shared with now := now } } : Desk σ).Attends t root :=
  h.share rfl ⟨h.sane.above.holds, h.sane.above.coherent.later rfl hle⟩

theorem sleep {t : Tier σ} (h : d.Attends t root) (millis : Nat) :
    ({ d with shared := d.shared.sleep millis } : Desk σ).Attends t root :=
  h.later (Nat.le_add_right d.shared.now (millis * ticksPerMilli))

theorem deed {v : Visit σ} {t : Tier σ} (h : v.desk.Attends t root) (deed : Deed) :
    (deed.apply v).desk.Attends t root := by
  have hover : ∀ cancelled notes, ({ v.desk with shared := { v.desk.shared with
      cancelled := cancelled, notes := notes } } : Desk σ).Over t := fun _ _ =>
    ⟨h.sane.above.holds, h.sane.above.coherent.congr rfl rfl⟩
  cases deed with
  | visit | report | setField | disengage | skip => exact h
  | pause millis => exact h.sleep millis
  | cancel token => exact h.share rfl (hover _ _)
  | note name id => exact h.share rfl (hover _ _)

/-- What an ability does keeps a request of the tenant in order. -/
theorem conduct {α : Type} (c : Conduct α) (ha : actor.requester = root) (stop : Stop)
    {v : Visit σ} (h : v.desk.Attends (store.tier hs) root)
    (hops : ∀ x ∈ c.ops actor stop v, store.Admits x.1 x.2) :
    (endOf (c.run actor stop) v).desk.Attends (store.tier hs) root := by
  -- `endOf` is opened once: every request but an operation hands the visit on
  induction c generalizing v with
  | done a => exact h
  | fail e => exact h
  | look next ih => exact ih _ _ h hops
  | «recall» next ih => exact ih _ h hops
  | act deed next ih => exact ih (h.deed deed) hops
  | graph op next ih =>
    rw [Conduct.ops, List.forall_mem_cons] at hops
    have hop := h.admitted ha hops.1
    unfold endOf Conduct.run
    cases hrun : op.run actor v.desk with
    | ok a d =>
      simp only [hrun] at hops ⊢
      exact ih (.ok a) (v := { v with desk := d }) (hop.ok hrun) hops.2
    | error e d =>
      simp only [hrun] at hops ⊢
      exact ih (.error e) (v := { v with desk := d }) (hop.error hrun) hops.2

theorem minds {w : Walk σ} {conduct : Ability → Conduct Unit} (actor : Actor)
    (ha : actor.requester = root)
    (hw : w.semantics = fun ability stop => (conduct ability).run actor stop) :
    w.Minds (fun ability stop => (conduct ability).ops actor stop)
      (fun d => d.Attends (store.tier hs) root) fun x => store.Admits x.1 x.2 := by
  refine ⟨fun hr => Desk.Attends.reads hr, fun {ability stop v} h hops => ?_⟩
  rw [hw]
  exact .conduct _ ha stop h hops

end Desk.Attends

end Wayfarer
