import Wayfarer.Proofs.Discretion
import Wayfarer.Realm

/-!
# Walks of a tenant who only reads

A walk whose abilities read the graph, but do not change it, goes the same way
at two desks that are indistinct to the tenant. It can be stopped from outside
by a watch, which sees where the walk is and which tokens are set.

* `Conduct.run_discreet` is about one conduct, `Walk.fire_discreet` about a
  series of firings.
* `Walk.advance_discreet` is the step: at the same outline, both walks take the
  same turn.
* `unreadable_objects_stay_hidden` puts reads and walks together.
-/

namespace Wayfarer

/-- A conduct that leaves the graph as it is. -/
def Conduct.OnlyReads {α : Type} : Conduct α → Prop
  | .done _ => True
  | .fail _ => True
  | .look next => ∀ stop fields, (next stop fields).OnlyReads
  | .recall next => ∀ notes, (next notes).OnlyReads
  | .act _ next => next.OnlyReads
  | .graph op next => op.isRead = true ∧ ∀ answer, (next answer).OnlyReads

theorem Conduct.OnlyReads.bind {α β : Type} {conduct : Conduct α} {f : α → Conduct β}
    (h : conduct.OnlyReads) (hf : ∀ a, (f a).OnlyReads) : (conduct >>= f).OnlyReads := by
  induction conduct with
  | done a => exact hf a
  | fail e => trivial
  | look next ih => exact fun stop fields => ih stop fields (h stop fields)
  | «recall» next ih => exact fun notes => ih notes (h notes)
  | act deed next ih => exact ih h
  | graph op next ih => exact ⟨h.1, fun answer => ih answer (h.2 answer)⟩

theorem Conduct.OnlyReads.perform {op : Op} (h : op.isRead = true) :
    (Conduct.perform op).OnlyReads := by
  refine ⟨h, fun answer => ?_⟩
  cases answer <;> trivial

/-- What a walk is about between two transitions, apart from the desk. -/
structure Outline where
  traveler : Traveler
  steps : Nat
  firings : Nat
  stack : List Frame
  pending : Option (ObjectId × Option ObjectId)

/-- The outline of a walk. -/
def WalkState.outline {σ : Type} (s : WalkState σ) : Outline :=
  ⟨s.traveler, s.steps, s.firings, s.stack, s.pending⟩

/-- Somebody who may stop a walk, going by its outline and by the tokens that
are set. -/
abbrev Watch := Outline → OrdSet Token → Option Halt

/-- The limits without a budget as a watch. -/
def Limits.watch (l : Limits) : Watch := fun _ cancelled =>
  if l.token.any cancelled.contains then some .cancelled else none

theorem Limits.gate_eq_watch {σ : Type} {l : Limits} (h : l.budget = none) (started : Instant) :
    l.gate started = fun s : WalkState σ => l.watch s.outline s.desk.shared.cancelled := by
  funext s
  simp [gate, watch, h]

/-- A walk on behalf of an actor: what its abilities do, who watches it, and how
many places it may enter. -/
def Walk.watched {σ : Type} [Durable σ] (actor : Actor) (conduct : Ability → Conduct Unit)
    (watch : Watch) (maxSteps : Option Nat) : Walk σ where
  actor := actor
  semantics ability stop := (conduct ability).run actor stop
  gate s := watch s.outline s.desk.shared.cancelled
  maxSteps := maxSteps

variable {σ τ : Type}

/-- The same visit at another desk. -/
def Visit.over (v : Visit σ) (d : Desk τ) : Visit τ :=
  ⟨d, v.fields, v.reports, v.queued, v.disengaged, v.skipped⟩

/-- The same firings at another desk. -/
def Walk.Firing.over (f : Walk.Firing σ) (d : Desk τ) : Walk.Firing τ :=
  ⟨d, f.traveler, f.queue, f.count⟩

/-- The same walk at another desk. -/
def WalkState.over (s : WalkState σ) (d : Desk τ) : WalkState τ :=
  ⟨d, s.traveler, s.steps, s.firings, s.stack, s.pending⟩

variable [Durable σ] [Durable τ] {t : Tier σ} {t' : Tier τ} {r : RootId}

/-! ## One conduct -/

theorem Desk.Over.later {d : Desk σ} (h : d.Over t) {now : Instant} (hle : d.shared.now ≤ now) :
    Desk.Over t { d with shared := { d.shared with now := now } } :=
  ⟨h.holds, h.coherent.later rfl hle⟩

/-- Time passes at both desks, and as it likes. -/
theorem Desk.Indistinct.later {d : Desk σ} {d' : Desk τ} (h : Indistinct r t t' d d')
    {now now' : Instant} (hle : d.shared.now ≤ now) (hle' : d'.shared.now ≤ now') :
    Indistinct r t t' { d with shared := { d.shared with now := now } }
      { d' with shared := { d'.shared with now := now' } } :=
  ⟨h.above.later hle, h.above'.later hle', h.alike, h.cancelled, h.notes⟩

/-- Deeds do not show in the graph. -/
theorem Desk.Indistinct.deed {v : Visit σ} {d' : Desk τ} (h : Indistinct r t t' v.desk d')
    (deed : Deed) : ∃ d₁', deed.apply (v.over d') = (deed.apply v).over d₁' ∧
      Indistinct r t t' (deed.apply v).desk d₁' := by
  cases deed with
  | pause millis =>
    exact ⟨{ d' with shared := d'.shared.sleep millis }, rfl,
      h.later (Nat.le_add_right v.desk.shared.now (millis * ticksPerMilli))
        (Nat.le_add_right d'.shared.now (millis * ticksPerMilli))⟩
  | cancel token =>
    exact ⟨_, rfl, ⟨h.above.holds, h.above.coherent.congr rfl rfl⟩,
      ⟨h.above'.holds, h.above'.coherent.congr rfl rfl⟩, h.alike,
      congrArg (OrdSet.add · token) h.cancelled, h.notes⟩
  | note name id =>
    exact ⟨_, rfl, ⟨h.above.holds, h.above.coherent.congr rfl rfl⟩,
      ⟨h.above'.holds, h.above'.coherent.congr rfl rfl⟩, h.alike, h.cancelled,
      congrArg (Table.insert · name id) h.notes⟩
  | _ => exact ⟨d', rfl, h⟩

/-- A conduct that only reads comes to the same at two indistinct desks, and so
does its visit. -/
theorem Conduct.run_discreet {α : Type} {actor : Actor} (conduct : Conduct α) (stop : Stop)
    (hreads : conduct.OnlyReads) {v : Visit σ} {d' : Desk τ}
    (h : Desk.Indistinct actor.requester t t' v.desk d') :
    (∃ a v₁ d₁', conduct.run actor stop v = .ok a v₁ ∧
        conduct.run actor stop (v.over d') = .ok a (v₁.over d₁') ∧
        Desk.Indistinct actor.requester t t' v₁.desk d₁') ∨
      ∃ e v₁ d₁', conduct.run actor stop v = .error e v₁ ∧
        conduct.run actor stop (v.over d') = .error e (v₁.over d₁') ∧
        Desk.Indistinct actor.requester t t' v₁.desk d₁' := by
  induction conduct generalizing v d' with
  | done a => exact .inl ⟨a, v, d', rfl, rfl, h⟩
  | fail e => exact .inr ⟨e, v, d', rfl, rfl, h⟩
  | look next ih => exact ih stop v.fields (hreads stop v.fields) h
  | «recall» next ih =>
    have hsame := ih v.desk.shared.notes (hreads _) h
    simp only [run]
    rw [show (v.over d').desk.shared.notes = v.desk.shared.notes from h.notes]
    exact hsame
  | act deed next ih =>
    obtain ⟨d₁', hdeed, h₁⟩ := h.deed deed
    simp only [run, hdeed]
    exact ih hreads h₁
  | graph op next ih =>
    have hop := actor.reads_discreet hreads.1 v.desk d' h
    unfold Work.Agree at hop
    simp only [run]
    cases hw : op.run actor v.desk <;> cases hw' : op.run actor (v.over d').desk <;>
      simp only [hw, show op.run actor d' = _ from hw'] at hop
    · obtain ⟨rfl, h₁⟩ := hop
      exact ih _ (hreads.2 _) (v := { v with desk := _ }) h₁
    · obtain ⟨rfl, h₁⟩ := hop
      exact ih _ (hreads.2 _) (v := { v with desk := _ }) h₁

/-! ## Firings -/

/-- Series of firings that differ in their desks alone, and those are
indistinct. -/
def Walk.Firing.Like (r : RootId) (t : Tier σ) (t' : Tier τ) (f : Walk.Firing σ)
    (f' : Walk.Firing τ) : Prop :=
  ∃ d', f' = f.over d' ∧ Desk.Indistinct r t t' f.desk d'

/-- Walks that differ in their desks alone, and those are indistinct. -/
def WalkState.Like (r : RootId) (t : Tier σ) (t' : Tier τ) (s : WalkState σ) (s' : WalkState τ) :
    Prop :=
  ∃ d', s' = s.over d' ∧ Desk.Indistinct r t t' s.desk d'

/-- The same turn of two walks. -/
inductive Turn.Like (r : RootId) (t : Tier σ) (t' : Tier τ) : Turn σ → Turn τ → Prop
  | goOn {s s'} (h : WalkState.Like r t t' s s') : Turn.Like r t t' (.goOn s) (.goOn s')
  | halt {s s'} (reason : Halt) (h : WalkState.Like r t t' s s') :
      Turn.Like r t t' (.halt reason s) (.halt reason s')
  | fail {s s'} (e : Error) (h : WalkState.Like r t t' s s') :
      Turn.Like r t t' (.fail e s) (.fail e s')

namespace Walk

variable {actor : Actor} {conduct : Ability → Conduct Unit} {watch : Watch} {maxSteps : Option Nat}

section

variable {ρ : Type} (w : Walk ρ) (place : ObjectId) (placeType : TypeId)
  {ability : Ability} (rest : List Ability) {f : Firing ρ} {v : Visit ρ}

/-- What an ability sees when its turn comes. -/
def stopOf (f : Firing ρ) : Stop :=
  ⟨w.actor.rulebook.types, f.traveler.type, place, placeType, f.traveler.path, f.count⟩

/-- The firings after one of them. -/
def onward (f : Firing ρ) (skipped : Bool) : Firing ρ :=
  if f.traveler.aborted || skipped then f else w.fire place placeType rest f

theorem fire_ok {answer : Unit} (h : w.semantics ability (w.stopOf place placeType f)
      (Visit.start f.desk f.traveler.fields) = .ok answer v) :
    w.fire place placeType (ability :: rest) f =
      w.onward place placeType rest (f.absorb v []) v.skipped := by
  unfold stopOf at h
  simp only [fire, h, onward]

theorem fire_error {e : Error} (h : w.semantics ability (w.stopOf place placeType f)
      (Visit.start f.desk f.traveler.fields) = .error e v) :
    w.fire place placeType (ability :: rest) f =
      w.onward place placeType rest (f.absorb v [⟨ability.name, place, e⟩]) v.skipped := by
  unfold stopOf at h
  simp only [fire, h, onward]

end

theorem fire_discreet (hreads : ∀ ability, (conduct ability).OnlyReads) (place : ObjectId)
    (placeType : TypeId) (abilities : List Ability) {f : Firing σ} {f' : Firing τ}
    (h : f.Like actor.requester t t' f') :
    ((watched actor conduct watch maxSteps).fire place placeType abilities f).Like actor.requester
      t t' ((watched actor conduct watch maxSteps).fire place placeType abilities f') := by
  induction abilities generalizing f f' with
  | nil => exact h
  | cons ability rest ih =>
    obtain ⟨d', rfl, h⟩ := h
    -- a firing that fails leaves as much behind as one that does not, and a fault
    have hnext : ∀ {v₁ : Visit σ} {d₁' : Desk τ} (faults : List Mishap),
        Desk.Indistinct actor.requester t t' v₁.desk d₁' → Firing.Like actor.requester t t'
          ((watched actor conduct watch maxSteps).onward place placeType rest (f.absorb v₁ faults)
            v₁.skipped)
          ((watched actor conduct watch maxSteps).onward place placeType rest
            ((f.over d').absorb (v₁.over d₁') faults) v₁.skipped) := by
      intro v₁ d₁' faults h₁
      have hlike : Firing.Like actor.requester t t' (f.absorb v₁ faults)
          ((f.over d').absorb (v₁.over d₁') faults) := ⟨d₁', rfl, h₁⟩
      unfold onward
      rw [show ((f.over d').absorb (v₁.over d₁') faults).traveler = (f.absorb v₁ faults).traveler
        from rfl]
      split
      · exact hlike
      · exact ih hlike
    have hrun := (conduct ability).run_discreet
      ((watched actor conduct watch maxSteps).stopOf place placeType f) (hreads ability)
      (v := Visit.start f.desk f.traveler.fields) h
    cases hrun with
    | inl hrun =>
      obtain ⟨answer, v₁, d₁', hrun, hrun', h₁⟩ := hrun
      rw [fire_ok _ _ _ _ hrun, fire_ok (f := f.over d') _ _ _ _ hrun']
      exact hnext [] h₁
    | inr hrun =>
      obtain ⟨e, v₁, d₁', hrun, hrun', h₁⟩ := hrun
      rw [fire_error _ _ _ _ hrun, fire_error (f := f.over d') _ _ _ _ hrun']
      exact hnext _ h₁

variable (watch maxSteps) in
theorem fireAll_discreet (hreads : ∀ ability, (conduct ability).OnlyReads) (event : Event)
    (place : ObjectId) (placeType : TypeId) {f : Firing σ} {f' : Firing τ}
    (h : f.Like actor.requester t t' f') :
    ((watched actor conduct watch maxSteps).fireAll event place placeType f).Like actor.requester
      t t' ((watched actor conduct watch maxSteps).fireAll event place placeType f') := by
  obtain ⟨d', rfl, h⟩ := h
  exact fire_discreet hreads place placeType _ ⟨d', rfl, h⟩

/-! ## Transitions -/

/-- Arriving at a place is a matter of reading. A place that may not be read is
passed over. -/
theorem arrive_discreet (actor : Actor) (place : ObjectId) (origin : Option ObjectId) :
    Work.Discreet actor.requester t t' (arrive actor place origin) (arrive actor place origin) := by
  refine .bind (actor.readableType_discreet place) fun found => ?_
  cases found with
  | none => exact .pure _
  | some type =>
    cases place with
    | node n => exact .pure _
    | edge e =>
      refine .tryCatch (.bind (actor.edge_discreet e) fun _ => .pure _) fun cause => ?_
      cases cause with
      | notFound | denied => exact .pure _
      | _ => exact .throw _

theorem settle_like {s : WalkState σ} {s' : WalkState τ}
    (h : s.Like r t t' s') : (settle s).Like r t t' (settle s') := by
  obtain ⟨d', rfl, hd⟩ := h
  unfold settle
  rw [show (s.over d').traveler = s.traveler from rfl]
  split
  · exact .halt .disengaged ⟨d', rfl, hd⟩
  · exact .goOn ⟨d', rfl, hd⟩

/-- A place is entered at both desks, or passed over at both. -/
theorem enter_discreet (hreads : ∀ ability, (conduct ability).OnlyReads) {s : WalkState σ}
    {s' : WalkState τ} (h : s.Like actor.requester t t' s') (place : ObjectId)
    (origin : Option ObjectId) :
    Turn.Like actor.requester t t' ((watched actor conduct watch maxSteps).enter s place origin)
      ((watched actor conduct watch maxSteps).enter s' place origin) := by
  obtain ⟨d', rfl, hd⟩ := h
  have harrive := arrive_discreet actor place origin s.desk d' hd
  unfold Work.Agree at harrive
  cases hw : arrive actor place origin s.desk <;> cases hw' : arrive actor place origin d' <;>
    simp only [hw, hw'] at harrive
  · rename_i found d₁ found' d₁'
    obtain ⟨rfl, h₁⟩ := harrive
    simp only [enter,
      show arrive (watched actor conduct watch maxSteps).actor _ _ s.desk = _ from hw,
      show arrive (watched actor conduct watch maxSteps).actor _ _ (s.over d').desk = _ from hw']
    cases found' with
    | none => exact settle_like ⟨d₁', rfl, h₁⟩
    | some arrival =>
      obtain ⟨type, seeds⟩ := arrival
      obtain ⟨d₂', hfire, h₂⟩ := fireAll_discreet watch maxSteps hreads
        .entry place type (f := ⟨d₁, { s.traveler with
          path := s.traveler.path ++ [place], trace := s.traveler.trace ++ [.entry place] },
          seeds, s.firings⟩) ⟨d₁', rfl, h₁⟩
      simp only [Firing.over] at hfire
      refine settle_like ⟨d₂', ?_, h₂⟩
      simp only [WalkState.over, hfire]
  · obtain ⟨rfl, h₁⟩ := harrive
    simp only [enter,
      show arrive (watched actor conduct watch maxSteps).actor _ _ s.desk = _ from hw,
      show arrive (watched actor conduct watch maxSteps).actor _ _ (s.over d').desk = _ from hw']
    exact .fail _ ⟨_, rfl, h₁⟩

theorem leave_discreet (hreads : ∀ ability, (conduct ability).OnlyReads) {s : WalkState σ}
    {s' : WalkState τ} (h : s.Like actor.requester t t' s') (top : Frame) (below : List Frame) :
    Turn.Like actor.requester t t' ((watched actor conduct watch maxSteps).leave s top below)
      ((watched actor conduct watch maxSteps).leave s' top below) := by
  obtain ⟨d', rfl, hd⟩ := h
  obtain ⟨d₁', hfire, h₁⟩ := fireAll_discreet watch maxSteps hreads
    .exit top.place top.placeType
    (f := ⟨s.desk, { s.traveler with trace := s.traveler.trace ++ [.exit top.place] }, [],
      s.firings⟩) ⟨d', rfl, hd⟩
  simp only [Firing.over] at hfire
  refine settle_like ⟨d₁', ?_, h₁⟩
  simp only [WalkState.over, hfire]

variable (watch maxSteps) in
/-- At the same outline two walks take the same turn. -/
theorem advance_discreet (hreads : ∀ ability, (conduct ability).OnlyReads) {s : WalkState σ}
    {s' : WalkState τ} (h : s.Like actor.requester t t' s') :
    Turn.Like actor.requester t t' ((watched actor conduct watch maxSteps).advance s)
      ((watched actor conduct watch maxSteps).advance s') := by
  obtain ⟨d', rfl, hd⟩ := h
  have hgate : (watched (σ := τ) actor conduct watch maxSteps).gate (s.over d') =
      (watched (σ := σ) actor conduct watch maxSteps).gate s :=
    congrArg (watch s.outline) hd.cancelled
  have hlike : s.Like actor.requester t t' (s.over d') := ⟨d', rfl, hd⟩
  simp only [advance, hgate]
  cases (watched actor conduct watch maxSteps).gate s with
  | some reason => exact .halt reason hlike
  | none =>
    simp only [show (s.over d').pending = s.pending from rfl,
      show (s.over d').stack = s.stack from rfl, show (s.over d').steps = s.steps from rfl]
    cases s.pending with
    | some next =>
      obtain ⟨place, origin⟩ := next
      simp only [show (watched (σ := τ) actor conduct watch maxSteps).exhausted s.steps =
        (watched (σ := σ) actor conduct watch maxSteps).exhausted s.steps from rfl]
      by_cases hfull : (watched (σ := σ) actor conduct watch maxSteps).exhausted s.steps = true
      · rw [if_pos hfull, if_pos hfull]
        exact .halt .stepLimit hlike
      · rw [if_neg hfull, if_neg hfull]
        exact enter_discreet hreads (s := { s with pending := none }) ⟨d', rfl, hd⟩ place origin
    | none =>
      cases takeNext s.stack with
      | some next => exact .goOn ⟨d', rfl, hd⟩
      | none =>
        cases s.stack with
        | nil => exact .halt .completed hlike
        | cons top below =>
          simp only
          split
          · exact .goOn ⟨d', rfl, hd⟩
          · exact leave_discreet hreads ⟨d', rfl, hd⟩ top below

variable (watch maxSteps) in
/-- As long as the fuel lasts, two walks go the same way. -/
theorem loop_discreet (hreads : ∀ ability, (conduct ability).OnlyReads) (fuel : Nat)
    {s : WalkState σ} {s' : WalkState τ} (h : s.Like actor.requester t t' s') :
    (∃ journey d₁ d₁', (watched actor conduct watch maxSteps).loop fuel s = .ok journey d₁ ∧
        (watched actor conduct watch maxSteps).loop fuel s' = .ok journey d₁') ∨
      ∃ e d₁ d₁', (watched actor conduct watch maxSteps).loop fuel s = .error e d₁ ∧
        (watched actor conduct watch maxSteps).loop fuel s' = .error e d₁' := by
  induction fuel generalizing s s' with
  | zero => exact .inr ⟨_, _, _, rfl, rfl⟩
  | succ fuel ih =>
    have hturn := advance_discreet watch maxSteps hreads h
    simp only [loop]
    generalize (watched actor conduct watch maxSteps).advance s = turn at hturn ⊢
    generalize (watched actor conduct watch maxSteps).advance s' = turn' at hturn ⊢
    cases hturn with
    | goOn h₁ => exact ih h₁
    | halt reason h₁ =>
      obtain ⟨d₁', rfl, _⟩ := h₁
      exact .inl ⟨_, _, _, rfl, rfl⟩
    | fail e h₁ => exact .inr ⟨e, _, _, rfl, rfl⟩

end Walk

/-- Two desks at which a tenant sees the same objects, and each of them is the
same at both or may be read at neither: whatever the tenant reads comes to the
same answer or the same failure, and so does every walk on its behalf whose
abilities only read, wherever it begins. The journey has the traveler with its
path, trace, reports, faults and fields, and the way it stopped. The last part
is about limits as a request states them; a budget is up when the clock says so,
and whoever looks at the clock for a walk is one of those who may watch it. -/
theorem unreadable_objects_stay_hidden (actor : Actor) {d : Desk σ} {d' : Desk τ}
    (h : Desk.Indistinct actor.requester t t' d d') :
    (∀ op : Op, op.isRead = true →
        (op.run actor).outcome d' = (op.run actor).outcome d) ∧
      (∀ (conduct : Ability → Conduct Unit), (∀ ability, (conduct ability).OnlyReads) →
        ∀ (watch : Watch) (maxSteps : Option Nat) (fuel : Nat) (traveler : Traveler)
          (start : ObjectId),
          ((Walk.watched actor conduct watch maxSteps).run fuel traveler start).outcome d' =
            ((Walk.watched actor conduct watch maxSteps).run fuel traveler start).outcome d) ∧
      ∀ (conduct : Ability → Conduct Unit), (∀ ability, (conduct ability).OnlyReads) →
        ∀ (limits : Limits), limits.budget = none →
        ∀ (started started' : Instant) (fuel : Nat) (traveler : Traveler) (start : ObjectId),
          (Walk.run ⟨actor, fun ability stop => (conduct ability).run actor stop,
              limits.gate started', limits.maxSteps⟩ fuel traveler start).outcome d' =
            (Walk.run ⟨actor, fun ability stop => (conduct ability).run actor stop,
              limits.gate started, limits.maxSteps⟩ fuel traveler start).outcome d := by
  have hwalks : ∀ (conduct : Ability → Conduct Unit), (∀ ability, (conduct ability).OnlyReads) →
      ∀ (watch : Watch) (maxSteps : Option Nat) (fuel : Nat) (traveler : Traveler)
        (start : ObjectId),
        ((Walk.watched actor conduct watch maxSteps).run fuel traveler start).outcome d' =
          ((Walk.watched actor conduct watch maxSteps).run fuel traveler start).outcome d := by
    intro conduct hreads watch maxSteps fuel traveler start
    have hlike : (Walk.initial d traveler start).Like actor.requester t t'
        (Walk.initial d' traveler start) := ⟨d', rfl, h⟩
    unfold Work.outcome Walk.run
    cases Walk.loop_discreet watch maxSteps hreads fuel hlike with
    | inl hok =>
      obtain ⟨journey, d₁, d₁', hw, hw'⟩ := hok
      rw [hw, hw']
    | inr herr =>
      obtain ⟨e, d₁, d₁', hw, hw'⟩ := herr
      rw [hw, hw']
  refine ⟨fun op hop => (actor.reads_discreet hop d d' h).outcome_eq, hwalks, ?_⟩
  intro conduct hreads limits hbudget started started' fuel traveler start
  rw [Limits.gate_eq_watch hbudget, Limits.gate_eq_watch hbudget]
  exact hwalks conduct hreads limits.watch limits.maxSteps fuel traveler start

namespace Enclosure

/-- Somebody who looks around where others have objects of their own. -/
def visitor : RootId := ⟨⟨⟨0⟩⟩⟩

/-- The others. -/
def owner : RootId := ⟨⟨⟨9⟩⟩⟩

/-- Where the visitor stands. -/
def gate : NodeId := ⟨⟨1⟩⟩

/-- What everybody may read. -/
def hall : NodeId := ⟨⟨2⟩⟩

/-- What nobody but its owner may read. -/
def chamber : NodeId := ⟨⟨3⟩⟩

/-- A gate with ways to a hall, which everybody may read, and to a chamber. -/
def grounds : Table ObjectId Anchor :=
  let way (n : BitVec 256) (target : NodeId) :=
    Anchor.ofEdge ⟨⟨n⟩⟩ visitor ⟨⟨⟨5⟩⟩, Fields.empty, gate, target, true, none⟩
  let room := Anchor.ofNode hall owner ⟨⟨⟨4⟩⟩, Fields.empty, [], [⟨⟨6⟩⟩]⟩
  let anchors := [Anchor.ofNode gate visitor ⟨⟨⟨4⟩⟩, Fields.empty, [⟨⟨6⟩⟩, ⟨⟨7⟩⟩], []⟩,
    { room with access := Access.ownerOnly.grant .read }, way 6 hall, way 7 chamber]
  anchors.foldl (fun t a => t.insert a.id { a with version := 1, dirty := false }) Table.empty

/-- The chamber with some content, which only its owner may read. -/
def closed (content : NodeRecord) : Anchor :=
  { Anchor.ofNode chamber owner content with version := 1, dirty := false }

/-- The grounds with the chamber on them. -/
def vault (content : NodeRecord) : Vault := ⟨grounds.insert (.node chamber) (closed content), 1⟩

theorem get?_vault (content : NodeRecord) (id : ObjectId) : (vault content).anchors.get? id =
    if id = .node chamber then some (closed content) else grounds.get? id := Table.get?_insert ..

/-- What is on the grounds can be read. -/
def tier (content : NodeRecord) : Tier Vault := .ofVault (vault content) fun {id a} h => by
  have hgrounds : ∀ e ∈ grounds.toList, e.2.id = e.1 ∧ e.2.dirty = false := by decide
  rw [get?_vault] at h
  split at h
  · cases h
    exact ⟨(‹id = _› : id = .node chamber).symm, rfl⟩
  · exact hgrounds (id, a) (Table.mem_toList.2 h)

/-- A desk at which nothing was loaded yet. -/
def desk (content : NodeRecord) : Desk Vault :=
  ⟨Draft.empty, ⟨vault content, Cache.new 0 0, ⟨⟨0⟩, 0⟩, 0, Table.empty, Table.empty⟩⟩

/-- Whatever the chamber holds, the visitor cannot tell. -/
theorem desk_indistinct (content content' : NodeRecord) :
    Desk.Indistinct visitor (tier content) (tier content') (desk content) (desk content') := by
  refine ⟨⟨rfl, .of_empty rfl⟩, ⟨rfl, .of_empty rfl⟩, fun id => ?_, rfl, rfl⟩
  show Anchor.Alike visitor ((vault content).anchors.get? id) ((vault content').anchors.get? id)
  rw [get?_vault, get?_vault]
  split
  · exact .hidden rfl rfl
  · exact .same _

/-- An actor whose travelers go to all neighbors. -/
def actor : Actor :=
  let wander : Ability := ⟨"fan_out", ⟨⟨8⟩⟩, .traveler, .entry, .any, 0⟩
  ⟨⟨default, [wander], Table.empty.insert ⟨⟨8⟩⟩ ⟨[wander], []⟩⟩, visitor⟩

def conduct (_ : Ability) : Conduct Unit := do
  Conduct.visit (← Conduct.neighbors .outgoing)

theorem conduct_onlyReads (ability : Ability) : (conduct ability).OnlyReads := by
  refine .bind (.bind (fun _ _ => trivial) fun stop => ?_) fun places => trivial
  cases stop.here with
  | node n => exact .bind (.perform rfl) fun _ => trivial
  | edge e => trivial

/-- The walk of the visitor from the gate, without limits. -/
def walk : Work Vault Journey :=
  Walk.run ⟨actor, fun ability stop => (conduct ability).run actor stop,
    Limits.gate ⟨none, none, none⟩ 0, none⟩ 12 (Traveler.new ⟨⟨8⟩⟩ Fields.empty) (.node gate)

end Enclosure

/-- An empty chamber. -/
def Enclosure.empty : NodeRecord := .isolated ⟨⟨4⟩⟩ Fields.empty

/-- A chamber of another type, with gold and with a way out. -/
def Enclosure.full : NodeRecord := ⟨⟨⟨5⟩⟩, ⟨[("gold", .int 7)]⟩, [⟨⟨7⟩⟩], []⟩

/-- The hall is listed next to the gate and a walk gets there, whatever is in
the chamber. -/
theorem unreadable_chamber_is_passed_over :
    (Op.run Enclosure.actor (.neighbors Enclosure.gate .outgoing)).outcome
        (Enclosure.desk Enclosure.full) = .ok [Enclosure.hall] ∧
      (Enclosure.walk.outcome (Enclosure.desk Enclosure.full)).map (·.traveler.path) =
        .ok [.node Enclosure.gate, .node Enclosure.hall] := by
  obtain ⟨hreads, _, hwalks⟩ := unreadable_objects_stay_hidden Enclosure.actor
    (Enclosure.desk_indistinct Enclosure.empty Enclosure.full)
  have hneighbors : (Op.run Enclosure.actor (.neighbors Enclosure.gate .outgoing)).outcome
      (Enclosure.desk Enclosure.empty) = .ok [Enclosure.hall] := rfl
  have hpath : (Enclosure.walk.outcome (Enclosure.desk Enclosure.empty)).map (·.traveler.path) =
      .ok [.node Enclosure.gate, .node Enclosure.hall] := by decide +kernel
  have hwalk := hwalks Enclosure.conduct Enclosure.conduct_onlyReads ⟨none, none, none⟩ rfl 0 0 12
    (Traveler.new ⟨⟨8⟩⟩ Fields.empty) (.node Enclosure.gate)
  exact ⟨(hreads _ rfl).trans hneighbors, (congrArg _ hwalk).trans hpath⟩

end Wayfarer
