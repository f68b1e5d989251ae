import Wayfarer.Proofs.Tenancy.Journal
import Wayfarer.Proofs.Walking.Limits

/-!
# The allowance of places

What becomes of a walk that may enter so many places only, when without limits
it enters no more than that. A destination uses up nothing unless it is entered,
but it is taken for a further place before anybody looks whether it can be
entered. So the walk is cut short if it has entered as many places as it may and
some destination is left that it would pass over.

* `Walk.loop_atMost`: the walk is the same, or it is cut short like this.
* `walk_fits_allowance`: which of the two it is.
* `Realm.journey_atMost`: a request whose walk has a place to spare does what it
  does without the limit.
-/

namespace Wayfarer

/-- So many places and no other limit. -/
def Limits.atMost (most : Nat) : Limits := ⟨none, some most, none⟩

namespace Walk

variable {σ : Type} {w : Walk σ} {s t : WalkState σ} {n fuel most : Nat} {journey : Journey}
  {desk : Desk σ}

/-! ## Places entered -/

theorem Moves.steps_le (h : w.Moves s t) : s.steps ≤ t.steps := by
  cases h with
  | stay => exact Nat.le_refl _
  | pass => exact Nat.le_refl _
  | enter => exact Nat.le_succ _
  | take => exact Nat.le_refl _
  | pop => exact Nat.le_refl _
  | leave => exact Nat.le_refl _

variable [Durable σ]

/-- A walk that comes to an end has entered at least as many places by then. -/
theorem steps_le_of_loop (h : w.loop fuel s = .ok journey desk) : s.steps ≤ journey.steps := by
  induction fuel generalizing s with
  | zero => cases h
  | succ fuel ih =>
    have hnext := (advance_moves w s).steps_le
    simp only [loop] at h
    cases ha : w.advance s with
    | goOn t =>
      simp only [ha] at h hnext
      exact Nat.le_trans hnext (ih h)
    | halt why t =>
      simp only [ha] at h hnext
      cases h
      exact hnext
    | fail e t =>
      simp only [ha] at h
      cases h

/-- A transition of a walk that comes to an end. -/
theorem advance_of_loop (h : w.loop (fuel + 1) s = .ok journey desk) :
    (w.advance s).state.steps ≤ journey.steps ∧ ∀ e t, w.advance s ≠ .fail e t := by
  simp only [loop] at h
  cases ha : w.advance s with
  | goOn t =>
    simp only [ha] at h
    exact ⟨steps_le_of_loop h, by simp⟩
  | halt why t =>
    simp only [ha] at h
    cases h
    exact ⟨Nat.le_refl _, by simp⟩
  | fail e t =>
    simp only [ha] at h
    cases h

/-- What is left of a walk that comes to an end. -/
theorem Leads.rest (h : w.Leads n s t) (hloop : w.loop fuel s = .ok journey desk) :
    ∃ k, fuel = n + (k + 1) ∧ w.loop (k + 1) t = .ok journey desk := by
  induction h generalizing fuel with
  | refl s =>
    cases fuel with
    | zero => cases hloop
    | succ k => exact ⟨k, by omega, hloop⟩
  | step hs _ ih =>
    cases fuel with
    | zero => cases hloop
    | succ fuel =>
      simp only [loop, hs] at hloop
      obtain ⟨k, rfl, hrest⟩ := ih hloop
      exact ⟨k, by omega, hrest⟩

/-! ## The limit on places -/

variable {actor : Actor} {semantics : Semantics σ}

omit [Durable σ] in
theorem stops_atMost (most started check : Nat) (s : WalkState σ) :
    ((Limits.atMost most).timetable started).stops check s =
      if s.pending ≠ none ∧ most ≤ s.steps then some .stepLimit else none := by
  have hopen : ((Limits.atMost most).timetable started).gate check s = none := rfl
  have hmost : ((Limits.atMost most).timetable (σ := σ) started).maxSteps = some most := rfl
  simp only [Timetable.stops, hopen, hmost]
  cases s.pending with
  | none => simp
  | some next => simp

/-- A destination is passed over by a walk that enters no further place. -/
theorem passes_over {place : ObjectId} {origin : Option ObjectId}
    (h : (free actor semantics).loop (fuel + 1) s = .ok journey desk)
    (hp : s.pending = some (place, origin)) (hsteps : journey.steps ≤ s.steps) :
    ∃ d, arrive actor place origin s.desk = .ok none d := by
  obtain ⟨hmore, hfail⟩ := advance_of_loop h
  have hopen : (free actor semantics).gate s = none := rfl
  have hroom : (free actor semantics).exhausted s.steps = false := rfl
  have hactor : (free actor semantics).actor = actor := rfl
  simp only [advance, hopen, hp, hroom, Bool.false_eq_true, if_false, enter, hactor] at hmore hfail
  cases ha : arrive actor place origin s.desk with
  | error e d =>
    simp only [ha] at hfail
    exact absurd rfl (hfail e _)
  | ok found d =>
    cases found with
    | none => exact ⟨d, rfl⟩
    | some seen =>
      simp only [ha, state_settle] at hmore
      omega

/-- What a limit does to a walk that without limits enters no more places than
that. -/
theorem loop_atMost (started : Instant)
    (h : (free actor semantics).loop fuel s = .ok journey desk) (hle : journey.steps ≤ most) :
    let limits := Limits.atMost most
    let outcome := loop ⟨actor, semantics, limits.gate started, limits.maxSteps⟩ fuel s
    (outcome = .ok journey desk ∧
      ∀ n t, (free actor semantics).Leads n s t → t.pending ≠ none → t.steps < most) ∨
    ∃ n t place origin d, (free actor semantics).Leads n s t ∧ t.pending = some (place, origin) ∧
      t.steps = most ∧ journey.steps = most ∧ arrive actor place origin t.desk = .ok none d ∧
      outcome = .ok ⟨t.traveler, .stepLimit, most⟩ t.desk := by
  intro limits outcome
  have htimed : timed actor semantics (limits.timetable started) fuel 0 s = outcome :=
    timed_limits actor semantics limits started fuel 0 s
  rw [← htimed]
  rcases calm_or_stops actor semantics (limits.timetable started) fuel 0 s with
    hcalm | ⟨n, hn, t, why, hl, hstop, hcalm⟩
  · refine .inl ⟨(timed_of_calm hcalm).trans h, fun n t hl hp => ?_⟩
    -- the walk gets to `t` while it still goes on, so there is a check
    obtain ⟨k, rfl, -⟩ := hl.rest h
    have hhere := hcalm n (by omega) t hl
    rw [stops_atMost] at hhere
    split at hhere
    · cases hhere
    · rename_i hnot
      exact Nat.lt_of_not_le fun hmost => hnot ⟨hp, hmost⟩
  · rw [timed_of_stops hl hn hcalm hstop]
    rw [stops_atMost] at hstop
    split at hstop
    · rename_i hfull
      cases hstop
      obtain ⟨⟨place, origin⟩, hp⟩ := Option.ne_none_iff_exists'.mp hfull.1
      obtain ⟨k, rfl, hrest⟩ := hl.rest h
      have hsteps := steps_le_of_loop hrest
      have heq : t.steps = most := by omega
      obtain ⟨d, hd⟩ := passes_over hrest hp (by omega)
      exact .inr ⟨n, t, place, origin, d, hl, hp, heq, by omega, hd, by rw [heq]⟩
    · cases hstop

end Walk

/-! ## Requests -/

namespace Realm
variable {σ : Type} [Durable σ] {r r' : Realm σ} {semantics : Semantics σ} {root : RootId}
  {request : SpawnRequest} {d d' : Desk σ} {journey : Journey} {fuel most : Nat}

/-- Limits play no part in what comes before a walk. -/
theorem depart_limits (r : Realm σ) (semantics : Semantics σ) (root : RootId)
    (request : SpawnRequest) (limits : Limits) (d : Desk σ) :
    r.depart semantics root { request with limits := limits } d =
      match r.depart semantics root request d with
      | .ok p d' => .ok { p with walk :=
          let l := limits.orElse r.config
          ⟨r.actor root, semantics, l.gate d'.shared.now, l.maxSteps⟩ } d'
      | .error e d' => .error e d' := by
  unfold depart
  simp only [bind, EStateM.bind]
  cases requireRoot (r.actor root) d with
  | error e d => rfl
  | ok _ d =>
    simp only
    cases r.rulebook.types.resolveKind .walker request.traveler with
    | none => rfl
    | some type =>
      simp only [EStateM.bind]
      cases (r.actor root).fillFields type request.fields d with
      | error e d => rfl
      | ok fields d =>
        simp only
        cases (r.actor root).typeOf (request.start.getD root) d with
        | error e d => rfl
        | ok _ d => rfl

theorem depart_walk {p : Departure σ} (h : r.depart semantics root request d = .ok p d') :
    p.walk = ⟨r.actor root, semantics, (request.limits.orElse r.config).gate d'.shared.now,
      (request.limits.orElse r.config).maxSteps⟩ := by
  have hsame := depart_limits r semantics root request request.limits d
  rw [h] at hsame
  exact congrArg Departure.walk (EStateM.Result.ok.inj hsame).1

omit [Durable σ] in
theorem walk_free (hbudget : r.config.walkBudget = none) (hsteps : r.config.maxWalkSteps = none)
    (actor : Actor) (started : Instant) :
    (⟨actor, semantics, (Limits.unlimited.orElse r.config).gate started,
      (Limits.unlimited.orElse r.config).maxSteps⟩ : Walk σ) = Walk.free actor semantics := by
  have hlimits : Limits.unlimited.orElse r.config = Limits.unlimited := by
    simp only [Limits.orElse, Limits.unlimited, hbudget, hsteps]
    rfl
  have hopen : Limits.unlimited.gate (σ := σ) started = fun _ => none := rfl
  rw [hlimits, hopen]
  rfl

theorem journey_of_arrival {journey' : Journey} (h : arrival root journey d = .ok journey' d') :
    journey' = journey := by
  simp only [arrival, bind, pure] at h
  split at h
  · simp only [EStateM.bind] at h
    cases hend : Desk.conclude root d with
    | ok _ _ =>
      simp only [hend] at h
      cases h
      rfl
    | error _ _ =>
      simp only [hend] at h
      cases h
  · cases h
    rfl

/-- A request whose walk has a place to spare does what it does without the
limit. -/
theorem journey_atMost (hbudget : r.config.walkBudget = none)
    (hsteps : r.config.maxWalkSteps = none) (hfree : request.limits = Limits.unlimited)
    (h : r.journey semantics fuel root request d = .ok journey d') (hlt : journey.steps < most) :
    r.journey semantics fuel root { request with limits := .atMost most } d = .ok journey d' := by
  have hlimits : (Limits.atMost most).orElse r.config = .atMost most := by
    simp only [Limits.orElse, Limits.atMost, hbudget]
    rfl
  rw [journey_eq] at h ⊢
  simp only [bind, EStateM.bind, depart_limits, hlimits] at h ⊢
  cases hdepart : r.depart semantics root request d with
  | error e d =>
    simp only [hdepart] at h
    cases h
  | ok p d =>
    have hwalk : p.walk = Walk.free (r.actor root) semantics := by
      rw [depart_walk hdepart, hfree, walk_free hbudget hsteps]
    simp only [hdepart, hwalk] at h ⊢
    cases hrun : (Walk.free (r.actor root) semantics).run fuel p.traveler p.start d with
    | error e d =>
      simp only [hrun] at h
      cases h
    | ok journey' d' =>
      simp only [hrun] at h
      obtain rfl := journey_of_arrival h
      rcases Walk.loop_atMost d.shared.now hrun (Nat.le_of_lt hlt) with
        ⟨hsame, -⟩ | ⟨_, _, _, _, _, _, _, _, hfull, _⟩
      · have hrun' : Walk.run ⟨r.actor root, semantics, (Limits.atMost most).gate d.shared.now,
          (Limits.atMost most).maxSteps⟩ fuel p.traveler p.start d = .ok journey d' := hsame
        rw [hrun']
        exact h
      · omega

end Realm

/-- A walk that without limits enters no more places than it may differs from
that walk if and only if there is a destination left when it has entered as many
as it may. It would pass that destination over, but is cut short there. -/
theorem walk_fits_allowance {σ : Type} [Durable σ] (actor : Actor) (semantics : Semantics σ)
    (traveler : Traveler) (start : ObjectId) (desk : Desk σ) (fuel most : Nat) {journey : Journey}
    {desk' : Desk σ}
    (h : (Walk.free actor semantics).run fuel traveler start desk = .ok journey desk')
    (hle : journey.steps ≤ most) :
    let free := Walk.free actor semantics
    let first := Walk.initial desk traveler start
    let limits := Limits.atMost most
    let outcome :=
      Walk.run ⟨actor, semantics, limits.gate 0, limits.maxSteps⟩ fuel traveler start desk
    (outcome = .ok journey desk' ↔
      ∀ n s, free.Leads n first s → s.pending ≠ none → s.steps < most) ∧
    (outcome ≠ .ok journey desk' → journey.steps = most ∧ ∃ n s place origin d,
      free.Leads n first s ∧ s.pending = some (place, origin) ∧ s.steps = most ∧
      Walk.arrive actor place origin s.desk = .ok none d ∧
      outcome = .ok ⟨s.traveler, .stepLimit, most⟩ s.desk) := by
  intro free first limits outcome
  have hcommits : journey.halt.commits = true := Walk.commits_of_loop h
  rcases Walk.loop_atMost 0 h hle with
    ⟨hsame, hroom⟩ | ⟨n, s, place, origin, d, hl, hp, hs, hj, hd, hcut⟩
  · exact ⟨iff_of_true hsame hroom, fun hne => absurd hsame hne⟩
  · have hne : outcome ≠ .ok journey desk' := by
      intro hsame
      have hboth := hcut.symm.trans hsame
      cases hboth
      cases hcommits
    have hfull : ¬∀ n s, free.Leads n first s → s.pending ≠ none → s.steps < most := by
      intro hroom
      have hlt := hroom n s hl (by simp [hp])
      omega
    exact ⟨iff_of_false hne hfull, fun _ => ⟨hj, n, s, place, origin, d, hl, hp, hs, hd, hcut⟩⟩

namespace Crossing

/-- A place that there is not. -/
def nowhere : NodeId := ⟨⟨9⟩⟩

/-- Somebody who looks for that place wherever they enter. -/
def seeker : TypeId := ⟨⟨6⟩⟩

/-- An actor for the tenant whose seekers have one ability. -/
def guide : Actor :=
  ⟨{ (default : Rulebook) with
      duties := Table.empty.insert seeker ⟨[⟨"seek", seeker, .traveler, .entry, .any, 0⟩], []⟩ },
    tenant⟩

/-- What the ability does: it asks for the place. -/
def seek : Semantics Vault := fun _ stop => (Conduct.visit [.node nowhere]).run guide stop

def pilgrim : Traveler := Traveler.new seeker Fields.empty

/-- What becomes of a walk from the near end, and how many places it enters. -/
def stroll (w : Walk Vault) : Option (Halt × Nat) :=
  match w.run 12 pilgrim (.node near) desk with
  | .ok journey _ => some (journey.halt, journey.steps)
  | .error _ _ => none

theorem stroll_eq_some {w : Walk Vault} {why : Halt} {steps : Nat}
    (h : stroll w = some (why, steps)) :
    ∃ journey desk', w.run 12 pilgrim (.node near) desk = .ok journey desk' ∧ journey.halt = why ∧
      journey.steps = steps := by
  unfold stroll at h
  split at h
  · rename_i journey desk' hrun
    cases h
    exact ⟨journey, desk', hrun, rfl, rfl⟩
  · cases h

/-- Without limits the near end is all there is. -/
theorem stroll_free : stroll (Walk.free guide seek) = some (.completed, 1) := by decide +kernel

end Crossing

/-- A seeker that enters one place only may just as well be allowed two. -/
theorem stroll_fits_allowance : ∃ journey desk', journey.steps = 1 ∧ journey.halt = .completed ∧
    Walk.run ⟨Crossing.guide, Crossing.seek, (Limits.atMost 2).gate 0, (Limits.atMost 2).maxSteps⟩
      12 Crossing.pilgrim (.node Crossing.near) Crossing.desk = .ok journey desk' := by
  obtain ⟨journey, desk', hrun, hhalt, hsteps⟩ := Crossing.stroll_eq_some Crossing.stroll_free
  have hfits := walk_fits_allowance Crossing.guide Crossing.seek Crossing.pilgrim
    (.node Crossing.near) Crossing.desk 12 2 hrun (by omega)
  refine ⟨journey, desk', hsteps, hhalt, Classical.byContradiction fun hne => ?_⟩
  have hfull := (hfits.2 hne).1
  omega

/-- If it may enter no more than the one place, it is cut short in front of a
place that there is not. -/
theorem allowance_cuts_short :
    ¬∀ journey desk', (Walk.free Crossing.guide Crossing.seek).run 12 Crossing.pilgrim
        (.node Crossing.near) Crossing.desk = .ok journey desk' →
      journey.halt = .completed → journey.steps ≤ 1 →
      Walk.run ⟨Crossing.guide, Crossing.seek, (Limits.atMost 1).gate 0, (Limits.atMost 1).maxSteps⟩
        12 Crossing.pilgrim (.node Crossing.near) Crossing.desk = .ok journey desk' := by
  intro hclaim
  obtain ⟨journey, desk', hrun, hhalt, hsteps⟩ := Crossing.stroll_eq_some Crossing.stroll_free
  have hsame := hclaim journey desk' hrun hhalt (Nat.le_of_eq hsteps)
  have hcut : Crossing.stroll ⟨Crossing.guide, Crossing.seek, (Limits.atMost 1).gate 0,
    (Limits.atMost 1).maxSteps⟩ = some (.stepLimit, 1) := by decide +kernel
  simp only [Crossing.stroll, hsame, Option.some.injEq, Prod.mk.injEq, hhalt] at hcut
  cases hcut.1

end Wayfarer
