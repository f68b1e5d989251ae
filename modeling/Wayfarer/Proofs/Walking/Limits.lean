import Wayfarer.Proofs.Walking.Trace

/-!
# Limits

Limits are seen at checks: there is one before each transition. A `Timetable`
tells what each check sees of the token and of the budget, which may change from
outside between any two of them. `Walk.timed` is the walk whose checks see what
a timetable tells. Limits kept by a request are one such timetable
(`Walk.timed_limits`).

* `Timetable.stops` is why the walk has to stop at a check.
* `Walk.timed_of_calm` and `Walk.timed_of_stops`: until the first such check the
  walk goes on as it would without limits, and there it ends.
* `limits_only_cut`: a limited walk brings home the beginning of what the walk
  without limits does.
-/

namespace Wayfarer

/-- What the checks of a walk see, each in its turn and beginning with number 0:
whether the token is set, whether the budget is spent. The number of places that
may be entered is fixed. -/
structure Timetable (σ : Type) where
  cancelled : Nat → Shared σ → Bool
  spent : Nat → Shared σ → Bool
  maxSteps : Option Nat

namespace Timetable

variable {σ : Type}

/-- Why a check stops the walk before it looks at what is to be done next. -/
def gate (l : Timetable σ) (check : Nat) (s : WalkState σ) : Option Halt :=
  if l.cancelled check s.desk.shared then some .cancelled
  else if l.spent check s.desk.shared then some .timedOut
  else none

/-- Why the walk has to stop at a check, if it has to. -/
def stops (l : Timetable σ) (check : Nat) (s : WalkState σ) : Option Halt :=
  match l.gate check s with
  | some why => some why
  | none => if s.pending.isSome && l.maxSteps.any (· ≤ s.steps) then some .stepLimit else none

/-- What a check stops is not committed. The limit on places stops a walk only
where it was reached. -/
theorem stops_eq_some {l : Timetable σ} {check : Nat} {s : WalkState σ} {why : Halt}
    (h : l.stops check s = some why) :
    why.commits = false ∧ (why = .stepLimit → ∃ most, l.maxSteps = some most ∧ most ≤ s.steps) := by
  unfold stops gate at h
  split at h
  · rename_i why' hgate
    cases h
    split at hgate
    · cases hgate
      simp [Halt.commits]
    · split at hgate
      · cases hgate
        simp [Halt.commits]
      · cases hgate
  · split at h
    · rename_i hmost
      cases h
      refine ⟨rfl, fun _ => ?_⟩
      simp only [Bool.and_eq_true, Option.any_eq_true, decide_eq_true_eq] at hmost
      exact hmost.2
    · cases h

end Timetable

/-- Limits as they are seen by a walk that started at some moment. -/
def Limits.timetable {σ : Type} (limits : Limits) (started : Instant) : Timetable σ where
  cancelled _ shared := limits.token.any shared.cancelled.contains
  spent _ shared := limits.budget.any fun b => b * ticksPerMilli ≤ shared.now - started
  maxSteps := limits.maxSteps

/-- What one traveler has done so far is the beginning of what the other has
done. -/
structure Traveler.Precedes (t u : Traveler) : Prop where
  path : t.path <+: u.path
  trace : t.trace <+: u.trace
  reports : t.reports <+: u.reports
  faults : t.faults <+: u.faults

namespace Walk

variable {σ : Type} [Durable σ]

/-- The walk without limits. -/
def free (actor : Actor) (semantics : Semantics σ) : Walk σ :=
  ⟨actor, semantics, Limits.unlimited.gate 0, Limits.unlimited.maxSteps⟩

/-- The walk with the limits that a check sees. -/
def checked (actor : Actor) (semantics : Semantics σ) (l : Timetable σ) (check : Nat) : Walk σ :=
  ⟨actor, semantics, l.gate check, l.maxSteps⟩

/-- Transitions until the walk halts or fails, with a check of the limits before
each. -/
def timed (actor : Actor) (semantics : Semantics σ) (l : Timetable σ) :
    Nat → Nat → WalkState σ → EStateM.Result Error (Desk σ) Journey
  | 0, _, s => .error .unfinished s.desk
  | fuel + 1, check, s =>
    match (checked actor semantics l check).advance s with
    | .goOn s => timed actor semantics l fuel (check + 1) s
    | .halt h s => .ok ⟨s.traveler, h, s.steps⟩ s.desk
    | .fail e s => .error e s.desk

/-- The state after so many transitions, or the last one if the walk has ended
before. -/
def upTo (w : Walk σ) : Nat → WalkState σ → WalkState σ
  | 0, s => s
  | n + 1, s =>
    match w.advance s with
    | .goOn t => upTo w n t
    | .halt _ t => t
    | .fail _ t => t

end Walk

/-! ## What a transition adds -/

namespace Traveler.Precedes

variable {t u v : Traveler}

theorem refl (t : Traveler) : t.Precedes t :=
  ⟨List.prefix_refl _, List.prefix_refl _, List.prefix_refl _, List.prefix_refl _⟩

theorem trans (h : t.Precedes u) (h' : u.Precedes v) : t.Precedes v :=
  ⟨h.path.trans h'.path, h.trace.trans h'.trace, h.reports.trans h'.reports,
    h.faults.trans h'.faults⟩

end Traveler.Precedes

namespace Walk

variable {σ : Type} {w : Walk σ} {s t : WalkState σ}

theorem absorb_precedes (f : Firing σ) (v : Visit σ) (faults : List Mishap) :
    f.traveler.Precedes (f.absorb v faults).traveler :=
  ⟨List.prefix_refl _, List.prefix_refl _, List.prefix_append .., List.prefix_append ..⟩

/-- Firings only add to what the traveler has done. -/
theorem fire_precedes (w : Walk σ) (place : ObjectId) (type : TypeId) (abilities : List Ability)
    (f : Firing σ) : f.traveler.Precedes (w.fire place type abilities f).traveler := by
  induction abilities generalizing f with
  | nil => exact .refl _
  | cons ability rest ih =>
    simp only [fire]
    split
    · rename_i v hv
      have hfirst := absorb_precedes f v []
      split
      · exact hfirst
      · exact hfirst.trans (ih _)
    · rename_i e v hv
      have hfirst := absorb_precedes f v [⟨ability.name, place, e⟩]
      split
      · exact hfirst
      · exact hfirst.trans (ih _)

variable [Durable σ]

theorem advance_precedes (w : Walk σ) (s : WalkState σ) :
    s.traveler.Precedes (w.advance s).state.traveler := by
  unfold advance
  cases w.gate s with
  | some why => exact .refl _
  | none =>
    cases s.pending with
    | some next =>
      simp only
      split
      · exact .refl _
      · unfold enter
        split
        · exact .refl _
        · rw [state_settle]
          exact .refl _
        · rw [state_settle]
          refine Traveler.Precedes.trans ?_ (fire_precedes ..)
          exact ⟨List.prefix_append .., List.prefix_append .., List.prefix_refl _,
            List.prefix_refl _⟩
    | none =>
      simp only
      split
      · exact .refl _
      · split
        · exact .refl _
        · split
          · exact .refl _
          · unfold leave
            rw [state_settle]
            refine Traveler.Precedes.trans ?_ (fire_precedes ..)
            exact ⟨List.prefix_refl _, List.prefix_append .., List.prefix_refl _,
              List.prefix_refl _⟩

theorem upTo_succ (w : Walk σ) (n : Nat) (s : WalkState σ) :
    w.upTo (n + 1) s = (w.advance s).state ∨
      ∃ t, w.advance s = .goOn t ∧ w.upTo (n + 1) s = w.upTo n t := by
  simp only [upTo]
  cases w.advance s with
  | goOn t => exact .inr ⟨t, rfl, rfl⟩
  | halt why t => exact .inl rfl
  | fail e t => exact .inl rfl

/-- What a walk has done is the beginning of what it will have done. -/
theorem upTo_precedes (w : Walk σ) {n m : Nat} (hnm : n ≤ m) (s : WalkState σ) :
    (w.upTo n s).traveler.Precedes (w.upTo m s).traveler := by
  induction m generalizing n s with
  | zero =>
    obtain rfl : n = 0 := by omega
    exact .refl _
  | succ m ih =>
    have hstep := w.advance_precedes s
    cases n with
    | zero =>
      rcases w.upTo_succ m s with hlast | ⟨t, ht, hrest⟩
      · rw [hlast]
        exact hstep
      · rw [hrest]
        rw [ht] at hstep
        exact hstep.trans (ih (Nat.zero_le m) t)
    | succ n =>
      simp only [upTo]
      cases w.advance s with
      | goOn t => exact ih (by omega) t
      | halt why t => exact .refl _
      | fail e t => exact .refl _

theorem Leads.upTo_eq {n : Nat} (h : w.Leads n s t) : w.upTo n s = t := by
  induction h with
  | refl => rfl
  | step hs _ ih => simp only [upTo, hs, ih]

/-- A walk that halts stays in its last state. -/
theorem upTo_of_loop {fuel m : Nat} {journey : Journey} {desk : Desk σ}
    (h : w.loop fuel s = .ok journey desk) (hm : fuel ≤ m) :
    (w.upTo m s).traveler = journey.traveler ∧ (w.upTo m s).steps = journey.steps ∧
      (w.upTo m s).desk = desk := by
  induction fuel generalizing m s with
  | zero => cases h
  | succ fuel ih =>
    obtain ⟨m, rfl⟩ : ∃ k, m = k + 1 := ⟨m - 1, by omega⟩
    simp only [loop] at h
    simp only [upTo]
    cases ha : w.advance s with
    | goOn t =>
      simp only [ha] at h
      exact ih h (by omega)
    | halt why t =>
      simp only [ha] at h
      cases h
      exact ⟨rfl, rfl, rfl⟩
    | fail e t =>
      simp only [ha] at h
      cases h

end Walk

/-! ## Checks -/

namespace Walk

variable {σ : Type} [Durable σ] {actor : Actor} {semantics : Semantics σ} {l : Timetable σ}
  {s t : WalkState σ} {n fuel check : Nat} {why : Halt}

omit [Durable σ] in
/-- Firings know nothing of limits. -/
theorem fire_checked (abilities : List Ability) (place : ObjectId) (type : TypeId) (f : Firing σ) :
    (checked actor semantics l check).fire place type abilities f =
      (free actor semantics).fire place type abilities f := by
  induction abilities generalizing f with
  | nil => rfl
  | cons ability rest ih =>
    have hactor : (checked actor semantics l check).actor = (free actor semantics).actor := rfl
    have hdoes : (checked actor semantics l check).semantics = (free actor semantics).semantics :=
      rfl
    simp only [fire, ih, hactor, hdoes]

/-- A check either stops the walk or has no influence on the transition. -/
theorem advance_checked (actor : Actor) (semantics : Semantics σ) (l : Timetable σ) (check : Nat)
    (s : WalkState σ) : (checked actor semantics l check).advance s =
      match l.stops check s with
      | some why => .halt why s
      | none => (free actor semantics).advance s := by
  have hopen : (free actor semantics).gate s = none := rfl
  have hgate : (checked actor semantics l check).gate s = l.gate check s := rfl
  have hactor : (checked actor semantics l check).actor = (free actor semantics).actor := rfl
  simp only [advance, Timetable.stops, hopen, hgate, enter, leave, fireAll, fire_checked, hactor]
  cases l.gate check s with
  | some why => rfl
  | none =>
    cases hp : s.pending with
    | none => simp
    | some next =>
      have hfree : (free actor semantics).exhausted s.steps = false := rfl
      have hmost : (checked actor semantics l check).exhausted s.steps =
        l.maxSteps.any fun most => most ≤ s.steps := rfl
      simp only [hfree, hmost, Option.isSome_some, Bool.true_and]
      cases l.maxSteps.any fun most => most ≤ s.steps with
      | false => simp
      | true => simp

/-- Without limits a walk halts only by coming to an end. -/
theorem commits_of_free (h : (free actor semantics).advance s = .halt why t) :
    why.commits = true := by
  have hsettle : ∀ u : WalkState σ, settle u = .halt why t → why.commits = true := by
    intro u hu
    unfold settle at hu
    split at hu
    · cases hu
      rfl
    · cases hu
  have hopen : (free actor semantics).gate s = none := rfl
  unfold advance at h
  simp only [hopen] at h
  cases hp : s.pending with
  | some next =>
    have hfree : (free actor semantics).exhausted s.steps = false := rfl
    simp only [hp, hfree, Bool.false_eq_true, if_false, enter] at h
    split at h
    · cases h
    · exact hsettle _ h
    · exact hsettle _ h
  | none =>
    simp only [hp] at h
    split at h
    · cases h
    · split at h
      · cases h
        rfl
      · split at h
        · cases h
        · exact hsettle _ h

/-- A place is entered only where the limits allow another one. -/
theorem steps_advance (actor : Actor) (semantics : Semantics σ) {most : Nat}
    (hmost : l.maxSteps = some most) (hs : s.steps ≤ most) (hcalm : l.stops check s = none) :
    ((free actor semantics).advance s).state.steps ≤ most := by
  have hmoves := advance_moves (free actor semantics) s
  generalize ((free actor semantics).advance s).state = t at hmoves
  cases hmoves with
  | stay => exact hs
  | pass => exact hs
  | take => exact hs
  | pop => exact hs
  | leave => exact hs
  | enter place type f hp =>
    obtain ⟨next, hnext⟩ := Option.ne_none_iff_exists'.mp hp
    have hroom : ¬most ≤ s.steps := by
      intro hle
      unfold Timetable.stops at hcalm
      split at hcalm
      · cases hcalm
      · simp [hnext, hmost, hle] at hcalm
    show s.steps + 1 ≤ most
    omega

/-! ## Walks that are checked -/

/-- None of so many checks stops the walk, beginning with a certain one in a
certain state. -/
def Calm (actor : Actor) (semantics : Semantics σ) (l : Timetable σ) (n check : Nat)
    (s : WalkState σ) : Prop :=
  ∀ k < n, ∀ t, (free actor semantics).Leads k s t → l.stops (check + k) t = none

theorem calm_zero : Calm actor semantics l 0 check s := fun k hk => absurd hk (Nat.not_lt_zero k)

theorem calm_succ : Calm actor semantics l (n + 1) check s ↔
    l.stops check s = none ∧
      ∀ t, (free actor semantics).advance s = .goOn t → Calm actor semantics l n (check + 1) t := by
  have hshift : ∀ k, check + (k + 1) = check + 1 + k := by omega
  constructor
  · intro h
    refine ⟨h 0 (by omega) s (.refl s), fun t ht k hk u hu => ?_⟩
    rw [← hshift]
    exact h (k + 1) (by omega) u (.step ht hu)
  · rintro ⟨hhere, hlater⟩ k hk u hu
    cases hu with
    | refl => exact hhere
    | @step k _ t _ ht hu =>
      rw [hshift]
      exact hlater t ht k (by omega) u hu

/-- As long as no check stops it, the walk goes on as without limits. -/
theorem timed_of_calm (h : Calm actor semantics l fuel check s) :
    timed actor semantics l fuel check s = (free actor semantics).loop fuel s := by
  induction fuel generalizing check s with
  | zero => rfl
  | succ fuel ih =>
    obtain ⟨hhere, hlater⟩ := calm_succ.mp h
    simp only [timed, loop, advance_checked, hhere]
    cases ha : (free actor semantics).advance s with
    | goOn t => exact ih (hlater t ha)
    | halt why t => rfl
    | fail e t => rfl

/-- The first check that stops a walk ends it in the state that it had
reached. -/
theorem timed_of_stops (hl : (free actor semantics).Leads n s t) (hn : n < fuel)
    (hcalm : Calm actor semantics l n check s) (hstop : l.stops (check + n) t = some why) :
    timed actor semantics l fuel check s = .ok ⟨t.traveler, why, t.steps⟩ t.desk := by
  obtain ⟨fuel, rfl⟩ : ∃ k, fuel = k + 1 := ⟨fuel - 1, by omega⟩
  induction hl generalizing fuel check with
  | refl s =>
    rw [Nat.add_zero] at hstop
    simp only [timed, advance_checked, hstop]
  | @step n s u t hs _ ih =>
    obtain ⟨hhere, hlater⟩ := calm_succ.mp hcalm
    obtain ⟨fuel, rfl⟩ : ∃ k, fuel = k + 1 := ⟨fuel - 1, by omega⟩
    rw [timed, advance_checked, hhere]
    simp only [hs]
    apply ih (hlater u hs)
    · rwa [Nat.add_right_comm]
    · omega

/-- Either no check stops the walk, or there is a first one. -/
theorem calm_or_stops (actor : Actor) (semantics : Semantics σ) (l : Timetable σ)
    (fuel check : Nat) (s : WalkState σ) :
    Calm actor semantics l fuel check s ∨
      ∃ n < fuel, ∃ t why, (free actor semantics).Leads n s t ∧
        l.stops (check + n) t = some why ∧ Calm actor semantics l n check s := by
  induction fuel generalizing check s with
  | zero => exact .inl calm_zero
  | succ fuel ih =>
    cases hhere : l.stops check s with
    | some why => exact .inr ⟨0, by omega, s, why, .refl s, hhere, calm_zero⟩
    | none =>
      cases ha : (free actor semantics).advance s with
      | goOn t =>
        have hnext : ∀ n, Calm actor semantics l n (check + 1) t →
            Calm actor semantics l (n + 1) check s := by
          intro n hcalm
          refine calm_succ.mpr ⟨hhere, fun t' ht' => ?_⟩
          rw [ha] at ht'
          cases ht'
          exact hcalm
        rcases ih (check + 1) t with hcalm | ⟨n, hn, u, why, hu, hstop, hcalm⟩
        · exact .inl (hnext fuel hcalm)
        · refine .inr ⟨n + 1, by omega, u, why, .step ha hu, ?_, hnext n hcalm⟩
          rwa [← Nat.add_assoc, Nat.add_right_comm]
      | halt why t => exact .inl (calm_succ.mpr ⟨hhere, fun t' ht' => by cases ha.symm.trans ht'⟩)
      | fail e t => exact .inl (calm_succ.mpr ⟨hhere, fun t' ht' => by cases ha.symm.trans ht'⟩)

/-- Limits that are kept by the walk itself. -/
theorem timed_limits (actor : Actor) (semantics : Semantics σ) (limits : Limits)
    (started : Instant) (fuel check : Nat) (s : WalkState σ) :
    timed actor semantics (limits.timetable started) fuel check s =
      loop ⟨actor, semantics, limits.gate started, limits.maxSteps⟩ fuel s := by
  induction fuel generalizing check s with
  | zero => rfl
  | succ fuel ih =>
    have hsame : checked actor semantics (limits.timetable started) check =
      ⟨actor, semantics, limits.gate started, limits.maxSteps⟩ := rfl
    simp only [timed, loop, hsame]
    cases advance ⟨actor, semantics, limits.gate started, limits.maxSteps⟩ s with
    | goOn t => exact ih (check + 1) t
    | halt why t => rfl
    | fail e t => rfl

theorem commits_of_loop {journey : Journey} {desk : Desk σ}
    (h : (free actor semantics).loop fuel s = .ok journey desk) : journey.halt.commits = true := by
  obtain ⟨n, t, u, _, _, hend⟩ := stops_of_loop h fun d hd => by cases hd
  rcases hend with ⟨why, hhalt, hok⟩ | ⟨e, _, herror⟩
  · cases hok
    exact commits_of_free hhalt
  · cases herror

/-- As long as no check stops it, a walk enters no more places than it may. -/
theorem steps_upTo {most : Nat} (hmost : l.maxSteps = some most) (hs : s.steps ≤ most)
    (hcalm : Calm actor semantics l n check s) :
    ((free actor semantics).upTo n s).steps ≤ most := by
  induction n generalizing check s with
  | zero => exact hs
  | succ n ih =>
    obtain ⟨hhere, hlater⟩ := calm_succ.mp hcalm
    have hnext := steps_advance actor semantics hmost hs hhere
    simp only [upTo]
    cases ha : (free actor semantics).advance s with
    | goOn t =>
      rw [ha] at hnext
      exact ih hnext (hlater t ha)
    | halt why t =>
      rw [ha] at hnext
      exact hnext
    | fail e t =>
      rw [ha] at hnext
      exact hnext

/-- The outcome of a walk under a timetable: where it stands, and what its halt
means. -/
structure Kept (actor : Actor) (semantics : Semantics σ) (l : Timetable σ) (fuel : Nat)
    (s : WalkState σ) (journey : Journey) (desk : Desk σ) : Prop where
  reached : ∃ n, ((free actor semantics).upTo n s).traveler = journey.traveler ∧
    ((free actor semantics).upTo n s).steps = journey.steps ∧
      ((free actor semantics).upTo n s).desk = desk
  finished : journey.halt.commits = true → (free actor semantics).loop fuel s = .ok journey desk
  steps : ∀ most, l.maxSteps = some most → journey.steps ≤ most
  limit : journey.halt = .stepLimit → l.maxSteps = some journey.steps

theorem timed_keeps {journey : Journey} {desk : Desk σ}
    (h : timed actor semantics l fuel check s = .ok journey desk)
    (hs : ∀ most, l.maxSteps = some most → s.steps ≤ most) :
    Kept actor semantics l fuel s journey desk := by
  rcases calm_or_stops actor semantics l fuel check s with hcalm | ⟨n, hn, t, why, hl, hstop, hcalm⟩
  · rw [timed_of_calm hcalm] at h
    have hcommits := commits_of_loop h
    have hlast := upTo_of_loop h (Nat.le_refl fuel)
    refine ⟨⟨fuel, hlast⟩, fun _ => h, fun most hmost => ?_, fun hlimit => ?_⟩
    · rw [← hlast.2.1]
      exact steps_upTo hmost (hs most hmost) hcalm
    · rw [hlimit] at hcommits
      cases hcommits
  · rw [timed_of_stops hl hn hcalm hstop] at h
    cases h
    obtain ⟨hlost, hlimit⟩ := Timetable.stops_eq_some hstop
    have hlast := hl.upTo_eq
    have hsteps : ∀ most, l.maxSteps = some most → t.steps ≤ most := by
      intro most hmost
      rw [← hlast]
      exact steps_upTo hmost (hs most hmost) hcalm
    refine ⟨⟨n, by rw [hlast], by rw [hlast], by rw [hlast]⟩, fun hcommits => ?_, hsteps,
      fun hwhy => ?_⟩
    · rw [hlost] at hcommits
      cases hcommits
    · obtain ⟨most, hmost, hle⟩ := hlimit hwhy
      rw [hmost, Nat.le_antisymm hle (hsteps most hmost)]

end Walk

/-- Whatever the abilities and the limits, a limited walk does what the walk
without limits does, up to the first check that stops it; there it ends, between
two transitions. So what it brings home is the beginning of what the walk
without limits has done by then and will have done later, it enters no more
places than it may, and only having entered just as many it is stopped for that.
If no check stops it, or if it comes to an end by itself, the limits make no
difference. -/
theorem limits_only_cut {σ : Type} [Durable σ] (actor : Actor) (semantics : Semantics σ)
    (timetable : Timetable σ) (traveler : Traveler) (start : ObjectId) (desk : Desk σ)
    (fuel : Nat) :
    let free := Walk.free actor semantics
    let first := Walk.initial desk traveler start
    let outcome := Walk.timed actor semantics timetable fuel 0 first
    ((∀ n < fuel, ∀ s, free.Leads n first s → timetable.stops n s = none) →
      outcome = free.run fuel traveler start desk) ∧
    (∀ n < fuel, ∀ s why, free.Leads n first s → timetable.stops n s = some why →
      (∀ k < n, ∀ t, free.Leads k first t → timetable.stops k t = none) →
      outcome = .ok ⟨s.traveler, why, s.steps⟩ s.desk) ∧
    (∀ journey desk', outcome = .ok journey desk' →
      (∃ n, (free.upTo n first).traveler = journey.traveler ∧
        (free.upTo n first).steps = journey.steps ∧ (free.upTo n first).desk = desk' ∧
        ∀ m, n ≤ m → journey.traveler.Precedes (free.upTo m first).traveler) ∧
      (∀ fuel' journey' desk'', free.run fuel' traveler start desk = .ok journey' desk'' →
        journey.traveler.Precedes journey'.traveler) ∧
      (journey.halt.commits = true → free.run fuel traveler start desk = outcome) ∧
      (∀ most, timetable.maxSteps = some most → journey.steps ≤ most) ∧
      (journey.halt = .stepLimit → timetable.maxSteps = some journey.steps)) ∧
    ∀ (limits : Limits) (started : Instant), timetable = limits.timetable started →
      outcome = Walk.run ⟨actor, semantics, limits.gate started, limits.maxSteps⟩ fuel
        traveler start desk := by
  intro free first outcome
  refine ⟨fun hcalm => ?_, fun n hn s why hl hstop hbefore => ?_, fun journey desk' h => ?_, ?_⟩
  · exact Walk.timed_of_calm fun k hk t ht => by simpa using hcalm k hk t ht
  · apply Walk.timed_of_stops hl hn
    · intro k hk t ht
      simpa using hbefore k hk t ht
    · simpa using hstop
  · have hkept : Walk.Kept actor semantics timetable fuel first journey desk' :=
      Walk.timed_keeps h fun most _ => Nat.zero_le most
    obtain ⟨n, htraveler, hsteps, hdesk⟩ := hkept.reached
    refine ⟨⟨n, htraveler, hsteps, hdesk, fun m hm => ?_⟩, fun fuel' journey' desk'' h' => ?_,
      fun hcommits => ?_, hkept.steps, hkept.limit⟩
    · rw [← htraveler]
      exact free.upTo_precedes hm first
    · -- the free walk has ended by then and stays where it is
      have hlast := Walk.upTo_of_loop h' (Nat.le_max_right n fuel')
      rw [← htraveler, ← hlast.1]
      exact free.upTo_precedes (Nat.le_max_left n fuel') first
    · rw [h]
      exact hkept.finished hcommits
  · intro limits started htable
    show Walk.timed actor semantics timetable fuel 0 first = _
    rw [htable]
    exact Walk.timed_limits ..

end Wayfarer
