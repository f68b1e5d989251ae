import Wayfarer.Proofs.Walking.Disengaging

/-!
# Faults

Whether an ability's body fails is noted among the traveler's faults, and
nothing in a walk looks at these. So a walk goes the same way if some of its
bodies fail or succeed instead, doing the same all the same.

* `Semantics.ruled` lets bodies fail or succeed as one pleases, by their number
  in the walk.
* `Walk.fire_blaming` is about a series of firings, `Walk.advance_blaming` about
  a transition and `Walk.loop_blaming` about a walk.
* `faults_do_not_steer`: the walk is the same apart from its faults, and these
  are the failures in order.
-/

namespace Wayfarer

/-! ## Other faults -/

/-- A traveler with other faults. -/
def Traveler.blaming (t : Traveler) (faults : List Mishap) : Traveler := { t with faults := faults }

def Journey.blaming (j : Journey) (faults : List Mishap) : Journey :=
  { j with traveler := j.traveler.blaming faults }

variable {σ : Type}

def WalkState.blaming (s : WalkState σ) (faults : List Mishap) : WalkState σ :=
  { s with traveler := s.traveler.blaming faults }

def Turn.blaming (faults : List Mishap) : Turn σ → Turn σ
  | .goOn s => .goOn (s.blaming faults)
  | .halt why s => .halt why (s.blaming faults)
  | .fail e s => .fail e (s.blaming faults)

/-- An outcome with other faults brought home. -/
def blaming (faults : List Mishap) :
    EStateM.Result Error (Desk σ) Journey → EStateM.Result Error (Desk σ) Journey
  | .ok journey desk => .ok (journey.blaming faults) desk
  | .error e desk => .error e desk

/-- Abilities that do what others do, but of which some succeed or fail by
decree. It goes by how many firings came before. -/
def Semantics.ruled (semantics : Semantics σ) (decree : Nat → Option (Except Error Unit)) :
    Semantics σ := fun ability stop visit =>
  let done := semantics ability stop visit
  match decree stop.firings with
  | none => done
  | some (.ok ()) => .ok () (Visit.ofResult done)
  | some (.error e) => .error e (Visit.ofResult done)

namespace Walk

variable {w : Walk σ} {semantics : Semantics σ} {event : Event} {place : ObjectId} {type : TypeId}
  {abilities : List Ability} {f : Firing σ} {s : WalkState σ} {faults : List Mishap}

def Firing.blaming (f : Firing σ) (faults : List Mishap) : Firing σ :=
  { f with traveler := f.traveler.blaming faults }

/-- What is noted of a body, if it fails. -/
def failure (w : Walk σ) (x : Fired σ) : Option Mishap :=
  match w.semantics x.ability x.stop x.visit with
  | .ok _ _ => none
  | .error e _ => some ⟨x.ability.name, x.stop.here, e⟩

/-- Abilities leave the same behind as in a walk with all bodies of a list, be
it that they fail or not. -/
def Resembles (w : Walk σ) (semantics : Semantics σ) (log : List (Fired σ)) : Prop :=
  ∀ x ∈ log, (w.acting semantics).leaves x = w.leaves x

theorem resembles_ruled (w : Walk σ) (decree : Nat → Option (Except Error Unit))
    (log : List (Fired σ)) : w.Resembles (w.semantics.ruled decree) log := by
  intro x _
  simp only [leaves, acting, Semantics.ruled]
  split <;> rfl

/-! ## One series of firings -/

theorem after_blaming {x : Fired σ} (h : (w.acting semantics).leaves x = w.leaves x) :
    (w.acting semantics).after x (f.blaming faults) =
      (w.after x f).blaming (faults ++ ((w.acting semantics).failure x).toList) := by
  have hdoes : (w.acting semantics).semantics = semantics := rfl
  simp only [leaves, hdoes] at h
  simp only [after, failure, hdoes]
  cases hthere : semantics x.ability x.stop x.visit <;>
    cases hhere : w.semantics x.ability x.stop x.visit <;>
    simp only [hthere, hhere, Visit.ofResult] at h <;>
    subst h <;>
    rfl

theorem fire_blaming (faults : List Mishap)
    (h : w.Resembles semantics (w.fireLog event place type abilities f)) :
    (w.acting semantics).fireLog event place type abilities (f.blaming faults) =
        w.fireLog event place type abilities f ∧
      (w.acting semantics).fire place type abilities (f.blaming faults) =
        (w.fire place type abilities f).blaming (faults ++
          (w.fireLog event place type abilities f).filterMap (w.acting semantics).failure) := by
  induction abilities generalizing f faults with
  | nil => simp [fireLog, fire]
  | cons ability rest ih =>
    rw [fire_cons w event, fire_cons (w.acting semantics) event]
    -- what a body sees holds no faults
    have hfired : (w.acting semantics).fired event place type ability (f.blaming faults) =
        w.fired event place type ability f := rfl
    simp only [fireLog, hfired] at h ⊢
    generalize w.fired event place type ability f = x at h ⊢
    have hx := h x (List.mem_cons_self ..)
    have haborted : ∀ faults, ((w.after x f).blaming faults).traveler.aborted =
        (w.after x f).traveler.aborted := fun _ => rfl
    rw [after_blaming hx, hx, haborted]
    split
    · cases hfail : (w.acting semantics).failure x <;> simp [hfail]
    · rename_i hon
      rw [if_neg hon] at h
      obtain ⟨hlog, hfire⟩ := ih (faults ++ ((w.acting semantics).failure x).toList)
        fun y hy => h y (List.mem_cons_of_mem x hy)
      rw [hlog, hfire]
      cases hfail : (w.acting semantics).failure x <;> simp [hfail]

/-- The bodies of a series are numbered. -/
theorem fireLog_numbers (w : Walk σ) (event : Event) (place : ObjectId) (type : TypeId)
    (abilities : List Ability) (f : Firing σ) :
    (w.fireLog event place type abilities f).map (fun x => x.stop.firings) =
      List.range' f.count (w.fireLog event place type abilities f).length := by
  induction abilities generalizing f with
  | nil => rfl
  | cons ability rest ih =>
    simp only [fireLog]
    split
    · rfl
    · rw [List.map_cons, ih, count_after, List.length_cons, List.range'_succ]
      rfl

/-! ## One transition -/

theorem settle_blaming (s : WalkState σ) (faults : List Mishap) :
    settle (s.blaming faults) = (settle s).blaming faults := by
  have haborted : (s.blaming faults).traveler.aborted = s.traveler.aborted := rfl
  unfold settle
  rw [haborted]
  split <;> rfl

/-- What a transition does for a traveler with other faults: the same, and
faults are but passed on. -/
inductive Plan.Blames (faults : List Mishap) : Plan σ → Plan σ → Prop
  | quiet (turn : Turn σ) : Blames faults (.quiet turn) (.quiet (turn.blaming faults))
  | series {event : Event} {place : ObjectId} {type : TypeId} {f : Firing σ}
      {resume : Firing σ → WalkState σ} :
      (∀ f faults, resume (f.blaming faults) = (resume f).blaming faults) →
      Blames faults (.series event place type f resume)
        (.series event place type (f.blaming faults) resume)

variable [Durable σ]

theorem plan_blaming (hgate : ∀ s faults, w.gate (s.blaming faults) = w.gate s) (s : WalkState σ)
    (faults : List Mishap) : (w.plan s).Blames faults (w.plan (s.blaming faults)) := by
  have hpending : (s.blaming faults).pending = s.pending := rfl
  have hstack : (s.blaming faults).stack = s.stack := rfl
  have hsteps : (s.blaming faults).steps = s.steps := rfl
  -- what a transition does is decided by the pending place and the stack, never by the
  -- faults
  unfold plan
  rw [hgate, hpending, hstack, hsteps]
  cases w.gate s with
  | some why => exact .quiet _
  | none =>
    simp only
    cases s.pending with
    | some next =>
      simp only
      split
      · exact .quiet _
      · have hdesk : (s.blaming faults).desk = s.desk := rfl
        simp only [enterPlan, hdesk]
        cases arrive w.actor next.1 next.2 s.desk with
        | error e desk => exact .quiet _
        | ok found desk =>
          cases found with
          | none =>
            have hsettle := settle_blaming { s with pending := none, desk := desk } faults
            have hquiet :
                Plan.Blames faults (.quiet (settle { s with pending := none, desk := desk }))
                  (.quiet ((settle { s with pending := none, desk := desk }).blaming faults)) :=
              .quiet _
            rw [← hsettle] at hquiet
            exact hquiet
          | some seen => exact .series fun _ _ => rfl
    | none =>
      simp only
      cases takeNext s.stack with
      | some taken => exact .quiet _
      | none =>
        cases s.stack with
        | nil => exact .quiet _
        | cons top below =>
          simp only
          split
          · exact .quiet _
          · exact .series fun _ _ => rfl

theorem advance_blaming (faults : List Mishap)
    (hgate : ∀ s faults, w.gate (s.blaming faults) = w.gate s)
    (h : w.Resembles semantics (w.advanceLog s)) :
    (w.acting semantics).advanceLog (s.blaming faults) = w.advanceLog s ∧
      (w.acting semantics).advance (s.blaming faults) = (w.advance s).blaming
        (faults ++ (w.advanceLog s).filterMap (w.acting semantics).failure) := by
  have hplan : (w.acting semantics).plan (s.blaming faults) = w.plan (s.blaming faults) := rfl
  have hblames := plan_blaming hgate s faults
  simp only [(advance_eq _ _).1, advanceLog, hplan] at h ⊢
  generalize w.plan s = p at h hblames ⊢
  generalize w.plan (s.blaming faults) = p' at hblames ⊢
  cases hblames with
  | quiet turn => simp [Plan.log, Plan.turn]
  | @series event place type f resume hresume =>
    obtain ⟨hlog, hfire⟩ := fire_blaming faults h
    exact ⟨hlog, (congrArg (fun f => settle (resume f)) hfire).trans
      ((congrArg settle (hresume _ _)).trans (settle_blaming _ _))⟩

/-- The bodies of a transition are numbered. -/
theorem advanceLog_numbers (w : Walk σ) (s : WalkState σ) :
    (w.advanceLog s).map (fun x => x.stop.firings) =
      List.range' s.firings (w.advanceLog s).length := by
  have hsuits := (w.advance_eq s).2
  unfold advanceLog
  generalize w.plan s = p at hsuits ⊢
  cases hsuits with
  | goOn | pass | gate | stop | fail => rfl
  | series _ _ hcount =>
    rw [← hcount]
    exact fireLog_numbers ..

/-! ## The whole walk -/

/-- Whether bodies fail or not, a walk goes the same way. -/
theorem loop_blaming (faults : List Mishap)
    (hgate : ∀ s faults, w.gate (s.blaming faults) = w.gate s) (fuel : Nat)
    (h : w.Resembles semantics (w.log fuel s)) :
    (w.acting semantics).log fuel (s.blaming faults) = w.log fuel s ∧
      (w.acting semantics).loop fuel (s.blaming faults) = blaming
        (faults ++ (w.log fuel s).filterMap (w.acting semantics).failure) (w.loop fuel s) := by
  induction fuel generalizing s faults with
  | zero => exact ⟨rfl, rfl⟩
  | succ fuel ih =>
    simp only [log] at h
    obtain ⟨hlog, hadvance⟩ := advance_blaming faults hgate fun x hx =>
      h x (List.mem_append_left _ hx)
    simp only [log, loop, hlog, hadvance]
    cases hturn : w.advance s with
    | goOn t =>
      rw [hturn] at h
      obtain ⟨hlater, hloop⟩ := ih (s := t)
        (faults ++ (w.advanceLog s).filterMap (w.acting semantics).failure)
        fun x hx => h x (List.mem_append_right _ hx)
      simp only [Turn.blaming, hlater, hloop, List.filterMap_append, List.append_assoc, and_self]
    | halt why t => simp [Turn.blaming, Wayfarer.blaming, Journey.blaming, WalkState.blaming]
    | fail e t => simp [Turn.blaming, Wayfarer.blaming, WalkState.blaming]

/-- The bodies of a walk are numbered. -/
theorem log_numbers (w : Walk σ) (fuel : Nat) (s : WalkState σ) :
    (w.log fuel s).map (fun x => x.stop.firings) =
      List.range' s.firings (w.log fuel s).length := by
  induction fuel generalizing s with
  | zero => rfl
  | succ fuel ih =>
    have hcount := w.firings_advance s
    simp only [log, List.map_append, List.length_append, advanceLog_numbers]
    cases hturn : w.advance s with
    | goOn t =>
      rw [hturn] at hcount
      simp only [Turn.state] at hcount
      simp only [ih, hcount, List.range'_append_1]
    | halt | fail => simp

end Walk

/-- Whatever the abilities and the limits, bodies may be decreed to fail or to
succeed: as long as they do the same, the same bodies run, the walk ends the
same way with the same desk, and all that its traveler brings home is the same
apart from faults. These are the failures, one for each body that fails, in the
order in which the bodies run. -/
theorem faults_do_not_steer {σ : Type} [Durable σ] (actor : Actor) (semantics : Semantics σ)
    (limits : Limits) (started : Instant) (traveler : Traveler) (start : ObjectId) (desk : Desk σ)
    (fuel : Nat) (decree : Nat → Option (Except Error Unit)) :
    let w : Walk σ := ⟨actor, semantics, limits.gate started, limits.maxSteps⟩
    let other : Walk σ := ⟨actor, semantics.ruled decree, limits.gate started, limits.maxSteps⟩
    let log := w.log fuel (Walk.initial desk traveler start)
    log.map (fun x => x.stop.firings) = List.range log.length ∧
    other.log fuel (Walk.initial desk traveler start) = log ∧
    other.run fuel traveler start desk =
      blaming (traveler.faults ++ log.filterMap other.failure) (w.run fuel traveler start desk) ∧
    ∀ journey desk', w.run fuel traveler start desk = .ok journey desk' →
      journey.traveler.faults = traveler.faults ++ log.filterMap w.failure := by
  intro w other log
  have hgate : ∀ (s : WalkState σ) faults, w.gate (s.blaming faults) = w.gate s := fun _ _ => rfl
  have hother := Walk.loop_blaming traveler.faults hgate fuel
    (w.resembles_ruled decree log)
  refine ⟨?_, hother.1, hother.2, fun journey desk' hrun => ?_⟩
  · rw [List.range_eq_range']
    exact w.log_numbers fuel (Walk.initial desk traveler start)
  · have hself : w.Resembles w.semantics log := fun _ _ => rfl
    have hfaults := (Walk.loop_blaming traveler.faults hgate fuel hself).2
    have hjourney := hrun.symm.trans (hfaults.trans (congrArg (blaming _) hrun))
    exact congrArg (fun j => j.traveler.faults) (EStateM.Result.ok.inj hjourney).1

end Wayfarer
