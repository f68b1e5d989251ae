import Wayfarer.Proofs.Walking.Atomicity
import Wayfarer.Proofs.Walking.Trace

/-!
# Disengaging

The bodies of abilities that a walk runs are listed in order (`Walk.log`), each
with what it saw and with the trace at that moment. The list accompanies
`Walk.loop` and is no part of the walk's state. That it leaves none out is shown
twice: the walk's own count agrees with it (`Walk.firings_advance`), and a walk
with other abilities is the same one if these do the same where the list says so
(`Walk.loop_acting`).

* `Walk.plan` is what a transition does apart from what bodies do in it
  (`Walk.advance_eq`).
* `Walk.fire_log` is about a series, `Walk.advance_log` about a transition,
  `Walk.loop_log` about a walk.
* `disengaging_ends_walk`: a body that disengages is the last one of its walk.
-/

namespace Wayfarer

/-- The line of a trace for an event at a place. -/
def Event.line (event : Event) (place : ObjectId) : TraceStep :=
  match event with
  | .entry => .entry place
  | .exit => .exit place

/-- The body of an ability that a walk runs: what for, what it sees, the visit
it begins with, and the trace of the walk so far. -/
structure Fired (σ : Type) where
  ability : Ability
  event : Event
  stop : Stop
  visit : Visit σ
  trace : List TraceStep

namespace Walk

variable {σ : Type} {w : Walk σ} {event : Event} {place : ObjectId} {type : TypeId}
  {ability : Ability} {rest abilities : List Ability} {f : Firing σ} {s t : WalkState σ}

/-- The visit that a body leaves behind, whether it fails or not. -/
def leaves (w : Walk σ) (x : Fired σ) : Visit σ :=
  Visit.ofResult (w.semantics x.ability x.stop x.visit)

/-- Whether a body sets the traveler's flag. -/
def Disengages (w : Walk σ) (x : Fired σ) : Prop := (w.leaves x).disengaged = true

/-- The body that runs next in a series of firings. -/
def fired (w : Walk σ) (event : Event) (place : ObjectId) (type : TypeId) (ability : Ability)
    (f : Firing σ) : Fired σ where
  ability := ability
  event := event
  stop := ⟨w.actor.rulebook.types, f.traveler.type, place, type, f.traveler.path, f.count⟩
  visit := Visit.start f.desk f.traveler.fields
  trace := f.traveler.trace

/-- The series of firings after a body. -/
def after (w : Walk σ) (x : Fired σ) (f : Firing σ) : Firing σ :=
  match w.semantics x.ability x.stop x.visit with
  | .ok _ v => f.absorb v []
  | .error e v => f.absorb v [⟨x.ability.name, x.stop.here, e⟩]

/-- The bodies that run in a series of firings. -/
def fireLog (w : Walk σ) (event : Event) (place : ObjectId) (type : TypeId) :
    List Ability → Firing σ → List (Fired σ)
  | [], _ => []
  | ability :: rest, f =>
    let x := w.fired event place type ability f
    let f := w.after x f
    x ::
      if f.traveler.aborted || (w.leaves x).skipped then []
      else fireLog w event place type rest f

theorem fire_cons (w : Walk σ) (event : Event) (place : ObjectId) (type : TypeId)
    (ability : Ability) (rest : List Ability) (f : Firing σ) :
    let x := w.fired event place type ability f
    w.fire place type (ability :: rest) f =
      if (w.after x f).traveler.aborted || (w.leaves x).skipped then w.after x f
      else w.fire place type rest (w.after x f) := by
  cases hr : w.semantics ability
    ⟨w.actor.rulebook.types, f.traveler.type, place, type, f.traveler.path, f.count⟩
    (Visit.start f.desk f.traveler.fields) <;>
  simp only [fire, after, leaves, fired, hr, Visit.ofResult]

theorem aborted_after (w : Walk σ) (x : Fired σ) (f : Firing σ) :
    (w.after x f).traveler.aborted = (f.traveler.aborted || (w.leaves x).disengaged) := by
  simp only [after, leaves]
  cases w.semantics x.ability x.stop x.visit <;> rfl

theorem count_after (w : Walk σ) (x : Fired σ) (f : Firing σ) :
    (w.after x f).count = f.count + 1 := by
  simp only [after]
  cases w.semantics x.ability x.stop x.visit <;> rfl

theorem trace_after (w : Walk σ) (x : Fired σ) (f : Firing σ) :
    (w.after x f).traveler.trace = f.traveler.trace := by
  simp only [after]
  cases w.semantics x.ability x.stop x.visit <;> rfl

/-! ## One series of firings -/

/-- What the bodies `log` that ran have to do with the traveler's flag: only the
last of them can have set it, and it is set if that one did. -/
structure Tells (w : Walk σ) (log : List (Fired σ)) (aborted : Bool) : Prop where
  last : ∀ {before x later}, log = before ++ x :: later → w.Disengages x → later = []
  flag : aborted = true ↔ ∃ x ∈ log, w.Disengages x

theorem Tells.nil (w : Walk σ) : w.Tells [] false :=
  ⟨fun h => by simp at h, by simp⟩

theorem Tells.single (w : Walk σ) (x : Fired σ) : w.Tells [x] (w.leaves x).disengaged := by
  refine ⟨fun {before y later} h _ => ?_, by simp [Disengages]⟩
  have hlength := congrArg List.length h
  simp only [List.length_append, List.length_cons, List.length_nil] at hlength
  exact List.eq_nil_of_length_eq_zero (by omega)

/-- Bodies that do not disengage may run before. -/
theorem Tells.append {log log' : List (Fired σ)} {aborted : Bool} (h : w.Tells log false)
    (h' : w.Tells log' aborted) : w.Tells (log ++ log') aborted := by
  have hcalm : ∀ x ∈ log, ¬w.Disengages x := fun x hx hd =>
    Bool.false_ne_true (h.flag.mpr ⟨x, hx, hd⟩)
  constructor
  · intro before x later hsplit hd
    rcases List.append_eq_append_iff.mp hsplit with ⟨mid, rfl, hmid⟩ | ⟨mid, hlog, hmid⟩
    · exact h'.last hmid hd
    · -- a body that disengages is not among the first ones
      cases mid with
      | nil =>
        have hwhole : log' = [] ++ x :: later := hmid.symm
        exact h'.last hwhole hd
      | cons y mid =>
        obtain ⟨rfl, -⟩ := List.cons_eq_cons.mp hmid
        exact absurd hd (hcalm x (by simp [hlog]))
  · rw [h'.flag]
    constructor
    · rintro ⟨x, hx, hd⟩
      exact ⟨x, List.mem_append_right _ hx, hd⟩
    · rintro ⟨x, hx, hd⟩
      rcases List.mem_append.mp hx with hx | hx
      · exact absurd hd (hcalm x hx)
      · exact ⟨x, hx, hd⟩

theorem fire_log (w : Walk σ) (event : Event) (place : ObjectId) (type : TypeId)
    (abilities : List Ability) (hcalm : f.traveler.aborted = false) :
    w.Tells (w.fireLog event place type abilities f)
      (w.fire place type abilities f).traveler.aborted := by
  induction abilities generalizing f with
  | nil =>
    simp only [fireLog, fire, hcalm]
    exact .nil w
  | cons ability rest ih =>
    rw [fire_cons w event]
    simp only [fireLog]
    generalize w.fired event place type ability f = x
    have haborted := aborted_after w x f
    rw [hcalm, Bool.false_or] at haborted
    -- if this body skips the others or disengages, it is the last one
    split
    · rw [haborted]
      exact .single w x
    · rename_i hon
      simp only [Bool.or_eq_true, not_or, Bool.not_eq_true] at hon
      have hfirst := Tells.single w x
      rw [← haborted, hon.1] at hfirst
      exact hfirst.append (ih hon.1)

theorem fire_count (w : Walk σ) (event : Event) (place : ObjectId) (type : TypeId)
    (abilities : List Ability) (f : Firing σ) :
    (w.fire place type abilities f).count =
      f.count + (w.fireLog event place type abilities f).length := by
  induction abilities generalizing f with
  | nil => rfl
  | cons ability rest ih =>
    rw [fire_cons w event]
    simp only [fireLog]
    split
    · rw [count_after]
      rfl
    · rw [ih, count_after, List.length_cons]
      omega

/-- Every body of a series runs at the series' place, for its event and with its
trace. -/
theorem of_mem_fireLog {x : Fired σ} (h : x ∈ w.fireLog event place type abilities f) :
    x.event = event ∧ x.stop.here = place ∧ x.trace = f.traveler.trace := by
  induction abilities generalizing f with
  | nil => simp [fireLog] at h
  | cons ability rest ih =>
    simp only [fireLog, List.mem_cons] at h
    rcases h with rfl | h
    · exact ⟨rfl, rfl, rfl⟩
    · split at h
      · simp at h
      · have hrest := ih h
        rwa [trace_after] at hrest

/-- The same walk with abilities that do other things. -/
def acting (w : Walk σ) (semantics : Semantics σ) : Walk σ := { w with semantics := semantics }

/-- Abilities do the same as in a walk with all bodies of a list. -/
def Follows (w : Walk σ) (semantics : Semantics σ) (log : List (Fired σ)) : Prop :=
  ∀ x ∈ log, semantics x.ability x.stop x.visit = w.semantics x.ability x.stop x.visit

/-- A series of firings depends on nothing but what its bodies do. -/
theorem fire_acting {semantics : Semantics σ}
    (h : w.Follows semantics (w.fireLog event place type abilities f)) :
    (w.acting semantics).fire place type abilities f = w.fire place type abilities f := by
  induction abilities generalizing f with
  | nil => rfl
  | cons ability rest ih =>
    rw [fire_cons w event, fire_cons (w.acting semantics) event]
    have hfired : (w.acting semantics).fired event place type ability f =
        w.fired event place type ability f := rfl
    simp only [fireLog] at h
    rw [hfired]
    generalize w.fired event place type ability f = x at h ⊢
    have hx : (w.acting semantics).semantics x.ability x.stop x.visit =
        w.semantics x.ability x.stop x.visit := h x (List.mem_cons_self ..)
    have hafter : (w.acting semantics).after x f = w.after x f := by simp only [after, hx]
    have hleaves : (w.acting semantics).leaves x = w.leaves x := by simp only [leaves, hx]
    rw [hafter, hleaves]
    split
    · rfl
    · rename_i hon
      rw [if_neg hon] at h
      exact ih fun y hy => h y (List.mem_cons_of_mem x hy)

/-! ## One transition -/

/-- What a transition's turn has to do with the bodies `log` that ran in it. -/
inductive Turned (w : Walk σ) (log : List (Fired σ)) : Turn σ → Prop
  | goOn {s : WalkState σ} : s.traveler.aborted = false → w.Tells log false → Turned w log (.goOn s)
  | stop {h : Halt} {s : WalkState σ} : h ≠ .disengaged → s.traveler.aborted = false → log = [] →
      Turned w log (.halt h s)
  | disengaged {s : WalkState σ} : s.traveler.aborted = true → w.Tells log true →
      (∀ x ∈ log, x.trace = s.traveler.trace ∧ x.trace.getLast? = some (x.event.line x.stop.here)) →
      Turned w log (.halt .disengaged s)
  | fail {e : Error} {s : WalkState σ} : log = [] → Turned w log (.fail e s)

/-- A transition apart from what bodies do in it: its turn, if none run, or else
the series of firings, for an event at a place, and the state in which the walk
is after it. -/
inductive Plan (σ : Type)
  | quiet (turn : Turn σ)
  | series (event : Event) (place : ObjectId) (type : TypeId) (f : Firing σ)
      (resume : Firing σ → WalkState σ)

/-- The turn to which a plan leads. -/
def Plan.turn (w : Walk σ) : Plan σ → Turn σ
  | .quiet turn => turn
  | .series event place type f resume => settle (resume (w.fireAll event place type f))

/-- The bodies that run in a plan. -/
def Plan.log (w : Walk σ) : Plan σ → List (Fired σ)
  | .quiet _ => []
  | .series event place type f _ =>
    w.fireLog event place type (w.actor.rulebook.behaviors f.traveler.type type event) f

/-- A series is for an event at a place that was just written to the trace, and
what it leaves behind is passed on. Without a series, a walk is not disengaged
but from outside. -/
inductive Plan.Suits (w : Walk σ) (s : WalkState σ) : Plan σ → Prop
  | goOn {t : WalkState σ} : t.traveler = s.traveler → t.firings = s.firings →
    Suits w s (.quiet (.goOn t))
  | pass {t : WalkState σ} : t.traveler = s.traveler → t.firings = s.firings →
    Suits w s (.quiet (settle t))
  | gate {h : Halt} : w.gate s = some h → Suits w s (.quiet (.halt h s))
  | stop {h : Halt} : h ≠ .disengaged → Suits w s (.quiet (.halt h s))
  | fail {e : Error} {t : WalkState σ} : t.firings = s.firings → Suits w s (.quiet (.fail e t))
  | series {event : Event} {place : ObjectId} {type : TypeId} {f : Firing σ}
      {resume : Firing σ → WalkState σ} : f.traveler.aborted = s.traveler.aborted →
      f.traveler.trace = s.traveler.trace ++ [event.line place] → f.count = s.firings →
      (∀ f, (resume f).traveler = f.traveler ∧ (resume f).firings = f.count) →
      Suits w s (.series event place type f resume)

/-- A series of firings decides the turn. -/
theorem Turned.settle {before : List TraceStep} (hcalm : f.traveler.aborted = false)
    (htrace : f.traveler.trace = before ++ [event.line place])
    (ht : t.traveler = (w.fireAll event place type f).traveler) :
    w.Turned (w.fireLog event place type (w.actor.rulebook.behaviors f.traveler.type type event) f)
      (settle t) := by
  have htells := fire_log w event place type
    (w.actor.rulebook.behaviors f.traveler.type type event) hcalm
  have hsame : t.traveler.trace = f.traveler.trace := by rw [ht, fireAll_trace]
  have haborted := congrArg Traveler.aborted ht
  simp only [Walk.fireAll] at haborted
  rw [← haborted] at htells
  unfold Walk.settle
  split
  · rename_i hflag
    rw [hflag] at htells
    refine .disengaged hflag htells fun x hx => ?_
    obtain ⟨hevent, hplace, hx⟩ := of_mem_fireLog hx
    rw [hevent, hplace, hx, hsame, htrace]
    simp
  · rename_i hflag
    rw [Bool.not_eq_true] at hflag
    rw [hflag] at htells
    exact .goOn hflag htells

variable [Durable σ]

/-- How a place is entered. -/
def enterPlan (w : Walk σ) (s : WalkState σ) (place : ObjectId) (origin : Option ObjectId) :
    Plan σ :=
  match arrive w.actor place origin s.desk with
  | .error e desk => .quiet (.fail e { s with desk := desk })
  | .ok none desk => .quiet (settle { s with desk := desk })
  | .ok (some (type, seeds)) desk =>
    let t := s.traveler
    let t := { t with path := t.path ++ [place], trace := t.trace ++ [.entry place] }
    .series .entry place type ⟨desk, t, seeds, s.firings⟩ fun f =>
      { s with
        desk := f.desk,
        traveler := f.traveler,
        steps := s.steps + 1,
        firings := f.count,
        stack := ⟨place, type, f.queue, false⟩ :: s.stack }

/-- How the place on top of the stack is left. -/
def leavePlan (s : WalkState σ) (top : Frame) (below : List Frame) : Plan σ :=
  let t := s.traveler
  let t := { t with trace := t.trace ++ [.exit top.place] }
  .series .exit top.place top.placeType ⟨s.desk, t, [], s.firings⟩ fun f =>
    { s with
      desk := f.desk,
      traveler := f.traveler,
      firings := f.count,
      stack := { top with exited := true, queue := top.queue ++ f.queue } :: below }

/-- What a transition does. It depends on the walk, but not on what its
abilities do. -/
def plan (w : Walk σ) (s : WalkState σ) : Plan σ :=
  match w.gate s with
  | some halt => .quiet (.halt halt s)
  | none =>
    match s.pending with
    | some (place, origin) =>
      if w.exhausted s.steps then .quiet (.halt .stepLimit s)
      else w.enterPlan { s with pending := none } place origin
    | none =>
      match takeNext s.stack with
      | some (next, origin, stack) =>
        .quiet (.goOn { s with stack := stack, pending := some (next, some origin) })
      | none =>
        match s.stack with
        | [] => .quiet (.halt .completed s)
        | top :: below =>
          if top.exited then .quiet (.goOn { s with stack := below }) else leavePlan s top below

/-- The bodies that run in one transition. -/
def advanceLog (w : Walk σ) (s : WalkState σ) : List (Fired σ) := (w.plan s).log w

/-- The bodies that a walk runs, in order. -/
def log (w : Walk σ) : Nat → WalkState σ → List (Fired σ)
  | 0, _ => []
  | fuel + 1, s =>
    w.advanceLog s ++
      match w.advance s with
      | .goOn s => log w fuel s
      | .halt _ _ => []
      | .fail _ _ => []

/-- Transitions go by their plans. -/
theorem advance_eq (w : Walk σ) (s : WalkState σ) :
    w.advance s = (w.plan s).turn w ∧ (w.plan s).Suits w s := by
  unfold advance plan
  cases hgate : w.gate s with
  | some why => exact ⟨rfl, .gate hgate⟩
  | none =>
    simp only
    cases s.pending with
    | some next =>
      simp only
      split
      · exact ⟨rfl, .stop (by decide)⟩
      · unfold enter enterPlan
        simp only
        cases arrive w.actor next.1 next.2 s.desk with
        | error e desk => exact ⟨rfl, .fail rfl⟩
        | ok found desk =>
          cases found with
          | none => exact ⟨rfl, .pass rfl rfl⟩
          | some seen => exact ⟨rfl, .series rfl rfl rfl fun _ => ⟨rfl, rfl⟩⟩
    | none =>
      simp only
      cases takeNext s.stack with
      | some taken => exact ⟨rfl, .goOn rfl rfl⟩
      | none =>
        cases s.stack with
        | nil => exact ⟨rfl, .stop (by decide)⟩
        | cons top below =>
          simp only
          split
          · exact ⟨rfl, .goOn rfl rfl⟩
          · exact ⟨rfl, .series rfl rfl rfl fun _ => ⟨rfl, rfl⟩⟩

/-- A transition of a walk that nothing outside makes look disengaged. -/
theorem advance_log (hgate : ∀ s, w.gate s ≠ some .disengaged)
    (hcalm : s.traveler.aborted = false) : w.Turned (w.advanceLog s) (w.advance s) := by
  obtain ⟨hadvance, hsuits⟩ := w.advance_eq s
  rw [hadvance, advanceLog]
  generalize w.plan s = p at hsuits ⊢
  cases hsuits with
  | goOn htraveler => exact .goOn (htraveler ▸ hcalm) (.nil w)
  | pass htraveler =>
    rw [Plan.turn, settle, htraveler, hcalm]
    exact .goOn (htraveler ▸ hcalm) (.nil w)
  | gate hwhy => exact .stop (fun h => hgate s (h ▸ hwhy)) hcalm rfl
  | stop hwhy => exact .stop hwhy hcalm rfl
  | fail => exact .fail rfl
  | series haborted htrace _ hresume =>
    exact .settle (haborted.trans hcalm) htrace (hresume _).1

/-- The walk's own count of firings agrees with the list. -/
theorem firings_advance (w : Walk σ) (s : WalkState σ) :
    (w.advance s).state.firings = s.firings + (w.advanceLog s).length := by
  obtain ⟨hadvance, hsuits⟩ := w.advance_eq s
  rw [hadvance, advanceLog]
  generalize w.plan s = p at hsuits ⊢
  cases hsuits with
  | goOn _ h => exact h
  | pass _ h =>
    rw [Plan.turn, state_settle]
    exact h
  | gate | stop => rfl
  | fail h => exact h
  | @series event place type f _ _ _ hcount hresume =>
    rw [Plan.turn, state_settle, (hresume _).2, fireAll, fire_count, hcount]
    rfl

/-- A transition depends on nothing but what the bodies listed do. -/
theorem advance_acting {semantics : Semantics σ} (h : w.Follows semantics (w.advanceLog s)) :
    (w.acting semantics).advance s = w.advance s := by
  have hplan : (w.acting semantics).plan s = w.plan s := rfl
  rw [(advance_eq _ s).1, (advance_eq w s).1, hplan]
  unfold advanceLog at h
  cases hp : w.plan s with
  | quiet turn => rfl
  | series event place type f resume =>
    rw [hp] at h
    exact congrArg (fun f => settle (resume f)) (fire_acting h)

/-! ## The whole walk -/

/-- What a walk that ran the bodies `log` can end in. -/
inductive Ended (w : Walk σ) (log : List (Fired σ)) : EStateM.Result Error (Desk σ) Journey → Prop
  | stop {journey : Journey} {desk : Desk σ} : journey.halt ≠ .disengaged →
      journey.traveler.aborted = false → w.Tells log false → Ended w log (.ok journey desk)
  | disengaged {journey : Journey} {desk : Desk σ} {before : List (Fired σ)} {x : Fired σ} :
      journey.halt = .disengaged → journey.traveler.aborted = true → w.Tells log true →
      log = before ++ [x] → journey.traveler.trace = x.trace →
      x.trace.getLast? = some (x.event.line x.stop.here) → Ended w log (.ok journey desk)
  | fail {e : Error} {desk : Desk σ} : w.Tells log false → Ended w log (.error e desk)

omit [Durable σ] in
/-- Bodies that do not disengage may run before. -/
theorem Ended.append {log log' : List (Fired σ)} {r : EStateM.Result Error (Desk σ) Journey}
    (h : w.Tells log false) (h' : w.Ended log' r) : w.Ended (log ++ log') r := by
  cases h' with
  | stop hhalt haborted htells => exact .stop hhalt haborted (h.append htells)
  | @disengaged _ _ before x hhalt haborted htells hlog htrace hlast =>
    have hwhole : log ++ log' = log ++ before ++ [x] := by rw [hlog, List.append_assoc]
    exact .disengaged hhalt haborted (h.append htells) hwhole htrace hlast
  | fail htells => exact .fail (h.append htells)

theorem loop_log (hgate : ∀ s, w.gate s ≠ some .disengaged) (fuel : Nat)
    (hcalm : s.traveler.aborted = false) : w.Ended (w.log fuel s) (w.loop fuel s) := by
  induction fuel generalizing s with
  | zero => exact .fail (.nil w)
  | succ fuel ih =>
    have hturn := advance_log hgate hcalm
    simp only [log, loop]
    cases hadvance : w.advance s with
    | goOn t =>
      rw [hadvance] at hturn
      cases hturn with
      | goOn hcalm' htells => exact (ih hcalm').append htells
    | halt why t =>
      rw [hadvance] at hturn
      simp only [List.append_nil]
      cases hturn with
      | stop hwhy hcalm' hlog =>
        rw [hlog]
        exact .stop hwhy hcalm' (.nil w)
      | disengaged haborted htells hplace =>
        -- the flag was set in this very transition, so there is a body that set it
        obtain ⟨x, hx, hd⟩ := htells.flag.mp rfl
        obtain ⟨before, later, hsplit⟩ := List.append_of_mem hx
        obtain rfl := htells.last hsplit hd
        obtain ⟨htrace, hlast⟩ := hplace x hx
        exact .disengaged rfl haborted htells hsplit htrace.symm hlast
    | fail e t =>
      rw [hadvance] at hturn
      cases hturn with
      | fail hlog =>
        rw [hlog, List.append_nil]
        exact .fail (.nil w)

/-- A walk depends on nothing but what the bodies listed do: there are no
others. -/
theorem loop_acting {semantics : Semantics σ} (fuel : Nat)
    (h : w.Follows semantics (w.log fuel s)) :
    (w.acting semantics).loop fuel s = w.loop fuel s := by
  induction fuel generalizing s with
  | zero => rfl
  | succ fuel ih =>
    simp only [log] at h
    have hadvance : (w.acting semantics).advance s = w.advance s :=
      advance_acting fun x hx => h x (List.mem_append_left _ hx)
    simp only [loop, hadvance]
    cases hturn : w.advance s with
    | goOn t =>
      rw [hturn] at h
      exact ih fun x hx => h x (List.mem_append_right _ hx)
    | halt | fail => rfl

end Walk

theorem Limits.gate_ne_disengaged {σ : Type} (limits : Limits) (started : Instant)
    (s : WalkState σ) : limits.gate started s ≠ some .disengaged := by
  simp only [gate]
  split
  · simp
  · split <;> simp

/-- Whatever the abilities and the limits, a body that disengages is the last
one that runs, the walk ends there and then as disengaged, and the last line of
its trace is for the place and the event of that body. A walk that ends is
disengaged if and only if the flag is set, and the flag is set if and only if
some body disengaged. -/
theorem disengaging_ends_walk {σ : Type} [Durable σ] (actor : Actor) (semantics : Semantics σ)
    (limits : Limits) (started : Instant) (traveler : Traveler) (start : ObjectId) (desk : Desk σ)
    (fuel : Nat) (hcalm : traveler.aborted = false) :
    let w : Walk σ := ⟨actor, semantics, limits.gate started, limits.maxSteps⟩
    let log := w.log fuel (Walk.initial desk traveler start)
    (∀ before x later, log = before ++ x :: later → w.Disengages x →
      later = [] ∧ ∃ journey desk', w.run fuel traveler start desk = .ok journey desk' ∧
        journey.halt = .disengaged ∧ journey.traveler.aborted = true ∧
        journey.traveler.trace = x.trace ∧
        x.trace.getLast? = some (x.event.line x.stop.here)) ∧
    (∀ journey desk', w.run fuel traveler start desk = .ok journey desk' →
      (journey.halt = .disengaged ↔ journey.traveler.aborted = true) ∧
      (journey.traveler.aborted = true ↔ ∃ x ∈ log, w.Disengages x)) := by
  intro w log
  have hended : w.Ended log (w.run fuel traveler start desk) :=
    Walk.loop_log (limits.gate_ne_disengaged started) fuel hcalm
  constructor
  · intro before x later hsplit hd
    have hset : ∃ x ∈ log, w.Disengages x := ⟨x, by simp [hsplit], hd⟩
    generalize w.run fuel traveler start desk = outcome at hended
    cases hended with
    | stop _ _ htells => exact absurd (htells.flag.mpr hset) Bool.false_ne_true
    | @disengaged journey desk' before' y hhalt haborted htells hlog htrace hlast =>
      obtain rfl := htells.last hsplit hd
      obtain ⟨-, hxy⟩ := List.append_inj' (hlog.symm.trans hsplit) rfl
      obtain rfl := List.singleton_inj.mp hxy
      exact ⟨rfl, journey, desk', rfl, hhalt, haborted, htrace, hlast⟩
    | fail htells => exact absurd (htells.flag.mpr hset) Bool.false_ne_true
  · intro journey desk' hrun
    rw [hrun] at hended
    cases hended with
    | stop hhalt haborted htells =>
      rw [haborted]
      exact ⟨by simp [hhalt], htells.flag⟩
    | disengaged hhalt haborted htells =>
      rw [haborted]
      exact ⟨by simp [hhalt], htells.flag⟩

namespace Crossing

/-- An actor for the tenant whose hosts do something wherever they enter. -/
def host : Actor := ⟨Travel.hospitality, tenant⟩

/-- Asks for the start once more and disengages, at the far end only; then
fails. -/
def turnBack : Conduct Unit := do
  if (← Conduct.stop).here = .node far then
    Conduct.visit [.node near]
    Conduct.deed .disengage
    throw (.notFound (.node far))

/-- A walk of a host from the road. -/
def walk : Walk Vault :=
  ⟨host, fun _ stop => turnBack.run host stop, Limits.unlimited.gate 0, Limits.unlimited.maxSteps⟩

def guest : Traveler := Traveler.new (TypeId.ofName "host") Fields.empty

theorem log_walk : ((walk.log 12 (Walk.initial desk guest (.edge road))).map fun x =>
    (x.event.line x.stop.here, (walk.leaves x).disengaged)) =
      [(.entry (.edge road), false), (.entry (.node far), true)] := by
  decide +kernel

end Crossing

/-- The far end is entered from the road, and neither of them is left any
more. -/
theorem disengaging_ends_crossing : ∃ journey desk',
    Crossing.walk.run 12 Crossing.guest (.edge Crossing.road) Crossing.desk = .ok journey desk' ∧
    journey.halt = .disengaged ∧ journey.traveler.aborted = true ∧
    journey.traveler.trace.getLast? = some (.entry (.node Crossing.far)) := by
  have hlog := Crossing.log_walk
  simp only [List.map_eq_cons_iff, List.map_eq_nil_iff, Prod.mk.injEq] at hlog
  obtain ⟨x, _, hlog, -, y, _, rfl, ⟨hline, hd⟩, rfl⟩ := hlog
  obtain ⟨-, journey, desk', hrun, hhalt, haborted, htrace, hlast⟩ :=
    (disengaging_ends_walk Crossing.host (fun _ stop => Crossing.turnBack.run Crossing.host stop)
      Limits.unlimited 0 Crossing.guest (.edge Crossing.road) Crossing.desk 12 rfl).1
        [x] y [] hlog hd
  exact ⟨journey, desk', hrun, hhalt, haborted, by rw [htrace, hlast, hline]⟩

end Wayfarer
