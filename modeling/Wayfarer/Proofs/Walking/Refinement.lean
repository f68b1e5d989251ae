import Wayfarer.Proofs.Walking
import Wayfarer.Proofs.Walking.Wander

/-!
# The stack does what the recursion does

`Walk.Mirrors` relates a state of the stack machine to the result of a part of
the recursion: the machine gets to a stack that depends on the answer, or it
halts or fails as the recursion broke off. Places whose queue is empty stay on
the stack until the walk unwinds. They do not matter, because the machine looks
for the topmost place that has something left to visit: this is where `Idle`
comes in.
-/

namespace Wayfarer

/-- Frames of places that have nothing left to visit. -/
def Idle (frames : List Frame) : Prop := ∀ f ∈ frames, f.queue = []

/-- The frame of a place that was entered and has nothing left to visit. -/
def Entered.frame (e : Entered) : Frame := ⟨e.place, e.type, [], false⟩

/-- A frame with another queue. -/
def Frame.to (f : Frame) (queue : List ObjectId) : Frame := { f with queue := queue }

/-- The stack after more places were entered. -/
def piled (entered : List Entered) (stack : List Frame) : List Frame :=
  entered.reverse.map Entered.frame ++ stack

@[simp] theorem piled_nil (stack : List Frame) : piled [] stack = stack := rfl

theorem piled_append (entered : List Entered) (above below : List Frame) :
    piled entered (above ++ below) = piled entered above ++ below := by
  simp [piled]

theorem piled_frame (e : Entered) (lower : List Entered) (above below : List Frame) :
    piled lower (e.frame :: (above ++ below)) = piled lower (e.frame :: above) ++ below := by
  rw [← piled_append, List.cons_append]

/-- A place, what was entered below it and what was entered beside it. -/
theorem piled_cons (e : Entered) (lower beside : List Entered) (stack : List Frame) :
    piled (e :: lower ++ beside) stack = piled beside (piled lower (e.frame :: stack)) := by
  simp [piled]

theorem Idle.cons {f : Frame} {l : List Frame} (hf : f.queue = []) (h : Idle l) :
    Idle (f :: l) := by
  intro f' hf'
  rcases List.mem_cons.1 hf' with rfl | hf'
  · exact hf
  · exact h f' hf'

theorem Idle.piled {stack : List Frame} (h : Idle stack) (entered : List Entered) :
    Idle (piled entered stack) := by
  intro f hf
  simp only [Wayfarer.piled, List.mem_append, List.mem_map] at hf
  rcases hf with ⟨e, _, rfl⟩ | hf
  · rfl
  · exact h f hf

/-- The state of the stack machine with the data of a trip. -/
def Trip.at {σ : Type} (g : Trip σ) (stack : List Frame)
    (pending : Option (ObjectId × Option ObjectId)) : WalkState σ :=
  ⟨g.desk, g.traveler, g.steps, g.firings, stack, pending⟩

/-- The data of a trip in a state of the stack machine. -/
def WalkState.trip {σ : Type} (s : WalkState σ) : Trip σ := ⟨s.desk, s.traveler, s.steps, s.firings⟩

namespace Walk

variable {σ : Type} [Durable σ] {α β : Type} {w : Walk σ} {s s' : WalkState σ} {g g' : Trip σ}
  {place : ObjectId} {origin : Option ObjectId} {type : TypeId} {queue rest : List ObjectId}
  {above below stack : List Frame} {fuel n : Nat} {next : ObjectId} {f : Frame}

/-- A walk that nobody stops and that may enter any number of places. -/
structure Unbounded (w : Walk σ) : Prop where
  gate : ∀ s, w.gate s = none
  steps : w.maxSteps = none

/-- How the stack machine comes to the end that the recursion came to. -/
def Breaks (w : Walk σ) (s : WalkState σ) (e : Ending) (g : Trip σ) : Prop :=
  ∃ n t u, w.Leads n s t ∧ u.trip = g ∧
    match e with
    | .disengaged => w.advance t = .halt .disengaged u
    | .failed cause => w.advance t = .fail cause u
    | .unfinished => False

/-- From this state the stack machine does what a part of the recursion did. If
that answered, the machine gets to the stack which belongs to the answer. -/
def Mirrors (w : Walk σ) (s : WalkState σ) (stack : α → List Frame) :
    EStateM.Result Ending (Trip σ) α → Prop
  | .ok a g => ∃ n, w.Leads n s (g.at (stack a) none)
  | .error .unfinished _ => True
  | .error .disengaged g => w.Breaks s .disengaged g
  | .error (.failed cause) g => w.Breaks s (.failed cause) g

theorem Breaks.after {e : Ending} (hl : w.Leads n s s') (h : w.Breaks s' e g) : w.Breaks s e g := by
  obtain ⟨m, t, u, ht, hu⟩ := h
  exact ⟨n + m, t, u, hl.trans ht, hu⟩

namespace Mirrors

variable {stackOf : α → List Frame} {stackOf' : β → List Frame}
  {r : EStateM.Result Ending (Trip σ) α} {x : Roam σ α} {k : α → Roam σ β}

theorem after (hl : w.Leads n s s') (h : w.Mirrors s' stackOf r) : w.Mirrors s stackOf r := by
  cases r with
  | ok a g =>
    obtain ⟨m, hm⟩ := h
    exact ⟨n + m, hl.trans hm⟩
  | error e g =>
    cases e with
    | unfinished => trivial
    | disengaged => exact Breaks.after (e := .disengaged) hl h
    | failed cause => exact Breaks.after (e := .failed cause) hl h

theorem bind (h : w.Mirrors s stackOf (x g))
    (hk : ∀ a g', x g = .ok a g' → w.Mirrors (g'.at (stackOf a) none) stackOf' (k a g')) :
    w.Mirrors s stackOf' ((x >>= k) g) := by
  simp only [Bind.bind, EStateM.bind]
  cases hr : x g with
  | ok a g' =>
    simp only [hr] at h ⊢
    obtain ⟨n, hn⟩ := h
    exact after hn (hk a g' hr)
  | error e g' =>
    simp only [hr] at h ⊢
    cases e with
    | unfinished => trivial
    | disengaged => exact h
    | failed cause => exact h

/-- Going on unless the traveler disengaged is what the machine does after each
place. -/
theorem proceed {a : α} {t : WalkState σ} (ht : t = g.at (stackOf a) none)
    (hs : w.advance s = settle t) : w.Mirrors s stackOf (Roam.proceed a g) := by
  subst ht
  unfold Roam.proceed
  unfold settle at hs
  by_cases hd : g.traveler.aborted = true
  · rw [if_pos hd]
    rw [if_pos (show (g.at (stackOf a) none).traveler.aborted = true from hd)] at hs
    exact ⟨0, s, _, .refl s, rfl, hs⟩
  · rw [if_neg hd]
    rw [if_neg (show ¬ (g.at (stackOf a) none).traveler.aborted = true from hd)] at hs
    exact ⟨1, .single hs⟩

end Mirrors

/-! ## Transitions -/

theorem takeNext_of_idle (h : Idle stack) : takeNext stack = none := by
  induction stack with
  | nil => rfl
  | cons f below ih =>
    have hf : f.queue = [] := h f (by simp)
    have hb : Idle below := fun f' hf' => h f' (by simp [hf'])
    simp [takeNext, hf, ih hb]

/-- The next destination is the first of the topmost queue that is not empty. -/
theorem takeNext_append (h : Idle above) :
    takeNext (above ++ f.to (next :: rest) :: below) =
      some (next, f.place, above ++ f.to rest :: below) := by
  induction above with
  | nil => simp [takeNext, Frame.to]
  | cons f' above ih =>
    have hf : f'.queue = [] := h f' (by simp)
    have ha : Idle above := fun f hf => h f (by simp [hf])
    simp [takeNext, hf, ih ha]

variable (hw : w.Unbounded)

include hw in
theorem advance_take (h : Idle above) :
    w.Leads 1 (g.at (above ++ f.to (next :: rest) :: below) none)
      (g.at (above ++ f.to rest :: below) (some (next, some f.place))) := by
  apply Leads.single
  simp only [advance, hw.gate, Trip.at, takeNext_append h]

include hw in
theorem advance_pop (h : Idle below) :
    w.Leads 1 (g.at (⟨place, type, [], true⟩ :: below) none) (g.at below none) := by
  apply Leads.single
  have hnext : takeNext (⟨place, type, [], true⟩ :: below) = none :=
    takeNext_of_idle (Idle.cons rfl h)
  simp [advance, hw.gate, Trip.at, hnext]

include hw in
theorem advance_completed : w.advance (g.at [] none) = .halt .completed (g.at [] none) := by
  simp [advance, hw.gate, Trip.at, takeNext]

/-- The stack after a destination was dealt with. -/
def landed (place : ObjectId) (stack : List Frame) : Option (TypeId × List ObjectId) → List Frame
  | none => stack
  | some (type, queue) => ⟨place, type, queue, false⟩ :: stack

include hw in
/-- The machine enters a place just as the recursion does. -/
theorem alight_mirrors : w.Mirrors (g.at stack (some (place, origin))) (landed place stack)
    (w.alight place origin g) := by
  have hadvance : w.advance (g.at stack (some (place, origin))) =
      w.enter (g.at stack none) place origin := by
    simp [advance, hw.gate, exhausted, hw.steps, Trip.at]
  unfold alight
  unfold enter at hadvance
  cases ha : arrive w.actor place origin g.desk with
  | error e desk =>
    rw [show arrive w.actor place origin (g.at stack none).desk = _ from ha] at hadvance
    exact ⟨0, _, _, .refl _, rfl, hadvance⟩
  | ok found desk =>
    rw [show arrive w.actor place origin (g.at stack none).desk = _ from ha] at hadvance
    cases found with
    | none => exact .proceed rfl hadvance
    | some seen =>
      obtain ⟨type, seeds⟩ := seen
      exact .proceed rfl hadvance

include hw in
/-- The machine leaves a place just as the recursion does. -/
theorem depart_mirrors (e : Entered) (h : Idle below) :
    w.Mirrors (g.at (e.frame :: below) none) (fun queue => ⟨e.place, e.type, queue, true⟩ :: below)
      (w.depart e g) := by
  have hnext : takeNext (e.frame :: below) = none := takeNext_of_idle (Idle.cons rfl h)
  have hexited : e.frame.exited = false := rfl
  have hadvance : w.advance (g.at (e.frame :: below) none) =
      w.leave (g.at (e.frame :: below) none) e.frame below := by
    simp [advance, hw.gate, Trip.at, hnext, hexited]
  unfold depart
  unfold leave at hadvance
  exact .proceed (by simp [Trip.at, Entered.frame]) hadvance

/-! ## From the recursion to the machine -/

include hw in
/-- Entering the places of a queue and everything below them. The machine ends
up with all of them on top of the stack, the last one first, and with the queue
used up. -/
theorem descend_mirrors (h : Idle above) :
    w.Mirrors (g.at (above ++ f.to queue :: below) none)
      (fun entered => piled entered (above ++ f.to [] :: below))
      (w.descend fuel (some f.place) queue g) := by
  induction fuel generalizing queue g above below f with
  | zero => trivial
  | succ fuel ih =>
    cases queue with
    | nil => exact ⟨0, .refl _⟩
    | cons next rest =>
      simp only [descend]
      apply Mirrors.after (advance_take hw h)
      apply Mirrors.bind (alight_mirrors hw)
      intro found g₁ _
      cases found with
      | none => exact ih h
      | some seen =>
        obtain ⟨type, seeds⟩ := seen
        -- the new place becomes the topmost one with something to visit
        have hchild : Idle ([] : List Frame) := fun f hf => by cases hf
        apply Mirrors.bind (ih (f := ⟨next, type, [], false⟩) hchild)
        intro lower g₂ _
        -- then all that was entered below it lies idle above the rest of the queue
        have hidle : Idle (piled lower (Entered.frame ⟨next, type⟩ :: above)) :=
          (Idle.cons rfl h).piled lower
        show w.Mirrors (g₂.at (piled lower (Entered.frame ⟨next, type⟩ ::
          (above ++ f.to rest :: below))) none) _ _
        rw [piled_frame]
        apply Mirrors.bind (ih hidle)
        intro beside g₃ _
        rw [← piled_frame, ← piled_cons]
        exact ⟨0, .refl _⟩

include hw in
/-- Unwinding takes the places off the stack. -/
theorem unwind_mirrors {places : List Entered} (h : Idle below) :
    w.Mirrors (g.at (places.map Entered.frame ++ below) none) (fun _ => below)
      (w.unwind fuel places g) := by
  induction fuel generalizing places g below with
  | zero => trivial
  | succ fuel ih =>
    cases places with
    | nil => exact ⟨0, .refl _⟩
    | cons e rest =>
      simp only [unwind]
      have hrest : Idle (rest.map Entered.frame ++ below) := by
        simpa [piled] using h.piled rest.reverse
      apply Mirrors.bind (depart_mirrors hw e hrest)
      intro queue g₁ _
      have hchild : Idle ([] : List Frame) := fun f hf => by cases hf
      apply Mirrors.bind (descend_mirrors hw (f := ⟨e.place, e.type, [], true⟩) hchild)
      intro more g₂ _
      apply Mirrors.bind (ih (Idle.cons rfl hrest))
      intro _ g₃ _
      apply Mirrors.after (advance_pop hw hrest)
      exact ih h

include hw in
theorem start_mirrors {start : ObjectId} :
    w.Mirrors (g.at [] (some (start, none))) (fun entered => piled entered [])
      (w.descend fuel none [start] g) := by
  have hidle : Idle ([] : List Frame) := fun f hf => by cases hf
  cases fuel with
  | zero => trivial
  | succ fuel =>
    simp only [descend]
    apply Mirrors.bind (alight_mirrors hw)
    intro found g₁ _
    cases found with
    | none =>
      cases fuel with
      | zero => trivial
      | succ fuel => exact ⟨0, .refl _⟩
    | some seen =>
      obtain ⟨type, seeds⟩ := seen
      apply Mirrors.bind (descend_mirrors hw (f := ⟨start, type, [], false⟩) hidle)
      intro lower g₂ _
      cases fuel with
      | zero => trivial
      | succ fuel =>
        simp only [descend]
        have hlast : piled (⟨start, type⟩ :: lower ++ []) [] =
            piled lower (Entered.frame ⟨start, type⟩ :: []) := by
          rw [piled_cons, piled_nil]
        exact ⟨0, hlast ▸ .refl _⟩

include hw in
/-- The whole walk ends with an empty stack. -/
theorem rove_mirrors {start : ObjectId} :
    w.Mirrors (g.at [] (some (start, none))) (fun _ => []) (w.rove fuel start g) := by
  apply Mirrors.bind (start_mirrors hw)
  intro entered g₁ _
  exact unwind_mirrors hw fun f hf => by cases hf

/-! ## From the machine to the recursion -/

/-- What the recursion got to, the machine gets to as well, and stops behind
it. -/
theorem Mirrors.stops {stackOf : α → List Frame} {a : α} (h : w.Mirrors s stackOf (.ok a g))
    (hs : w.Stops n s) : ∃ m ≤ n, w.Stops m (g.at (stackOf a) none) := by
  obtain ⟨k, hk⟩ := h
  obtain ⟨_, hstop⟩ := hk.stops hs
  exact ⟨n - k, Nat.sub_le n k, hstop⟩

include hw in
/-- If the machine stops, then some fuel is enough for the recursion to enter a
queue. The induction is on the number of transitions left. -/
theorem descend_finishes (h : Idle above)
    (hs : w.Stops n (g.at (above ++ f.to queue :: below) none)) :
    ∃ fuel, Roam.Finished (w.descend fuel (some f.place) queue g) := by
  induction n using Nat.strongRecOn generalizing queue g above below f with
  | ind n ih =>
    cases queue with
    | nil => exact ⟨1, .pure []⟩
    | cons next rest =>
      obtain ⟨hn, hpending⟩ := (advance_take hw h).stops hs
      suffices hbody :
          ∃ fuel, Roam.Finished (w.descend (fuel + 1) (some f.place) (next :: rest) g) by
        obtain ⟨fuel, hfuel⟩ := hbody
        exact ⟨fuel + 1, hfuel⟩
      simp only [descend]
      apply Roam.Steady.exists_bind (.const _) (descend_body_steady w _ _ _)
        ⟨0, alight_finished next _⟩
      intro _ found g₁ hr
      have hland : w.Mirrors (g.at (above ++ f.to rest :: below) (some (next, some f.place)))
        (landed next (above ++ f.to rest :: below)) (w.alight next (some f.place) g) :=
          alight_mirrors hw
      rw [hr] at hland
      obtain ⟨m, hm, hstop⟩ := hland.stops hpending
      cases found with
      | none => exact ih m (by omega) h hstop
      | some seen =>
        obtain ⟨type, seeds⟩ := seen
        have hchild : Idle ([] : List Frame) := fun f hf => by cases hf
        have hlower : ∃ fuel, Roam.Finished (w.descend fuel (some next) seeds g₁) :=
          ih m (by omega) (f := ⟨next, type, [], false⟩) hchild hstop
        refine Roam.Steady.exists_bind (descend_steady w _ _) (fun lower => ?_) hlower ?_
        · exact .bind (descend_steady w _ _) fun _ => .const _
        intro fuel lower g₂ hlow
        -- the machine has entered what is below, and goes on with the rest of the queue
        have hmir : w.Mirrors (g₁.at (Frame.to ⟨next, type, [], false⟩ seeds ::
            (above ++ f.to rest :: below)) none)
          (fun lower => piled lower (Entered.frame ⟨next, type⟩ ::
            (above ++ f.to rest :: below))) (w.descend fuel (some next) seeds g₁) :=
              descend_mirrors hw hchild
        rw [hlow] at hmir
        obtain ⟨k, hk, hrest⟩ := hmir.stops hstop
        rw [piled_frame] at hrest
        have hidle : Idle (piled lower (Entered.frame ⟨next, type⟩ :: above)) :=
          (Idle.cons rfl h).piled lower
        have hbeside : ∃ fuel, Roam.Finished (w.descend fuel (some f.place) rest g₂) :=
          ih k (by omega) hidle hrest
        refine Roam.Steady.exists_bind (descend_steady w _ _) (fun _ => .const _) hbeside ?_
        intro _ beside g₃ _
        exact ⟨0, .pure _⟩

include hw in
/-- If the machine stops, then some fuel is enough for the recursion to unwind
the stack. -/
theorem unwind_finishes {places : List Entered} (h : Idle below)
    (hs : w.Stops n (g.at (places.map Entered.frame ++ below) none)) :
    ∃ fuel, Roam.Finished (w.unwind fuel places g) := by
  induction n using Nat.strongRecOn generalizing places g below with
  | ind n ih =>
    cases places with
    | nil => exact ⟨1, .pure ()⟩
    | cons e rest =>
      have hrest : Idle (rest.map Entered.frame ++ below) := by
        simpa [piled] using h.piled rest.reverse
      suffices hbody : ∃ fuel, Roam.Finished (w.unwind (fuel + 1) (e :: rest) g) by
        obtain ⟨fuel, hfuel⟩ := hbody
        exact ⟨fuel + 1, hfuel⟩
      simp only [unwind]
      refine Roam.Steady.exists_bind (.const _) (fun _ => ?_) ⟨0, .proceed _⟩ ?_
      · exact .bind (descend_steady w _ _) fun _ => .bind (unwind_steady w _) fun _ =>
          unwind_steady w _
      intro _ queue g₁ hr
      have hleft := depart_mirrors (g := g) hw e hrest
      rw [hr] at hleft
      -- leaving takes a transition, because the place is marked as left
      obtain ⟨k, hk⟩ := hleft
      have hpos : 0 < k := by
        apply hk.pos
        intro hsame
        have hstack := congrArg WalkState.stack hsame
        simp [Trip.at, Entered.frame] at hstack
      obtain ⟨hle, hstop⟩ := hk.stops hs
      have hchild : Idle ([] : List Frame) := fun f hf => by cases hf
      have hqueue : ∃ fuel, Roam.Finished (w.descend fuel (some e.place) queue g₁) :=
        descend_finishes hw (f := ⟨e.place, e.type, [], true⟩) hchild hstop
      refine Roam.Steady.exists_bind (descend_steady w _ _) (fun _ => ?_) hqueue ?_
      · exact .bind (unwind_steady w _) fun _ => unwind_steady w _
      intro fuel more g₂ hmore
      have hmir : w.Mirrors (g₁.at (Frame.to ⟨e.place, e.type, [], true⟩ queue ::
          (rest.map Entered.frame ++ below)) none)
        (fun more => piled more (Frame.to ⟨e.place, e.type, [], true⟩ [] ::
          (rest.map Entered.frame ++ below))) (w.descend fuel (some e.place) queue g₁) :=
            descend_mirrors hw hchild
      rw [hmore] at hmir
      obtain ⟨m, hm, hmany⟩ := hmir.stops hstop
      have hexited : Idle (Frame.to ⟨e.place, e.type, [], true⟩ [] ::
        (rest.map Entered.frame ++ below)) := Idle.cons rfl hrest
      have hagain : ∃ fuel, Roam.Finished (w.unwind fuel more.reverse g₂) :=
        ih m (by omega) hexited hmany
      refine Roam.Steady.exists_bind (unwind_steady w _) (fun _ => unwind_steady w _) hagain ?_
      intro fuel' _ g₃ hunwound
      have hpopped : w.Mirrors (g₂.at (more.reverse.map Entered.frame ++
          Frame.to ⟨e.place, e.type, [], true⟩ [] :: (rest.map Entered.frame ++ below)) none)
        (fun _ => Frame.to ⟨e.place, e.type, [], true⟩ [] :: (rest.map Entered.frame ++ below))
        (w.unwind fuel' more.reverse g₂) := unwind_mirrors hw hexited
      rw [hunwound] at hpopped
      obtain ⟨j, hj, hlast⟩ := hpopped.stops hmany
      obtain ⟨_, hstop'⟩ := (advance_pop hw hrest).stops hlast
      exact ih (j - 1) (by omega) h hstop'

include hw in
/-- If the machine stops, then some fuel is enough for the whole recursion. -/
theorem rove_finishes {start : ObjectId} (hs : w.Stops n (g.at [] (some (start, none)))) :
    ∃ fuel, Roam.Finished (w.rove fuel start g) := by
  have hidle : Idle ([] : List Frame) := fun f hf => by cases hf
  have hentered : ∃ fuel, Roam.Finished (w.descend fuel none [start] g) := by
    suffices hbody : ∃ fuel, Roam.Finished (w.descend (fuel + 1) none [start] g) by
      obtain ⟨fuel, hfuel⟩ := hbody
      exact ⟨fuel + 1, hfuel⟩
    simp only [descend]
    apply Roam.Steady.exists_bind (.const _) (descend_body_steady w _ _ _)
      ⟨0, alight_finished start _⟩
    intro _ found g₁ hr
    have hland : w.Mirrors (g.at [] (some (start, none))) (landed start [])
      (w.alight start none g) := alight_mirrors hw
    rw [hr] at hland
    obtain ⟨m, _, hstop⟩ := hland.stops hs
    cases found with
    | none => exact ⟨1, .pure []⟩
    | some seen =>
      obtain ⟨type, seeds⟩ := seen
      have hlower : ∃ fuel, Roam.Finished (w.descend fuel (some start) seeds g₁) :=
        descend_finishes hw (f := ⟨start, type, [], false⟩) hidle hstop
      refine Roam.Steady.exists_bind (descend_steady w _ _) (fun lower => ?_) hlower ?_
      · exact .bind (descend_steady w _ _) fun _ => .const _
      intro _ lower g₂ _
      exact ⟨1, .pure _⟩
  apply Roam.Steady.exists_bind (descend_steady w _ _) (fun _ => unwind_steady w _) hentered
  intro fuel entered g₁ hr
  have hmir : w.Mirrors (g.at [] (some (start, none))) (fun entered => piled entered [])
    (w.descend fuel none [start] g) := start_mirrors hw
  rw [hr] at hmir
  obtain ⟨m, _, hstop⟩ := hmir.stops hs
  exact unwind_finishes hw hidle hstop

/-! ## Whole walks -/

include hw in
/-- Wherever the recursion comes to an end, the machine comes to the same
end. -/
theorem run_of_wander {traveler : Traveler} {start : ObjectId} {desk : Desk σ}
    {r : EStateM.Result Error (Desk σ) Journey}
    (h : w.wander fuel traveler start desk = some r) :
    ∃ least, ∀ fuel', least ≤ fuel' → w.run fuel' traveler start desk = r := by
  have hmir : w.Mirrors (initial desk traveler start) (fun _ => [])
    (w.rove fuel start ⟨desk, traveler, 0, 0⟩) := rove_mirrors hw
  unfold wander at h
  cases hr : w.rove fuel start ⟨desk, traveler, 0, 0⟩ with
  | ok _ g =>
    simp only [hr, Option.some.injEq] at h hmir
    obtain ⟨n, hn⟩ := hmir
    refine ⟨n + 1, fun fuel' hle => ?_⟩
    rw [← h]
    exact loop_of_halt hn (advance_completed hw) (by omega)
  | error e g =>
    cases e with
    | unfinished =>
      rw [hr] at h
      cases h
    | disengaged =>
      simp only [hr, Option.some.injEq] at h hmir
      obtain ⟨n, t, u, hl, rfl, hu⟩ := hmir
      refine ⟨n + 1, fun fuel' hle => ?_⟩
      rw [← h]
      exact loop_of_halt hl hu (by omega)
    | failed cause =>
      simp only [hr, Option.some.injEq] at h hmir
      obtain ⟨n, t, u, hl, rfl, hu⟩ := hmir
      refine ⟨n + 1, fun fuel' hle => ?_⟩
      rw [← h]
      exact loop_of_fail hl hu (by omega)

include hw in
/-- Wherever the machine comes to an end, so does the recursion. -/
theorem wander_of_run {traveler : Traveler} {start : ObjectId} {desk : Desk σ}
    {r : EStateM.Result Error (Desk σ) Journey} (h : w.run fuel traveler start desk = r)
    (hr : ∀ d, r ≠ .error .unfinished d) :
    ∃ fuel', w.wander fuel' traveler start desk = some r := by
  obtain ⟨n, t, u, hn, hl, hend⟩ := stops_of_loop h hr
  have hstops : w.Stops n (initial desk traveler start) := by
    refine ⟨t, hl, fun s' hgo => ?_⟩
    rcases hend with ⟨why, ht, _⟩ | ⟨e, ht, _⟩
    · rw [hgo] at ht
      cases ht
    · rw [hgo] at ht
      cases ht
  obtain ⟨enough, hfinished⟩ := rove_finishes (g := ⟨desk, traveler, 0, 0⟩) hw hstops
  have hsome : ∃ r', w.wander enough traveler start desk = some r' := by
    unfold wander
    cases hrove : w.rove enough start ⟨desk, traveler, 0, 0⟩ with
    | ok _ g => exact ⟨_, rfl⟩
    | error e g =>
      cases e with
      | unfinished => exact absurd hrove (hfinished g)
      | disengaged => exact ⟨_, rfl⟩
      | failed cause => exact ⟨_, rfl⟩
  obtain ⟨r', hr'⟩ := hsome
  -- both come to an end, and it is the same one
  obtain ⟨least, hleast⟩ := run_of_wander hw hr'
  have hlater : w.run (max fuel least) traveler start desk = r :=
    loop_mono h hr (Nat.le_max_left fuel least)
  rw [hleast _ (Nat.le_max_right fuel least)] at hlater
  exact ⟨enough, hr'.trans (congrArg some hlater)⟩

end Walk

/-- Without limits the stack machine and the recursion make the same walk: if
one of them comes to an end, so does the other, with the same journey and the
same desk, or with the same failure. -/
theorem walk_by_stack_iff_by_recursion {σ : Type} [Durable σ] (actor : Actor)
    (semantics : Semantics σ) (started : Instant) (traveler : Traveler) (start : ObjectId)
    (desk : Desk σ) :
    let w : Walk σ := ⟨actor, semantics, Limits.unlimited.gate started, Limits.unlimited.maxSteps⟩
    (∀ fuel r, w.wander fuel traveler start desk = some r →
      ∃ least, ∀ fuel', least ≤ fuel' → w.run fuel' traveler start desk = r) ∧
    (∀ fuel r, w.run fuel traveler start desk = r → (∀ d, r ≠ .error .unfinished d) →
      ∃ fuel', w.wander fuel' traveler start desk = some r) := by
  intro w
  have hw : w.Unbounded := ⟨fun s => by simp [w, Limits.gate, Limits.unlimited], rfl⟩
  exact ⟨fun fuel r h => Walk.run_of_wander hw h, fun fuel r h hr => Walk.wander_of_run hw h hr⟩

end Wayfarer
