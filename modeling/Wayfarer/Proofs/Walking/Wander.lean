import Wayfarer.Walk

/-!
# Walks by recursion

The same walk without a stack. `Walk.descend` enters destinations one after
another, and each of them with everything below it before the next one;
`Walk.unwind` leaves the places that were entered, the last one first, and goes
wherever the leaving leads to in between. A walk may go on for ever, so the
recursion is given fuel; it comes to an end if it does not run out of it.
-/

namespace Wayfarer

/-- What changes in the course of a walk. -/
structure Trip (σ : Type) where
  desk : Desk σ
  traveler : Traveler
  steps : Nat
  firings : Nat

/-- A place that was entered, with its type. -/
structure Entered where
  place : ObjectId
  type : TypeId

/-- Why the recursion broke off. -/
inductive Ending
  | disengaged
  | failed (cause : Error)
  | unfinished

/-- A part of a walk. -/
abbrev Roam (σ : Type) := EStateM Ending (Trip σ)

/-- Goes on unless the traveler disengaged. -/
def Roam.proceed {σ α : Type} (a : α) : Roam σ α := fun g =>
  if g.traveler.aborted then .error .disengaged g else .ok a g

/-- A result for which there was enough fuel. -/
def Roam.Finished {σ α : Type} (r : EStateM.Result Ending (Trip σ) α) : Prop :=
  ∀ g, r ≠ .error .unfinished g

namespace Walk

variable {σ : Type} [Durable σ]

/-- Enters a place that was asked for at `origin`: the answer is its type and
the places to visit from it. A place that is missing or may not be read is
passed over. -/
def alight (w : Walk σ) (place : ObjectId) (origin : Option ObjectId) :
    Roam σ (Option (TypeId × List ObjectId)) := fun g =>
  match arrive w.actor place origin g.desk with
  | .error e desk => .error (.failed e) { g with desk := desk }
  | .ok none desk => Roam.proceed none { g with desk := desk }
  | .ok (some (type, seeds)) desk =>
    let t := { g.traveler with
      path := g.traveler.path ++ [place],
      trace := g.traveler.trace ++ [.entry place] }
    let f := w.fireAll .entry place type ⟨desk, t, seeds, g.firings⟩
    Roam.proceed (some (type, f.queue)) ⟨f.desk, f.traveler, g.steps + 1, f.count⟩

/-- Leaves a place: the answer is where the leaving leads to. -/
def depart (w : Walk σ) (e : Entered) : Roam σ (List ObjectId) := fun g =>
  let t := { g.traveler with trace := g.traveler.trace ++ [.exit e.place] }
  let f := w.fireAll .exit e.place e.type ⟨g.desk, t, [], g.firings⟩
  Roam.proceed f.queue ⟨f.desk, f.traveler, g.steps, f.count⟩

/-- Enters the places of a queue, each with everything below it. The answer
lists the places that were entered, in that order. -/
def descend (w : Walk σ) : Nat → Option ObjectId → List ObjectId → Roam σ (List Entered)
  | 0, _, _ => throw .unfinished
  | _ + 1, _, [] => pure []
  | fuel + 1, origin, next :: rest => do
    match ← w.alight next origin with
    | none => descend w fuel origin rest
    | some (type, queue) =>
      let below ← descend w fuel (some next) queue
      let beside ← descend w fuel origin rest
      pure (⟨next, type⟩ :: below ++ beside)

/-- Leaves places one after another. Wherever leaving one of them leads to is
entered, and left again, before the next one is left. -/
def unwind (w : Walk σ) : Nat → List Entered → Roam σ Unit
  | 0, _ => throw .unfinished
  | _ + 1, [] => pure ()
  | fuel + 1, e :: rest => do
    let queue ← w.depart e
    let more ← w.descend fuel (some e.place) queue
    unwind w fuel more.reverse
    unwind w fuel rest

/-- A whole walk: everything is entered, and then left. -/
def rove (w : Walk σ) (fuel : Nat) (start : ObjectId) : Roam σ Unit := do
  let entered ← w.descend fuel none [start]
  w.unwind fuel entered.reverse

/-- The outcome of the walk; nothing if the fuel ran out. -/
def wander (w : Walk σ) (fuel : Nat) (traveler : Traveler) (start : ObjectId) (desk : Desk σ) :
    Option (EStateM.Result Error (Desk σ) Journey) :=
  match w.rove fuel start ⟨desk, traveler, 0, 0⟩ with
  | .ok _ g => some (.ok ⟨g.traveler, .completed, g.steps⟩ g.desk)
  | .error .disengaged g => some (.ok ⟨g.traveler, .disengaged, g.steps⟩ g.desk)
  | .error (.failed e) g => some (.error e g.desk)
  | .error .unfinished _ => none

end Walk

/-! ## Fuel -/

namespace Roam

variable {σ α β : Type} {x x' : Roam σ α} {f f' : α → Roam σ β} {g : Trip σ}
  {X : Nat → Roam σ α} {K : Nat → α → Roam σ β}

theorem Finished.pure (a : α) : Finished ((pure a : Roam σ α) g) := fun g' h => by cases h

theorem Finished.proceed (a : α) : Finished (Roam.proceed a g) := by
  intro g' h
  unfold Roam.proceed at h
  by_cases hd : g.traveler.aborted = true
  · rw [if_pos hd] at h
    cases h
  · rw [if_neg hd] at h
    cases h

theorem Finished.bind (h : Finished (x g)) (hf : ∀ a g', x g = .ok a g' → Finished (f a g')) :
    Finished ((x >>= f) g) := by
  simp only [Bind.bind, EStateM.bind]
  cases hr : x g with
  | ok a g' => exact hf a g' hr
  | error e g' =>
    intro g₁ hg
    cases hg
    exact h g' hr

/-- If both parts of some work keep their result when they had enough fuel, so
does the whole. -/
theorem Finished.bind_congr (h : Finished ((x >>= f) g)) (hx : Finished (x g) → x' g = x g)
    (hf : ∀ a g', x g = .ok a g' → Finished (f a g') → f' a g' = f a g') :
    (x' >>= f') g = (x >>= f) g := by
  simp only [Bind.bind, EStateM.bind] at h ⊢
  cases hr : x g with
  | ok a g' =>
    simp only [hr] at h
    rw [hx (by rw [hr]; intro g₁ hg; cases hg), hr]
    exact hf a g' hr h
  | error e g' =>
    simp only [hr] at h
    rw [hx (by rw [hr]; intro g₁ hg; cases hg; exact h g' rfl), hr]

/-- More fuel than enough changes nothing. -/
def Steady (X : Nat → Roam σ α) : Prop :=
  ∀ n m g, Finished (X n g) → n ≤ m → X m g = X n g

theorem Steady.const (x : Roam σ α) : Steady fun _ => x := fun _ _ _ _ _ => rfl

theorem Steady.bind (hX : Steady X) (hK : ∀ a, Steady fun n => K n a) :
    Steady fun n => X n >>= K n := fun n m g h hle =>
  h.bind_congr (fun hx => hX n m g hx hle) fun a g' _ hk => hK a n m g' hk hle

/-- If some fuel is enough for either part of some work, some is enough for the
whole. -/
theorem Steady.exists_bind (hX : Steady X) (hK : ∀ a, Steady fun n => K n a)
    (hx : ∃ n, Finished (X n g)) (hk : ∀ n a g', X n g = .ok a g' → ∃ m, Finished (K m a g')) :
    ∃ n, Finished ((X n >>= K n) g) := by
  obtain ⟨n, hn⟩ := hx
  cases hr : X n g with
  | ok a g' =>
    obtain ⟨m, hm⟩ := hk n a g' hr
    have hsame : X (max n m) g = X n g := hX _ _ _ hn (Nat.le_max_left n m)
    refine ⟨max n m, Finished.bind (hsame ▸ hn) fun a' g₁ hok => ?_⟩
    rw [hsame, hr] at hok
    cases hok
    have hlater : K (max n m) a g' = K m a g' := hK a _ _ _ hm (Nat.le_max_right n m)
    rw [hlater]
    exact hm
  | error e g' =>
    refine ⟨n, Finished.bind hn fun a g₁ hok => ?_⟩
    rw [hr] at hok
    cases hok

end Roam

namespace Walk

variable {σ : Type} [Durable σ] {w : Walk σ} {g : Trip σ}

theorem alight_finished (place : ObjectId) (origin : Option ObjectId) :
    Roam.Finished (w.alight place origin g) := by
  unfold alight
  cases arrive w.actor place origin g.desk with
  | error e desk =>
    intro g' h
    cases h
  | ok found desk =>
    cases found with
    | none => exact .proceed none
    | some seen => exact .proceed _

theorem descend_steady (w : Walk σ) (origin : Option ObjectId) (queue : List ObjectId) :
    Roam.Steady fun fuel => w.descend fuel origin queue := by
  intro fuel fuel' g h hle
  induction fuel generalizing fuel' origin queue g with
  | zero => exact absurd rfl (h g)
  | succ fuel ih =>
    obtain ⟨more, rfl⟩ : ∃ more, fuel' = more + 1 := ⟨fuel' - 1, by omega⟩
    have hmore : fuel ≤ more := by omega
    cases queue with
    | nil => rfl
    | cons next rest =>
      simp only [descend] at h ⊢
      apply h.bind_congr (fun _ => rfl)
      intro found g₁ _ h₁
      cases found with
      | none => exact ih origin rest _ _ h₁ hmore
      | some seen =>
        apply h₁.bind_congr fun hb => ih _ _ _ _ hb hmore
        intro below g₂ _ h₂
        exact h₂.bind_congr (fun hb => ih _ _ _ _ hb hmore) fun _ _ _ _ => rfl

theorem unwind_steady (w : Walk σ) (places : List Entered) :
    Roam.Steady fun fuel => w.unwind fuel places := by
  intro fuel fuel' g h hle
  induction fuel generalizing fuel' places g with
  | zero => exact absurd rfl (h g)
  | succ fuel ih =>
    obtain ⟨more, rfl⟩ : ∃ more, fuel' = more + 1 := ⟨fuel' - 1, by omega⟩
    have hmore : fuel ≤ more := by omega
    cases places with
    | nil => rfl
    | cons e rest =>
      simp only [unwind] at h ⊢
      apply h.bind_congr (fun _ => rfl)
      intro queue g₁ _ h₁
      apply h₁.bind_congr fun hd => descend_steady w _ _ _ _ _ hd hmore
      intro entered g₂ _ h₂
      exact h₂.bind_congr (fun hu => ih _ _ _ hu hmore) fun _ _ _ h₃ => ih rest _ _ h₃ hmore

/-- What remains to be done after a destination was dealt with. -/
theorem descend_body_steady (w : Walk σ) (origin : Option ObjectId) (place : ObjectId)
    (rest : List ObjectId) (found : Option (TypeId × List ObjectId)) :
    Roam.Steady fun fuel => (match found with
      | none => w.descend fuel origin rest
      | some (type, queue) => do
        let below ← w.descend fuel (some place) queue
        let beside ← w.descend fuel origin rest
        pure (⟨place, type⟩ :: below ++ beside)) := by
  cases found with
  | none => exact descend_steady w origin rest
  | some seen =>
    obtain ⟨type, queue⟩ := seen
    apply Roam.Steady.bind (descend_steady w _ _)
    intro below
    exact Roam.Steady.bind (descend_steady w _ _) fun _ => .const _

end Walk

end Wayfarer
