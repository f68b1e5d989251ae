import Wayfarer.Vault
import Wayfarer.Proofs.Walking

/-!
# Reading a trace

A trace is read from left to right with the places that were entered and not
left yet, the last one first (`Traces.unexited`). Entering a place puts it on
top; leaving is possible for the place on top only. `Walk.Disciplined` ties what
is read to the stack of the walk: frames that were left already stay on the
stack for a while, but do not count.

* `trace_discipline`: whatever a walk does, its trace can be read to its end.
-/

namespace Wayfarer

namespace Traces

/-- Reads one step of a trace. -/
def read : List ObjectId → TraceStep → Option (List ObjectId)
  | unexited, .entry p => some (p :: unexited)
  | [], .exit _ => none
  | top :: below, .exit p => if top = p then some below else none

/-- The places that were entered and not left, the last one first; nothing if
some place was left that was not the last one of them. -/
def unexited (trace : List TraceStep) : Option (List ObjectId) := trace.foldlM read []

/-- The places entered in a trace. -/
def entries (trace : List TraceStep) : List ObjectId :=
  trace.filterMap fun
    | .entry p => some p
    | .exit _ => none

theorem unexited_append {trace : List TraceStep} {left : List ObjectId} (step : TraceStep)
    (h : unexited trace = some left) : unexited (trace ++ [step]) = read left step := by
  unfold unexited at h ⊢
  rw [List.foldlM_append, h]
  simp

theorem entries_append (trace : List TraceStep) (step : TraceStep) :
    entries (trace ++ [step]) = entries trace ++ entries [step] := by
  simp [entries]

/-- Every place was entered as often as it was left and is waiting to be
left. -/
theorem count_of_unexited {trace : List TraceStep} {left : List ObjectId}
    (h : unexited trace = some left) (p : ObjectId) :
    trace.count (.entry p) = trace.count (.exit p) + left.count p := by
  -- each place is counted on the stack of those that were entered and not left
  suffices hgeneral : ∀ before, trace.foldlM read before = some left →
      before.count p + trace.count (.entry p) = trace.count (.exit p) + left.count p by
    simpa using hgeneral [] h
  clear h
  induction trace with
  | nil =>
    intro before h
    simp only [List.foldlM_nil] at h
    cases h
    simp
  | cons step rest ih =>
    intro before h
    rw [List.foldlM_cons] at h
    cases step with
    | entry q =>
      have hrest := ih (q :: before) h
      by_cases hq : q = p
      · subst hq
        simp only [List.count_cons_self, List.count_cons_of_ne, ne_eq, reduceCtorEq,
          not_false_eq_true] at hrest ⊢
        omega
      · have hne : TraceStep.entry q ≠ .entry p := fun he => hq (TraceStep.entry.inj he)
        simp only [List.count_cons_of_ne hq, List.count_cons_of_ne hne,
          List.count_cons_of_ne, ne_eq, reduceCtorEq, not_false_eq_true] at hrest ⊢
        omega
    | exit q =>
      cases before with
      | nil => cases h
      | cons top below =>
        by_cases htop : top = q
        · subst htop
          have hread : read (top :: below) (.exit top) = some below := by simp [read]
          rw [hread] at h
          have hrest := ih below h
          by_cases hp : top = p
          · subst hp
            simp only [List.count_cons_self, List.count_cons_of_ne, ne_eq, reduceCtorEq,
              not_false_eq_true] at hrest ⊢
            omega
          · have hne : TraceStep.exit top ≠ .exit p := fun he => hp (TraceStep.exit.inj he)
            simp only [List.count_cons_of_ne hp, List.count_cons_of_ne hne, List.count_cons_of_ne,
              ne_eq, reduceCtorEq, not_false_eq_true] at hrest ⊢
            omega
        · have hread : read (top :: below) (.exit q) = none := by simp [read, htop]
          rw [hread] at h
          cases h

end Traces

/-- The state that a transition leads to. -/
def Turn.state {σ : Type} : Turn σ → WalkState σ
  | .goOn s => s
  | .halt _ s => s
  | .fail _ s => s

/-- The places on a stack that were not left yet, the last one first. -/
def unleft (stack : List Frame) : List ObjectId := (stack.filter fun f => !f.exited).map Frame.place

/-- What a firing left behind, whether it failed or not. -/
def Visit.ofResult {σ : Type} : EStateM.Result Error (Visit σ) Unit → Visit σ
  | .ok _ v => v
  | .error _ v => v

namespace Walk

variable {σ : Type} {w : Walk σ} {s t u : WalkState σ} {n : Nat} {place : ObjectId} {type : TypeId}
  {stack below : List Frame} {top : Frame}

/-- No exit ability asks for further places. -/
def QuietExits (w : Walk σ) : Prop :=
  ∀ traveler type, ∀ ability ∈ w.actor.rulebook.behaviors traveler type .exit,
    ∀ stop desk fields,
      (Visit.ofResult (w.semantics ability stop (Visit.start desk fields))).queued = []

/-! ## Firings -/

/-- Firings do not touch the path and the trace. -/
theorem fire_keeps (w : Walk σ) (place : ObjectId) (type : TypeId) (abilities : List Ability)
    (f : Firing σ) : (w.fire place type abilities f).traveler.trace = f.traveler.trace ∧
      (w.fire place type abilities f).traveler.path = f.traveler.path := by
  induction abilities generalizing f with
  | nil => exact ⟨rfl, rfl⟩
  | cons ability rest ih =>
    simp only [fire]
    split
    · split
      · exact ⟨rfl, rfl⟩
      · exact ih _
    · split
      · exact ⟨rfl, rfl⟩
      · exact ih _

theorem fireAll_trace (w : Walk σ) (event : Event) (place : ObjectId) (type : TypeId)
    (f : Firing σ) : (w.fireAll event place type f).traveler.trace = f.traveler.trace :=
  (fire_keeps w place type _ f).1

theorem fireAll_path (w : Walk σ) (event : Event) (place : ObjectId) (type : TypeId)
    (f : Firing σ) : (w.fireAll event place type f).traveler.path = f.traveler.path :=
  (fire_keeps w place type _ f).2

/-- Abilities that ask for no places leave the queue as it is. -/
theorem fire_queue {abilities : List Ability}
    (h : ∀ ability ∈ abilities, ∀ stop desk fields,
      (Visit.ofResult (w.semantics ability stop (Visit.start desk fields))).queued = [])
    (f : Firing σ) : (w.fire place type abilities f).queue = f.queue := by
  induction abilities generalizing f with
  | nil => rfl
  | cons ability rest ih =>
    have hrest := ih fun a ha => h a (List.mem_cons_of_mem _ ha)
    have hfirst := h ability (List.mem_cons_self ..)
    simp only [fire]
    generalize hstop : Stop.mk _ _ place type _ _ = stop
    have hqueued := hfirst stop f.desk f.traveler.fields
    cases hr : w.semantics ability stop (Visit.start f.desk f.traveler.fields) with
    | ok a v =>
      simp only [hr, Visit.ofResult] at hqueued
      simp only [Firing.absorb, hqueued, List.append_nil]
      split
      · rfl
      · exact hrest _
    | error e v =>
      simp only [hr, Visit.ofResult] at hqueued
      simp only [Firing.absorb, hqueued, List.append_nil]
      split
      · rfl
      · exact hrest _

theorem fireAll_queue (h : w.QuietExits) (f : Firing σ) :
    (w.fireAll .exit place type f).queue = f.queue :=
  fire_queue (h f.traveler.type type) f

/-! ## What a transition does -/

/-- What a transition can do to the state, as far as the stack and the trace are
concerned. -/
inductive Moves (w : Walk σ) (s : WalkState σ) : WalkState σ → Prop
  /-- The walk halts. -/
  | stay : Moves w s s
  /-- A place is passed over. -/
  | pass (desk : Desk σ) : s.pending ≠ none → Moves w s { s with desk := desk, pending := none }
  | enter (place : ObjectId) (type : TypeId) (f : Firing σ) : s.pending ≠ none →
      f.traveler.trace = s.traveler.trace ++ [.entry place] →
      f.traveler.path = s.traveler.path ++ [place] →
      Moves w s
        { desk := f.desk, traveler := f.traveler, steps := s.steps + 1, firings := f.count,
          stack := ⟨place, type, f.queue, false⟩ :: s.stack, pending := none }
  | take (next origin : ObjectId) (stack : List Frame) : s.pending = none →
      takeNext s.stack = some (next, origin, stack) →
      Moves w s { s with stack := stack, pending := some (next, some origin) }
  | pop (top : Frame) (below : List Frame) : s.pending = none → takeNext s.stack = none →
      s.stack = top :: below → top.exited = true →
        Moves w s { s with stack := below, pending := none }
  | leave (top : Frame) (below : List Frame) (f : Firing σ) : s.pending = none →
      takeNext s.stack = none → s.stack = top :: below → top.exited = false →
      f.traveler.trace = s.traveler.trace ++ [.exit top.place] →
      f.traveler.path = s.traveler.path → (w.QuietExits → f.queue = []) →
      Moves w s
        { desk := f.desk, traveler := f.traveler, steps := s.steps, firings := f.count,
          stack := { top with exited := true, queue := top.queue ++ f.queue } :: below,
          pending := s.pending }

/-! ## The stack and the trace -/

/-- Taking a destination off a queue changes nothing else about the stack. -/
theorem unleft_of_takeNext {next origin : ObjectId} {stack' : List Frame}
    (h : takeNext stack = some (next, origin, stack')) : unleft stack' = unleft stack := by
  induction stack generalizing stack' with
  | nil => cases h
  | cons f below ih =>
    simp only [takeNext] at h
    cases hq : f.queue with
    | nil =>
      simp only [hq, Option.map_eq_some_iff, Prod.mk.injEq] at h
      obtain ⟨⟨next', origin', below'⟩, hbelow, rfl, rfl, rfl⟩ := h
      have hsame := ih hbelow
      unfold unleft at hsame ⊢
      cases he : f.exited <;> simp [he, hsame]
    | cons first rest =>
      simp only [hq, Option.some.injEq, Prod.mk.injEq] at h
      obtain ⟨rfl, rfl, rfl⟩ := h
      unfold unleft
      cases he : f.exited <;> simp [he]

/-- Nothing on the stack has anything left to visit. -/
theorem queues_of_takeNext (h : takeNext stack = none) : ∀ f ∈ stack, f.queue = [] := by
  induction stack with
  | nil => simp
  | cons f below ih =>
    simp only [takeNext] at h
    cases hq : f.queue with
    | nil =>
      simp only [hq, Option.map_eq_none_iff] at h
      intro f' hf'
      rcases List.mem_cons.1 hf' with rfl | hf'
      · exact hq
      · exact ih h f' hf'
    | cons first rest => simp [hq] at h

theorem takeNext_below (h : takeNext (top :: below) = none) : takeNext below = none := by
  have hq : top.queue = [] := queues_of_takeNext h top (List.mem_cons_self ..)
  simpa [takeNext, hq] using h

theorem unleft_cons (f : Frame) (below : List Frame) :
    unleft (f :: below) = if f.exited then unleft below else f.place :: unleft below := by
  unfold unleft
  cases he : f.exited <;> simp [he]

/-- The trace of a walk so far agrees with its stack, its path and its count of
steps. -/
structure Disciplined (s : WalkState σ) : Prop where
  unexited : Traces.unexited s.traveler.trace = some (unleft s.stack)
  path : s.traveler.path = Traces.entries s.traveler.trace
  steps : s.steps = s.traveler.path.length

theorem Moves.disciplined (h : w.Moves s t) (hd : Disciplined s) : Disciplined t := by
  obtain ⟨hunexited, hpath, hsteps⟩ := hd
  cases h with
  | stay => exact ⟨hunexited, hpath, hsteps⟩
  | pass desk hp => exact ⟨hunexited, hpath, hsteps⟩
  | enter place type f hp htrace hpath' =>
    refine ⟨?_, ?_, ?_⟩
    · show Traces.unexited f.traveler.trace = _
      rw [htrace, Traces.unexited_append _ hunexited, unleft_cons]
      rfl
    · show f.traveler.path = Traces.entries f.traveler.trace
      rw [htrace, hpath', hpath, Traces.entries_append]
      rfl
    · show s.steps + 1 = f.traveler.path.length
      rw [hpath', List.length_append, hsteps]
      rfl
  | take next origin stack hp ht =>
    exact ⟨by rw [unleft_of_takeNext ht]; exact hunexited, hpath, hsteps⟩
  -- a frame is popped only after its place was left
  | pop top below hp ht hs he =>
    rw [hs, unleft_cons, if_pos he] at hunexited
    exact ⟨hunexited, hpath, hsteps⟩
  | leave top below f hp ht hs he htrace hpath' hq =>
    have hleft : unleft s.stack = top.place :: unleft below := by
      rw [hs, unleft_cons, he]
      rfl
    refine ⟨?_, ?_, ?_⟩
    · show Traces.unexited f.traveler.trace = _
      rw [htrace, Traces.unexited_append _ hunexited, unleft_cons, hleft]
      simp [Traces.read]
    · show f.traveler.path = Traces.entries f.traveler.trace
      rw [htrace, hpath', hpath, Traces.entries_append]
      simp [Traces.entries]
    · show s.steps = f.traveler.path.length
      rw [hpath', hsteps]

/-- A walk in which leaving leads nowhere first enters all places and then
leaves them: `gone` are those left so far. -/
def OneWay (s : WalkState σ) : Prop :=
  ∃ gone, s.traveler.trace = s.traveler.path.map .entry ++ gone.map .exit ∧
    s.traveler.path.reverse = gone ++ unleft s.stack ∧
      (gone ≠ [] → s.pending = none ∧ takeNext s.stack = none)

theorem Moves.oneWay (h : w.Moves s t) (hquiet : w.QuietExits) (hs : OneWay s) : OneWay t := by
  obtain ⟨gone, htrace, hpath, hgone⟩ := hs
  cases h with
  | stay => exact ⟨gone, htrace, hpath, hgone⟩
  | pass desk hp =>
    have hnone : gone = [] := Classical.byContradiction fun hne => hp (hgone hne).1
    exact ⟨gone, htrace, hpath, fun hne => absurd hnone hne⟩
  | enter place type f hp htrace' hpath' =>
    -- nothing was left yet, for a place is still to be entered
    have hnone : gone = [] := Classical.byContradiction fun hne => hp (hgone hne).1
    subst hnone
    refine ⟨[], ?_, ?_, fun hne => absurd rfl hne⟩
    · show f.traveler.trace = f.traveler.path.map .entry ++ [].map .exit
      rw [htrace', hpath', htrace]
      simp
    · show f.traveler.path.reverse = [] ++ unleft (⟨place, type, f.queue, false⟩ :: s.stack)
      rw [hpath', List.reverse_append, hpath, unleft_cons]
      simp
  | take next origin stack hp ht =>
    have hnone : gone = [] := by
      apply Classical.byContradiction
      intro hne
      rw [(hgone hne).2] at ht
      cases ht
    refine ⟨gone, htrace, ?_, fun hne => absurd hnone hne⟩
    show s.traveler.path.reverse = gone ++ unleft stack
    rw [unleft_of_takeNext ht, hpath]
  | pop top below hp ht hs he =>
    have hbelow : takeNext below = none := by
      rw [hs] at ht
      exact takeNext_below ht
    rw [hs, unleft_cons, if_pos he] at hpath
    exact ⟨gone, htrace, hpath, fun _ => ⟨rfl, hbelow⟩⟩
  | leave top below f hp ht hs he htrace' hpath' hq =>
    have hleft : unleft s.stack = top.place :: unleft below := by
      rw [hs, unleft_cons, he]
      rfl
    refine ⟨gone ++ [top.place], ?_, ?_, fun _ => ⟨hp, ?_⟩⟩
    · show f.traveler.trace = f.traveler.path.map .entry ++ (gone ++ [top.place]).map .exit
      rw [htrace', hpath', htrace]
      simp
    · show f.traveler.path.reverse = (gone ++ [top.place]) ++ unleft (_ :: below)
      rw [hpath', hpath, hleft, unleft_cons]
      simp
    · rw [hs] at ht
      have htop : top.queue = [] := queues_of_takeNext ht top (List.mem_cons_self ..)
      show takeNext ({ top with exited := true, queue := top.queue ++ f.queue } :: below) = none
      simp [takeNext, htop, hq hquiet, takeNext_below ht]

/-- An exit is noted only when no place has anything left to visit. -/
theorem Moves.queues_of_exit {p : ObjectId} (h : w.Moves s t)
    (ht : t.traveler.trace = s.traveler.trace ++ [.exit p]) :
    s.pending = none ∧ ∀ f ∈ s.stack, f.queue = [] := by
  have hsame : s.traveler.trace ≠ s.traveler.trace ++ [.exit p] := by simp
  cases h with
  | stay => exact absurd ht hsame
  | pass desk hp => exact absurd ht hsame
  | enter place type f hp htrace _ =>
    rw [show f.traveler.trace = s.traveler.trace ++ [.exit p] from ht] at htrace
    simp at htrace
  | take next origin stack hp ht' => exact absurd ht hsame
  | pop top below hp ht' _ _ => exact absurd ht hsame
  | leave top below f hp ht' _ _ _ _ _ => exact ⟨hp, queues_of_takeNext ht'⟩

/-! ## Whole walks -/

theorem state_settle (s : WalkState σ) : (settle s).state = s := by
  unfold settle
  split <;> rfl

theorem settle_ne_completed (s t : WalkState σ) : settle s ≠ .halt .completed t := by
  unfold settle
  split <;> simp

variable [Durable σ]

theorem advance_moves (w : Walk σ) (s : WalkState σ) : w.Moves s (w.advance s).state := by
  -- one case for each thing a walk can do: enter what is pending, take a branch, leave,
  -- or pop
  unfold advance
  cases w.gate s with
  | some why => exact .stay
  | none =>
    simp only
    cases hp : s.pending with
    | some next =>
      obtain ⟨place, origin⟩ := next
      have hpending : s.pending ≠ none := by simp [hp]
      simp only
      split
      · exact .stay
      · unfold enter
        simp only
        cases arrive w.actor place origin s.desk with
        | error e desk => exact .pass desk hpending
        | ok found desk =>
          cases found with
          | none =>
            simp only [state_settle]
            exact .pass desk hpending
          | some seen =>
            simp only [state_settle]
            exact .enter place seen.1 _ hpending (fireAll_trace ..) (fireAll_path ..)
    | none =>
      simp only
      cases ht : takeNext s.stack with
      | some taken => exact .take taken.1 taken.2.1 taken.2.2 hp ht
      | none =>
        cases hs : s.stack with
        | nil => exact .stay
        | cons top below =>
          simp only
          cases he : top.exited with
          | true =>
            simp only [if_true]
            exact .pop top below hp ht hs he
          | false =>
            simp only [Bool.false_eq_true, if_false, leave, state_settle]
            apply Moves.leave top below _ hp ht hs he (fireAll_trace ..) (fireAll_path ..)
            intro hq
            exact fireAll_queue hq _

theorem Leads.disciplined (h : w.Leads n s t) (hd : Disciplined s) : Disciplined t := by
  induction h with
  | refl => exact hd
  | @step n s t u hs _ ih =>
    have hmoves := advance_moves w s
    rw [hs] at hmoves
    exact ih (hmoves.disciplined hd)

theorem Leads.oneWay (h : w.Leads n s t) (hquiet : w.QuietExits) (hs : OneWay s) : OneWay t := by
  induction h with
  | refl => exact hs
  | @step n s t u hgo _ ih =>
    have hmoves := advance_moves w s
    rw [hgo] at hmoves
    exact ih (hmoves.oneWay hquiet hs)

/-- A walk that is not made to look complete from outside completes with an
empty stack only. -/
theorem stack_of_completed (hgate : ∀ s, w.gate s ≠ some .completed)
    (h : w.advance s = .halt .completed t) : t.stack = [] := by
  -- every other transition continues, or halts for another reason
  unfold advance at h
  cases hg : w.gate s with
  | some why =>
    simp only [hg, Turn.halt.injEq] at h
    rw [h.1] at hg
    exact absurd hg (hgate s)
  | none =>
    simp only [hg] at h
    cases hp : s.pending with
    | some next =>
      simp only [hp] at h
      split at h
      · cases h
      · unfold enter at h
        split at h
        · cases h
        · exact absurd h (settle_ne_completed _ _)
        · exact absurd h (settle_ne_completed _ _)
    | none =>
      simp only [hp] at h
      cases ht : takeNext s.stack with
      | some taken =>
        simp only [ht] at h
        cases h
      | none =>
        simp only [ht] at h
        cases hs : s.stack with
        | nil =>
          simp only [hs] at h
          cases h
          exact hs
        | cons top below =>
          simp only [hs] at h
          split at h
          · cases h
          · exact absurd h (settle_ne_completed _ _)

end Walk

theorem Limits.gate_ne_completed {σ : Type} (limits : Limits) (started : Instant)
    (s : WalkState σ) : limits.gate started s ≠ some .completed := by
  simp only [gate]
  split
  · simp
  · split <;> simp

/-- Whatever the rules, the abilities, the graph and the limits, the trace of a
walk can be read to its end: only the place entered last of those not left yet
is left, and nothing is left while there is anything to visit. The path lists
the entries, and a completed walk left every place. If leaving never asks for
more, a completed walk left the places in the reverse order. -/
theorem trace_discipline {σ : Type} [Durable σ] (actor : Actor) (semantics : Semantics σ)
    (limits : Limits) (started : Instant) (type : TypeId) (fields : Fields) (start : ObjectId)
    (desk : Desk σ) (fuel : Nat) {journey : Journey} {desk' : Desk σ}
    (h : Walk.run ⟨actor, semantics, limits.gate started, limits.maxSteps⟩ fuel
      (Traveler.new type fields) start desk = .ok journey desk') :
    let w : Walk σ := ⟨actor, semantics, limits.gate started, limits.maxSteps⟩
    let trace := journey.traveler.trace
    (∃ left, Traces.unexited trace = some left ∧
      (∀ p, trace.count (.entry p) = trace.count (.exit p) + left.count p) ∧
      (journey.halt = .completed → left = [])) ∧
    (∀ n s, w.Leads n (Walk.initial desk (Traveler.new type fields) start) s →
      ∀ p, (w.advance s).state.traveler.trace = s.traveler.trace ++ [.exit p] →
        s.pending = none ∧ ∀ f ∈ s.stack, f.queue = []) ∧
    journey.traveler.path = Traces.entries trace ∧ journey.steps = journey.traveler.path.length ∧
    (w.QuietExits → journey.halt = .completed →
      trace = journey.traveler.path.map .entry ++ journey.traveler.path.reverse.map .exit) := by
  intro w trace
  have hstart : Walk.Disciplined (Walk.initial desk (Traveler.new type fields) start) :=
    ⟨rfl, rfl, rfl⟩
  have hplain : Walk.OneWay (Walk.initial desk (Traveler.new type fields) start) :=
    ⟨[], rfl, rfl, fun hne => absurd rfl hne⟩
  obtain ⟨n, s, t, _, hl, hend⟩ := Walk.stops_of_loop (w := w) h fun d hd => by cases hd
  -- the journey is told by the state in which the walk halted
  obtain ⟨why, hhalt, hjourney⟩ : ∃ why, w.advance s = .halt why t ∧
      journey = ⟨t.traveler, why, t.steps⟩ := by
    rcases hend with ⟨why, hhalt, hok⟩ | ⟨e, _, herror⟩
    · cases hok
      exact ⟨why, hhalt, rfl⟩
    · cases herror
  have hmoves : w.Moves s t := by
    have hmoves := Walk.advance_moves w s
    rwa [hhalt] at hmoves
  have hd : Walk.Disciplined t := hmoves.disciplined (hl.disciplined hstart)
  have hempty : why = .completed → t.stack = [] := by
    intro hwhy
    subst hwhy
    exact Walk.stack_of_completed (limits.gate_ne_completed started) hhalt
  subst hjourney
  refine ⟨⟨unleft t.stack, hd.unexited, Traces.count_of_unexited hd.unexited, ?_⟩, ?_, hd.path,
    hd.steps, ?_⟩
  · intro hwhy
    rw [hempty hwhy]
    rfl
  · intro n' s' _ p hp
    exact (Walk.advance_moves w s').queues_of_exit hp
  · intro hquiet hwhy
    obtain ⟨gone, htrace, hpath, _⟩ := hmoves.oneWay hquiet (hl.oneWay hquiet hplain)
    rw [hempty hwhy] at hpath
    have hgone : t.traveler.path.reverse = gone := by simpa [unleft] using hpath
    show t.traveler.trace = _
    rw [htrace, hgone]

namespace Crossing

/-- A tenant with two places and a road between them. -/
def tenant : RootId := ⟨⟨⟨0⟩⟩⟩

def near : NodeId := ⟨⟨1⟩⟩

def far : NodeId := ⟨⟨2⟩⟩

def road : EdgeId := ⟨⟨3⟩⟩

/-- A desk at which nothing was loaded yet, over a vault with the places and the
road. -/
def desk : Desk Vault :=
  let anchors := [Anchor.ofNode near tenant ⟨⟨⟨4⟩⟩, Fields.empty, [road], []⟩,
    Anchor.ofNode far tenant ⟨⟨⟨4⟩⟩, Fields.empty, [], [road]⟩,
    Anchor.ofEdge road tenant ⟨⟨⟨5⟩⟩, Fields.empty, near, far, true, none⟩]
  let stored := anchors.foldl (fun t a => t.insert a.id { a with version := 1, dirty := false })
    Table.empty
  ⟨Draft.empty, ⟨⟨stored, 1⟩, Cache.new 0 0, ⟨⟨0⟩, 0⟩, 0, Table.empty, Table.empty⟩⟩

/-- The actor that walks for the tenant. -/
def actor : Actor := ⟨default, tenant⟩

end Crossing

/-- A walk that starts on the road gets to the place at its end and comes
back. -/
theorem trace_of_crossing_is_disciplined : ∃ journey desk',
    Walk.run
      ⟨Crossing.actor, fun _ _ => pure (), Limits.unlimited.gate 0, Limits.unlimited.maxSteps⟩
      12 (Traveler.new ⟨⟨6⟩⟩ Fields.empty) Crossing.road Crossing.desk = .ok journey desk' ∧
    journey.traveler.path = [.edge Crossing.road, .node Crossing.far] ∧
    journey.traveler.trace =
      journey.traveler.path.map .entry ++ journey.traveler.path.reverse.map .exit := by
  have hrun : Walk.run ⟨Crossing.actor, fun _ _ => pure (), Limits.unlimited.gate 0,
    Limits.unlimited.maxSteps⟩ 12 (Traveler.new ⟨⟨6⟩⟩ Fields.empty) Crossing.road Crossing.desk =
      .ok _ _ := rfl
  obtain ⟨_, _, _, _, hreverse⟩ := trace_discipline Crossing.actor (fun _ _ => pure ())
    Limits.unlimited 0 ⟨⟨6⟩⟩ Fields.empty Crossing.road Crossing.desk 12 hrun
  exact ⟨_, _, hrun, rfl, hreverse (fun _ _ _ _ _ _ _ => rfl) rfl⟩

end Wayfarer
