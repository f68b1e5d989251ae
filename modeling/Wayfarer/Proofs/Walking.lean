import Wayfarer.Walk

/-!
# Runs of a walk

`Walk.Leads n s t`: the walk gets from state `s` to state `t` in `n` transitions
and goes on from there. `Walk.loop` is the fuelled form of the same thing
(`loop_of_halt`, `loop_of_fail`, `stops_of_loop`).
-/

namespace Wayfarer

/-- No limits at all. -/
def Limits.unlimited : Limits := ⟨none, none, none⟩

namespace Walk

variable {σ : Type} [Durable σ] {w : Walk σ} {s t u : WalkState σ} {n m fuel : Nat}

/-- The walk gets from one state to another in `n` transitions. -/
inductive Leads (w : Walk σ) : Nat → WalkState σ → WalkState σ → Prop
  | refl (s : WalkState σ) : Leads w 0 s s
  | step {n : Nat} {s t u : WalkState σ} :
      w.advance s = .goOn t → Leads w n t u → Leads w (n + 1) s u

/-- After `n` transitions the walk does not go on any more. -/
def Stops (w : Walk σ) (n : Nat) (s : WalkState σ) : Prop :=
  ∃ t, w.Leads n s t ∧ ∀ u, w.advance t ≠ .goOn u

theorem Leads.single (h : w.advance s = .goOn t) : w.Leads 1 s t := .step h (.refl t)

theorem Leads.trans (h : w.Leads n s t) (h' : w.Leads m t u) : w.Leads (n + m) s u := by
  induction h with
  | refl => simpa using h'
  | step hs _ ih =>
    rw [Nat.add_right_comm]
    exact .step hs (ih h')

theorem Leads.pos (h : w.Leads n s t) (hne : s ≠ t) : 0 < n := by
  cases h with
  | refl => exact absurd rfl hne
  | step => exact Nat.succ_pos _

/-- A walk that stops does so behind every state it gets to. -/
theorem Leads.stops (h : w.Leads n s t) (hs : w.Stops m s) : n ≤ m ∧ w.Stops (m - n) t := by
  induction h generalizing m with
  | refl => simpa using hs
  | @step n s t u hst _ ih =>
    obtain ⟨v, hv, hlast⟩ := hs
    cases hv with
    | refl => exact absurd hst (hlast t)
    | @step m _ t' _ hst' hrest =>
      have htt : t' = t := by
        rw [hst] at hst'
        cases hst'
        rfl
      subst htt
      obtain ⟨hle, hstop⟩ := ih ⟨v, hrest, hlast⟩
      have hsub : m + 1 - (n + 1) = m - n := by omega
      rw [hsub]
      exact ⟨by omega, hstop⟩

theorem loop_of_leads (h : w.Leads n s t) (fuel : Nat) : w.loop (n + fuel) s = w.loop fuel t := by
  induction h with
  | refl => simp
  | step hs _ ih =>
    rw [Nat.add_right_comm]
    simp only [loop, hs, ih]

theorem loop_of_halt {h : Halt} (hl : w.Leads n s t) (ht : w.advance t = .halt h u)
    (hn : n < fuel) : w.loop fuel s = .ok ⟨u.traveler, h, u.steps⟩ u.desk := by
  obtain ⟨k, rfl⟩ : ∃ k, fuel = n + (k + 1) := ⟨fuel - n - 1, by omega⟩
  rw [loop_of_leads hl]
  simp only [loop, ht]

theorem loop_of_fail {e : Error} (hl : w.Leads n s t) (ht : w.advance t = .fail e u)
    (hn : n < fuel) : w.loop fuel s = .error e u.desk := by
  obtain ⟨k, rfl⟩ : ∃ k, fuel = n + (k + 1) := ⟨fuel - n - 1, by omega⟩
  rw [loop_of_leads hl]
  simp only [loop, ht]

/-- If the fuel was enough, the walk halted or failed at the last transition. -/
theorem stops_of_loop {r : EStateM.Result Error (Desk σ) Journey} (h : w.loop fuel s = r)
    (hr : ∀ d, r ≠ .error .unfinished d) :
    ∃ n t u, n < fuel ∧ w.Leads n s t ∧
      ((∃ why, w.advance t = .halt why u ∧ r = .ok ⟨u.traveler, why, u.steps⟩ u.desk) ∨
        ∃ e, w.advance t = .fail e u ∧ r = .error e u.desk) := by
  induction fuel generalizing s with
  | zero => exact absurd h.symm (hr s.desk)
  | succ fuel ih =>
    simp only [loop] at h
    cases ha : w.advance s with
    | goOn s' =>
      simp only [ha] at h
      obtain ⟨n, t, u, hn, hl, hend⟩ := ih h
      exact ⟨n + 1, t, u, by omega, .step ha hl, hend⟩
    | halt why u =>
      simp only [ha] at h
      exact ⟨0, s, u, by omega, .refl s, .inl ⟨why, ha, h.symm⟩⟩
    | fail e u =>
      simp only [ha] at h
      exact ⟨0, s, u, by omega, .refl s, .inr ⟨e, ha, h.symm⟩⟩

/-- More fuel than enough changes nothing. -/
theorem loop_mono {r : EStateM.Result Error (Desk σ) Journey} {fuel' : Nat} (h : w.loop fuel s = r)
    (hr : ∀ d, r ≠ .error .unfinished d) (hle : fuel ≤ fuel') : w.loop fuel' s = r := by
  obtain ⟨n, t, u, hn, hl, ⟨why, ht, rfl⟩ | ⟨e, ht, rfl⟩⟩ := stops_of_loop h hr
  · exact loop_of_halt hl ht (by omega)
  · exact loop_of_fail hl ht (by omega)

end Walk

end Wayfarer
