import Wayfarer.Desk

/-!
# Outcomes of work

`Work.Ends w d Q E` says what becomes of work `w` begun at desk `d`: either it
answers, and `Q` holds of the answer and the desk it leaves, or it fails, and
`E` holds of the cause and the desk. There is one rule for each way of putting
work together; the rules for lists take an invariant that knows what of the list
is left. `Work.Keeps I w` is the special case of a condition on desks that holds
afterwards whatever the outcome.
-/

namespace Wayfarer

variable {σ α β : Type}

/-- What becomes of work begun at a desk. -/
def Work.Ends (w : Work σ α) (d : Desk σ) (Q : α → Desk σ → Prop) (E : Error → Desk σ → Prop) :
    Prop :=
  match w d with
  | .ok a d' => Q a d'
  | .error e d' => E e d'

/-- Work after which a condition holds again, whether it answers or fails. -/
def Work.Keeps (I : Desk σ → Prop) (w : Work σ α) : Prop :=
  ∀ d, I d → Work.Ends w d (fun _ => I) (fun _ => I)

/-- Whether work begun at a desk answers, with an answer and a desk that pass a
test. -/
def Work.answersWith (w : Work σ α) (d : Desk σ) (test : α → Desk σ → Bool) : Bool :=
  match w d with
  | .ok a d' => test a d'
  | .error _ _ => false

namespace Work

variable {w : Work σ α} {f : α → Work σ β} {d : Desk σ} {I : Desk σ → Prop}
  {Q Q' : α → Desk σ → Prop} {R : β → Desk σ → Prop} {E E' : Error → Desk σ → Prop}

theorem Ends.of_ok {a : α} {d' : Desk σ} (h : w d = .ok a d') (hQ : Q a d') : Ends w d Q E := by
  simpa [Ends, h] using hQ

theorem Ends.of_error {e : Error} {d' : Desk σ} (h : w d = .error e d') (hE : E e d') :
    Ends w d Q E := by
  simpa [Ends, h] using hE

theorem Ends.ok {a : α} {d' : Desk σ} (h : Ends w d Q E) (hw : w d = .ok a d') : Q a d' := by
  simpa [Ends, hw] using h

theorem Ends.error {e : Error} {d' : Desk σ} (h : Ends w d Q E) (hw : w d = .error e d') :
    E e d' := by
  simpa [Ends, hw] using h

/-- Work that cannot fail answers. -/
theorem Ends.exists_ok (h : Ends w d Q fun _ _ => False) : ∃ a d', w d = .ok a d' ∧ Q a d' := by
  cases hw : w d with
  | ok a d' => exact ⟨a, d', rfl, h.ok hw⟩
  | error e d' => exact (h.error hw).elim

theorem exists_of_answersWith {test : α → Desk σ → Bool} (h : w.answersWith d test = true) :
    ∃ a d', w d = .ok a d' ∧ test a d' = true := by
  unfold answersWith at h
  split at h
  · exact ⟨_, _, ‹_›, h⟩
  · cases h

theorem Ends.mono (h : Ends w d Q E) (hQ : ∀ a d', Q a d' → Q' a d')
    (hE : ∀ e d', E e d' → E' e d') : Ends w d Q' E' := by
  unfold Ends at h ⊢
  split <;> rename_i hw <;> rw [hw] at h
  · exact hQ _ _ h
  · exact hE _ _ h

theorem Ends.imp (h : Ends w d Q E) (hQ : ∀ a d', Q a d' → Q' a d') : Ends w d Q' E :=
  h.mono hQ fun _ _ he => he

/-- Of work that cannot fail anything may be said for the case that it does. -/
theorem Ends.surely (h : Ends w d Q fun _ _ => False) : Ends w d Q E :=
  h.mono (fun _ _ ha => ha) fun _ _ hf => hf.elim

/-- Two conditions on the outcome of one piece of work hold together. -/
theorem Ends.and (h : Ends w d Q E) (h' : Ends w d Q' E') :
    Ends w d (fun a d' => Q a d' ∧ Q' a d') (fun e d' => E e d' ∧ E' e d') := by
  unfold Ends at h h' ⊢
  split <;> rename_i hw <;> rw [hw] at h h' <;> exact ⟨h, h'⟩

theorem Ends.trivial : Ends w d (fun _ _ => True) fun _ _ => True := by
  unfold Ends
  split <;> exact True.intro

theorem Ends.pure {a : α} (h : Q a d) : Ends (pure a) d Q E := h

theorem Ends.throw {e : Error} (h : E e d) : Ends (throw e : Work σ α) d Q E := h

theorem Ends.bind (h : Ends w d (fun a d' => Ends (f a) d' R E) E) : Ends (w >>= f) d R E := by
  unfold Ends at h ⊢
  simp only [Bind.bind, EStateM.bind]
  split at h <;> rename_i hw <;> rw [hw] <;> exact h

/-- Work and what follows it, either of which may be what fails. -/
theorem Ends.andThen (h : Ends w d Q E) (hf : ∀ a d', Q a d' → Ends (f a) d' R E) :
    Ends (w >>= f) d R E :=
  .bind (h.imp hf)

theorem Ends.get {Q : Desk σ → Desk σ → Prop} (h : Q d d) : Ends get d Q E := h

theorem Ends.set {d' : Desk σ} {Q : PUnit → Desk σ → Prop} (h : Q ⟨⟩ d') : Ends (set d') d Q E := h

theorem Ends.modify {g : Desk σ → Desk σ} {Q : PUnit → Desk σ → Prop} (h : Q ⟨⟩ (g d)) :
    Ends (modify g) d Q E := h

/-- A failure that is caught leaves the desk as the failed work left it. -/
theorem Ends.tryCatch {g : Error → Work σ α}
    (h : Ends w d Q fun e d' => Ends (g e) d' Q E) : Ends (tryCatch w g) d Q E := by
  unfold Ends at h ⊢
  change match EStateM.tryCatch w g d with | .ok a d' => Q a d' | .error e d' => E e d'
  delta EStateM.tryCatch
  split at h <;> rename_i hw <;> rw [hw] <;> exact h

/-! ## Work along a list -/

section Lists

variable {γ : Type} {l : List γ} {J : List γ → Desk σ → Prop}

theorem Ends.forM {g : γ → Work σ PUnit} (h : J l d)
    (step : ∀ x rest d, J (x :: rest) d → Ends (g x) d (fun _ d' => J rest d') E) :
    Ends (l.forM g) d (fun _ d' => J [] d') E := by
  induction l generalizing d with
  | nil => exact .pure h
  | cons x rest ih => exact (step x rest d h).andThen fun _ _ h' => ih h'

theorem Ends.foldlM {g : β → γ → Work σ β} {K : List γ → β → Desk σ → Prop} {b : β} (h : K l b d)
    (step : ∀ x rest b d, K (x :: rest) b d → Ends (g b x) d (fun b' d' => K rest b' d') E) :
    Ends (l.foldlM g b) d (fun b' d' => K [] b' d') E := by
  induction l generalizing b d with
  | nil => exact .pure h
  | cons x rest ih =>
    rw [List.foldlM_cons]
    exact (step x rest b d h).andThen fun _ _ h' => ih h'

/-- Work along a list that adds certain members to a set for every entry. -/
theorem Ends.foldlM_gather {κ : Type} [Ord κ] {g : OrdSet κ → γ → Work σ (OrdSet κ)}
    (adds : γ → κ → Prop) {K : OrdSet κ → Desk σ → Prop} {set : OrdSet κ} (h : K set d)
    (step : ∀ x set d, K set d → Ends (g set x) d (fun set' d' => K set' d' ∧
      ∀ k, set'.contains k = true ↔ set.contains k = true ∨ adds x k) E) :
    Ends (l.foldlM g set) d (fun set' d' => K set' d' ∧
      ∀ k, set'.contains k = true ↔ set.contains k = true ∨ ∃ x ∈ l, adds x k) E := by
  induction l generalizing set d with
  | nil => exact .pure ⟨h, by simp⟩
  | cons x rest ih =>
    rw [List.foldlM_cons]
    refine (step x set d h).andThen fun set₁ d₁ h₁ => ?_
    refine (ih h₁.1).imp fun set₂ d₂ h₂ => ⟨h₂.1, fun k => ?_⟩
    simp only [h₂.2, h₁.2, List.mem_cons, exists_eq_or_imp, or_assoc]

/-- Work along a list that keeps in mind the answers so far. -/
theorem Ends.mapM_acc {g : γ → Work σ β} {K : List γ → List β → Desk σ → Prop} (h : K l [] d)
    (step : ∀ x rest acc d, K (x :: rest) acc d →
      Ends (g x) d (fun b d' => K rest (acc ++ [b]) d') E) :
    Ends (l.mapM g) d (fun bs d' => K [] bs d') E := by
  have haux : ∀ acc, K l acc d → Ends (l.mapM g) d (fun bs d' => K [] (acc ++ bs) d') E := by
    clear h
    induction l generalizing d with
    | nil => exact fun acc h => .pure (by simpa using h)
    | cons x rest ih =>
      intro acc h
      rw [List.mapM_cons]
      refine (step x rest acc d h).andThen fun b d₁ h₁ => ?_
      refine (ih (acc ++ [b]) h₁).andThen fun bs d₂ h₂ => .pure ?_
      rwa [List.append_assoc] at h₂
  exact haux [] h

theorem Ends.mapM {g : γ → Work σ β} (h : J l d)
    (step : ∀ x rest d, J (x :: rest) d → Ends (g x) d (fun _ d' => J rest d') E) :
    Ends (l.mapM g) d (fun _ d' => J [] d') E :=
  Ends.mapM_acc (K := fun rest _ => J rest) h fun x rest _ d h => step x rest d h

/-- Work along a list whose answers are known beforehand. -/
theorem Ends.mapM_map {g : γ → Work σ β} {f : γ → β} (h : I d)
    (step : ∀ x d, I d → Ends (g x) d (fun b d' => b = f x ∧ I d') E) :
    Ends (l.mapM g) d (fun bs d' => bs = l.map f ∧ I d') E := by
  induction l generalizing d with
  | nil => exact .pure ⟨rfl, h⟩
  | cons x rest ih =>
    rw [List.mapM_cons]
    refine (step x d h).andThen fun b d₁ h₁ => ?_
    refine (ih h₁.2).andThen fun bs d₂ h₂ => ?_
    exact .pure ⟨by rw [h₁.1, h₂.1, List.map_cons], h₂.2⟩

/-- Filtering a list by answers, keeping in mind which entries passed so far. -/
theorem Ends.filterM_acc {g : γ → Work σ Bool} {K : List γ → List γ → Desk σ → Prop} (h : K l [] d)
    (step : ∀ x rest acc d, K (x :: rest) acc d →
      Ends (g x) d (fun b d' => K rest (if b then acc ++ [x] else acc) d') E) :
    Ends (l.filterM g) d (fun kept d' => K [] kept d') E := by
  have haux : ∀ acc, K l acc.reverse d →
      Ends (l.filterAuxM g acc) d (fun kept d' => K [] kept.reverse d') E := by
    clear h
    induction l generalizing d with
    | nil => exact fun acc h => .pure h
    | cons x rest ih =>
      intro acc h
      refine (step x rest _ d h).andThen fun b d₁ h₁ => ?_
      refine ih _ ?_
      cases b with
      | true => simpa using h₁
      | false => exact h₁
  exact (haux [] h).andThen fun _ _ h' => .pure h'

theorem Ends.filterM {g : γ → Work σ Bool} (h : J l d)
    (step : ∀ x rest d, J (x :: rest) d → Ends (g x) d (fun _ d' => J rest d') E) :
    Ends (l.filterM g) d (fun _ d' => J [] d') E :=
  Ends.filterM_acc (K := fun rest _ => J rest) h fun x rest _ d h => step x rest d h

end Lists

theorem Keeps.pure (a : α) : Keeps I (pure a) := fun _ h => h

theorem Keeps.throw (e : Error) : Keeps I (throw e : Work σ α) := fun _ h => h

theorem Keeps.bind (hw : Keeps I w) (hf : ∀ a, Keeps I (f a)) : Keeps I (w >>= f) := fun d h =>
  (hw d h).andThen fun a d' h' => hf a d' h'

theorem Keeps.tryCatch {g : Error → Work σ α} (hw : Keeps I w) (hg : ∀ e, Keeps I (g e)) :
    Keeps I (tryCatch w g) := fun d h =>
  Ends.tryCatch ((hw d h).mono (fun _ _ h' => h') fun e d' h' => hg e d' h')

theorem Keeps.forM {γ : Type} {l : List γ} {g : γ → Work σ PUnit} (hg : ∀ x, Keeps I (g x)) :
    Keeps I (l.forM g) := fun _ h =>
  Ends.forM (J := fun _ => I) h fun x _ d' h' => hg x d' h'

theorem Keeps.mapM {γ : Type} {l : List γ} {g : γ → Work σ β} (hg : ∀ x, Keeps I (g x)) :
    Keeps I (l.mapM g) := fun _ h =>
  Ends.mapM (J := fun _ => I) h fun x _ d' h' => hg x d' h'

theorem Keeps.foldlM {γ : Type} {l : List γ} {g : β → γ → Work σ β} {b : β}
    (hg : ∀ b x, Keeps I (g b x)) : Keeps I (l.foldlM g b) := fun _ h =>
  Ends.foldlM (K := fun _ _ => I) h fun x _ b d' h' => hg b x d' h'

end Work

end Wayfarer
