import Wayfarer.Proofs.Concourse.Acts

/-!
# Whole runs of a concourse

Any number of sessions of any tenants, and any order of their acts. Given that
the mint names different objects and that no version number runs out
(`Supplied`), every concourse that a realm gets to is orderly
(`Supplied.reached`). Two results follow.

* The vault is whole at any time.
* The vault is what the batches of the successful commits make of it, and no
  commit overwrites what its session has not seen.
-/

namespace Wayfarer

variable {roots : ObjectId → Prop} {n m : Nat} {past past' : Anchor → Prop}
  {w w' : Concourse} {d : Desk Vault} {name : String} {s : Session} {id : ObjectId}
  {origin : String → ObjectId → Option Anchor}

/-- How many identities a list of acts may mint at most. -/
def Act.totalMints : List Act → Nat
  | [] => 0
  | act :: acts => act.mints + totalMints acts

theorem Act.totalMints_append (before during : List Act) :
    Act.totalMints (before ++ during) = Act.totalMints during + Act.totalMints before := by
  induction before with
  | nil => rfl
  | cons first rest ih =>
    simp only [List.cons_append, Act.totalMints, ih]
    omega

/-- The roots that a list of acts may create. -/
def Act.Founds (acts : List Act) (id : ObjectId) : Prop :=
  ∃ tenant, Act.createRoot tenant ∈ acts ∧ id = RootId.ofTenant tenant

namespace Concourse

theorem play_cons (act : Act) (acts : List Act) : w.play (act :: acts) = (w.step act).play acts :=
  rfl

theorem play_append (before during : List Act) :
    w.play (before ++ during) = (w.play before).play during :=
  List.foldl_append ..

theorem awaits_iff (hs : w.sessions.get? name = some s) :
    w.awaits name id = true ↔ s.draft.Pending id := by
  unfold awaits Draft.awaits Draft.Pending
  rw [hs, Option.any_some, Bool.or_eq_true, Table.contains_iff, Option.any_eq_true]
  exact or_comm

end Concourse

/-! ## One act of any kind -/

theorem Advances.stay (h : Orderly roots n (m + 1) past w) : Advances roots n m past w none w :=
  ⟨⟨past, fun hp => hp, .inl, h.fewer (Nat.le_refl n) (Nat.le_succ m)⟩, rfl,
    fun {_ s' _} hs _ => ⟨s', hs, rfl⟩⟩

/-- Every act keeps a concourse orderly. -/
theorem Orderly.step (act : Act) (h : Orderly roots (n + act.mints) (m + 1) past w)
    (hroots : ∀ tenant, act = .createRoot tenant → roots (RootId.ofTenant tenant)) :
    Advances roots n m past w (w.sends act) (w.step act) := by
  have habsent : ∀ {w'}, w' = w → Orderly roots n (m + 1) past w →
      Advances roots n m past w none w' := by
    rintro w' rfl h
    exact .stay h
  cases act with
  | createRoot tenant => exact h.createRoot tenant (hroots tenant rfl)
  | enter name root => exact h.enter name root
  | perform name op =>
    cases hs : w.sessions.get? name with
    | none =>
      exact habsent (by simp [Concourse.step, Concourse.inSession_of_none hs])
        (h.fewer (Nat.le_add_right ..) (Nat.le_refl _))
    | some s => exact h.perform op hs
  | commit name =>
    cases hs : w.sessions.get? name with
    | none =>
      have hsends : w.sends (.commit name) = none := by
        simp [Concourse.sends, Concourse.brings, hs]
      rw [hsends]
      exact habsent (by simp [Concourse.step, Concourse.inSession_of_none hs]) h
    | some s => exact h.commit hs
  | rollback name =>
    cases hs : w.sessions.get? name with
    | none => exact habsent (by simp [Concourse.step, Concourse.inSession_of_none hs]) h
    | some s => exact h.rollback hs
  | evict name =>
    cases hs : w.sessions.get? name with
    | none => exact habsent (by simp [Concourse.step, Concourse.inSession_of_none hs]) h
    | some s => exact h.evict hs
  | leave name => exact h.leave name
  | wait millis => exact h.wait millis

/-! ## Where changes started -/

/-- The noted origin of every pending change is the committed anchor whose
version the session holds, or there was none. -/
def Faithful (past : Anchor → Prop) (origin : String → ObjectId → Option Anchor) (w : Concourse) :
    Prop :=
  ∀ {name s id}, w.sessions.get? name = some s → s.draft.Pending id →
    (∀ p, origin name id = some p → past p ∧ p.id = id) ∧
      (origin name id).elim 0 Anchor.version = s.draft.held w.stored id

namespace Faithful

/-- What a session would note now for any object, pending or not. -/
theorem recollect (hf : Faithful past origin w) (h : Orderly roots n m past w)
    (hs : w.sessions.get? name = some s) (id : ObjectId) :
    (∀ p, w.recollect origin name id = some p → past p ∧ p.id = id) ∧
      (w.recollect origin name id).elim 0 Anchor.version = s.draft.held w.stored id := by
  unfold Concourse.recollect
  by_cases hp : s.draft.Pending id
  · rw [if_pos ((Concourse.awaits_iff hs).2 hp)]
    exact hf hs hp
  rw [if_neg fun hw => hp ((Concourse.awaits_iff hs).1 hw)]
  have hlook : w.look name id = (w.desk s.draft).look id := by
    simp [Concourse.look, hs]
  have hrem : s.draft.removed? id = none := by
    cases hv : s.draft.removed? id with
    | none => rfl
    | some v => exact absurd (.inr ⟨v, hv⟩) hp
  rw [hlook]
  unfold Draft.held
  rw [hrem]
  cases hcopy : s.draft.copy? id with
  | some a =>
    rw [Desk.look_of_volatile (d := w.desk s.draft) hrem hcopy]
    refine ⟨?_, rfl⟩
    intro p hpa
    cases hpa
    have hclean : a.dirty = false := by
      cases hd : a.dirty with
      | false => rfl
      | true => exact absurd (.inl ⟨a, hcopy, hd⟩) hp
    exact ⟨(h.drafts hs).dated.clean hcopy hclean, (h.drafts hs).dated.own hcopy⟩
  | none =>
    rw [Desk.look_of_stored (d := w.desk s.draft) hrem hcopy]
    exact ⟨fun p hst => h.chronicle.stored_past hst, rfl⟩

/-- The notes stay right from one act to the next. -/
theorem step (hf : Faithful past origin w) (h : Orderly roots n m past w)
    (hw : ∀ {name s' id}, w'.sessions.get? name = some s' → s'.draft.Pending id →
      ∃ s, w.sessions.get? name = some s ∧ s'.draft.held w'.stored id = s.draft.held w.stored id)
    (hpast : ∀ {p}, past p → past' p) : Faithful past' (w.recollect origin) w' := by
  intro name s' id hs' hp
  obtain ⟨s, hs, hheld⟩ := hw hs' hp
  obtain ⟨hcommitted, hversion⟩ := hf.recollect h hs id
  refine ⟨fun p hr => ?_, hversion.trans hheld.symm⟩
  exact ⟨hpast (hcommitted p hr).1, (hcommitted p hr).2⟩

end Faithful

/-- Every run keeps a concourse orderly, adds the batches that were sent to the
vault, and keeps the notes of origins right. -/
theorem Orderly.play (acts : List Act)
    (h : Orderly roots (n + Act.totalMints acts) (m + acts.length) past w)
    (hroots : ∀ tenant, .createRoot tenant ∈ acts → roots (RootId.ofTenant tenant))
    (hf : Faithful past origin w) :
    (w.play acts).stored = (w.log acts).foldl Vault.overlay w.stored ∧
      ∃ past', Orderly roots n m past' (w.play acts) ∧
        Faithful past' (w.origins origin acts) (w.play acts) := by
  induction acts generalizing w past origin with
  | nil => exact ⟨rfl, past, h, hf⟩
  | cons act acts ih =>
    have hmints : n + Act.totalMints (act :: acts) = n + Act.totalMints acts + act.mints := by
      simp only [Act.totalMints]
      omega
    have hlen : m + (act :: acts).length = m + acts.length + 1 := rfl
    rw [hmints, hlen] at h
    have hstep := h.step act fun tenant ht => hroots tenant (ht ▸ List.mem_cons_self ..)
    obtain ⟨past₁, hpast, _, h₁⟩ := hstep.orderly
    obtain ⟨hstored, past', h', hf'⟩ := ih h₁
      (fun tenant ht => hroots tenant (List.mem_cons_of_mem _ ht))
      (hf.step h hstep.held hpast)
    refine ⟨?_, past', h', hf'⟩
    rw [Concourse.play_cons, hstored, hstep.stored, Concourse.log, List.foldl_append]
    cases w.sends act <;> rfl

end Wayfarer
