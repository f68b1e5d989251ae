import Wayfarer.Proofs.Concourse.Runs

/-!
# One session among others

What an act does to the draft of one session. While others act the draft stays
as it is. Otherwise the session starts over, drops what it had only loaded, is
left with the work of an operation, or commits. `Concourse.Next` lists these
cases, and `Orderly.next` says that there are no others; so an invariant of
drafts takes one lemma for each case.
-/

namespace Wayfarer

variable {roots : ObjectId → Prop} {n m : Nat} {past : Anchor → Prop} {w : Concourse}
  {act : Act} {name : String} {s s' : Session} {d : Desk Vault}

namespace Work

variable {σ α : Type} {job : Work σ α} {before after : Desk σ}

/-- The desk at which work ends, whether it answers or fails. -/
def Leaves (job : Work σ α) (before after : Desk σ) : Prop :=
  (∃ a, job before = .ok a after) ∨ ∃ e, job before = .error e after

theorem Ends.leaves {P : Desk σ → Prop} (h : Ends job before (fun _ => P) fun _ => P)
    (hl : job.Leaves before after) : P after := by
  rcases hl with ⟨a, ha⟩ | ⟨e, he⟩
  · exact h.ok ha
  · exact h.error he

end Work

/-- What an act may leave as the draft of a session. -/
inductive Concourse.Next (w : Concourse) (act : Act) (name : String) : Draft → Prop
  /-- Others act. -/
  | kept {s : Session} : w.sessions.get? name = some s → act ≠ .commit name →
      Next w act name s.draft
  /-- The session begins or starts over. -/
  | fresh {draft : Draft} : w.sends act = none → (∀ id, ¬ draft.Pending id) →
      (∀ id, draft.held w.stored id = Draft.empty.held w.stored id) → Next w act name draft
  /-- It drops what it has only loaded. -/
  | evicted {s : Session} : w.sends act = none → w.sessions.get? name = some s →
      Next w act name s.draft.evictVolatile
  /-- It has carried out an operation, perhaps without success. -/
  | worked {s : Session} {op : Op} {d : Desk Vault} : act = .perform name op →
      w.sessions.get? name = some s →
      (op.run (w.realm.actor s.root)).Leaves (w.desk s.draft) d → Next w act name d.draft
  /-- Its commit was refused, after it had reclaimed what nobody can reach. -/
  | refused {s : Session} {gone : List ObjectId} {d : Desk Vault} : act = .commit name →
      w.sends act = none → w.sessions.get? name = some s →
      Desk.evictUnreachable s.root (w.desk s.draft) = .ok gone d → Next w act name d.draft
  /-- It has committed. -/
  | settled {d : Desk Vault} : act = .commit name → w.brings act = some d →
      w.sends act = some d.draft.batch → Next w act name (d.draft.settle d.draft.batch)

/-- Work in one session. -/
theorem Concourse.get?_inSession {α : Type} {job : Session → Work Vault α} {other : String}
    (hs' : (w.inSession other job).sessions.get? name = some s') :
    (other ≠ name ∧ w.sessions.get? name = some s') ∨
      other = name ∧ ∃ s d, w.sessions.get? name = some s ∧ (job s).Leaves (w.desk s.draft) d ∧
        s'.draft = d.draft := by
  unfold inSession at hs'
  cases hs : w.sessions.get? other with
  | none =>
    rw [hs] at hs'
    refine .inl ⟨?_, hs'⟩
    rintro rfl
    rw [hs] at hs'
    cases hs'
  | some s =>
    rw [hs] at hs'
    simp only [Realm.work] at hs'
    cases hw : job s ⟨s.draft, w.realm.shared⟩ <;> simp only [hw] at hs' <;>
      rw [Table.get?_insert] at hs' <;> split at hs'
    · rename_i ho
      cases hs'
      exact .inr ⟨ho.symm, s, _, ho ▸ hs, .inl ⟨_, hw⟩, rfl⟩
    · exact .inl ⟨Ne.symm ‹_›, hs'⟩
    · rename_i ho
      cases hs'
      exact .inr ⟨ho.symm, s, _, ho ▸ hs, .inr ⟨_, hw⟩, rfl⟩
    · exact .inl ⟨Ne.symm ‹_›, hs'⟩

namespace Orderly

theorem next_enter {root : RootId} {other : String} (h : Orderly roots n m past w)
    (hs' : (w.step (.enter other root)).sessions.get? name = some s') :
    w.Next (.enter other root) name s'.draft := by
  cases hw : Realm.requireRoot (w.realm.actor root) ⟨Draft.empty, w.realm.shared⟩ with
  | ok a d =>
    obtain ⟨hl, hd⟩ := (h.requireRoot name root).ok hw
    simp only [Concourse.step, Realm.session, Realm.work, hw] at hs'
    rw [Table.get?_insert] at hs'
    split at hs'
    · cases hs'
      exact .fresh rfl (fun _ => hl.not_pending) hd.dated.held
    · exact .kept hs' Act.noConfusion
  | error e d =>
    simp only [Concourse.step, Realm.session, Realm.work, hw] at hs'
    exact .kept hs' Act.noConfusion

theorem next_commit {other : String} (h : Orderly roots n m past w)
    (hs' : (w.step (.commit other)).sessions.get? name = some s') :
    w.Next (.commit other) name s'.draft := by
  rcases Concourse.get?_inSession hs' with ⟨hne, hs⟩ | ⟨rfl, s, d', hs, hl, hdraft⟩
  · exact .kept hs fun he => hne (Act.commit.inj he)
  obtain ⟨d, hb, hd, ⟨gone, hgone⟩, hconclude⟩ := h.brings_commit hs
  have hsends : w.sends (.commit other) = d.sent := by
    simp [Concourse.sends, hb]
  unfold Work.Leaves at hl
  rw [hconclude] at hl
  rw [hdraft]
  rcases hd.sent with ⟨_, hsent, receipt, hok⟩ | ⟨_, hsent, e, _, herror⟩
  · rw [hok] at hl
    rcases hl with ⟨_, hl⟩ | ⟨_, hl⟩ <;> cases hl
    exact .settled rfl hb (hsends.trans hsent)
  · rw [herror] at hl
    rcases hl with ⟨_, hl⟩ | ⟨_, hl⟩ <;> cases hl
    exact .refused rfl (hsends.trans hsent) hs hgone

/-- What an act leaves as the draft of a session. -/
theorem next (act : Act) (h : Orderly roots n m past w)
    (hs' : (w.step act).sessions.get? name = some s') : w.Next act name s'.draft := by
  cases act with
  | createRoot tenant =>
    refine .kept ?_ Act.noConfusion
    simp only [Concourse.step] at hs'
    split at hs' <;> exact hs'
  | enter other root => exact h.next_enter hs'
  | perform other op =>
    rcases Concourse.get?_inSession hs' with ⟨_, hs⟩ | ⟨rfl, s, d, hs, hl, hdraft⟩
    · exact .kept hs Act.noConfusion
    · exact hdraft ▸ .worked rfl hs hl
  | commit other => exact h.next_commit hs'
  | rollback other =>
    rcases Concourse.get?_inSession hs' with ⟨_, hs⟩ | ⟨rfl, s, d, hs, hl, hdraft⟩
    · exact .kept hs Act.noConfusion
    · rcases hl with ⟨_, hl⟩ | ⟨_, hl⟩ <;> cases hl
      exact hdraft ▸ .fresh rfl (fun _ => s.draft.rollback_not_pending) fun _ => rfl
  | evict other =>
    rcases Concourse.get?_inSession hs' with ⟨_, hs⟩ | ⟨rfl, s, d, hs, hl, hdraft⟩
    · exact .kept hs Act.noConfusion
    · rcases hl with ⟨_, hl⟩ | ⟨_, hl⟩ <;> cases hl
      exact hdraft ▸ .evicted rfl hs
  | leave other =>
    refine .kept ?_ Act.noConfusion
    change (w.sessions.erase other).get? name = some s' at hs'
    rw [Table.get?_erase] at hs'
    split at hs'
    · cases hs'
    · exact hs'
  | wait millis =>
    have hsame : (w.step (.wait millis)).sessions = w.sessions := by
      rw [Concourse.step_wait]
    exact .kept (hsame ▸ hs') Act.noConfusion

end Orderly

end Wayfarer
