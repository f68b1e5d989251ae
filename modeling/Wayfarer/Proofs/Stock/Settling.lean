import Wayfarer.Proofs.Assembly
import Wayfarer.Proofs.Stock

/-!
# Staying in stock

If all that operations are given is from stock, and commits keep the durable
tier in stock, then everything stays in stock, and what a commit leads to can be
said of every commit noted (`Stock.Settles.journal`).
-/

namespace Wayfarer

namespace Stock

variable {σ : Type} [Durable σ] {stock : Stock σ} {d : Desk σ} {actor : Actor}
  {allows : Desk σ → Prop} {vouches : Desk σ → Receipt → Desk σ → Prop}

/-- What is taken for granted of something noted: values are from stock, and
certain desks come of commits. -/
def Allows (stock : Stock σ) (allows : Desk σ → Prop) : Incident σ → Prop
  | .performs _ op => op.Gives stock.value
  | .commits _ after => allows after

/-- What is said of a commit noted. -/
def Vouches (vouches : Desk σ → Receipt → Desk σ → Prop) : Incident σ → Prop
  | .performs _ _ => True
  | .commits before after => (∃ ready receipt, before.Commits ready receipt after) ∧
      ∀ {ready receipt}, before.Commits ready receipt after → vouches ready receipt after

/-- Commits that end at certain desks keep a desk in stock. -/
def Settles (stock : Stock σ) (allows : Desk σ → Prop)
    (vouches : Desk σ → Receipt → Desk σ → Prop) : Prop :=
  ∀ {d}, stock.holdings.Desks d → Work.Ends Desk.commit d
    (fun receipt d' => allows d' → stock.holdings.Desks d' ∧ vouches d receipt d')
    fun _ => stock.holdings.Desks

/-- Being in stock as a custom. The mint does not matter to it. -/
def custom (stock : Stock σ) : Custom σ :=
  .fixed stock.holdings.Drafts (fun _ => stock.holdings.Tiers) (.of_empty rfl)

theorem desks_iff {k : stock.custom.Known} {n : Nat} :
    stock.custom.Desks k n d ↔ stock.holdings.Desks d :=
  Custom.desks_fixed.trans ⟨fun h => ⟨h.1, h.2⟩, fun h => ⟨h.draft, h.tiers⟩⟩

namespace Settles

variable (hs : stock.Settles allows vouches)

include hs

/-- The end of a request. -/
theorem conclude {rules : Rulebook} (hrules : rules.All stock.value) (h : stock.holdings.Desks d)
    (root : RootId) :
    Work.Ends (Desk.conclude root) d (fun _ d' => allows d' → stock.holdings.Desks d')
      fun _ => stock.holdings.Desks :=
  ((strokes hrules).evictUnreachable (n := 0) root d h).andThen fun _ _ h' =>
    (hs h').imp fun _ _ hd hallows => (hd hallows).1

/-- An attempt to commit, by itself or at the end of a request. -/
theorem attempt {rules : Rulebook} (hrules : rules.All stock.value) (h : stock.holdings.Desks d)
    {work : Work σ Receipt}
    (hwork : Work.Ends work d (fun _ d' => allows d' → stock.holdings.Desks d')
      fun _ => stock.holdings.Desks)
    (hc : ∀ {receipt d'}, work d = .ok receipt d' → ∃ ready, d.Commits ready receipt d')
    (hx : ∀ x ∈ Desk.attempt work d, stock.Allows allows x) :
    stock.holdings.Desks (endOf work d) ∧ ∀ x ∈ Desk.attempt work d, Vouches vouches x := by
  obtain ⟨hend, hnoted⟩ := Desk.attempt_ends (fun h => h) hwork hx
  refine ⟨hend, fun x hmem => ?_⟩
  obtain ⟨receipt, d', hw, rfl, hallowed, -⟩ := hnoted x hmem
  obtain ⟨ready, hready⟩ := hc hw
  refine ⟨⟨ready, receipt, hready⟩, ?_⟩
  rintro ready receipt ⟨rfl | ⟨root, gone, hevict⟩, hcommit⟩
  · exact ((hs h).ok hcommit hallowed).2
  · have hready := ((strokes hrules).evictUnreachable (n := 0) root d h).ok hevict
    exact ((hs hready).ok hcommit hallowed).2

/-- A request for somebody's root. -/
theorem found {rules : Rulebook} (hrules : rules.All stock.value) (h : stock.holdings.Desks d)
    (new : RootId) (hx : ∀ x ∈ Realm.founding new d, stock.Allows allows x) :
    stock.holdings.Desks (endOf (Realm.foundRoot new) d) ∧
      ∀ x ∈ Realm.founding new d, Vouches vouches x := by
  refine Realm.founding_ends (insertRoot new d h) (fun {d} h hx => ?_) hx
  have hcommit := (hs h).imp fun _ _ hd hallows => (hd hallows).1
  exact hs.attempt hrules h hcommit (fun hw => ⟨d, .inl rfl, hw⟩) hx

theorem founds {rules : Rulebook} (hrules : rules.All stock.value) :
    stock.custom.Founds (stock.Allows allows) (Vouches vouches) := fun new h hx => by
  rw [desks_iff] at h ⊢
  exact hs.found hrules h new hx

/-- Everything that is done at a desk keeps it in stock. -/
theorem desks (rules : Rulebook) (hrules : rules.All stock.value) (k : stock.custom.Known) :
    Desk.Custom rules (stock.Allows allows) (Vouches vouches) (stock.custom.Desks k) where
  browses n := by
    intro id d h
    rw [desks_iff] at h
    exact (Holdings.browses id d h).mono (fun _ _ => desks_iff.2) fun _ _ => desks_iff.2
  shared h _ := by
    rw [desks_iff] at h ⊢
    exact ⟨h.draft, h.tiers.durable, h.tiers.cached⟩
  rollback h := desks_iff.2 ⟨.of_empty rfl, (desks_iff.1 h).tiers⟩
  evict h := desks_iff.2 ⟨(desks_iff.1 h).draft.evict, (desks_iff.1 h).tiers⟩
  performs {n} _ _ _ ha h hop := by
    rw [desks_iff] at h
    have hmeets : Op.Meets stock.terms _ := meets_of_gives hop
    exact ⟨((strokes hrules).run (n := n) ha hmeets h).mono (fun _ _ => desks_iff.2)
      fun _ _ => desks_iff.2, trivial⟩
  concludes root h hx := by
    rw [desks_iff] at h ⊢
    exact hs.attempt hrules h (hs.conclude hrules h root) Desk.commits_of_conclude hx

end Settles

/-! ## One move after another -/

/-- An assembly in stock. -/
structure Assemblies (stock : Stock σ) (w : Assembly σ) : Prop where
  rules : w.realm.rulebook.All stock.value
  tiers : stock.holdings.Tiers w.realm.shared
  drafts : ∀ {name s}, w.sessions.get? name = some s → stock.holdings.Drafts s.draft

/-- A realm that has just started over a durable tier from stock. -/
theorem Assemblies.begin {rulebook : Rulebook} {config : RealmConfig} {s s' : σ} {realm : Realm σ}
    (hs : stock.holds s) (hrules : rulebook.All stock.value)
    (hstart : Realm.start rulebook config s = .ok realm s') :
    stock.Assemblies (Assembly.begin realm) := by
  unfold Realm.start at hstart
  cases hepoch : Durable.nextEpoch s with
  | error e s => simp [hepoch] at hstart
  | ok epoch s =>
    simp only [hepoch, EStateM.Result.ok.injEq] at hstart
    obtain ⟨rfl, rfl⟩ := hstart
    exact ⟨hrules, ⟨stock.begun hs hepoch, fun hget => by cases hget⟩, fun hget => by cases hget⟩

/-- Every list of moves keeps an assembly in stock, and all commits noted in its
course can be vouched for. -/
theorem Settles.journal (hs : stock.Settles allows vouches) {w : Assembly σ}
    (h : stock.Assemblies w) (moves : List Move)
    (hx : ∀ x ∈ w.journal moves, stock.Allows allows x) :
    stock.Assemblies (w.play moves) ∧ ∀ x ∈ w.journal moves, Vouches vouches x := by
  obtain ⟨⟨_, _, hend⟩, hvouch⟩ := Custom.journal (n := 0) (k := ()) (c := stock.custom)
    (hs.desks w.realm.rulebook h.rules) moves (hs.founds h.rules) ⟨rfl, h.tiers, h.drafts⟩ hx
  exact ⟨⟨hend.rules ▸ h.rules, hend.tiers, hend.drafts⟩, hvouch⟩

end Stock

end Wayfarer
