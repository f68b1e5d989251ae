import Wayfarer.Proofs.Strokes

/-!
# Where values come from

No value in the graph was made up: it is a default of the rulebook or was given
in an operation. A `Stock` is a property of values together with durable tiers
that hold no others. A desk is in stock if its `Stock.holdings` are good.
Everything that operations are made of keeps it in stock if they are given
values from stock (`Stock.strokes`).
-/

namespace Wayfarer

/-! ## Given values -/

/-- All values of a record have a property. -/
def Fields.All (p : Value → Prop) (f : Fields) : Prop := ∀ e ∈ f.entries, p e.2

/-- All defaults that a rulebook declares have a property. -/
def Rulebook.All (p : Value → Prop) (r : Rulebook) : Prop :=
  ∀ {type fields}, r.types.defaults type = some fields → fields.All p

/-- All values that an operation is given have a property. -/
def Op.Gives (p : Value → Prop) : Op → Prop
  | .create _ fields | .createLinked _ _ fields _ | .connect _ _ _ fields _
  | .connectMany _ _ _ fields _ => fields.All p
  | .setField _ _ value => p value
  | _ => True

namespace Fields.All

variable {p : Value → Prop} {f : Fields} {value : Value}

theorem set (h : f.All p) (hv : p value) (name : String) : (f.set name value).All p := by
  have hput : ∀ entries : List (String × Value), (∀ e ∈ entries, p e.2) →
      ∀ e ∈ Fields.put name value entries, p e.2 := by
    intro entries hall
    induction entries with
    | nil => simpa [Fields.put] using hv
    | cons head rest ih =>
      rw [List.forall_mem_cons] at hall
      unfold Fields.put
      split
      · exact List.forall_mem_cons.2 ⟨hv, hall.2⟩
      · exact List.forall_mem_cons.2 ⟨hall.1, ih hall.2⟩
  exact hput f.entries h

theorem empty : Fields.empty.All p := fun _ he => by cases he

/-- Fields laid over others bring no other values. -/
theorem overlay {actor : Actor} {type : TypeId} {filled : Fields} {given : List (String × Value)}
    (h : f.All p) (hgiven : ∀ e ∈ given, p e.2)
    (hfilled : actor.overlayFields type f given = .ok filled) : filled.All p := by
  induction given generalizing f with
  | nil =>
    cases hfilled
    exact h
  | cons head rest ih =>
    rw [List.forall_mem_cons] at hgiven
    rw [Actor.overlayFields] at hfilled
    split at hfilled
    · cases hfilled
    · exact ih (h.set hgiven.1 head.1) hgiven.2 hfilled

theorem declared {actor : Actor} (hrules : actor.rulebook.All p) (type : TypeId) :
    (actor.declared type).All p := by
  unfold Actor.declared
  cases hd : actor.rulebook.types.defaults type with
  | none => exact empty
  | some fields => exact hrules hd

end Fields.All

/-! ## In stock -/

/-- A property of values, and durable tiers in which every value has it and
every anchor is found under its own identity. -/
structure Stock (σ : Type) [Durable σ] where
  value : Value → Prop
  holds : σ → Prop
  fetched : ∀ {s s' id a}, holds s → Durable.fetch id s = .ok (some a) s' →
    a.id = id ∧ a.fields.All value
  kept : ∀ {s} id, holds s → holds (endOf (Durable.fetch id) s)
  begun : ∀ {s s' epoch}, holds s → Durable.nextEpoch s = .ok epoch s' → holds s'

namespace Stock

variable {σ : Type} [Durable σ] {stock : Stock σ} {d : Desk σ}

/-- Anchors from stock. -/
def holdings (stock : Stock σ) : Holdings σ where
  good id a := a.id = id ∧ a.fields.All stock.value
  own h := h.1
  marked _ _ h := h
  holds := stock.holds
  fetched := stock.fetched
  kept := stock.kept

/-- Values from stock may be given. -/
def terms (stock : Stock σ) : Terms :=
  ⟨fun _ fields => fields.All stock.value, fun _ fields => fields.All stock.value, stock.value⟩

theorem meets_of_gives {op : Op} (h : op.Gives stock.value) : op.Meets stock.terms := by
  cases op with
  | createLinked => exact ⟨h, .empty⟩
  | _ => exact h

theorem strokes {rules : Rulebook} (hrules : rules.All stock.value) :
    Strokes rules stock.terms (fun _ => True) fun _ => stock.holdings.Desks := by
  have hfilled : ∀ {type : TypeId} {given fields : Fields}, given.All stock.value →
      (∀ requester, (⟨rules, requester⟩ : Actor).filledFields type given = .ok fields) →
        fields.All stock.value := by
    intro type given fields hgiven hfilled
    have hactor : (⟨rules, default⟩ : Actor).rulebook.All stock.value := hrules
    exact .overlay (.declared hactor type) hgiven (hfilled default)
  refine Holdings.strokes ?_ ?_ ?_ ?_ ?_
  · rintro record id owner ⟨_, given, _, _, hgiven, hfill, hrecord⟩
    refine ⟨rfl, ?_⟩
    rw [hrecord]
    exact hfilled hgiven hfill
  · rintro type fields id owner source target twin ⟨_, given, _, hgiven, hfill⟩
    exact ⟨rfl, hfilled hgiven hfill⟩
  · rintro id a f hf ⟨hid, hall⟩
    exact ⟨(a.mapNode_id f).trans hid, a.mapNode_fields (fun r => (hf r).2) ▸ hall⟩
  · exact fun _ h => h
  · rintro id a value field hvalue ⟨hid, hall⟩
    exact ⟨(a.withFields_id _).trans hid, (a.withFields_fields _).symm ▸ hall.set hvalue field⟩

theorem insertRoot (root : RootId) : Work.Keeps stock.holdings.Desks (Actor.insertRoot root) := by
  refine .bind (Holdings.browses _) fun found => ?_
  cases found with
  | none =>
    exact .bind (fun d h => .modify (h.staged ⟨rfl, .empty⟩)) fun _ => .pure _
  | some a => exact .pure _

end Stock

end Wayfarer
