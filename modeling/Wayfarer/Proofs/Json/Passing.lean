import Wayfarer.Proofs.Json.Records
import Wayfarer.Proofs.Json.Spellings

/-!
# Scanning values

Lists and records are loops over their members (`Json.elements_row`,
`Json.entries_row`): if a step takes in each member, wherever it is written and
whatever stops it, the loop takes in all of them in turn, and fails where a step
does. With them a value of any shape is passed over (`Json.skip_writes`).

* `Json.Decodes r f` says that the reader `r` comes to what `f` makes of a
  value, or fails where `f` gives nothing.
-/

namespace Wayfarer.Json

open Reader

variable {α β σ τ : Type} {rest : Bytes}

/-! ## Members in a loop -/

/-- Bytes that begin with neither a blank nor a comma nor the end of a list or
record. -/
def Opens (w : Bytes) : Prop :=
  ∃ b tail, w = b :: tail ∧ isBlank b = false ∧ b ≠ 0x2C ∧ b ≠ 0x5D ∧ b ≠ 0x7D

section Loops

variable {P : α → Bytes → Prop} {xs : List α} {v : Bytes} {close : UInt8}

/-- What comes after a member stops it. -/
theorem More.stops (h : More P xs v) (hclose : close = 0x5D ∨ close = 0x7D) (after : Blanks)
    (rest : Bytes) : Stops (after.bytes ++ (v ++ close :: rest)) := by
  refine Stops.blanks after ?_
  cases h with
  | nil =>
    rintro _ ⟨⟩
    exact .inr (.inr hclose)
  | cons =>
    rintro _ ⟨⟩
    exact .inr (.inl rfl)

/-- Members of a row are no longer than the row. -/
theorem More.sized (h : More P xs v) {n : Nat} (hn : v.length ≤ n) :
    More (fun x w => P x w ∧ w.length ≤ n) xs v := by
  induction h with
  | nil => exact .nil
  | cons before after hx _ ih =>
    simp only [List.length_cons, List.length_append] at hn
    exact .cons before after ⟨hx, by omega⟩ (ih (by omega))

theorem Row.sized (h : Row P xs v) {n : Nat} (hn : v.length ≤ n) :
    Row (fun x w => P x w ∧ w.length ≤ n) xs v := by
  cases h with
  | nil inside => exact .nil inside
  | cons before after hx hmore =>
    simp only [List.length_append] at hn
    exact .cons before after ⟨hx, by omega⟩ (hmore.sized (by omega))

variable {round : τ → Reader (τ × Bool)} {ends : τ → τ} {take : τ → α → Option τ} {ready : τ → Prop}

/-- What a loop over members does: it ends at the closing byte, takes in a first
member at once, and each of the others after a comma. -/
structure Rounds (P : α → Bytes → Prop) (close : UInt8) (round : τ → Reader (τ × Bool))
    (ends : τ → τ) (take : τ → α → Option τ) (start : τ) (ready : τ → Prop) : Prop where
  nonempty : ∀ {x w}, P x w → 0 < w.length
  closes : ∀ s (lead : Blanks) rest,
    round s (lead.bytes ++ close :: rest) = some ((ends s, false), rest)
  first : ∀ {x w}, P x w → ∀ (lead : Blanks) {rest}, Stops rest →
    round start (lead.bytes ++ (w ++ rest)) = (take start x).map fun t => ((t, true), rest)
  next : ∀ {s x w}, ready s → P x w → ∀ (lead before : Blanks) {rest}, Stops rest →
    round s (lead.bytes ++ 0x2C :: (before.bytes ++ (w ++ rest))) =
      (take s x).map fun t => ((t, true), rest)
  ready_of_take : ∀ {s x t}, take s x = some t → ready t

/-- The rounds for the members after the first one. -/
theorem Rounds.repeatM_more {start : τ} (h : Rounds P close round ends take start ready)
    (hclose : close = 0x5D ∨ close = 0x7D) (hmore : More P xs v) {s : τ} (hs : ready s)
    (lead : Blanks) {fuel : Nat} (hfuel : (lead.bytes ++ (v ++ close :: rest)).length < fuel) :
    repeatM round fuel s (lead.bytes ++ (v ++ close :: rest)) =
      (xs.foldlM take s).map fun t => (ends t, rest) := by
  induction hmore generalizing s lead fuel with
  | nil =>
    obtain ⟨less, rfl⟩ := Nat.exists_eq_add_one_of_ne_zero (Nat.ne_zero_of_lt hfuel)
    exact repeatM_last (h.closes s lead rest)
  | @cons x xs w v before after hx hmore ih =>
    obtain ⟨less, rfl⟩ := Nat.exists_eq_add_one_of_ne_zero (Nat.ne_zero_of_lt hfuel)
    have hround := h.next hs hx lead before (hmore.stops hclose after rest)
    simp only [List.length_append, List.length_cons] at hfuel
    simp only [List.cons_append, List.append_assoc, List.foldlM_cons]
    cases ht : take s x with
    | none =>
      rw [ht] at hround
      exact repeatM_fails hround
    | some t =>
      rw [ht] at hround
      rw [repeatM_next hround]
      refine ih (h.ready_of_take ht) after ?_
      simp only [List.length_append, List.length_cons]
      omega

/-- A loop takes in all members in turn. -/
theorem Rounds.loop_row {start : τ} (h : Rounds P close round ends take start ready)
    (hclose : close = 0x5D ∨ close = 0x7D) (hrow : Row P xs v) (rest : Bytes) :
    loop start round (v ++ close :: rest) = (xs.foldlM take start).map fun t => (ends t, rest) := by
  change repeatM round ((v ++ close :: rest).length + 1) start (v ++ close :: rest) = _
  cases hrow with
  | nil inside => exact repeatM_last (h.closes start inside rest)
  | @cons x xs w v before after hx hmore =>
    have hround := h.first hx before (hmore.stops hclose after rest)
    simp only [List.append_assoc, List.foldlM_cons]
    cases ht : take start x with
    | none =>
      rw [ht] at hround
      exact repeatM_fails hround
    | some t =>
      rw [ht] at hround
      rw [repeatM_next hround]
      refine h.repeatM_more hclose hmore (h.ready_of_take ht) after ?_
      have hpos := h.nonempty hx
      simp only [List.length_append, List.length_cons]
      omega

end Loops

/-! ## Lists and records -/

theorem bind_answer {r : Reader α} (f : α → β) (input : Bytes) :
    (r >>= fun a => pure (f a)) input = (r input).map fun p => (f p.1, p.2) := by
  cases h : r input with
  | none => exact bind_none h _
  | some p => exact bind_of h _

/-- A member is not taken for a comma or the end. -/
theorem token_opens {w : Bytes} (h : Opens w) (lead : Blanks) (rest : Bytes) :
    ∃ o, token? (lead.bytes ++ (w ++ rest)) = some (o, w ++ rest) ∧
      o ≠ some 0x2C ∧ o ≠ some 0x5D ∧ o ≠ some 0x7D := by
  obtain ⟨b, tail, rfl, hblank, hcomma, hlist, hrecord⟩ := h
  refine ⟨some b.toNat, token_of lead.isBlank_bytes hblank, ?_, ?_, ?_⟩ <;> intro heq
  · exact hcomma (UInt8.toNat_inj.1 (Option.some.inj heq))
  · exact hlist (UInt8.toNat_inj.1 (Option.some.inj heq))
  · exact hrecord (UInt8.toNat_inj.1 (Option.some.inj heq))

/-- One round of the loop that reads a list. -/
def elementRound (step : Nat → σ → Reader σ) : Nat × σ → Reader ((Nat × σ) × Bool) :=
  fun (i, s) => do
  match ← token? with
  | some 0x5D => do
    let _ ← byte
    pure ((i, s), false)
  | some 0x2C =>
    if i = 0 then failure
    else do
      let _ ← byte
      match ← token? with
      | some 0x5D => failure
      | _ => do
        let s ← step i s
        pure ((i + 1, s), true)
  | _ =>
    if i = 0 then do
      let s ← step i s
      pure ((i + 1, s), true)
    else failure

theorem elements_eq (s : σ) (step : Nat → σ → Reader σ) :
    elements s step = (loop (0, s) (elementRound step) >>= fun p => pure p.2) := rfl

section Members

variable {P : α → Bytes → Prop} {xs : List α} {v : Bytes}

/-- A fold that counts. -/
def counted (f : Nat → σ → α → Option σ) (p : Nat × σ) (x : α) : Option (Nat × σ) :=
  (f p.1 p.2 x).map fun s => (p.1 + 1, s)

theorem counted_bind {step : Nat → σ → Reader σ} {f : Nat → σ → α → Option σ} {p : Nat × σ} {x : α}
    {input : Bytes} (h : step p.1 p.2 input = (f p.1 p.2 x).map fun t => (t, rest)) :
    (step p.1 p.2 >>= fun s => pure ((p.1 + 1, s), true)) input =
      (counted f p x).map fun t => ((t, true), rest) := by
  rw [bind_answer, h, counted, Option.map_map, Option.map_map]
  rfl

theorem rounds_elements {step : Nat → σ → Reader σ} {f : Nat → σ → α → Option σ} (s : σ)
    (hopens : ∀ {x w}, P x w → Opens w)
    (hstep : ∀ {x w}, P x w → ∀ i s {rest}, Stops rest →
      step i s (w ++ rest) = (f i s x).map fun t => (t, rest)) :
    Rounds P 0x5D (elementRound step) id (counted f) (0, s) fun p => p.1 ≠ 0 where
  nonempty h := by
    obtain ⟨b, tail, rfl, -⟩ := hopens h
    exact Nat.succ_pos _
  closes p lead rest := (bind_of (token_of lead.isBlank_bytes (by decide)) _).trans rfl
  first h lead rest hrest := by
    obtain ⟨o, htoken, hcomma, hlist, -⟩ := token_opens (hopens h) lead rest
    refine (bind_of htoken _).trans ?_
    split
    · exact absurd rfl hlist
    · exact absurd rfl hcomma
    · exact counted_bind (p := (0, s)) (hstep h 0 s hrest)
  next hp h lead before rest hrest := by
    obtain ⟨o, htoken, -, hlist, -⟩ := token_opens (hopens h) before rest
    refine (bind_of (token_of lead.isBlank_bytes (by decide)) _).trans ?_
    refine (congrFun (if_neg hp) _).trans ((bind_of (byte_cons 0x2C _) _).trans ?_)
    refine (bind_of htoken _).trans ?_
    split
    · exact absurd rfl hlist
    · exact counted_bind (hstep h _ _ hrest)
  ready_of_take h := by
    obtain ⟨s, -, rfl⟩ := Option.map_eq_some_iff.1 h
    exact Nat.succ_ne_zero _

/-- A reader of lists takes in all members in turn. -/
theorem elements_row {step : Nat → σ → Reader σ} {f : Nat → σ → α → Option σ} (s : σ)
    (hopens : ∀ {x w}, P x w → Opens w)
    (hstep : ∀ {x w}, P x w → ∀ i s {rest}, Stops rest →
      step i s (w ++ rest) = (f i s x).map fun t => (t, rest))
    (hrow : Row P xs v) (rest : Bytes) : elements s step (v ++ 0x5D :: rest) =
      ((xs.foldlM (counted f) (0, s)).map Prod.snd).map fun t => (t, rest) := by
  rw [elements_eq, bind_answer, (rounds_elements (P := P) s hopens hstep).loop_row (.inl rfl) hrow,
    Option.map_map, Option.map_map]
  rfl

/-- The same where no step looks at the position of a member. -/
theorem elements_row_plain {step : σ → Reader σ} {f : σ → α → Option σ} (s : σ)
    (hopens : ∀ {x w}, P x w → Opens w)
    (hstep : ∀ {x w}, P x w → ∀ s {rest}, Stops rest →
      step s (w ++ rest) = (f s x).map fun t => (t, rest))
    (hrow : Row P xs v) (rest : Bytes) :
    elements s (fun _ => step) (v ++ 0x5D :: rest) = (xs.foldlM f s).map fun t => (t, rest) := by
  have hfold : ∀ (xs : List α) (i : Nat) (s : σ),
      (xs.foldlM (counted fun _ => f) (i, s)).map Prod.snd = xs.foldlM f s := by
    intro xs
    induction xs with
    | nil => exact fun _ _ => rfl
    | cons x xs ih =>
      intro i s
      rw [List.foldlM_cons, List.foldlM_cons, counted]
      cases f s x with
      | none => rfl
      | some t => exact ih (i + 1) t
  rw [elements_row (P := P) (f := fun _ => f) s hopens (fun hx _ => hstep hx) hrow, hfold]

theorem rounds_entries {step : σ → Reader σ} {f : σ → α → Option σ} (s : σ)
    (hopens : ∀ {x w}, P x w → Opens w)
    (hstep : ∀ {x w}, P x w → ∀ s {rest}, Stops rest →
      step s (w ++ rest) = (f s x).map fun t => (t, rest)) :
    Rounds P 0x7D (entryRound step) (fun p => (false, p.2))
      (fun p x => (f p.2 x).map fun s => (false, s)) (true, s) fun p => p.1 = false where
  nonempty h := by
    obtain ⟨b, tail, rfl, -⟩ := hopens h
    exact Nat.succ_pos _
  closes p lead rest := entryRound_last lead.isBlank_bytes p.1 rest
  first h lead rest hrest := by
    obtain ⟨o, htoken, hcomma, -, hrecord⟩ := token_opens (hopens h) lead rest
    refine (bind_of htoken _).trans ?_
    split
    · exact absurd rfl hrecord
    · exact absurd rfl hcomma
    · refine (bind_answer _ _).trans ?_
      rw [hstep h s hrest, Option.map_map, Option.map_map]
      rfl
  next {p _ _} hp h lead before rest hrest := by
    obtain ⟨first, s⟩ := p
    obtain rfl : first = false := hp
    obtain ⟨o, htoken, -, -, hrecord⟩ := token_opens (hopens h) before rest
    refine (bind_of (token_of lead.isBlank_bytes (by decide)) _).trans ?_
    refine (bind_of (byte_cons 0x2C _) _).trans ?_
    refine (bind_of htoken _).trans ?_
    split
    · exact absurd rfl hrecord
    · refine (bind_answer _ _).trans ?_
      rw [hstep h s hrest, Option.map_map, Option.map_map]
      rfl
  ready_of_take h := by
    obtain ⟨s, -, rfl⟩ := Option.map_eq_some_iff.1 h
    rfl

/-- A reader of records takes in all entries in turn. -/
theorem entries_row {step : σ → Reader σ} {f : σ → α → Option σ} (s : σ)
    (hopens : ∀ {x w}, P x w → Opens w)
    (hstep : ∀ {x w}, P x w → ∀ s {rest}, Stops rest →
      step s (w ++ rest) = (f s x).map fun t => (t, rest))
    (hrow : Row P xs v) (rest : Bytes) :
    entries s step (v ++ 0x7D :: rest) = (xs.foldlM f s).map fun t => (t, rest) := by
  have hfold : ∀ (xs : List α) (s : σ) (first : Bool),
      (xs.foldlM (fun p x => (f p.2 x).map fun s => (false, s)) (first, s)).map Prod.snd =
        xs.foldlM f s := by
    intro xs
    induction xs with
    | nil => exact fun _ _ => rfl
    | cons x xs ih =>
      intro s first
      rw [List.foldlM_cons, List.foldlM_cons]
      cases f s x with
      | none => rfl
      | some t => exact ih t false
  rw [entries_eq, bind_answer, (rounds_entries (P := P) s hopens hstep).loop_row (.inr rfl) hrow,
    Option.map_map, ← hfold xs s true, Option.map_map]
  rfl

end Members

/-! ## Values -/

/-- The first byte of a value tells what kind of value it is. -/
theorem Writes.opens {t : Tree} {w : Bytes} (h : Writes t w) : Opens w := by
  cases h with
  | number n =>
    obtain ⟨b, tail, hbytes, rfl | hdigit⟩ := n.bytes_eq
    · exact ⟨_, _, hbytes, by decide⟩
    · refine ⟨b, tail, hbytes, isBlank_of_isDigit hdigit, ?_, ?_, ?_⟩ <;> rintro rfl <;>
        exact absurd hdigit (by decide)
  | _ => exact ⟨_, _, rfl, by decide⟩

theorem WritesEntry.opens {P : Tree → Bytes → Prop} {e : Text × Tree} {w : Bytes}
    (h : WritesEntry P e w) : Opens w := by
  cases h with
  | mk key before after => exact ⟨0x22, _, rfl, by decide⟩

/-- A number begins with a minus or a digit. -/
theorem Numeral.token (n : Numeral) (lead : Blanks) (rest : Bytes) : ∃ o,
    token? (lead.bytes ++ (n.bytes ++ rest)) = some (o, n.bytes ++ rest) ∧
      ∀ m ∈ o, m = 0x2D ∨ 0x30 ≤ m ∧ m ≤ 0x39 := by
  obtain ⟨b, tail, hbytes, hfirst⟩ := n.bytes_eq
  rw [hbytes]
  rcases hfirst with rfl | hdigit
  · exact ⟨_, token_of lead.isBlank_bytes (by decide), by rintro _ ⟨⟩; exact .inl rfl⟩
  · refine ⟨_, token_of lead.isBlank_bytes (isBlank_of_isDigit hdigit), ?_⟩
    rintro _ ⟨⟩
    exact .inr (isDigit_iff.1 hdigit)

theorem word_of {text : String} {w : Bytes} (h : Bytes.ofString text = w) (rest : Bytes) :
    word text (w ++ rest) = some ((), rest) := by
  subst h
  refine (bind_of (take_of _ rest) _).trans ?_
  rw [if_pos rfl]
  rfl

theorem word_null (rest : Bytes) :
    word "null" ([0x6E, 0x75, 0x6C, 0x6C] ++ rest) = some ((), rest) :=
  word_of (by decide) rest

theorem word_true (rest : Bytes) :
    word "true" ([0x74, 0x72, 0x75, 0x65] ++ rest) = some ((), rest) :=
  word_of (by decide) rest

theorem word_false (rest : Bytes) :
    word "false" ([0x66, 0x61, 0x6C, 0x73, 0x65] ++ rest) = some ((), rest) :=
  word_of (by decide) rest

/-- A reader that comes to what `f` makes of a value, wherever it is written,
and fails where `f` gives nothing. -/
def Decodes (r : Reader α) (f : Tree → Option α) : Prop :=
  ∀ ⦃t : Tree⦄ ⦃w : Bytes⦄, Writes t w → ∀ (lead : Blanks) {rest : Bytes}, Stops rest →
    r (lead.bytes ++ (w ++ rest)) = (f t).map fun a => (a, rest)

/-- Values that are all passed over leave nothing. -/
theorem foldlM_pass (xs : List α) : xs.foldlM (fun _ _ => some ()) () = some () := by
  induction xs with
  | nil => rfl
  | cons x xs ih => exact ih

/-- A value is passed over within a depth that is at least its length. -/
theorem skipNested_writes (fuel : Nat) : ∀ {t : Tree} {w : Bytes}, Writes t w → w.length < fuel →
    ∀ (lead : Blanks) {rest : Bytes}, Stops rest →
      skipNested fuel (lead.bytes ++ (w ++ rest)) = some ((), rest) := by
  -- what is nested is shorter than what it is nested in, so the fuel lasts
  induction fuel with
  | zero => exact fun _ hfuel => absurd hfuel (Nat.not_lt_zero _)
  | succ fuel ih =>
    intro t w h hfuel lead rest hrest
    change skipWith (skipNested fuel) _ = _
    unfold skipWith
    cases h with
    | null => exact (bind_of (token_of lead.isBlank_bytes (by decide)) _).trans (word_null rest)
    | true => exact (bind_of (token_of lead.isBlank_bytes (by decide)) _).trans (word_true rest)
    | false => exact (bind_of (token_of lead.isBlank_bytes (by decide)) _).trans (word_false rest)
    | number n =>
      obtain ⟨o, htoken, hfirst⟩ := n.token lead rest
      refine (bind_of htoken _).trans ?_
      split
      case h_7 => exact bind_of (number_numeral n hrest) _
      all_goals exact absurd (hfirst _ rfl) (by decide)
    | text t =>
      refine (bind_of (token_of lead.isBlank_bytes (by decide)) _).trans ?_
      exact (bind_of (byte_cons 0x22 _) _).trans (skipString_text t rest)
    | @list items w hrow =>
      simp only [List.length_cons, List.length_append, List.cons_append, List.append_assoc,
        List.nil_append] at hfuel ⊢
      refine (bind_of (token_of lead.isBlank_bytes (by decide)) _).trans ?_
      refine (bind_of (byte_cons 0x5B _) _).trans ?_
      refine (elements_row_plain (f := fun _ _ => some ()) () (fun hx => hx.1.opens) ?_
        (hrow.sized (Nat.le_refl _)) rest).trans ?_
      · rintro x w ⟨hx, hle⟩ s rest hrest
        exact ih hx (by omega) [] hrest
      · rw [foldlM_pass items]
        rfl
    | @record entries w hrow =>
      simp only [List.length_cons, List.length_append, List.cons_append, List.append_assoc,
        List.nil_append] at hfuel ⊢
      refine (bind_of (token_of lead.isBlank_bytes (by decide)) _).trans ?_
      refine (bind_of (byte_cons 0x7B _) _).trans ?_
      refine (entries_row (f := fun _ _ => some ()) () (fun hx => hx.1.opens) ?_
        (hrow.sized (Nat.le_refl _)) rest).trans ?_
      · rintro e w ⟨⟨key, before, after, hx⟩, hle⟩ s rest hrest
        simp only [List.length_cons, List.length_append, List.cons_append, List.append_assoc]
          at hle ⊢
        refine (bind_of (@symbol_of 0x22 [] _ 0x22 (by simp) rfl rfl) _).trans ?_
        refine (bind_of (skipString_text key _) _).trans ?_
        refine (bind_of (@symbol_of 0x3A _ _ 0x3A before.isBlank_bytes rfl rfl) _).trans ?_
        exact ih hx (by omega) after hrest
      · rw [foldlM_pass entries]
        rfl

/-- A value of any shape is passed over. -/
theorem skip_writes : Decodes skip fun _ => some () := by
  intro t w h lead rest hrest
  refine skipNested_writes _ h ?_ lead hrest
  simp only [List.length_append]
  omega

end Wayfarer.Json
