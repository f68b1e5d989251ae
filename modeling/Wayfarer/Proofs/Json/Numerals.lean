import Wayfarer.Proofs.Json.Grammar
import Wayfarer.Proofs.Json.Texts

/-!
# Scanning numbers

A number is scanned as it is written, provided that what comes after it cannot
belong to it (`Json.Stops`, `Json.number_numeral`).
-/

namespace Wayfarer.Json

open Reader

variable {rest : Bytes}

/-- What may come after a value: nothing, a blank, a comma or the end of a list
or record. -/
def Stops (rest : Bytes) : Prop :=
  ∀ b ∈ rest.head?, isBlank b = true ∨ b = 0x2C ∨ b = 0x5D ∨ b = 0x7D

theorem Blanks.isBlank_bytes (bs : Blanks) : ∀ b ∈ bs.bytes, isBlank b = true := by
  intro b hb
  obtain ⟨c, -, rfl⟩ := List.mem_map.1 hb
  cases c <;> rfl

theorem Stops.nil : Stops [] := fun _ hb => by cases hb

theorem Stops.blanks (bs : Blanks) (h : Stops rest) : Stops (bs.bytes ++ rest) := by
  cases bs with
  | nil => exact h
  | cons b bs =>
    rintro _ ⟨⟩
    exact .inl (Blanks.isBlank_bytes [b] _ (List.mem_singleton_self _))

/-- No byte that stops a value belongs to a number. -/
theorem Stops.foreign (h : Stops rest) {b : UInt8} (hb : b ∈ rest.head?) :
    isDigit b = false ∧ b ≠ 0x2E ∧ b ≠ 0x65 ∧ b ≠ 0x45 := by
  rcases h b hb with hblank | rfl | rfl | rfl
  · simp only [isBlank, Bool.or_eq_true, beq_iff_eq] at hblank
    rcases hblank with ((rfl | rfl) | rfl) | rfl <;> decide
  all_goals decide

/-! ## Digits -/

theorem Digit.toNat_byte (d : Digit) : (Digit.byte d).toNat = 0x30 + d.val := by
  revert d
  decide

theorem Digit.isDigit_byte (d : Digit) : isDigit (Digit.byte d) = true := by
  revert d
  decide

theorem Digits.isDigit_bytes (ds : Digits) : ∀ b ∈ ds.bytes, isDigit b = true := by
  intro b hb
  obtain ⟨d, -, rfl⟩ := List.mem_map.1 hb
  exact Digit.isDigit_byte d

theorem Digits.ofDigits_bytes (ds : Digits) : ofDigits ds.bytes = ds.value := by
  simp only [ofDigits, bytes, value, List.foldl_map, Digit.toNat_byte, Nat.add_sub_cancel_left]

/-- A run of digits ends where something else begins. -/
theorem digits_of (ds : Digits) (hrest : ∀ b ∈ rest.head?, isDigit b = false) :
    digits (ds.bytes ++ rest) = some (ds.bytes, rest) := by
  have hstop : rest.takeWhile isDigit = [] ∧ rest.dropWhile isDigit = rest := by
    cases rest with
    | nil => exact ⟨rfl, rfl⟩
    | cons b rest => simp [hrest b rfl]
  have hspan : span isDigit (ds.bytes ++ rest) = some (ds.bytes, rest) := by
    simp only [span, List.takeWhile_append_of_pos ds.isDigit_bytes,
      List.dropWhile_append_of_pos ds.isDigit_bytes, hstop.1, hstop.2, List.append_nil]
  unfold digits
  rw [bind_of hspan]
  rfl

theorem Digit.byte_eq_zero {d : Digit} (h : Digit.byte d = 0x30) : d = 0 := by
  have hval := congrArg UInt8.toNat h
  rw [Digit.toNat_byte] at hval
  exact Fin.ext (Nat.add_left_cancel hval)

theorem wholeDigits_of (w : Whole) (hrest : ∀ b ∈ rest.head?, isDigit b = false) :
    wholeDigits (w.toDigits.bytes ++ rest) = some (w.toDigits.bytes, rest) := by
  have hzero : ∀ b tail, w.toDigits.bytes ≠ 0x30 :: b :: tail := by
    intro b tail h
    obtain ⟨hfirst, hothers⟩ := List.cons.inj h
    rw [w.plain (Digit.byte_eq_zero hfirst)] at hothers
    cases hothers
  unfold wholeDigits
  rw [bind_of (digits_of w.toDigits hrest)]
  generalize w.toDigits.bytes = ds at hzero
  split
  · rename_i b tail
    exact absurd rfl (hzero b tail)
  · rfl

/-! ## The parts of a number

Each reads a part that may be missing and goes on with what was found. -/

section Parts

variable {α : Type}

theorem head_ne {b : UInt8} (h : ∀ c ∈ rest.head?, c ≠ b) :
    rest.head?.map (·.toNat) ≠ some b.toNat := by
  intro heq
  obtain ⟨c, hc, hval⟩ := Option.map_eq_some_iff.1 heq
  exact h c hc (UInt8.toNat_inj.1 hval)

theorem sign_bind (k : Bool → Reader α) (negative : Bool) (hrest : ∀ b ∈ rest.head?, b ≠ 0x2D) :
    (do
      match ← next? with
      | some 0x2D => do
        let _ ← byte
        let found ← pure true
        k found
      | _ => do
        let found ← pure false
        k found) ((if negative then [0x2D] else []) ++ rest) = k negative rest := by
  cases negative with
  | true => rfl
  | false =>
    have hhead := head_ne hrest
    refine (bind_of (a := rest.head?.map (·.toNat)) rfl _).trans ?_
    generalize rest.head?.map (·.toNat) = o at hhead
    split
    · exact absurd rfl hhead
    · rfl

theorem fraction_bind (k : Bytes × Bool → Reader α) (fraction : Option Digits)
    (hrest : ∀ b ∈ rest.head?, isDigit b = false ∧ b ≠ 0x2E) :
    (do
      match ← next? with
      | some 0x2E => do
        let _ ← byte
        let found ← digits
        let part ← pure (found, true)
        k part
      | _ => do
        let part ← pure ([], false)
        k part) ((fraction.elim [] fun ds => 0x2E :: ds.bytes) ++ rest) =
      k (fraction.elim [] Digits.bytes, fraction.isSome) rest := by
  cases fraction with
  | some ds =>
    refine (bind_of (a := some 0x2E) rfl _).trans ?_
    refine (bind_of (byte_cons 0x2E _) _).trans ?_
    exact bind_of (digits_of ds fun b hb => (hrest b hb).1) _
  | none =>
    have hhead := head_ne fun b hb => (hrest b hb).2
    refine (bind_of (a := rest.head?.map (·.toNat)) rfl _).trans ?_
    generalize rest.head?.map (·.toNat) = o at hhead
    split
    · exact absurd rfl hhead
    · rfl

theorem exponentPart_of (e : Exponent) (hrest : ∀ b ∈ rest.head?, isDigit b = false) :
    exponentPart (e.signBytes ++ e.digits.bytes ++ rest) = some (e.value, rest) := by
  obtain ⟨upper, sign, ds⟩ := e
  have hvalue : ∀ negative : Bool, (do
      let n := ofDigits (← digits)
      pure (if negative then -(n : Int) else n) : Reader Int) (ds.bytes ++ rest) =
        some (if negative then -(ds.value : Int) else ds.value, rest) := fun negative => by
    rw [← ds.ofDigits_bytes]
    exact bind_of (digits_of ds hrest) _
  match sign with
  | some false => exact hvalue false
  | some true => exact hvalue true
  | none =>
    -- a digit is no sign
    have hplus : Digit.byte ds.first ≠ 0x2B ∧ Digit.byte ds.first ≠ 0x2D := by
      generalize ds.first = d
      revert d
      decide
    have hfirst : some (Digit.byte ds.first).toNat ≠ some 43 ∧
        some (Digit.byte ds.first).toNat ≠ some 45 :=
      ⟨fun h => hplus.1 (UInt8.toNat_inj.1 (Option.some.inj h)),
        fun h => hplus.2 (UInt8.toNat_inj.1 (Option.some.inj h))⟩
    change exponentPart (ds.bytes ++ rest) = _
    unfold exponentPart
    refine (bind_of (a := some (Digit.byte ds.first).toNat) rfl _).trans ?_
    generalize some (Digit.byte ds.first).toNat = o at hfirst
    split
    · exact absurd rfl hfirst.1
    · exact absurd rfl hfirst.2
    · exact hvalue false

theorem power_bind (k : Int × Bool → Reader α) (exponent : Option Exponent)
    (hrest : ∀ b ∈ rest.head?, isDigit b = false ∧ b ≠ 0x65 ∧ b ≠ 0x45) :
    (do
      match ← next? with
      | some 0x65 | some 0x45 => do
        let _ ← byte
        let found ← exponentPart
        let part ← pure (found, true)
        k part
      | _ => do
        let part ← pure (0, false)
        k part) (exponent.elim [] Exponent.bytes ++ rest) =
      k (exponent.elim 0 Exponent.value, exponent.isSome) rest := by
  cases exponent with
  | some e =>
    have hpart := exponentPart_of e fun b hb => (hrest b hb).1
    obtain ⟨upper, sign, ds⟩ := e
    cases upper
    · exact (bind_of (a := some 0x65) rfl _).trans
        ((bind_of (byte_cons 0x65 _) _).trans (bind_of hpart _))
    · exact (bind_of (a := some 0x45) rfl _).trans
        ((bind_of (byte_cons 0x45 _) _).trans (bind_of hpart _))
  | none =>
    have hlower := head_ne fun b hb => (hrest b hb).2.1
    have hupper := head_ne fun b hb => (hrest b hb).2.2
    refine (bind_of (a := rest.head?.map (·.toNat)) rfl _).trans ?_
    generalize rest.head?.map (·.toNat) = o at hlower hupper
    split
    · exact absurd rfl hlower
    · exact absurd rfl hupper
    · rfl

end Parts

/-! ## Numbers -/

/-- What a reader of numbers makes of one. -/
def Numeral.literal (n : Numeral) : Literal :=
  ⟨n.negative, n.whole.toDigits.bytes, n.fraction.elim [] Digits.bytes,
    n.exponent.elim 0 Exponent.value, !n.fraction.isSome && !n.exponent.isSome⟩

/-- What comes after the point does not begin with a digit or another point. -/
theorem Stops.exponent (h : Stops rest) (exponent : Option Exponent) :
    ∀ b ∈ (exponent.elim [] Exponent.bytes ++ rest).head?, isDigit b = false ∧ b ≠ 0x2E := by
  cases exponent with
  | none => exact fun b hb => ⟨(h.foreign hb).1, (h.foreign hb).2.1⟩
  | some e =>
    rintro _ ⟨⟩
    cases e.upper <;> decide

/-- What comes after the whole digits does not begin with another digit. -/
theorem Stops.tail (h : Stops rest) (n : Numeral) :
    ∀ b ∈ (n.tail ++ rest).head?, isDigit b = false := by
  unfold Numeral.tail
  rw [List.append_assoc]
  cases n.fraction with
  | none => exact fun b hb => (h.exponent n.exponent b hb).1
  | some ds =>
    rintro _ ⟨⟩
    decide

/-- A number is read as it is written. -/
theorem number_numeral (n : Numeral) (hrest : Stops rest) :
    number (n.bytes ++ rest) = some (n.literal, rest) := by
  have hunsigned : ∀ b ∈ (n.whole.toDigits.bytes ++ (n.tail ++ rest)).head?, b ≠ 0x2D := by
    rintro _ ⟨⟩
    generalize n.whole.first = d
    revert d
    decide
  unfold Numeral.bytes number
  rw [List.append_assoc, List.append_assoc]
  refine (sign_bind _ n.negative hunsigned).trans ?_
  refine (bind_of (wholeDigits_of n.whole (hrest.tail n)) _).trans ?_
  unfold Numeral.tail
  rw [List.append_assoc]
  refine (fraction_bind _ n.fraction (hrest.exponent n.exponent)).trans ?_
  exact power_bind _ n.exponent fun b hb => ⟨(hrest.foreign hb).1, (hrest.foreign hb).2.2⟩

/-- A number begins with a digit or a sign. -/
theorem Numeral.bytes_eq (n : Numeral) :
    ∃ b tail, n.bytes = b :: tail ∧ (b = 0x2D ∨ isDigit b = true) := by
  unfold bytes
  cases n.negative with
  | true => exact ⟨_, _, rfl, .inl rfl⟩
  | false => exact ⟨_, _, rfl, .inr (Digit.isDigit_byte _)⟩

end Wayfarer.Json
