import Wayfarer.Proofs.Json.Numerals

/-!
# Scanning texts

A reader of texts comes to what is written or, if that does not make sense, to
nothing (`Json.string_text`). Where a text is merely passed over it need not
make sense (`Json.skipString_text`).
-/

namespace Wayfarer

/-! ## Rounds of a loop -/

namespace Reader

variable {σ : Type} {step : σ → Reader (σ × Bool)} {s t : σ} {input mid : Bytes} {fuel : Nat}

theorem repeatM_next (h : step s input = some ((t, true), mid)) :
    repeatM step (fuel + 1) s input = repeatM step fuel t mid :=
  bind_of h _

theorem repeatM_last (h : step s input = some ((t, false), mid)) :
    repeatM step (fuel + 1) s input = some (t, mid) :=
  bind_of h _

theorem bind_none {α β : Type} {r : Reader α} (h : r input = none) (f : α → Reader β) :
    (r >>= f) input = none := by
  show (r input).bind (fun p => f p.1 p.2) = _
  rw [h]
  rfl

theorem repeatM_fails (h : step s input = none) : repeatM step (fuel + 1) s input = none :=
  bind_none h _

end Reader

namespace Json

open Reader

variable {rest : Bytes}

/-! ## Escapes -/

theorem HexDigit.hexValue?_byte (d : HexDigit) :
    Bytes.hexValue? (Char.ofNat d.byte.toNat) = some d.value.val := by
  obtain ⟨value, upper⟩ := d
  revert value upper
  decide

theorem hex4_unit (u : CodeUnit) : hex4 (u.bytes ++ rest) = some (u.value, rest) := by
  unfold hex4
  refine (bind_of (take_of u.bytes rest) _).trans ?_
  simp only [CodeUnit.bytes, List.mapM_cons, List.mapM_nil, HexDigit.hexValue?_byte]
  show some (16 * (16 * (16 * (16 * 0 + u.a.value.val) + u.b.value.val) + u.c.value.val) +
    u.d.value.val, rest) = _
  rw [Nat.mul_zero, Nat.zero_add]
  rfl

theorem unitEscape_trails {u : CodeUnit} (h : u.Trails) : unitEscape (u.bytes ++ rest) = none := by
  unfold unitEscape
  rw [bind_of (hex4_unit u), if_pos h]
  rfl

theorem unitEscape_single {u : CodeUnit} (htrails : ¬ u.Trails) (hleads : ¬ u.Leads) :
    unitEscape (u.bytes ++ rest) = some (Text.character u.value, rest) := by
  unfold unitEscape
  rw [bind_of (hex4_unit u), if_neg htrails, if_neg hleads]
  rfl

/-- The first half of a character looks for the second one. -/
theorem unitEscape_leads {u : CodeUnit} (h : u.Leads) : unitEscape (u.bytes ++ rest) = (do
    expect 0x5C
    expect 0x75
    let second ← hex4
    if 0xDC00 ≤ second ∧ second ≤ 0xDFFF then
      pure (charBytes (0x10000 + (u.value - 0xD800) * 0x400 + (second - 0xDC00)))
    else failure) rest := by
  have htrails : ¬ u.Trails := fun h' => by
    have := h.2
    have := h'.1
    omega
  unfold unitEscape
  rw [bind_of (hex4_unit u), if_neg htrails, if_pos h]

theorem unitEscape_pair {u v : CodeUnit} (h : u.Leads) :
    unitEscape (u.bytes ++ ((Piece.unit v).bytes ++ rest)) =
      if v.Trails then some (Text.character (u.joined v), rest) else none := by
  rw [unitEscape_leads h]
  refine (bind_of (a := ()) rfl _).trans ((bind_of (a := ()) rfl _).trans ?_)
  refine (bind_of (hex4_unit v) _).trans ?_
  by_cases hv : v.Trails
  · rw [if_pos hv, if_pos hv]
    rfl
  · rw [if_neg hv, if_neg hv]
    rfl

/-- No other part of a text is the second half of a character, nor is its
end. -/
theorem unitEscape_alone {u : CodeUnit} (h : u.Leads) {t : Text}
    (hnext : ∀ v tail, t ≠ .unit v :: tail) :
    unitEscape (u.bytes ++ (Text.bytes t ++ rest)) = none := by
  have hexpect : ∀ {n : Nat} {b : UInt8} {tail : Bytes}, b.toNat ≠ n →
      expect n (b :: tail) = none := fun hb => by
    unfold expect
    rw [bind_of (byte_cons _ _), if_neg hb]
    rfl
  rw [unitEscape_leads h]
  match t with
  | [] => exact bind_none (hexpect (by decide)) _
  | .byte b own :: tail =>
    exact bind_none (hexpect fun hb => own.2.1 (UInt8.toNat_inj.1 hb)) _
  | .letter l :: tail =>
    refine (bind_of (a := ()) rfl _).trans (bind_none (hexpect ?_) _)
    cases l <;> decide
  | .unit v :: tail => exact absurd rfl (hnext v tail)

/-! ## Texts -/

theorem stringRound_byte {b : UInt8} (own : b ≠ 0x22 ∧ b ≠ 0x5C ∧ 0x20 ≤ b) (acc : Bytes) :
    stringRound acc (b :: rest) = some ((acc ++ [b], true), rest) := by
  have hquote : b.toNat ≠ 0x22 := fun h => own.1 (UInt8.toNat_inj.1 h)
  have hslash : b.toNat ≠ 0x5C := fun h => own.2.1 (UInt8.toNat_inj.1 h)
  have hlow : ¬ b.toNat < 0x20 := Nat.not_lt.2 (UInt8.le_iff_toNat_le.1 own.2.2)
  unfold stringRound
  rw [bind_of (byte_cons b rest), if_neg hquote, if_neg hslash, if_neg hlow]
  simp only [Nat.toUInt8, UInt8.ofNat_toNat]
  rfl

theorem stringRound_escape (acc input : Bytes) : stringRound acc (0x5C :: input) =
    (escape input).map fun found => ((acc ++ found.1, true), found.2) := by
  unfold stringRound
  rw [bind_of (byte_cons 0x5C input), if_neg (by decide), if_pos (by decide)]
  cases hfound : escape input with
  | none => exact bind_none hfound _
  | some found => exact bind_of hfound _

theorem escape_letter (l : Letter) : escape (l.byte :: rest) = some ([l.meaning], rest) := by
  cases l <;> rfl

theorem stringRound_unit (u : CodeUnit) (acc input : Bytes) :
    stringRound acc ((Piece.unit u).bytes ++ input) =
      (unitEscape (u.bytes ++ input)).map fun found => ((acc ++ found.1, true), found.2) := by
  refine (stringRound_escape acc _).trans ?_
  have hescape : escape (0x75 :: (u.bytes ++ input)) = unitEscape (u.bytes ++ input) := by
    unfold escape
    rw [bind_of (byte_cons 0x75 _), if_pos (by decide)]
  rw [← hescape]
  rfl

/-- One round of the loop that reads a text, and the rounds after it. -/
theorem repeatM_stringRound_next {acc bytes input mid : Bytes} {fuel : Nat} {found : Option Bytes}
    (hround : stringRound acc input = some ((acc ++ bytes, true), mid))
    (hnext : ∀ acc, repeatM stringRound fuel acc mid = found.map fun more => (acc ++ more, rest)) :
    repeatM stringRound (fuel + 1) acc input =
      (found.map (bytes ++ ·)).map fun more => (acc ++ more, rest) := by
  rw [repeatM_next hround, hnext, Option.map_map]
  simp only [Function.comp_def, List.append_assoc]

theorem Text.bytes_cons (p : Piece) (t : Text) (rest : Bytes) :
    Text.bytes (p :: t) ++ rest = p.bytes ++ (Text.bytes t ++ rest) := by
  simp only [Text.bytes, List.flatMap_cons, List.append_assoc]

/-- A part of a text takes at least one byte, so that a round is left for it. -/
theorem Text.exists_fuel {p : Piece} {t : Text} {fuel : Nat}
    (h : (Text.bytes (p :: t) ++ rest).length < fuel) :
    ∃ less, fuel = less + 1 ∧ (Text.bytes t ++ rest).length < less := by
  have hpos : 0 < p.bytes.length := by cases p <;> exact Nat.succ_pos _
  rw [Text.bytes_cons, List.length_append] at h
  exact ⟨fuel - 1, by omega, by omega⟩

/-- The rounds of the loop that reads a text. -/
theorem repeatM_stringRound (t : Text) (fuel : Nat) (acc : Bytes)
    (hfuel : (t.bytes ++ rest).length < fuel) : repeatM stringRound fuel acc (t.bytes ++ rest) =
      t.meaning?.map fun found => (acc ++ found, rest) := by
  fun_induction Text.meaning? t generalizing fuel acc with
  | case1 =>
    obtain ⟨less, rfl⟩ := Nat.exists_eq_add_one_of_ne_zero (Nat.ne_zero_of_lt hfuel)
    rw [Option.map_some, List.append_nil]
    exact repeatM_last rfl
  | case2 b own t ih =>
    obtain ⟨less, rfl, hless⟩ := Text.exists_fuel hfuel
    rw [Text.bytes_cons]
    exact repeatM_stringRound_next (stringRound_byte own acc) fun acc => ih less acc hless
  | case3 l t ih =>
    obtain ⟨less, rfl, hless⟩ := Text.exists_fuel hfuel
    rw [Text.bytes_cons]
    have hround : stringRound acc ((Piece.letter l).bytes ++ (Text.bytes t ++ rest)) =
        some ((acc ++ [l.meaning], true), Text.bytes t ++ rest) :=
      (stringRound_escape acc _).trans (congrArg _ (escape_letter l))
    exact repeatM_stringRound_next hround fun acc => ih less acc hless
  | case4 u t htrails =>
    obtain ⟨less, rfl, -⟩ := Text.exists_fuel hfuel
    rw [Text.bytes_cons]
    refine repeatM_fails ?_
    rw [stringRound_unit, unitEscape_trails htrails]
    rfl
  | case5 u _ hleads v t htrails ih =>
    -- two parts of the text in one round
    obtain ⟨less, rfl, hless⟩ := Text.exists_fuel hfuel
    rw [Text.bytes_cons, Text.bytes_cons]
    refine repeatM_stringRound_next ?_ fun acc => ih less acc ?_
    · rw [stringRound_unit, unitEscape_pair hleads, if_pos htrails]
      rfl
    · rw [Text.bytes_cons, List.length_append] at hless
      omega
  | case6 u _ hleads v t htrails =>
    obtain ⟨less, rfl, -⟩ := Text.exists_fuel hfuel
    rw [Text.bytes_cons, Text.bytes_cons]
    refine repeatM_fails ?_
    rw [stringRound_unit, unitEscape_pair hleads, if_neg htrails]
    rfl
  | case7 u t _ hleads hnext =>
    obtain ⟨less, rfl, -⟩ := Text.exists_fuel hfuel
    rw [Text.bytes_cons]
    refine repeatM_fails ?_
    rw [stringRound_unit, unitEscape_alone hleads hnext]
    rfl
  | case8 u t htrails hleads ih =>
    obtain ⟨less, rfl, hless⟩ := Text.exists_fuel hfuel
    rw [Text.bytes_cons]
    refine repeatM_stringRound_next ?_ fun acc => ih less acc hless
    rw [stringRound_unit, unitEscape_single htrails hleads]
    rfl

theorem stringBytes_text (t : Text) (rest : Bytes) :
    stringBytes (t.bytes ++ rest) = t.meaning?.map fun found => (found, rest) := by
  rw [stringBytes_eq]
  exact repeatM_stringRound t _ [] (Nat.lt_succ_self _)

/-- A reader of texts comes to the text that is written, or to nothing if it
makes no sense. -/
theorem string_text (lead : Blanks) (t : Text) (rest : Bytes) :
    string (lead.bytes ++ 0x22 :: (t.bytes ++ rest)) = t.read?.map fun s => (s, rest) := by
  have hbytes := stringBytes_text t rest
  unfold string Text.read?
  refine (bind_of (@symbol_of 0x22 _ _ 0x22 lead.isBlank_bytes rfl rfl) _).trans ?_
  cases hmeaning : t.meaning? with
  | none =>
    rw [hmeaning] at hbytes
    exact bind_none hbytes _
  | some found =>
    rw [hmeaning] at hbytes
    refine (bind_of hbytes _).trans ?_
    rw [Option.bind_some]
    cases Bytes.toString? found <;> rfl

/-! ## Texts that are passed over -/

/-- One round of the loop that passes over a text. -/
def skipRound : Unit → Reader (Unit × Bool) := fun _ => do
  let b ← byte
  if b = 0x22 then pure ((), false)
  else if b = 0x5C then do
    let e ← byte
    if e = 0x75 then do
      let _ ← hex4
      pure ((), true)
    else if (shortEscape? e).isSome then pure ((), true)
    else failure
  else if b < 0x20 then failure
  else pure ((), true)

theorem skipString_eq : skipString = loop () skipRound := rfl

theorem skipRound_piece (p : Piece) (rest : Bytes) :
    skipRound () (p.bytes ++ rest) = some (((), true), rest) := by
  cases p with
  | byte b own =>
    have hquote : b.toNat ≠ 0x22 := fun h => own.1 (UInt8.toNat_inj.1 h)
    have hslash : b.toNat ≠ 0x5C := fun h => own.2.1 (UInt8.toNat_inj.1 h)
    have hlow : ¬ b.toNat < 0x20 := Nat.not_lt.2 (UInt8.le_iff_toNat_le.1 own.2.2)
    refine (bind_of (byte_cons b rest) _).trans ?_
    rw [if_neg hquote, if_neg hslash, if_neg hlow]
    rfl
  | letter l => cases l <;> rfl
  | unit u =>
    refine (bind_of (byte_cons 0x5C _) _).trans ?_
    refine (bind_of (byte_cons 0x75 _) _).trans ?_
    exact bind_of (hex4_unit u) _

/-- A text is passed over as it is written, whether it makes sense or not. -/
theorem skipString_text (t : Text) (rest : Bytes) :
    skipString (t.bytes ++ rest) = some ((), rest) := by
  have hrounds : ∀ (t : Text) (fuel : Nat), (t.bytes ++ rest).length < fuel →
      repeatM skipRound fuel () (t.bytes ++ rest) = some ((), rest) := by
    intro t
    induction t with
    | nil =>
      intro fuel hfuel
      obtain ⟨less, rfl⟩ := Nat.exists_eq_add_one_of_ne_zero (Nat.ne_zero_of_lt hfuel)
      exact repeatM_last rfl
    | cons p t ih =>
      intro fuel hfuel
      obtain ⟨less, rfl, hless⟩ := Text.exists_fuel hfuel
      rw [Text.bytes_cons, repeatM_next (skipRound_piece p _)]
      exact ih less hless
  rw [skipString_eq]
  exact hrounds t _ (Nat.lt_succ_self _)

end Json

end Wayfarer
