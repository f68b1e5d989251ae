import Wayfarer.Json.Printer
import Wayfarer.Json.Scan
import Wayfarer.Proofs.Archive
import Wayfarer.Proofs.Codec

/-!
# Texts and numbers of JSON

What is printed for a text and for a number, and that the scanner takes it in
again.

* `Reader.Runs` is about a loop that gets from one point of its input to
  another.
* `Json.string_quote` is about texts: each character is one escape, or bytes
  that stand for themselves.
* `Json.unsigned_decimal` is about numbers. What comes after a number has to end
  it (`Json.Ends`).
-/

namespace Wayfarer

/-! ## The bytes of a text -/

namespace Bytes

theorem ofString_ofList (cs : List Char) :
    ofString (String.ofList cs) = cs.flatMap String.utf8EncodeChar := by
  show (String.ofList cs).toByteArray.data.toList = _
  rw [String.toByteArray_ofList]
  simp [List.utf8Encode]

theorem ofString_eq (s : String) : ofString s = s.toList.flatMap String.utf8EncodeChar := by
  rw [← ofString_ofList, String.ofList_toList]

theorem ofString_append (s t : String) : ofString (s ++ t) = ofString s ++ ofString t := by
  simp only [ofString_eq, String.toList_append, List.flatMap_append]

/-- The bytes of a character that is not ASCII are above all of ASCII. -/
theorem of_mem_utf8EncodeChar {c : Char} {b : UInt8} (hb : b ∈ String.utf8EncodeChar c) :
    c.toNat < 128 ∧ b = c.toNat.toUInt8 ∨ 128 ≤ b.toNat := by
  have hval : c.val.toNat = c.toNat := rfl
  unfold String.utf8EncodeChar at hb
  simp only [hval] at hb
  split at hb
  · rename_i hle
    exact .inl ⟨by omega, List.mem_singleton.mp hb⟩
  · right
    repeat' split at hb
    all_goals
      simp only [List.mem_cons, List.not_mem_nil, or_false] at hb
      rcases hb with rfl | rfl | rfl | rfl | rfl
    all_goals
      simp only [UInt8.toNat_ofNat']
      omega

end Bytes

/-! ## Readers and loops -/

namespace Reader

variable {α β σ : Type} {step : σ → Reader (σ × Bool)} {s t u : σ} {input mid rest : Bytes}

theorem bind_of {r : Reader α} {a : α} (h : r input = some (a, mid)) (f : α → Reader β) :
    (r >>= f) input = f a mid := by
  show (r input).bind (fun p => f p.1 p.2) = _
  rw [h]
  rfl

theorem byte_cons (b : UInt8) (rest : Bytes) : byte (b :: rest) = some (b.toNat, rest) := rfl

/-- A loop gets from one point of its input to another, with no more rounds than
bytes. -/
def Runs (step : σ → Reader (σ × Bool)) (s : σ) (input : Bytes) (t : σ) (rest : Bytes) : Prop :=
  ∃ n, n + rest.length ≤ input.length ∧
    ∀ fuel, repeatM step (n + fuel) s input = repeatM step fuel t rest

namespace Runs

theorem refl (step : σ → Reader (σ × Bool)) (s : σ) (input : Bytes) : Runs step s input s input :=
  ⟨0, by omega, fun fuel => by rw [Nat.zero_add]⟩

theorem trans (h : Runs step s input t mid) (h' : Runs step t mid u rest) :
    Runs step s input u rest := by
  obtain ⟨n, hn, hrun⟩ := h
  obtain ⟨m, hm, hrun'⟩ := h'
  exact ⟨n + m, by omega, fun fuel => by rw [Nat.add_assoc, hrun, hrun']⟩

theorem round (h : step s input = some ((t, true), rest)) (hlt : rest.length < input.length) :
    Runs step s input t rest := by
  refine ⟨1, by omega, fun fuel => ?_⟩
  rw [Nat.add_comm]
  show (step s >>= _) input = _
  rw [bind_of h]
  rfl

/-- The round that ends the loop. -/
theorem loop (h : Runs step s input t mid) (hlast : step t mid = some ((u, false), rest)) :
    Reader.loop s step input = some (u, rest) := by
  obtain ⟨n, hn, hrun⟩ := h
  show repeatM step (input.length + 1) s input = _
  rw [show input.length + 1 = n + (input.length - n + 1) by omega, hrun]
  show (step t >>= _) mid = _
  rw [bind_of hlast]
  rfl

end Runs

end Reader

namespace Json

open Reader

/-! ## Blanks -/

variable {b : UInt8} {lead rest : Bytes}

theorem blanks_of (hlead : ∀ b ∈ lead, isBlank b = true) (hb : isBlank b = false) :
    blanks (lead ++ b :: rest) = some ((), b :: rest) := by
  have hspan : span isBlank (lead ++ b :: rest) = some (lead, b :: rest) := by
    simp only [span, List.takeWhile_append_of_pos hlead, List.dropWhile_append_of_pos hlead,
      List.takeWhile_cons, List.dropWhile_cons, hb, List.append_nil, Bool.false_eq_true, if_false]
  exact bind_of hspan _

theorem token_of (hlead : ∀ b ∈ lead, isBlank b = true) (hb : isBlank b = false) :
    token? (lead ++ b :: rest) = some (some b.toNat, b :: rest) :=
  bind_of (blanks_of hlead hb) _

theorem token_cons (hb : isBlank b = false) : token? (b :: rest) = some (some b.toNat, b :: rest) :=
  @token_of b [] rest (by simp) hb

theorem symbol_of {n : Nat} (hlead : ∀ b ∈ lead, isBlank b = true) (hb : isBlank b = false)
    (hn : b.toNat = n) : symbol n (lead ++ b :: rest) = some ((), rest) := by
  unfold symbol
  rw [bind_of (blanks_of hlead hb)]
  show (byte >>= fun m => if m = n then pure () else failure) (b :: rest) = _
  rw [bind_of (byte_cons b rest), if_pos hn]
  rfl

/-! ## Texts -/

/-- One round of the loop that reads a text. -/
def stringRound (acc : Bytes) : Reader (Bytes × Bool) := do
  let b ← byte
  if b = 0x22 then pure (acc, false)
  else if b = 0x5C then do pure (acc ++ (← escape), true)
  else if b < 0x20 then failure
  else pure (acc ++ [b.toUInt8], true)

theorem stringBytes_eq : stringBytes = loop [] stringRound := rfl

/-- A byte that stands for itself inside quotes. -/
def Plain (b : UInt8) : Prop := b.toNat ≠ 0x22 ∧ b.toNat ≠ 0x5C ∧ 0x20 ≤ b.toNat

theorem runs_plain {bytes : Bytes} (h : ∀ b ∈ bytes, Plain b) (acc rest : Bytes) :
    Runs stringRound acc (bytes ++ rest) (acc ++ bytes) rest := by
  induction bytes generalizing acc with
  | nil =>
    rw [List.append_nil]
    exact .refl ..
  | cons b bytes ih =>
    obtain ⟨hquote, hslash, hlow⟩ := h b (List.mem_cons_self ..)
    have hround : stringRound acc (b :: (bytes ++ rest)) =
        some ((acc ++ [b], true), bytes ++ rest) := by
      unfold stringRound
      rw [bind_of (byte_cons b _), if_neg hquote, if_neg hslash, if_neg (by omega)]
      simp only [Nat.toUInt8, UInt8.ofNat_toNat]
      rfl
    have hrest := ih (fun b' hb' => h b' (List.mem_cons_of_mem _ hb')) (acc ++ [b])
    rw [List.append_assoc, List.singleton_append] at hrest
    exact (Runs.round hround (by simp)).trans hrest

theorem runs_escape {bytes mid : Bytes} (h : escape mid = some (bytes, rest))
    (hlt : rest.length ≤ mid.length) (acc : Bytes) :
    Runs stringRound acc (0x5C :: mid) (acc ++ bytes) rest := by
  refine .round ?_ (by simp; omega)
  unfold stringRound
  rw [bind_of (byte_cons 0x5C mid), if_neg (by decide), if_pos (by decide), bind_of h]
  rfl

theorem take_of (bytes rest : Bytes) : take bytes.length (bytes ++ rest) = some (bytes, rest) := by
  simp [take]

theorem hex4_of {hi lo : Nat} (hhi : hi < 16) (hlo : lo < 16) (rest : Bytes) :
    hex4 (0x30 :: 0x30 :: (Bytes.hexDigit hi).toNat.toUInt8 :: (Bytes.hexDigit lo).toNat.toUInt8 ::
      rest) = some (16 * hi + lo, rest) := by
  have hdigit : ∀ n < 16, Char.ofNat (Bytes.hexDigit n).toNat.toUInt8.toNat = Bytes.hexDigit n := by
    decide
  have hvalues : [(0x30 : UInt8), 0x30, (Bytes.hexDigit hi).toNat.toUInt8,
      (Bytes.hexDigit lo).toNat.toUInt8].mapM (fun b => Bytes.hexValue? (Char.ofNat b.toNat)) =
        some [0, 0, hi, lo] := by
    have hzero : Bytes.hexValue? (Char.ofNat (0x30 : UInt8).toNat) = some 0 := by decide
    simp only [List.mapM_cons, List.mapM_nil, hzero, hdigit hi hhi, hdigit lo hlo,
      Bytes.hexValue?_hexDigit hhi, Bytes.hexValue?_hexDigit hlo]
    rfl
  have htake := take_of [0x30, 0x30, (Bytes.hexDigit hi).toNat.toUInt8,
    (Bytes.hexDigit lo).toNat.toUInt8] rest
  unfold hex4
  refine (bind_of htake _).trans ?_
  rw [hvalues]
  show some (16 * (16 * (16 * (16 * 0 + 0) + 0) + hi) + lo, rest) = _
  simp

theorem escape_unit {c : Char} (hc : c.toNat < 0x20) (rest : Bytes) :
    escape (0x75 :: 0x30 :: 0x30 :: (Bytes.hexDigit (c.toNat / 16)).toNat.toUInt8 ::
      (Bytes.hexDigit (c.toNat % 16)).toNat.toUInt8 :: rest) =
        some (String.utf8EncodeChar c, rest) := by
  have hchar : charBytes c.toNat = String.utf8EncodeChar c := by
    unfold charBytes
    rw [Char.ofNat_toNat, Bytes.ofString_eq, String.toList_singleton, List.flatMap_singleton]
  have hwhole : 16 * (c.toNat / 16) + c.toNat % 16 = c.toNat := by omega
  unfold escape
  rw [bind_of (a := 0x75) rfl, if_pos rfl]
  unfold unitEscape
  rw [bind_of (hex4_of (by omega) (by omega) rest), hwhole, if_neg (by omega), if_neg (by omega),
    hchar]
  rfl

/-- A character inside quotes is one escape, or bytes that stand for
themselves. -/
theorem runs_escapeChar (c : Char) (acc rest : Bytes) :
    Runs stringRound acc ((escapeChar c).flatMap String.utf8EncodeChar ++ rest)
      (acc ++ String.utf8EncodeChar c) rest := by
  have hletter : ∀ (letter : Char) (l b : UInt8), escapeChar c = ['\\', letter] →
      String.utf8EncodeChar letter = [l] → escape (l :: rest) = some ([b], rest) →
      String.utf8EncodeChar c = [b] → Runs stringRound acc
        ((escapeChar c).flatMap String.utf8EncodeChar ++ rest)
          (acc ++ String.utf8EncodeChar c) rest := by
    intro letter l b hescape hbytes hread hc
    have hslash : String.utf8EncodeChar '\\' = [0x5C] := by decide
    rw [hescape, hc]
    simp only [List.flatMap_cons, List.flatMap_nil, hslash, hbytes]
    exact runs_escape hread (by simp) acc
  unfold escapeChar
  -- these have a letter of their own after the backslash
  split
  · exact hletter '"' 0x22 0x22 rfl rfl rfl rfl
  · exact hletter '\\' 0x5C 0x5C rfl rfl rfl rfl
  · exact hletter 'n' 0x6E 0x0A rfl rfl rfl rfl
  · exact hletter 'r' 0x72 0x0D rfl rfl rfl rfl
  · exact hletter 't' 0x74 0x09 rfl rfl rfl rfl
  rename_i hquote hslash _ _ _
  split
  · rename_i h8
    obtain rfl : c = Char.ofNat 8 := by rw [← h8, Char.ofNat_toNat]
    exact hletter 'b' 0x62 0x08 rfl rfl rfl rfl
  split
  · rename_i h12
    obtain rfl : c = Char.ofNat 12 := by rw [← h12, Char.ofNat_toNat]
    exact hletter 'f' 0x66 0x0C rfl rfl rfl rfl
  split
  · -- other control characters are spelled out
    rename_i hlow
    have hdigit : ∀ n < 16, String.utf8EncodeChar (Bytes.hexDigit n) =
        [(Bytes.hexDigit n).toNat.toUInt8] := by decide
    have hprefix : String.utf8EncodeChar '\\' = [0x5C] ∧ String.utf8EncodeChar 'u' = [0x75] ∧
        String.utf8EncodeChar '0' = [0x30] := by decide
    simp only [List.flatMap_cons, List.flatMap_nil, hprefix, hdigit (c.toNat / 16) (by omega),
      hdigit (c.toNat % 16) (by omega)]
    exact runs_escape (escape_unit hlow rest) (by simp; omega) acc
  · -- none of the bytes of any other character is taken for a quote or a backslash
    rename_i hlow
    rw [List.flatMap_singleton]
    refine runs_plain (fun b hb => ?_) acc rest
    rcases Bytes.of_mem_utf8EncodeChar hb with ⟨hascii, rfl⟩ | hhigh
    · have hback : c.toNat.toUInt8.toNat = c.toNat := by
        simp only [Nat.toUInt8, UInt8.toNat_ofNat']
        omega
      have hne : ∀ d : Char, c ≠ d → c.toNat ≠ d.toNat := fun d hd h => hd (Char.toNat_inj.mp h)
      rw [Plain, hback]
      exact ⟨hne '"' hquote, hne '\\' hslash, by omega⟩
    · exact ⟨by omega, by omega, by omega⟩

theorem runs_escaped (cs : List Char) (acc rest : Bytes) :
    Runs stringRound acc ((cs.flatMap escapeChar).flatMap String.utf8EncodeChar ++ rest)
      (acc ++ cs.flatMap String.utf8EncodeChar) rest := by
  induction cs generalizing acc with
  | nil =>
    simp only [List.flatMap_nil, List.nil_append, List.append_nil]
    exact .refl ..
  | cons c cs ih =>
    simp only [List.flatMap_cons, List.flatMap_append, List.append_assoc]
    rw [← List.append_assoc acc]
    exact (runs_escapeChar c acc _).trans (ih _)

/-- The bytes of a text between quotes. -/
theorem bytes_quote (s : String) : Bytes.ofString (quote s) =
    0x22 :: ((s.toList.flatMap escapeChar).flatMap String.utf8EncodeChar ++ [0x22]) := by
  have hquote : String.utf8EncodeChar '"' = [0x22] := by decide
  unfold quote
  rw [Bytes.ofString_ofList]
  simp [hquote]

theorem string_quote (hlead : ∀ b ∈ lead, isBlank b = true) (s : String) (rest : Bytes) :
    string (lead ++ Bytes.ofString (quote s) ++ rest) = some (s, rest) := by
  have hbytes : stringBytes ((s.toList.flatMap escapeChar).flatMap String.utf8EncodeChar ++
      0x22 :: rest) = some (Bytes.ofString s, rest) := by
    rw [stringBytes_eq, Bytes.ofString_eq]
    exact (runs_escaped s.toList [] (0x22 :: rest)).loop rfl
  rw [bytes_quote]
  simp only [List.append_assoc, List.cons_append, List.nil_append]
  unfold string
  rw [bind_of (@symbol_of 0x22 lead _ 0x22 hlead rfl rfl), bind_of hbytes, Bytes.toString?_ofString]
  rfl

/-! ## Numbers -/

/-- What may come after a value in a record, or after a whole document. -/
inductive Ends : Bytes → Prop
  | nothing : Ends []
  | comma (rest : Bytes) : Ends (0x2C :: rest)
  | line (rest : Bytes) : Ends (0x0A :: rest)

theorem isDigit_iff : isDigit b = true ↔ 0x30 ≤ b.toNat ∧ b.toNat ≤ 0x39 := by
  simp only [isDigit, Bool.and_eq_true, decide_eq_true_eq, UInt8.le_iff_toNat_le,
    UInt8.toNat_ofNat]

theorem isBlank_of_isDigit (h : isDigit b = true) : isBlank b = false := by
  simp only [isBlank, Bool.or_eq_false_iff, beq_eq_false_iff_ne]
  refine ⟨⟨⟨?_, ?_⟩, ?_⟩, ?_⟩ <;> rintro rfl <;> exact absurd h (by decide)

theorem number_plain {ds : Bytes} (hfull : ds ≠ []) (hdigits : ∀ b ∈ ds, isDigit b = true)
    (hzero : ∀ b tail, ds ≠ 0x30 :: b :: tail) (hrest : Ends rest) :
    number (ds ++ rest) = some (⟨false, ds, [], 0, true⟩, rest) := by
  have hspan : span isDigit (ds ++ rest) = some (ds, rest) := by
    simp only [span, List.takeWhile_append_of_pos hdigits, List.dropWhile_append_of_pos hdigits]
    cases hrest <;> simp [isDigit]
  have hdigitsOf : digits (ds ++ rest) = some (ds, rest) := by
    unfold digits
    rw [bind_of hspan, if_neg (by simpa using hfull)]
    rfl
  have hwhole : wholeDigits (ds ++ rest) = some (ds, rest) := by
    unfold wholeDigits
    rw [bind_of hdigitsOf]
    split
    · rename_i b tail
      exact absurd rfl (hzero b tail)
    · rfl
  obtain ⟨b, tail, rfl⟩ := List.exists_cons_of_ne_nil hfull
  have hminus : b.toNat ≠ 45 := by
    have hb := isDigit_iff.mp (hdigits b (List.mem_cons_self ..))
    omega
  have hnext : next? (b :: tail ++ rest) = some (some b.toNat, b :: tail ++ rest) := rfl
  unfold number
  rw [bind_of hnext]
  have hsign : some b.toNat ≠ some 45 := fun h => hminus (Option.some.inj h)
  generalize some b.toNat = o at hsign
  split
  · exact absurd rfl hsign
  · refine (bind_of (a := false) rfl _).trans ((bind_of hwhole _).trans ?_)
    cases hrest <;> rfl

/-- The byte of a decimal digit. -/
def digitByte (c : Char) : UInt8 := c.toNat.toUInt8

theorem toNat_of_isDigit {c : Char} (h : c.isDigit = true) : 0x30 ≤ c.toNat ∧ c.toNat ≤ 0x39 := by
  simp only [Char.isDigit, Bool.and_eq_true, decide_eq_true_eq, UInt32.le_iff_toNat_le] at h
  exact h

theorem toNat_digitByte {c : Char} (h : c.isDigit = true) : (digitByte c).toNat = c.toNat := by
  have hrange := toNat_of_isDigit h
  simp only [digitByte, Nat.toUInt8, UInt8.toNat_ofNat']
  omega

/-- The bytes of a number in decimal. -/
def decimal (n : Nat) : Bytes := (Nat.toDigits 10 n).map digitByte

theorem isDigit_toDigits (n : Nat) : ∀ c ∈ Nat.toDigits 10 n, c.isDigit = true := fun _ hc =>
  Nat.isDigit_of_mem_toDigits (by decide) (by decide) hc

theorem ofString_toString (n : Nat) : Bytes.ofString (toString n) = decimal n := by
  have hchar : ∀ c ∈ Nat.toDigits 10 n, String.utf8EncodeChar c = [digitByte c] := by
    intro c hc
    have hle : c.val.toNat ≤ 0x7f :=
      Nat.le_trans (toNat_of_isDigit (isDigit_toDigits n c hc)).2 (by decide)
    simp only [String.utf8EncodeChar, if_pos hle]
    rfl
  rw [Nat.toString_eq_ofList_toDigits, Bytes.ofString_ofList, decimal, List.flatMap_def,
    List.map_congr_left hchar, ← List.flatMap_def, List.map_eq_flatMap]

theorem isDigit_decimal (n : Nat) : ∀ b ∈ decimal n, isDigit b = true := by
  intro b hb
  obtain ⟨c, hc, rfl⟩ := List.mem_map.mp hb
  have hdigit := isDigit_toDigits n c hc
  rw [isDigit_iff, toNat_digitByte hdigit]
  exact toNat_of_isDigit hdigit

theorem decimal_ne_nil (n : Nat) : decimal n ≠ [] := by
  simp [decimal, Nat.toDigits_ne_nil]

theorem ofDigits_decimal (n : Nat) : ofDigits (decimal n) = n := by
  have hfold : ∀ (cs : List Char) (init : Nat), (∀ c ∈ cs, c.isDigit = true) →
      (cs.map digitByte).foldl (fun n b => 10 * n + (b.toNat - 0x30)) init =
        Nat.ofDigitChars 10 cs init := by
    intro cs
    induction cs with
    | nil => intro init _; rfl
    | cons c rest ih =>
      intro init h
      rw [List.map_cons, List.foldl_cons, toNat_digitByte (h c List.mem_cons_self),
        Nat.ofDigitChars_cons]
      exact ih _ fun c' hc' => h c' (List.mem_cons_of_mem c hc')
  exact (hfold _ 0 (isDigit_toDigits n)).trans Nat.ofDigitChars_ten_toDigits

/-- A number of more than one digit does not begin with zero. -/
theorem decimal_ne_zero (n : Nat) (b : UInt8) (tail : Bytes) : decimal n ≠ 0x30 :: b :: tail := by
  induction n using Nat.base_induction 10 (by decide) generalizing b tail with
  | single m hm => simp [decimal, Nat.toDigits_of_lt_base hm]
  | digit m k hk hm ih =>
    rw [decimal, ← Nat.toDigits_append_toDigits (by decide) hm hk, Nat.toDigits_of_lt_base hk,
      List.map_append, ← decimal]
    intro h
    cases hd : decimal m with
    | nil => exact decimal_ne_nil m hd
    | cons first more =>
      rw [hd] at h
      cases more with
      | cons second more =>
        obtain ⟨rfl, h⟩ := List.cons_eq_cons.mp h
        exact ih second more hd
      | nil =>
        -- the leading part is a single zero, so it stands for zero
        obtain ⟨rfl, -⟩ := List.cons_eq_cons.mp h
        have hvalue := ofDigits_decimal m
        rw [hd] at hvalue
        exact absurd hvalue (Nat.ne_of_lt hm)

/-- Reading stops where the number ends, and takes the number's own digits. -/
theorem number_decimal (n : Nat) (hrest : Ends rest) :
    number (decimal n ++ rest) = some (⟨false, decimal n, [], 0, true⟩, rest) :=
  number_plain (decimal_ne_nil n) (isDigit_decimal n) (decimal_ne_zero n) hrest

end Json

end Wayfarer
