import Wayfarer.Cbor.Reader

/-!
# Reading back what was written

A reader takes a byte string when, whatever comes after it, the reader stops
right behind it and comes to a known result. The result is optional: a reader
that may open only so many levels fails on bytes that are nested more deeply,
and that too does not depend on what comes after.

* `Reader.Takes`, with a rule for each way of putting readers together.
* `Cbor.header_head` is about the head of an item; texts, numbers and truth
  values follow.
-/

namespace Wayfarer

/-- The text of its own UTF-8 bytes. -/
theorem Bytes.toString?_ofString (s : String) : Bytes.toString? (Bytes.ofString s) = some s := by
  simp only [Bytes.toString?, Bytes.ofString, String.fromUTF8?]
  exact dif_pos s.isValidUTF8

theorem Bytes.ofString_inj {s t : String} : Bytes.ofString s = Bytes.ofString t ↔ s = t := by
  constructor
  · intro h
    have hs := Bytes.toString?_ofString s
    rw [h, Bytes.toString?_ofString] at hs
    exact (Option.some.inj hs).symm
  · intro h
    rw [h]

namespace Reader

variable {α β σ : Type}

/-- Whatever follows the bytes, the reader takes them and no more, and comes to
`found`. A byte string whose length needs more than eight bytes is left out: no
item can announce it. -/
def Takes (r : Reader α) (bytes : Bytes) (found : Option α) : Prop :=
  bytes.length < Bytes.limit 8 → ∀ rest, r (bytes ++ rest) = found.map fun a => (a, rest)

namespace Takes

variable {r : Reader α} {f : α → Reader β} {bytes bytes' : Bytes} {a : α}

theorem pure (a : α) : Takes (Pure.pure a) [] (some a) := fun _ _ => rfl

theorem failure (bytes : Bytes) : Takes (Alternative.failure : Reader α) bytes none :=
  fun _ _ => rfl

theorem bind {x : Option α} {y : α → Option β} (h : r.Takes bytes x)
    (hf : ∀ a, x = some a → (f a).Takes bytes' (y a)) :
    (r >>= f).Takes (bytes ++ bytes') (x.bind y) := by
  intro hsize rest
  rw [List.length_append] at hsize
  show (r (bytes ++ bytes' ++ rest)).bind (fun p => f p.1 p.2) = _
  rw [List.append_assoc, h (by omega)]
  cases x with
  | none => rfl
  | some a => exact hf a rfl (by omega) rest

theorem andThen {y : Option β} (h : r.Takes bytes (some a)) (hf : (f a).Takes bytes' y) :
    (r >>= f).Takes (bytes ++ bytes') y :=
  h.bind (y := fun _ => y) fun _ ha => Option.some.inj ha ▸ hf

theorem map {x : Option α} (h : r.Takes bytes x) (g : α → β) :
    (r >>= fun a => Pure.pure (g a)).Takes bytes (x.map g) := by
  have hbind : (r >>= fun a => Pure.pure (g a)).Takes (bytes ++ []) (x.bind fun a => some (g a)) :=
    h.bind fun a _ => .pure (g a)
  rw [List.append_nil] at hbind
  cases x <;> exact hbind

/-- What follows needs no more bytes. -/
theorem finish {y : Option β} (h : r.Takes bytes (some a)) (hf : (f a).Takes [] y) :
    (r >>= f).Takes bytes y := by
  have hthen := h.andThen hf
  rw [List.append_nil] at hthen
  exact hthen

/-- A reader that needs some bytes to come to a result in one round of a
loop. -/
theorem loop {s : σ} {step : σ → Reader (σ × Bool)} (s' : σ)
    (h : (step s).Takes bytes (some (s', false))) : (Reader.loop s step).Takes bytes (some s') := by
  intro hsize rest
  have hround : (step s >>= fun p => if p.2 then repeatM step (bytes ++ rest).length p.1
      else Pure.pure p.1).Takes bytes (some s') := h.finish (.pure s')
  exact hround hsize rest

end Takes

theorem byte_takes (b : UInt8) : byte.Takes [b] (some b.toNat) := fun _ _ => rfl

theorem take_takes (bytes : Bytes) : (take bytes.length).Takes bytes (some bytes) := by
  intro _ rest
  simp [take]

theorem number_takes {count n : Nat} (h : n < Bytes.limit count) :
    (number count).Takes (Bytes.bigEndian count n) (some n) := by
  have htake := (take_takes (Bytes.bigEndian count n)).map Bytes.ofBigEndian
  rw [Bytes.length_bigEndian, Option.map_some, Bytes.ofBigEndian_bigEndian h] at htake
  exact htake

end Reader

namespace Cbor

open Reader

/-! ## Heads -/

/-- The shortest form of an argument: the low five bits of the first byte, and
the bytes after it. -/
def shortest (n : Nat) : Nat × Bytes :=
  if n < 24 then (n, [])
  else if n < 256 then (24, Bytes.bigEndian 1 n)
  else if n < 65536 then (25, Bytes.bigEndian 2 n)
  else if n < 4294967296 then (26, Bytes.bigEndian 4 n)
  else (27, Bytes.bigEndian 8 n)

theorem head_eq (major n : Nat) :
    head major n = (major * 32 + (shortest n).1).toUInt8 :: (shortest n).2 := by
  unfold head shortest
  simp only
  repeat' split
  all_goals rfl

theorem shortest_lt (n : Nat) : (shortest n).1 < 32 := by
  unfold shortest
  repeat' split
  all_goals simp only
  all_goals omega

theorem argument_takes {n : Nat} (h : n < Bytes.limit 8) :
    (argument (shortest n).1).Takes (shortest n).2 (some (some n)) := by
  unfold shortest
  by_cases h24 : n < 24
  · simp only [if_pos h24, argument]
    exact .pure (some n)
  by_cases h1 : n < 256
  · simp only [if_neg h24, if_pos h1]
    exact (number_takes (show n < Bytes.limit 1 from h1)).map some
  by_cases h2 : n < 65536
  · simp only [if_neg h24, if_neg h1, if_pos h2]
    exact (number_takes (show n < Bytes.limit 2 from h2)).map some
  by_cases h4 : n < 4294967296
  · simp only [if_neg h24, if_neg h1, if_neg h2, if_pos h4]
    exact (number_takes (show n < Bytes.limit 4 from h4)).map some
  · simp only [if_neg h24, if_neg h1, if_neg h2, if_neg h4]
    exact (number_takes h).map some

theorem closed_takes {n : Nat} (h : n < Bytes.limit 8) :
    (closed (shortest n).1).Takes (shortest n).2 (some n) :=
  (argument_takes h).finish (.pure n)

/-- What the head of a major type with an argument says. -/
def Header.ofMajor (n : Nat) : Nat → Header
  | 0 => .positive n
  | 1 => .negative n
  | 2 => .bytes (some n)
  | 3 => .text (some n)
  | 4 => .array (some n)
  | _ => .map (some n)

theorem header_head {major n : Nat} (hmajor : major < 6) (h : n < Bytes.limit 8) :
    header.Takes (head major n) (some (.ofMajor n major)) := by
  have hlt := shortest_lt n
  have hfirst : (major * 32 + (shortest n).1).toUInt8.toNat = major * 32 + (shortest n).1 := by
    simp [Nat.toUInt8]
    omega
  rw [head_eq]
  show header.Takes ([_] ++ (shortest n).2) _
  refine (byte_takes _).andThen ?_
  rw [hfirst, show (major * 32 + (shortest n).1) % 32 = (shortest n).1 by omega,
    show (major * 32 + (shortest n).1) / 32 = major by omega]
  have hclosed := closed_takes h
  have hargument := argument_takes h
  match major, hmajor with
  | 0, _ => exact hclosed.map Header.positive
  | 1, _ => exact hclosed.map Header.negative
  | 2, _ => exact hargument.map Header.bytes
  | 3, _ => exact hargument.map Header.text
  | 4, _ => exact hargument.map Header.array
  | 5, _ => exact hargument.map Header.map

theorem untagged_takes {bytes : Bytes} {h : Header} (hh : header.Takes bytes (some h))
    (htag : ∀ n, h ≠ .tag n) : untagged.Takes bytes (some h) := by
  refine .finish (.loop (some h) (hh.finish ?_)) (.pure h)
  cases h with
  | tag n => exact absurd rfl (htag n)
  | _ => exact .pure _

theorem untagged_head {major n : Nat} (hmajor : major < 6) (h : n < Bytes.limit 8) :
    untagged.Takes (head major n) (some (.ofMajor n major)) := by
  refine untagged_takes (header_head hmajor h) fun k => ?_
  match major, hmajor with
  | 0, _ | 1, _ | 2, _ | 3, _ | 4, _ | 5, _ => exact Header.noConfusion

/-- A simple value takes one byte, and so do null and the truth values. -/
theorem header_simple {n : Nat} (h : n < 24) :
    header.Takes [(224 + n).toUInt8] (some (.simple n)) := by
  have hfirst : (224 + n).toUInt8.toNat = 224 + n := by
    simp [Nat.toUInt8]
    omega
  refine (byte_takes _).finish ?_
  rw [hfirst, show (224 + n) % 32 = n by omega, show (224 + n) / 32 = 7 by omega]
  show (special n).Takes [] _
  rw [special, if_pos h]
  exact .pure _

/-! ## Numbers, texts, truth values -/

theorem bool_takes (b : Bool) : bool?.Takes (bool b) (some b) := by
  cases b with
  | false => exact (untagged_takes (header_simple (n := 20) (by omega)) (by simp)).finish (.pure _)
  | true => exact (untagged_takes (header_simple (n := 21) (by omega)) (by simp)).finish (.pure _)

theorem integer?_natural {n : Nat} (h : n < Bytes.limit 8) :
    integer?.Takes (head 0 n) (some (false, n)) :=
  .finish (.loop (some (false, n)) ((header_head (by omega) h).finish (.pure _))) (.pure _)

theorem integer?_negative {n : Nat} (h : n < Bytes.limit 8) :
    integer?.Takes (head 1 n) (some (true, n)) :=
  .finish (.loop (some (true, n)) ((header_head (by omega) h).finish (.pure _))) (.pure _)

theorem below_takes {bound n : Nat} (hbound : n < bound) (h : n < Bytes.limit 8) :
    (below bound).Takes (natural n) (some n) := by
  refine (integer?_natural h).finish ?_
  show (if n < bound then pure n else failure : Reader Nat).Takes [] _
  rw [if_pos hbound]
  exact .pure n

theorem byte?_takes (b : UInt8) :
    (do pure (← below 256).toUInt8 : Reader UInt8).Takes (natural b.toNat) (some b) := by
  have hb := b.toNat_lt
  have hbyte := (below_takes hb (Nat.lt_trans hb (by decide))).map Nat.toUInt8
  rw [Option.map_some, show b.toNat.toUInt8 = b from UInt8.ofNat_toNat] at hbyte
  exact hbyte

theorem word?_takes (n : UInt64) : word?.Takes (natural n.toNat) (some n) := by
  have hword := (below_takes n.toNat_lt n.toNat_lt).map Nat.toUInt64
  rw [Option.map_some, show n.toNat.toUInt64 = n from UInt64.ofNat_toNat] at hword
  exact hword

theorem signed?_takes (n : Int64) : signed?.Takes (integer n.toInt) (some n) := by
  have hle := n.le_toInt
  have hlt := n.toInt_lt
  have hback : Int64.ofInt n.toInt = n := Int64.ofInt_toInt n
  -- either sign leaves 63 bits for the number
  have hfound : ∀ {bytes negative k}, integer?.Takes bytes (some (negative, k)) → k < 1 <<< 63 →
      signed?.Takes bytes (some (.ofInt (if negative then -1 - (k : Int) else (k : Int)))) := by
    intro bytes negative k hinteger hk
    refine hinteger.finish ?_
    show (if k < 1 <<< 63 then pure _ else failure : Reader Int64).Takes [] _
    rw [if_pos hk]
    exact .pure _
  cases hn : n.toInt with
  | ofNat k =>
    rw [hn] at hlt hback
    have hk : k < 1 <<< 63 := Int.ofNat_lt.1 hlt
    have hsigned := hfound (integer?_natural (Nat.lt_trans hk (by decide))) hk
    rw [if_neg (by decide), show Int64.ofInt k = n from hback] at hsigned
    exact hsigned
  | negSucc k =>
    rw [hn] at hle hback
    have hk : k < 1 <<< 63 := by omega
    have hsigned := hfound (integer?_negative (Nat.lt_trans hk (by decide))) hk
    rw [if_pos rfl, show (-1 - (k : Int)) = Int.negSucc k by omega, hback] at hsigned
    exact hsigned

theorem float?_of_special {x : Double} {bytes : Bytes} (minor : Nat) (hminor : minor < 32)
    (h : (special minor).Takes bytes (some (.float x))) :
    float?.Takes ((224 + minor).toUInt8 :: bytes) (some x) := by
  have hfirst : (224 + minor).toUInt8.toNat = 224 + minor := by
    simp [Nat.toUInt8]
    omega
  refine (untagged_takes (h := .float x) ?_ (by simp)).finish (.pure x)
  refine (byte_takes _).andThen ?_
  rw [hfirst, show (224 + minor) % 32 = minor by omega, show (224 + minor) / 32 = 7 by omega]
  exact h

/-- A number with a point comes back bit for bit, whatever its width. -/
theorem float?_takes (x : Double) : float?.Takes (float x) (some x) := by
  unfold float
  cases hhalf : Binary.half.narrow? x with
  | some pattern =>
    obtain ⟨hwiden, hlt⟩ := Binary.widen_of_narrow? hhalf
    refine float?_of_special 25 (by decide) ?_
    rw [← hwiden]
    exact (number_takes hlt).map fun n => Header.float (Binary.half.widen n)
  | none =>
    cases hsingle : Binary.single.narrow? x with
    | some pattern =>
      obtain ⟨hwiden, hlt⟩ := Binary.widen_of_narrow? hsingle
      refine float?_of_special 26 (by decide) ?_
      rw [← hwiden]
      exact (number_takes hlt).map fun n => Header.float (Binary.single.widen n)
    | none =>
      have hbits : x.bits.toNat.toUInt64 = x.bits := UInt64.ofNat_toNat
      refine float?_of_special 27 (by decide) ?_
      have hlt : x.bits.toNat < Bytes.limit 8 := x.bits.toNat_lt
      have hnumber := (number_takes hlt).map fun n => Header.float ⟨n.toUInt64⟩
      rw [Option.map_some, hbits] at hnumber
      exact hnumber

theorem textOf_takes (s : String) :
    (textOf (some (Bytes.ofString s).length)).Takes (Bytes.ofString s) (some s) := by
  refine ((take_takes _).map fun piece => [piece]).finish ?_
  have hparts : [Bytes.ofString s].mapM utf8 = (pure [s] : Reader (List String)) := by
    simp [utf8, Bytes.toString?_ofString]
  rw [hparts]
  show (pure (String.join [s]) : Reader String).Takes [] (some s)
  rw [show String.join [s] = s by simp [String.join]]
  exact .pure s

theorem text?_takes (s : String) : text?.Takes (text s) (some s) := by
  intro hsize
  have hlength : (Bytes.ofString s).length < Bytes.limit 8 := by
    simp only [text, List.length_append] at hsize
    omega
  exact (untagged_head (by omega) hlength).andThen (textOf_takes s) hsize

end Cbor

end Wayfarer
