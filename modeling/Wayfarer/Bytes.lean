/-!
# Byte strings

Byte strings are lists of bytes. Here are the two byte orders of a fixed-width
number and the hexadecimal text of a byte string, each with the law that reading
undoes writing.
-/

namespace Wayfarer

/-- A byte string. -/
abbrev Bytes := List UInt8

namespace Bytes

/-- The first number that does not fit into `count` bytes. -/
def limit : Nat → Nat
  | 0 => 1
  | count + 1 => 256 * limit count

/-- The low `count` bytes of `n`, least significant first. -/
def littleEndian : Nat → Nat → Bytes
  | 0, _ => []
  | count + 1, n => n.toUInt8 :: littleEndian count (n / 256)

/-- The low `count` bytes of `n`, most significant first. -/
def bigEndian (count n : Nat) : Bytes := (littleEndian count n).reverse

/-- The number whose bytes, least significant first, are given. -/
def ofLittleEndian : Bytes → Nat
  | [] => 0
  | b :: rest => b.toNat + 256 * ofLittleEndian rest

/-- The number whose bytes, most significant first, are given. -/
def ofBigEndian (bytes : Bytes) : Nat := ofLittleEndian bytes.reverse

@[simp] theorem length_littleEndian (count n : Nat) : (littleEndian count n).length = count := by
  induction count generalizing n with
  | zero => rfl
  | succ count ih => simp [littleEndian, ih]

@[simp] theorem length_bigEndian (count n : Nat) : (bigEndian count n).length = count := by
  simp [bigEndian]

theorem ofLittleEndian_littleEndian {count n : Nat} (h : n < limit count) :
    ofLittleEndian (littleEndian count n) = n := by
  induction count generalizing n with
  | zero => simp [limit] at h; simp [littleEndian, ofLittleEndian, h]
  | succ count ih =>
    have hsmall : n / 256 < limit count := Nat.div_lt_of_lt_mul h
    have hbyte : (Nat.toUInt8 n).toNat = n % 256 := by simp [Nat.toUInt8]
    rw [littleEndian, ofLittleEndian, ih hsmall, hbyte]
    omega

theorem ofBigEndian_bigEndian {count n : Nat} (h : n < limit count) :
    ofBigEndian (bigEndian count n) = n := by
  simp [ofBigEndian, bigEndian, ofLittleEndian_littleEndian h]

/-- The lower-case hexadecimal digit of a number below sixteen. -/
def hexDigit (n : Nat) : Char :=
  if n < 10 then Char.ofNat (48 + n) else Char.ofNat (87 + n)

/-- Two lower-case hexadecimal digits for each byte. -/
def hex (bytes : Bytes) : String :=
  String.ofList (bytes.flatMap fun b => [hexDigit (b.toNat / 16), hexDigit (b.toNat % 16)])

/-- The value of a hexadecimal digit of either case. -/
def hexValue? (c : Char) : Option Nat :=
  if '0' ≤ c ∧ c ≤ '9' then some (c.toNat - 48)
  else if 'a' ≤ c ∧ c ≤ 'f' then some (c.toNat - 87)
  else if 'A' ≤ c ∧ c ≤ 'F' then some (c.toNat - 55)
  else none

/-- The bytes of a list of hexadecimal digits, if it has an even number of
digits and no other character. -/
def ofHexChars? : List Char → Option Bytes
  | [] => some []
  | [_] => none
  | a :: b :: rest => do
    let hi ← hexValue? a
    let lo ← hexValue? b
    let tail ← ofHexChars? rest
    some ((hi * 16 + lo).toUInt8 :: tail)

/-- The bytes of a hexadecimal text. -/
def ofHex? (text : String) : Option Bytes := ofHexChars? text.toList

/-- The UTF-8 bytes of a text. -/
def ofString (text : String) : Bytes := text.toUTF8.data.toList

/-- The text whose UTF-8 bytes are given, if they are well formed. -/
def toString? (bytes : Bytes) : Option String := String.fromUTF8? ⟨bytes.toArray⟩

end Bytes

end Wayfarer
