import Wayfarer.Bytes

/-!
# Doubles

A `Double` is the 64-bit pattern of a binary floating point number. Doubles are
compared, and written to files in the narrowest of three widths that keeps every
bit.

* `Double.same` is the numeric comparison: a NaN differs from everything, the
  two zeros agree.
* `Double.nearest` rounds a whole number to the 53 bits that a double keeps, and
  `Double.limit` is the first one too large to be a double.
* `Binary` describes a narrower width; `Binary.widen` reads one of its patterns
  as a double and `Binary.narrow?` finds the pattern that widens to a given
  double, if there is one.
-/

namespace Wayfarer

/-- The bit pattern of a 64-bit binary floating point number. -/
structure Double where
  bits : UInt64
  deriving DecidableEq, Inhabited

namespace Double

/-- The sign bit. -/
def sign (x : Double) : Nat := x.bits.toNat >>> 63

/-- The eleven exponent bits. -/
def exponent (x : Double) : Nat := x.bits.toNat >>> 52 % 1 <<< 11

/-- The 52 fraction bits. -/
def fraction (x : Double) : Nat := x.bits.toNat % 1 <<< 52

/-- The double with given sign, exponent and fraction bits. -/
def ofParts (sign exponent fraction : Nat) : Double :=
  ⟨(sign <<< 63 + exponent <<< 52 + fraction).toUInt64⟩

/-- Whether the pattern is not a number. -/
def isNaN (x : Double) : Bool := x.exponent == 2047 && x.fraction != 0

/-- Whether the number is zero, of either sign. -/
def isZero (x : Double) : Bool := x.exponent == 0 && x.fraction == 0

/-- Numeric equality. -/
def same (x y : Double) : Bool :=
  !x.isNaN && !y.isNaN && (x.bits == y.bits || (x.isZero && y.isZero))

/-- The number with at most 53 significant bits that is nearest to `n`; a tie
goes to the even neighbour. -/
def nearest (n : Nat) : Nat :=
  let unit := 1 <<< (Nat.log2 n - 52)
  let quotient := n / unit
  let rest := 2 * (n % unit)
  let up := unit < rest || (unit == rest && quotient % 2 == 1)
  (if up then quotient + 1 else quotient) * unit

/-- A rounded number from here on is infinite as a double. -/
def limit : Nat := 1 <<< 1024

end Double

/-- A binary floating point width: how many exponent and fraction bits follow
the sign bit. -/
structure Binary where
  exponentBits : Nat
  fractionBits : Nat

namespace Binary

/-- The 16-bit width. -/
def half : Binary := ⟨5, 10⟩

/-- The 32-bit width. -/
def single : Binary := ⟨8, 23⟩

/-- What is added to a number's exponent to write it. -/
def bias (w : Binary) : Nat := 1 <<< (w.exponentBits - 1) - 1

/-- The largest exponent pattern, which marks infinities and NaNs. -/
def top (w : Binary) : Nat := 1 <<< w.exponentBits - 1

/-- The number of bytes of a pattern. -/
def size (w : Binary) : Nat := (1 + w.exponentBits + w.fractionBits) / 8

/-- The double equal to a narrower pattern. A NaN keeps its payload and becomes
quiet. -/
def widen (w : Binary) (pattern : Nat) : Double :=
  let sign := pattern >>> (w.exponentBits + w.fractionBits)
  let exponent := pattern >>> w.fractionBits % 1 <<< w.exponentBits
  let fraction := pattern % 1 <<< w.fractionBits
  let spread := 52 - w.fractionBits
  if exponent = w.top then
    if fraction = 0 then Double.ofParts sign 2047 0
    else Double.ofParts sign 2047 (fraction <<< spread ||| 1 <<< 51)
  else if exponent = 0 then
    if fraction = 0 then Double.ofParts sign 0 0
    else
      let k := Nat.log2 fraction
      Double.ofParts sign (1024 + k - w.bias - w.fractionBits) ((fraction - 1 <<< k) <<< (52 - k))
  else Double.ofParts sign (exponent + 1023 - w.bias) (fraction <<< spread)

/-- The only narrower pattern that can widen to `x`. -/
def candidate (w : Binary) (x : Double) : Nat :=
  let sign := x.sign <<< (w.exponentBits + w.fractionBits)
  let cut := 52 - w.fractionBits
  if x.exponent = 2047 then sign + w.top <<< w.fractionBits + x.fraction >>> cut
  else if x.exponent + w.bias ≤ 1023 then
    sign + (1 <<< 52 + x.fraction) >>> (cut + 1024 - (x.exponent + w.bias))
  else sign + (x.exponent + w.bias - 1023) <<< w.fractionBits + x.fraction >>> cut

/-- The narrower pattern that widens to exactly `x`, bit for bit. -/
def narrow? (w : Binary) (x : Double) : Option Nat :=
  let pattern := w.candidate x
  if pattern < Bytes.limit w.size ∧ w.widen pattern = x then some pattern else none

/-- A narrowed pattern widens back to the same bits. -/
theorem widen_of_narrow? {w : Binary} {x : Double} {pattern : Nat}
    (h : w.narrow? x = some pattern) : w.widen pattern = x ∧ pattern < Bytes.limit w.size := by
  unfold narrow? at h
  simp only at h
  split at h
  · rename_i hc
    cases h
    exact ⟨hc.2, hc.1⟩
  · cases h

end Binary

end Wayfarer
