import Wayfarer.Bytes

/-!
# Readers

A reader takes bytes from the front of its input and leaves the rest, or fails.
Loops run at most once more than there are bytes left, which is enough whenever
every round consumes one.
-/

namespace Wayfarer

/-- A computation that consumes bytes and may fail. -/
abbrev Reader (α : Type) := StateT Bytes Option α

namespace Reader

/-- The first `n` bytes. -/
def take (n : Nat) : Reader Bytes := fun bytes =>
  if n ≤ bytes.length then some (bytes.take n, bytes.drop n) else none

/-- The next `n` bytes as a number, most significant first. -/
def number (n : Nat) : Reader Nat := do
  let bytes ← take n
  pure (Bytes.ofBigEndian bytes)

/-- One byte. -/
def byte : Reader Nat := fun bytes =>
  match bytes with
  | [] => none
  | b :: rest => some (b.toNat, rest)

/-- The next byte, left in place; `none` at the end. -/
def next? : Reader (Option Nat) := fun bytes =>
  some (bytes.head?.map (·.toNat), bytes)

/-- One given byte. -/
def expect (n : Nat) : Reader Unit := do
  if (← byte) = n then pure () else failure

/-- Repeats a step while it asks for more, at most `fuel` times. -/
def repeatM {σ : Type} (step : σ → Reader (σ × Bool)) : Nat → σ → Reader σ
  | 0, _ => failure
  | fuel + 1, s => do
    let (s, again) ← step s
    if again then repeatM step fuel s else pure s

/-- A loop whose every round but the last consumes at least one byte. -/
def loop {σ : Type} (s : σ) (step : σ → Reader (σ × Bool)) : Reader σ := fun bytes =>
  repeatM step (bytes.length + 1) s bytes

/-- The longest run of bytes that satisfy a test. -/
def span (p : UInt8 → Bool) : Reader Bytes := fun bytes =>
  some (bytes.takeWhile p, bytes.dropWhile p)

/-- Nothing, at the end of the input. -/
def atEnd : Reader Unit := fun bytes => if bytes.isEmpty then some ((), []) else none

/-- What a reader finds in a whole input. -/
def whole {α : Type} (r : Reader α) (bytes : Bytes) : Option α :=
  match r bytes with
  | some (a, []) => some a
  | _ => none

end Reader

end Wayfarer
