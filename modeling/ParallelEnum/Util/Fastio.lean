import ParallelEnum.Theory.DigitRuns
import ParallelEnum.Util.Cuckoo

/-!
# `fastio`

A `FILE*` is the list of the bytes that are left; at its end every `getc_unlocked` gives `EOF`.
A value of type `int64_t` is written as its bit pattern, and sums that do not fit wrap around.
-/

namespace ParallelEnum.Fastio

open Cuckoo DigitRuns

/-- `EOF`, as an `int64_t`. -/
def eof : ℕ := 2 ^ 64 - 1

/-- The loop of `ReadInt` that looks for a digit: the digit, and what is left after it. -/
def skip : List UInt8 → Option (UInt8 × List UInt8)
  | [] => none
  | ch :: input => if isDigit ch then some (ch, input) else skip input

/-- The loop of `ReadInt` over the digits, at the digit `ch`. -/
def scan (n : ℕ) (ch : UInt8) : List UInt8 → ℕ × List UInt8
  | [] => ((10 * n + ch.toNat - 48) % 2 ^ 64, [])
  | ch' :: input =>
    let n := (10 * n + ch.toNat - 48) % 2 ^ 64
    if isDigit ch' then scan n ch' input else (n, input)

/-- `ReadInt` -/
def readInt (input : List UInt8) : ℕ × List UInt8 :=
  match skip input with
  | none => (eof, [])
  | some (ch, input) => scan 0 ch input

/-- `FastRead`, for an unsigned type. -/
def fastRead (T : KeyType) (input : List UInt8) : ℕ × List UInt8 :=
  let r := readInt input
  (r.1 % 2 ^ T.width, r.2)

end ParallelEnum.Fastio
