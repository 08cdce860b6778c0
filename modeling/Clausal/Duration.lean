/-!
# Durations

A duration is a whole number of nanoseconds. It is read from a decimal number of seconds, which is
first rounded to binary64 and then to the nearest nanosecond, a half going to the even one.
Negative numbers and those from `2 ^ 64` seconds on are no durations; a number so small that it
rounds to zero is one whatever its sign.

A numeral has an optional sign, digits with at most one point among them, and an optional exponent
after `e` or `E`, which may have a sign of its own. The digits may all stand on one side of the
point. Only the ten ASCII digits count, and no blank or grouping sign is allowed.

The nonnegative values of the binary64 format are the numbers `m * 2 ^ k` with `m < 2 ^ 53` and
`-1074 ≤ k`, up to a largest one. A number is rounded to the nearest of them, and one that lies
halfway between two of them to the one with the even `m`. All arithmetic is exact.

This module does NOT read the names of infinity and of undefined values, nor bound what is rounded
from above: this is far too large for a duration long before the format ends.
-/

set_option autoImplicit false

namespace Clausal

namespace Number

/-- The number `digits * 10 ^ exponent`, or its negative. -/
structure Decimal where
  negative : Bool
  digits : Nat
  exponent : Int
deriving DecidableEq

namespace Decimal

def value (ds : List Char) : Nat := ds.foldl (fun n c => 10 * n + (c.toNat - '0'.toNat)) 0

/-- Whether there is a minus sign, and what follows the sign. -/
def splitSign : List Char → Bool × List Char
  | '-' :: cs => (true, cs)
  | '+' :: cs => (false, cs)
  | cs => (false, cs)

def splitDigits (cs : List Char) : List Char × List Char :=
  (cs.takeWhile Char.isDigit, cs.dropWhile Char.isDigit)

def splitFraction : List Char → List Char × List Char
  | '.' :: cs => splitDigits cs
  | cs => ([], cs)

/-- The exponent that makes up all of what follows the digits. -/
def exponent? : List Char → Option Int
  | [] => some 0
  | c :: cs =>
    let (negative, ds) := splitSign cs
    if (c = 'e' ∨ c = 'E') ∧ ds ≠ [] ∧ ds.all Char.isDigit then
      some (if negative then -(value ds : Int) else value ds)
    else none

def parse? (cs : List Char) : Option Decimal :=
  let (negative, cs) := splitSign cs
  let (whole, cs) := splitDigits cs
  let (fraction, cs) := splitFraction cs
  if whole ++ fraction = [] then none
  else (exponent? cs).map fun e => ⟨negative, value (whole ++ fraction), e - fraction.length⟩

end Decimal
/-- The quotient as the nearest natural number, a half going to the even neighbour. -/
def roundDiv (n d : Nat) : Nat :=
  let q := n / d
  let r := n % d
  if 2 * r < d ∨ (2 * r = d ∧ q % 2 = 0) then q else q + 1

/-- The number `mantissa * 2 ^ exponent`. -/
structure Binary64 where
  mantissa : Nat
  exponent : Int
deriving DecidableEq

namespace Binary64

def zero : Binary64 := ⟨0, 0⟩

/-- The quotient of `n` and `d * 2 ^ k` as a fraction of natural numbers. -/
def scaled (n d : Nat) (k : Int) : Nat × Nat :=
  if 0 ≤ k then (n, d * Nat.pow 2 k.toNat) else (n * Nat.pow 2 (-k).toNat, d)

/-- The binary64 value nearest to a positive fraction. At the first guess of the exponent the
mantissa has 53 or 54 bits; in the latter case the next exponent is the right one. -/
def nearest (n d : Nat) : Binary64 :=
  let guess : Int := (n.log2 : Int) - d.log2 - 53
  let (n', d') := scaled n d guess
  let k := max (if n' / d' < Nat.pow 2 53 then guess else guess + 1) (-1074)
  let (n', d') := scaled n d k
  ⟨roundDiv n' d', k⟩

/-- The magnitude of a decimal as a binary64 value; none if it is beyond the format. A decimal
that is far below the least positive value is zero. -/
def ofDecimal? (x : Decimal) : Option Binary64 :=
  let top : Int := (Nat.toDigits 10 x.digits).length + x.exponent
  if x.digits = 0 ∨ top < -400 then some zero
  else if 400 < top then none
  else if 0 ≤ x.exponent then some (nearest (x.digits * Nat.pow 10 x.exponent.toNat) 1)
  else some (nearest x.digits (Nat.pow 10 (-x.exponent).toNat))

end Binary64
end Number

open Number

structure Duration where
  nanoseconds : Nat
deriving DecidableEq

namespace Duration

def perSecond : Nat := 1000000000

def seconds (t : Duration) : Nat := t.nanoseconds / perSecond

/-- The nanoseconds beyond the full seconds. -/
def subsecond (t : Duration) : Nat := t.nanoseconds % perSecond

def ofBinary64? (x : Binary64) : Option Duration :=
  let (n, d) := Binary64.scaled x.mantissa 1 (-x.exponent)
  if d * Nat.pow 2 64 ≤ n then none else some ⟨roundDiv (n * perSecond) d⟩

def ofSeconds? (text : String) : Option Duration :=
  (Decimal.parse? text.toList).bind fun x =>
    (Binary64.ofDecimal? x).bind fun y =>
      if x.negative ∧ y.mantissa ≠ 0 then none else ofBinary64? y

def invalidMessage (text : String) : String :=
  s!"'{text}' is not a representable non-negative number of seconds"

end Duration
end Clausal
