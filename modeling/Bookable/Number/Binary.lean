/-!
# Binary numbers of double precision

A number is a sign, a mantissa below `2 ^ 53` and an exponent of two that is not
below `-1074`; beyond the largest of them there are the infinities, and there is
one undefined number. Everything is exact integer arithmetic: a quotient is
rounded once, to the nearest number, and a quotient that lies half way goes to
the even mantissa.
-/

namespace Bookable.Number

def twoTo (n : Nat) : Nat := Nat.pow 2 n

def tenTo (n : Nat) : Nat := Nat.pow 10 n

/-- Two to the power of 63, the bound of integers of 64 bits with a sign. -/
def wordBound : Int := 9223372036854775808

/-- The most decimal digits that an integer may have to be written out, or read. -/
def digitLimit : Nat := 4300

/-- Whether an integer can be written out. -/
def isWritable (n : Int) : Bool := n.natAbs < tenTo digitLimit

/-- A quotient rounded to the nearest natural number, a half to the even one. -/
def roundDiv (num den : Nat) : Nat :=
  let quotient := num / den
  let twice := 2 * (num % den)
  if twice < den then quotient
  else if den < twice then quotient + 1
  else quotient + quotient % 2

/-- A number of double precision. -/
inductive Binary where
  /-- The number `mantissa * 2 ^ exponent`, or its negative. -/
  | finite (negative : Bool) (mantissa : Nat) (exponent : Int)
  | infinite (negative : Bool)
  | undefined
  deriving DecidableEq, Repr, Inhabited

namespace Binary

def leastExponent : Int := -1074

/-- The greatest exponent of a finite number. -/
def greatestExponent : Int := 971

/-- The exponent at which the quotient of two positive numbers has a mantissa of 53 bits. -/
def exponentOf (num den : Nat) : Int :=
  let power : Int := (num.log2 : Int) - den.log2
  let fits :=
    if 0 ≤ power then den * twoTo power.toNat ≤ num
    else den ≤ num * twoTo (-power).toNat
  max leastExponent (if fits then power - 52 else power - 53)

/-- The number nearest to a quotient. -/
def ofRatio (negative : Bool) (num den : Nat) : Binary :=
  if num = 0 then finite negative 0 leastExponent
  else
    let exponent := exponentOf num den
    let mantissa :=
      if 0 ≤ exponent then roundDiv num (den * twoTo exponent.toNat)
      else roundDiv (num * twoTo (-exponent).toNat) den
    let (mantissa, exponent) :=
      if mantissa = twoTo 53 then (twoTo 52, exponent + 1) else (mantissa, exponent)
    if greatestExponent < exponent then infinite negative
    else finite negative mantissa exponent

/-- The number nearest to `digits * 10 ^ power`. -/
def ofDecimal (negative : Bool) (digits : Nat) (power : Int) : Binary :=
  if 0 ≤ power then ofRatio negative (digits * tenTo power.toNat) 1
  else ofRatio negative digits (tenTo (-power).toNat)

/-- The magnitude of a finite number as a quotient. -/
def ratio (mantissa : Nat) (exponent : Int) : Nat × Nat :=
  if 0 ≤ exponent then (mantissa * twoTo exponent.toNat, 1)
  else (mantissa, twoTo (-exponent).toNat)

/-- The integer that a number is, if it is one. -/
def toInt? : Binary → Option Int
  | finite negative mantissa exponent =>
      let (num, den) := ratio mantissa exponent
      if num % den = 0 then
        some (if negative then -((num / den : Nat) : Int) else ((num / den : Nat) : Int))
      else none
  | _ => none

/-- The integer part of a number that is not negative. -/
def floor : Binary → Nat
  | finite _ mantissa exponent =>
      let (num, den) := ratio mantissa exponent
      num / den
  | _ => 0

/-- Whether a number is zero, of either sign. -/
def isZero : Binary → Bool
  | finite _ mantissa _ => mantissa == 0
  | _ => false

/-- Whether a number is zero or less, which the undefined number is not. -/
def isAtMostZero : Binary → Bool
  | finite negative mantissa _ => negative || mantissa == 0
  | infinite negative => negative
  | undefined => false

end Binary

end Bookable.Number
