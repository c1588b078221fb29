import Bookable.Number.Binary

/-!
# The shortest decimal of a binary number

A number is written with the fewest digits that read back as the same number,
and among those with the digits nearest to it. Of each decimal grid only the two
neighbours of the number have to be tried: if any point of the grid reads back,
one of them does.
-/

namespace Bookable.Number

/-- A decimal `digits * 10 ^ power`. -/
structure Decimal where
  digits : Nat
  power : Int
  deriving DecidableEq, Repr

namespace Decimal

/-- The same decimal without zeros at the end of its digits. -/
def trimmed (d : Decimal) : Decimal :=
  go d.digits d.digits d.power
where
  go : Nat → Nat → Int → Decimal
    | 0, digits, power => ⟨digits, power⟩
    | fuel + 1, digits, power =>
        if digits ≠ 0 ∧ digits % 10 = 0 then go fuel (digits / 10) (power + 1)
        else ⟨digits, power⟩

/-- The distance of a decimal from `num / den`, in a unit common to all decimals of its power. -/
def distance (d : Decimal) (num den : Nat) : Nat :=
  let scaled :=
    if 0 ≤ d.power then (d.digits * tenTo d.power.toNat * den, num)
    else (d.digits * den, num * tenTo (-d.power).toNat)
  (scaled.1 - scaled.2) + (scaled.2 - scaled.1)

/-- The point of the grid of a power at or below `num / den`. -/
def below (num den : Nat) (power : Int) : Decimal :=
  if 0 ≤ power then ⟨num / (den * tenTo power.toNat), power⟩
  else ⟨num * tenTo (-power).toNat / den, power⟩

end Decimal

/-- The number of decimal digits before the point of `num / den`, or, when it is below one,
minus the number of zeros after the point. -/
def pointOf (num den : Nat) : Int :=
  if den ≤ num then ((toString (num / den)).length : Int)
  else go 400 0
where
  go : Nat → Nat → Int
    | 0, zeros => -(zeros : Int)
    | fuel + 1, zeros =>
        if den ≤ num * tenTo (zeros + 1) then -(zeros : Int) else go fuel (zeros + 1)

/-- The decimals of a given number of digits around a number that read back as that number,
the nearest first. -/
def candidates (mantissa : Nat) (exponent : Int) (count : Nat) : List Decimal :=
  let (num, den) := Binary.ratio mantissa exponent
  let low := Decimal.below num den (pointOf num den - count)
  let high : Decimal := { low with digits := low.digits + 1 }
  let reads (d : Decimal) : Bool :=
    Binary.ofDecimal false d.digits d.power == .finite false mantissa exponent
  let ordered :=
    if high.distance num den < low.distance num den then [high, low] else [low, high]
  ordered.filter reads

/-- The shortest decimal of a positive number. Seventeen digits always suffice. -/
def shortest (mantissa : Nat) (exponent : Int) : Decimal :=
  match (List.range 17).findSome? fun count => (candidates mantissa exponent (count + 1)).head? with
  | some found => found.trimmed
  | none => ⟨0, 0⟩

/-- The digits of a decimal with the point at its place, and at least one digit on each
side of it. -/
def positional (shown : String) (point : Int) : String :=
  let zeros (count : Int) := String.ofList (List.replicate count.toNat '0')
  if point ≤ 0 then "0." ++ zeros (-point) ++ shown
  else if (shown.length : Int) ≤ point then shown ++ zeros (point - shown.length) ++ ".0"
  else
    String.ofList (shown.toList.take point.toNat) ++ "." ++
      String.ofList (shown.toList.drop point.toNat)

/-- The digits of a decimal with one digit before the point, and the power of ten. -/
def scientific (shown : String) (point : Int) : String :=
  let rest := String.ofList (shown.toList.drop 1)
  let lead := String.ofList (shown.toList.take 1)
  let power := point - 1
  let size := toString power.natAbs
  lead ++ (if rest.isEmpty then "" else "." ++ rest) ++ (if power < 0 then "e-" else "e+") ++
    (if size.length < 2 then "0" ++ size else size)

namespace Binary

/-- The text of a number: positional from `0.0001` up to below `10 ^ 16`, with the power of
ten outside. -/
def text : Binary → String
  | undefined => "nan"
  | infinite negative => if negative then "-inf" else "inf"
  | finite negative mantissa exponent =>
      let magnitude :=
        if mantissa = 0 then "0.0"
        else
          let found := shortest mantissa exponent
          let shown := toString found.digits
          let point := found.power + shown.length
          if -4 < point ∧ point ≤ 16 then positional shown point else scientific shown point
      if negative then "-" ++ magnitude else magnitude

end Binary

end Bookable.Number
