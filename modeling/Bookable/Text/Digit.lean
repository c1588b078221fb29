/-!
# Decimal digits

Each script has its own ten digits, a run of ten code points in ascending order
of value. A digit's value is therefore its distance from the zero of its run.
The ASCII digits are the first run, so `digitValue?` agrees with `asciiDigit?`
wherever the latter answers.
-/

namespace Bookable.Text

/-- The zero of every run of ten decimal digits, in ascending order (Unicode 14). -/
def digitZeros : List Nat := [
    0x30, 0x660, 0x6f0, 0x7c0, 0x966, 0x9e6, 0xa66, 0xae6, 0xb66, 0xbe6, 0xc66, 0xce6,
    0xd66, 0xde6, 0xe50, 0xed0, 0xf20, 0x1040, 0x1090, 0x17e0, 0x1810, 0x1946, 0x19d0,
    0x1a80, 0x1a90, 0x1b50, 0x1bb0, 0x1c40, 0x1c50, 0xa620, 0xa8d0, 0xa900, 0xa9d0,
    0xa9f0, 0xaa50, 0xabf0, 0xff10, 0x104a0, 0x10d30, 0x11066, 0x110f0, 0x11136,
    0x111d0, 0x112f0, 0x11450, 0x114d0, 0x11650, 0x116c0, 0x11730, 0x118e0, 0x11950,
    0x11c50, 0x11d50, 0x11da0, 0x16a60, 0x16ac0, 0x16b50, 0x1d7ce, 0x1d7d8, 0x1d7e2,
    0x1d7ec, 0x1d7f6, 0x1e140, 0x1e2f0, 0x1e950, 0x1fbf0]

/-- The value of a decimal digit of any script. -/
def digitValue? (c : Char) : Option Nat :=
  (digitZeros.find? fun low => low ≤ c.toNat && c.toNat < low + 10).map (c.toNat - ·)

def asciiDigit? (c : Char) : Option Nat :=
  if '0' ≤ c ∧ c ≤ '9' then some (c.toNat - '0'.toNat) else none

/-- Reads exactly `count` ASCII digits, most significant first. -/
def takeDigits (count : Nat) (text : List Char) : Option (Nat × List Char) :=
  go count 0 text
where
  go : Nat → Nat → List Char → Option (Nat × List Char)
    | 0, value, rest => some (value, rest)
    | _ + 1, _, [] => none
    | count + 1, value, c :: rest => do
        let digit ← asciiDigit? c
        go count (10 * value + digit) rest

/-- The number that a sequence of digit values spells, most significant first. -/
def ofDigits (digits : List Nat) : Nat :=
  digits.foldl (fun value digit => 10 * value + digit) 0

/-- The last `width` decimal digits of a number, leading zeros kept. -/
def paddedDigits : Nat → Nat → List Char
  | 0, _ => []
  | width + 1, n => paddedDigits width (n / 10) ++ [Char.ofNat (0x30 + n % 10)]

/-- A number with at least `width` digits, filled with zeros on the left. -/
def padded (width n : Nat) : String :=
  let shown := toString n
  String.ofList (List.replicate (width - shown.length) '0') ++ shown

theorem ofDigitChars_padded (width n : Nat) :
    Nat.ofDigitChars 10 (padded width n).toList 0 = n := by
  rw [padded, String.toList_append, String.toList_ofList, Nat.ofDigitChars_append,
    Nat.ofDigitChars_replicate_zero, Nat.mul_zero]
  show Nat.ofDigitChars 10 n.repr.toList 0 = n
  rw [Nat.toList_repr]
  exact Nat.ofDigitChars_toDigits (by decide) (by decide)

theorem padded_injective {width m n : Nat} (h : padded width m = padded width n) : m = n := by
  rw [← ofDigitChars_padded width m, h, ofDigitChars_padded]

end Bookable.Text
