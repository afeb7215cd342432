import Parlance.Number.Binary64

/-! Scaled decimals: a sign, digits below two to 96 and at most 28 places. Arithmetic between integers
and doubles goes through them, so that whole results stay whole. An operation whose result does not
fit fails. -/
namespace Parlance

structure Decimal where
  negative : Bool
  digits : Nat
  places : Nat
  deriving DecidableEq, Repr

namespace Decimal

def bound : Nat := twoTo 96

def maxPlaces : Nat := 28

def zero : Decimal := ⟨false, 0, 0⟩

def ofInt (n : Int) : Decimal := ⟨decide (n < 0), n.natAbs, 0⟩

/-- Turns a negative power of two into a power of ten: a factor of two is taken off, or a factor of five put on
while it fits. -/
def foldHalves : Nat → Nat → Int → Nat × Int
  | 0, m, e => (m, e)
  | halves + 1, m, e =>
    if m % 2 == 0 then foldHalves halves (m / 2) (e + 1)
    else if m * 5 < bound then foldHalves halves (m * 5) e
    else foldHalves halves (m / 2) (e + 1)

def foldDoubles : Nat → Nat → Int → Option (Nat × Int)
  | 0, m, e => some (m, e)
  | doubles + 1, m, e =>
    if m < twoTo 95 then foldDoubles doubles (m * 2) (e - 1)
    else if e * 2 > (doubles + 1 : Nat) then none
    else foldDoubles doubles (m / 5) e

def foldTens : Nat → Nat → Option Nat
  | 0, m => some m
  | tens + 1, m => if m * 10 < bound then foldTens tens (m * 10) else none

def dropDigit (m : Nat) : Nat := if m % 10 ≥ 5 then m / 10 + 1 else m / 10

def cutPlaces : Nat → Nat → Nat → Nat × Nat
  | 0, m, places => (m, places)
  | excess + 1, m, places =>
    if m / 10 == 0 then (0, 0) else cutPlaces excess (dropDigit m) (places - 1)

def cutDigits : Nat → Nat → Nat × Nat
  | 0, m => (m, 0)
  | places + 1, m => if m ≥ twoTo 52 then cutDigits places (dropDigit m) else (m, places + 1)

def cutZeros : Nat → Nat → Nat × Nat
  | 0, m => (m, 0)
  | places + 1, m => if m % 10 == 0 then cutZeros places (m / 10) else (m, places + 1)

def ofParts (p : Binary64.Parts) : Option (Nat × Nat) := do
  let (m, e) ← if p.exponent < 0 then some (foldHalves p.exponent.natAbs p.mantissa p.exponent)
    else foldDoubles p.exponent.natAbs p.mantissa p.exponent
  let m ← foldTens e.toNat m
  let (m, places) := cutPlaces ((-e).toNat - maxPlaces) m (-e).toNat
  let (m, places) := cutDigits places m
  some (cutZeros places m)

def ofBits (bits : Nat) : Option Decimal :=
  let magnitude := bits % twoTo 63
  if magnitude ≥ Binary64.infinityBits then none
  else if magnitude == 0 then some ⟨Binary64.signBit bits, 0, 0⟩
  else (ofParts (Binary64.parts magnitude)).map fun found =>
    ⟨Binary64.signBit bits, found.1, found.2⟩

def ofFloat (x : Float) : Option Decimal := ofBits x.toBits.toNat

def fitFrom (negative : Bool) (m places : Nat) : Nat → Nat → Option Decimal
  | 0, _ => none
  | rounds + 1, drop =>
    if places < drop then none
    else
      let v := roundHalfEven m (tenTo drop)
      if v < bound then some ⟨negative, v, places - drop⟩
      else fitFrom negative m places rounds (drop + 1)

def fit (negative : Bool) (m places : Nat) : Option Decimal :=
  fitFrom negative m places (places + 1) (places - maxPlaces)

def signed (a : Decimal) : Int := if a.negative then -(a.digits : Int) else a.digits

def neg (a : Decimal) : Decimal := { a with negative := !a.negative }

def add (a b : Decimal) : Option Decimal :=
  if a.digits == 0 then some b
  else if b.digits == 0 then some a
  else
    let places := max a.places b.places
    let sum := a.signed * tenTo (places - a.places) + b.signed * tenTo (places - b.places)
    fit (decide (sum < 0)) sum.natAbs places

def sub (a b : Decimal) : Option Decimal :=
  if b.digits == 0 then some (if a.digits == 0 then b else a) else add a b.neg

def mul (a b : Decimal) : Option Decimal :=
  if a.digits == 0 || b.digits == 0 then some zero
  else
    let places := a.places + b.places
    if a.digits < twoTo 32 && b.digits < twoTo 32 && places > 47 then some zero
    else fit (a.negative != b.negative) (a.digits * b.digits) places

structure Quotient where
  digits : Nat
  places : Int
  fractional : Bool
  deriving DecidableEq, Repr

def room (q : Nat) (places : Int) : Nat → Nat
  | 0 => 0
  | x + 1 =>
    if places + (x + 1 : Nat) ≤ maxPlaces && q * tenTo (x + 1) < bound then x + 1
    else room q places x

def finish (q : Nat) (places : Int) (r d : Nat) : Option Quotient :=
  if 2 * r > d || (2 * r == d && q % 2 == 1) then
    if q + 1 == bound then
      if places < 1 then none else some ⟨roundHalfEven (q + 1) 10, places - 1, true⟩
    else some ⟨q + 1, places, true⟩
  else some ⟨q, places, true⟩

def divideFrom (d : Nat) : Nat → Nat → Nat → Int → Bool → Option Quotient
  | 0, _, _, _, _ => none
  | rounds + 1, q, r, places, fractional =>
    if r == 0 && places ≥ 0 then some ⟨q, places, fractional⟩
    else
      let x := if r == 0 then min 9 (-places).toNat
        else if places == maxPlaces then 0 else room q places 9
      if r != 0 && places != maxPlaces && x < 9 && places + x < 0 then none
      else if x == 0 then finish q places r d
      else if q * tenTo x ≥ bound then none
      else
        let total := q * tenTo x + r * tenTo x / d
        let left := r * tenTo x % d
        let places := places + x
        if total ≥ bound then
          if places < 1 then none
          else
            let last := total % 10
            let up := last > 5 || (last == 5 && (left != 0 || total / 10 % 2 == 1))
            some ⟨if up then total / 10 + 1 else total / 10, places - 1, true⟩
        else divideFrom d rounds total left places (fractional || r != 0)

def stripZeros (count : Nat) (q : Nat × Nat) : Nat × Nat :=
  if q.2 ≥ count && q.1 % tenTo count == 0 then (q.1 / tenTo count, q.2 - count) else q

def stripEights : Nat → Nat × Nat → Nat × Nat
  | 0, q => q
  | rounds + 1, q =>
    if q.1 % twoTo 32 == 0 && q.2 ≥ 8 && q.1 % tenTo 8 == 0 then
      stripEights rounds (stripZeros 8 q)
    else q

def strip (q : Nat × Nat) : Nat × Nat :=
  let q := stripEights 4 q
  let q := if q.1 % 16 == 0 then stripZeros 4 q else q
  let q := if q.1 % 4 == 0 then stripZeros 2 q else q
  if q.1 % 2 == 0 then stripZeros 1 q else q

def div (a b : Decimal) : Option Decimal :=
  if a.digits == 0 then some zero
  else do
    let q ← divideFrom b.digits 100 (a.digits / b.digits) (a.digits % b.digits)
      ((a.places : Int) - b.places) false
    let (digits, places) :=
      if q.fractional then strip (q.digits, q.places.toNat) else (q.digits, q.places.toNat)
    some ⟨digits != 0 && a.negative != b.negative, digits, places⟩

def toInt? (a : Decimal) : Option Int :=
  if a.digits % tenTo a.places == 0 then
    let n : Int := ↑(a.digits / tenTo a.places)
    some (if a.negative then -n else n)
  else none

def floatPower : Nat → Nat → Float → Float → Float
  | 0, _, _, result => result
  | rounds + 1, n, base, result =>
    let result := if n % 2 == 1 then result * base else result
    if n / 2 == 0 then result else floatPower rounds (n / 2) (base * base) result

/-- A double for a decimal: whole part and fraction are taken to doubles, and their sum is rounded to
the places of the decimal. -/
def toFloat (a : Decimal) : Float :=
  let sign (x : Float) : Float := if a.negative then -x else x
  if a.places == 0 then if a.digits == 0 then Binary64.ofNat 0 else sign (Binary64.ofNat a.digits)
  else
    let whole := Binary64.ofNat (a.digits / tenTo a.places)
    let fraction := Binary64.ofNat (a.digits % tenTo a.places) / Binary64.ofNat (tenTo a.places)
    if fraction == Binary64.ofNat 0 then sign whole
    else
      let power := floatPower 8 a.places (Binary64.ofNat 10) (Binary64.ofNat 1)
      sign (((whole + fraction) * power).round / power)

end Decimal
end Parlance
