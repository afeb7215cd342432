import Parlance.Number.Binary64

/-! The text of a double: the fewest decimal digits that read back to it, of these the nearest to it,
and of two equally near the larger. Digits are written in place, never with an exponent. -/
namespace Parlance.Shortest

structure Digits where
  digits : Nat
  exponent : Int
  deriving DecidableEq, Repr

structure Interval where
  low : Nat
  mid : Nat
  high : Nat
  exponent : Int
  closed : Bool
  deriving DecidableEq, Repr

def Interval.of (p : Binary64.Parts) : Interval where
  low := if p.mantissa == twoTo 52 && p.exponent != -1074 then 4 * p.mantissa - 1
    else 4 * p.mantissa - 2
  mid := 4 * p.mantissa
  high := 4 * p.mantissa + 2
  exponent := p.exponent - 2
  closed := p.mantissa % 2 == 0

structure Scaled where
  low : Nat
  mid : Nat
  high : Nat
  grid : Nat
  deriving DecidableEq, Repr

def Interval.scale (i : Interval) (exponent : Int) : Scaled :=
  let tens := tenTo (-exponent).toNat
  let binary := twoTo i.exponent.toNat
  { low := i.low * binary * tens
    mid := i.mid * binary * tens
    high := i.high * binary * tens
    grid := tenTo exponent.toNat * twoTo (-i.exponent).toNat }

def Interval.holds (i : Interval) (s : Scaled) (point : Nat) : Bool :=
  if i.closed then s.low ≤ point * s.grid && point * s.grid ≤ s.high
  else s.low < point * s.grid && point * s.grid < s.high

def Interval.onGrid? (i : Interval) (exponent : Int) : Option Digits :=
  let s := i.scale exponent
  let below := s.mid / s.grid
  let above := below + 1
  let keepBelow := i.holds s below
  let keepAbove := i.holds s above
  if keepBelow && (!keepAbove || s.mid - below * s.grid < above * s.grid - s.mid) then
    some ⟨below, exponent⟩
  else if keepAbove then some ⟨above, exponent⟩
  else none

def Interval.search (i : Interval) : Nat → Int → Digits
  | 0, exponent => ⟨(i.scale exponent).mid / (i.scale exponent).grid, exponent⟩
  | finer + 1, exponent =>
    match i.onGrid? exponent with
    | some d => d
    | none => i.search finer (exponent - 1)

def digitCount : Nat → Nat → Nat
  | 0, _ => 0
  | bound + 1, n => if n == 0 then 0 else digitCount bound (n / 10) + 1

def leading (i : Interval) : Int :=
  let s := i.scale (-400)
  (digitCount 800 (s.mid / s.grid) : Int) - 401

def ofParts (p : Binary64.Parts) : Digits :=
  let i := Interval.of p
  i.search 17 (leading i)

def dropZeros : Nat → Digits → Digits
  | 0, d => d
  | rounds + 1, d =>
    if d.exponent < 0 && d.digits % 10 == 0 then
      dropZeros rounds ⟨d.digits / 10, d.exponent + 1⟩
    else d

def Digits.text (d : Digits) : String :=
  let written := (toString d.digits).toList
  if d.exponent ≥ 0 then String.ofList (written ++ List.replicate d.exponent.toNat '0')
  else
    let places := (-d.exponent).toNat
    let padded := List.replicate (places + 1 - written.length) '0' ++ written
    let whole := padded.length - places
    String.ofList (padded.take whole ++ '.' :: padded.drop whole)

def ofBits (bits : Nat) : String :=
  let magnitude := bits % twoTo 63
  if magnitude > Binary64.infinityBits then "NaN"
  else
    let sign := if Binary64.signBit bits then "-" else ""
    if magnitude == Binary64.infinityBits then sign ++ "inf"
    else if magnitude == 0 then sign ++ "0"
    else sign ++ (dropZeros 400 (ofParts (Binary64.parts magnitude))).text

def ofFloat (x : Float) : String := ofBits x.toBits.toNat

end Parlance.Shortest
