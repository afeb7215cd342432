/-! The double nearest to a ratio, and a double as an integer times a power of two. All rounding here is
to nearest, with a tie going to the even neighbour. -/
namespace Parlance

def twoTo (n : Nat) : Nat := Nat.pow 2 n

def tenTo (n : Nat) : Nat := Nat.pow 10 n

def roundHalfEven (num den : Nat) : Nat :=
  let q := num / den
  let r := num % den
  if 2 * r > den || (2 * r == den && q % 2 == 1) then q + 1 else q

namespace Binary64

structure Parts where
  mantissa : Nat
  exponent : Int
  deriving DecidableEq, Repr

def signBit (bits : Nat) : Bool := bits / twoTo 63 % 2 == 1

def parts (bits : Nat) : Parts :=
  let field : Nat := bits / twoTo 52 % twoTo 11
  let fraction := bits % twoTo 52
  if field == 0 then ⟨fraction, -1074⟩ else ⟨fraction + twoTo 52, (field : Int) - 1075⟩

def infinityBits : Nat := 0x7FF0000000000000

def exponentFor (num den : Nat) : Int :=
  let guess : Int := (Nat.log2 num : Int) - (Nat.log2 den : Int) - 52
  let tooLarge := if guess ≥ 0 then num < den * twoTo (guess.toNat + 52)
    else num * twoTo (-guess).toNat < den * twoTo 52
  max (if tooLarge then guess - 1 else guess) (-1074)

/-- The bits of the nearest double; a ratio too large for any becomes infinity. A mantissa that rounds
up to the next power of two carries into the exponent field. -/
def ratioBits (num den : Nat) : Nat :=
  if num == 0 then 0
  else
    let e := exponentFor num den
    let m := if e ≥ 0 then roundHalfEven num (den * twoTo e.toNat)
      else roundHalfEven (num * twoTo (-e).toNat) den
    min ((e + 1074).toNat * twoTo 52 + m) infinityBits

def ofRatio (num den : Nat) : Float := Float.ofBits (UInt64.ofNat (ratioBits num den))

def ofNat (n : Nat) : Float := ofRatio n 1

def ofInt (n : Int) : Float := if n < 0 then -ofNat n.natAbs else ofNat n.natAbs

end Binary64
end Parlance
