/-!
# Binary64 numbers

Numbers with a fraction are held as a significand of at most 53 bits and a power of two. A
decimal is rounded to the nearest such number, and a tie goes to the even significand.
-/

namespace IntegerBasic

inductive Binary64 where
  | finite (negative : Bool) (significand : Nat) (exponent : Int)
  | infinity (negative : Bool)
  | nan
  deriving DecidableEq, Repr

namespace Binary64

/-- The quotient rounded to the nearest whole number, and to the even one of two nearest. -/
def roundDiv (num den : Nat) : Nat :=
  let q := num / den
  let twice := 2 * (num % den)
  if twice < den then q
  else if den < twice then q + 1
  else q + q % 2

/-- The significand and power of two nearest to a positive quotient. The power of two is never
below -1074, where the significand gives up bits. -/
def nearest (num den : Nat) : Nat × Int :=
  let bits : Int := (Nat.log2 num : Int) - (Nat.log2 den : Int)
  let scaled (e : Int) : Nat :=
    if e < 0 then roundDiv (num <<< e.natAbs) den else roundDiv num (den <<< e.natAbs)
  let isShort (e : Int) : Bool :=
    if e < 0 then num <<< e.natAbs < den <<< 52 else num < den <<< (e.natAbs + 52)
  let e := max (-1074) (if isShort (bits - 52) then bits - 53 else bits - 52)
  (scaled e, e)

/-- The number nearest to `digits · 10 ^ exponent`, with a sign. -/
def ofDecimal (negative : Bool) (digits : Nat) (exponent : Int) : Binary64 :=
  let magnitude : Int := (Nat.toDigits 10 digits).length + exponent
  if digits = 0 || magnitude < -330 then .finite negative 0 0
  else if 310 < magnitude then .infinity negative
  else
    let (m, e) := if exponent < 0 then nearest digits (Nat.pow 10 exponent.natAbs)
      else nearest (digits * Nat.pow 10 exponent.natAbs) 1
    let isOver : Bool := 971 < e || (e == 971 && 1 <<< 53 ≤ m)
    if isOver then .infinity negative else .finite negative m e

/-- The whole part of a finite number: what is left when the fraction is dropped. -/
def whole (negative : Bool) (significand : Nat) (exponent : Int) : Int :=
  let magnitude :=
    if exponent < 0 then significand >>> exponent.natAbs else significand <<< exponent.natAbs
  if negative then -magnitude else magnitude

def isZero : Binary64 → Bool
  | .finite _ significand _ => significand == 0
  | _ => false

end Binary64

end IntegerBasic
