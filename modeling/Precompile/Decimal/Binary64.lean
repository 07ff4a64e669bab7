/-!
Double-precision numbers as exact fractions.

A finite double is a sign, a whole number below `2 ^ 53` and a power of two. Products and quotients
are computed exactly on whole numbers and then rounded once, to the nearest double and to the even
one of two that are equally near.
-/

namespace Precompile

/-- The finite double `± mantissa * 2 ^ exponent`. -/
structure Binary64 where
  negative : Bool
  mantissa : Nat
  exponent : Int
  deriving DecidableEq, Repr, Inhabited

namespace Binary64

/-- The least exponent of two; the numbers with it are spaced evenly down to zero. -/
def minExponent : Int := -1074

def maxExponent : Int := 971

def mantissaBound : Nat := Nat.pow 2 53

def zero (negative : Bool) : Binary64 := ⟨negative, 0, minExponent⟩

/-- The quotient to the nearest whole number, the even one of two equally near. -/
def roundDiv (num den : Nat) : Nat :=
  let q := num / den
  let r := num % den
  if 2 * r < den then q
  else if 2 * r > den then q + 1
  else if q % 2 = 0 then q else q + 1

/-- `num / den` in units of `2 ^ e`, to the nearest whole number. -/
def inUnits (num den : Nat) (e : Int) : Nat :=
  if e < 0 then roundDiv (num * Nat.pow 2 e.natAbs) den
  else roundDiv num (den * Nat.pow 2 e.natAbs)

/-- The double nearest to `num / den`, or nothing when that is past the greatest double. -/
def ofRatio? (num den : Nat) : Option Binary64 :=
  if num = 0 then some (zero false)
  else
    let guess : Int := (Nat.log2 num : Int) - (Nat.log2 den : Int) - 52
    let short := inUnits num den guess < mantissaBound / 2
    let e := max minExponent (if short then guess - 1 else guess)
    let m := inUnits num den e
    let (m, e) := if m = mantissaBound then (m / 2, e + 1) else (m, e)
    if maxExponent < e then none else some ⟨false, m, e⟩

def ofNat? (n : Nat) : Option Binary64 := ofRatio? n 1

def num (x : Binary64) : Nat :=
  if x.exponent < 0 then x.mantissa else x.mantissa * Nat.pow 2 x.exponent.natAbs

def den (x : Binary64) : Nat :=
  if x.exponent < 0 then Nat.pow 2 x.exponent.natAbs else 1

def withSign (x : Binary64) (negative : Bool) : Binary64 := { x with negative }

/-- The rounded product of two numbers without sign. -/
def mul? (x y : Binary64) : Option Binary64 := ofRatio? (x.num * y.num) (x.den * y.den)

/-- The rounded quotient of two numbers without sign; the divisor is not zero. -/
def div? (x y : Binary64) : Option Binary64 := ofRatio? (x.num * y.den) (x.den * y.num)

def maxTenExponent : Nat := 308

def tenPow? (n : Nat) : Option Binary64 := ofNat? (Nat.pow 10 n)

/-- `x` divided by a power of ten, in steps of at most the greatest power of ten. -/
def scaleDown (x : Binary64) (n : Nat) : Option Binary64 :=
  if n ≤ maxTenExponent then (tenPow? n).bind x.div?
  else if x.mantissa = 0 then some x
  else (tenPow? maxTenExponent).bind fun p => (x.div? p).bind (scaleDown · (n - maxTenExponent))
termination_by n
decreasing_by simp only [maxTenExponent] at *; omega

/-- The double that a significand and a power of ten are read as: the significand is rounded
first, and then each product or quotient with a power of ten. Nothing when the value is past the
greatest double. -/
def ofDecimal? (significand : Nat) (exponent : Int) : Option Binary64 :=
  (ofNat? significand).bind fun x =>
    match exponent with
    | .ofNat n =>
      if n ≤ maxTenExponent then (tenPow? n).bind x.mul?
      else if x.mantissa = 0 then some x else none
    | .negSucc n => scaleDown x (n + 1)

end Binary64

end Precompile
