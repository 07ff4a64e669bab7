import Precompile.Decimal.Binary64

/-!
The shortest decimal that reads back as a given double, and how it is written.

The reals that round to a double form an interval around it. For one digit, two digits and so on,
the two neighbours of the double on that decimal grid are tried; the first grid with a neighbour
in the interval gives the digits.
-/

namespace Precompile

/-- The decimal `digits * 10 ^ exponent`. -/
structure ShortDecimal where
  digits : Nat
  exponent : Int
  deriving DecidableEq, Repr, Inhabited

namespace ShortDecimal

def ratio (n : Nat) (e : Int) : Nat × Nat :=
  if e < 0 then (n, Nat.pow 10 e.natAbs) else (n * Nat.pow 10 e.natAbs, 1)

def le (a c : Nat × Nat) : Bool := a.1 * c.2 ≤ c.1 * a.2

def lt (a c : Nat × Nat) : Bool := a.1 * c.2 < c.1 * a.2

/-- Half-way from the number below to the double, and from the double to the number above. -/
def bounds (x : Binary64) : (Nat × Nat) × (Nat × Nat) :=
  let scale (m : Nat) (e : Int) : Nat × Nat :=
    if e < 0 then (m, Nat.pow 2 e.natAbs) else (m * Nat.pow 2 e.natAbs, 1)
  let low :=
    if x.mantissa = Binary64.mantissaBound / 2 ∧ Binary64.minExponent < x.exponent then
      scale (4 * x.mantissa - 1) (x.exponent - 2)
    else scale (2 * x.mantissa - 1) (x.exponent - 1)
  (low, scale (2 * x.mantissa + 1) (x.exponent - 1))

/-- Whether a fraction rounds to the double. The ends of the interval do when the mantissa is
even. -/
def roundsTo (x : Binary64) (r : Nat × Nat) : Bool :=
  let (low, high) := bounds x
  if x.mantissa % 2 = 0 then le low r && le r high else lt low r && lt r high

/-- The neighbour of the double on the grid of multiples of `10 ^ e` that rounds to it: the
nearer one if both do, the even one if both are equally near. -/
def onGrid? (x : Binary64) (e : Int) : Option Nat :=
  let unit := ratio 1 e
  let below := (x.num * unit.2) / (x.den * unit.1)
  let above := below + 1
  let fits (n : Nat) := n ≠ 0 && roundsTo x (ratio n e)
  if fits below && fits above then
    -- twice the double against the sum of its neighbours
    let twice := (2 * x.num, x.den)
    let sum := ratio (below + above) e
    if lt twice sum then some below
    else if lt sum twice then some above
    else some (if below % 2 = 0 then below else above)
  else if fits below then some below
  else if fits above then some above
  else none

/-- The power of ten of the first digit. -/
def firstDigit (x : Binary64) : Int :=
  let guess : Int := ((Nat.log2 x.num : Int) - (Nat.log2 x.den : Int) - 1) * 30103 / 100000
  if le (ratio 1 (guess + 1)) (x.num, x.den) then guess + 1
  else if le (ratio 1 guess) (x.num, x.den) then guess
  else guess - 1

/-- The number without zeros at its end. -/
def stripZeros (fuel : Nat) (d : ShortDecimal) : ShortDecimal :=
  match fuel with
  | 0 => d
  | fuel + 1 =>
    if d.digits ≠ 0 ∧ d.digits % 10 = 0 then stripZeros fuel ⟨d.digits / 10, d.exponent + 1⟩ else d

/-- The shortest decimal that rounds to a double other than zero; 17 digits always suffice. -/
def ofBinary (x : Binary64) : ShortDecimal :=
  let first := firstDigit x
  let found := (List.range 17).findSome? fun (k : Nat) =>
    let e := first - (k : Int)
    (onGrid? x e).map fun n => ShortDecimal.mk n e
  stripZeros 20 (found.getD ⟨0, 0⟩)

end ShortDecimal

namespace Binary64

def digitsOf (n : Nat) : List Char := Nat.toDigits 10 n

def zeros (n : Nat) : List Char := List.replicate n '0'

/-- The digits with a point after the first `point` of them, zeros filled in on either side. -/
def positional (digits : List Char) (point : Int) : List Char :=
  if point ≤ 0 then '0' :: '.' :: zeros point.natAbs ++ digits
  else if digits.length ≤ point.toNat then
    digits ++ zeros (point.toNat - digits.length) ++ ['.', '0']
  else digits.take point.toNat ++ '.' :: digits.drop point.toNat

/-- The digits with a point after the first one, and an exponent with its sign. -/
def scientific (digits : List Char) (point : Int) : List Char :=
  let mantissa := match digits with
    | [] => []
    | [d] => [d]
    | d :: ds => d :: '.' :: ds
  let exponent := point - 1
  mantissa ++ 'e' :: (if exponent < 0 then '-' else '+') :: digitsOf exponent.natAbs

/-- The digits are written around the point: it stands at most four places before the first digit
and at most sixteen after it. -/
def isPositional (point : Int) : Bool := decide (-5 < point ∧ point ≤ 16)

/-- The shortest text of a double, with at least one decimal unless it has an exponent. -/
def toShortText (x : Binary64) : String :=
  let sign := if x.negative then ['-'] else []
  let body :=
    if x.mantissa = 0 then ['0', '.', '0']
    else
      let d := ShortDecimal.ofBinary x
      let digits := digitsOf d.digits
      let point : Int := digits.length + d.exponent
      if isPositional point then positional digits point else scientific digits point
  String.ofList (sign ++ body)

end Binary64

end Precompile
