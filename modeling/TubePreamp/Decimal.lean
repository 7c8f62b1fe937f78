/-!
Doubles as decimal text and back. The exact value of a double is a sign and a whole number of units
`2 ^ exponent`.
-/

namespace TubePreamp

/-- The magnitude `mantissa * 2 ^ exponent` of a double, in the units of its last place. -/
structure Binary where
  mantissa : Nat
  exponent : Int
  deriving DecidableEq, Repr

namespace Binary

def fractionBits : Nat := 52

def leadingOne : Nat := Nat.pow 2 fractionBits

def biasedExponent (x : Float) : Nat := x.toBits.toNat / leadingOne % Nat.pow 2 11

def fraction (x : Float) : Nat := x.toBits.toNat % leadingOne

/-- Magnitude of a double. Subnormal numbers have no implicit leading one; an infinity is read
as the power of two that follows the largest finite double. -/
def ofDouble (x : Float) : Binary :=
  match biasedExponent x with
  | 0 => ⟨fraction x, -1074⟩
  | e + 1 => ⟨leadingOne + fraction x, (e : Int) - 1074⟩

def isNegative (x : Float) : Bool := x.toBits.toNat / Nat.pow 2 63 == 1

/-- The next double below is only half a unit away when the mantissa is a power of two. -/
def isBinadeStart (v : Binary) : Bool := v.mantissa == leadingOne

end Binary

structure Fraction where
  num : Nat
  den : Nat

namespace Fraction

def ofBinary (n : Nat) (e : Int) : Fraction := ⟨n * Nat.pow 2 e.toNat, Nat.pow 2 (-e).toNat⟩

def scale (r : Fraction) (e : Int) : Fraction :=
  ⟨r.num * Nat.pow 10 e.toNat, r.den * Nat.pow 10 (-e).toNat⟩

def floor (r : Fraction) : Nat := r.num / r.den

def roundHalfEven (r : Fraction) : Nat :=
  let q := r.num / r.den
  let twice := 2 * (r.num % r.den)
  if twice < r.den then q
  else if r.den < twice then q + 1
  else if q % 2 = 0 then q else q + 1

def digitCount (n : Nat) : Nat := if n = 0 then 0 else (Nat.toDigits 10 n).length

/-- For a positive number, the `k` with `10 ^ (k - 1) ≤ r < 10 ^ k`. -/
def magnitude (r : Fraction) : Int :=
  if r.den ≤ r.num then digitCount r.floor
  else 1 - (digitCount ((r.den - 1) / r.num) : Int)

end Fraction

def Binary.toFraction (v : Binary) : Fraction := .ofBinary v.mantissa v.exponent

/-!
The shortest decimal that reads back as a given double. The reals that round to `m * 2 ^ q` form
an interval around it, closed exactly when `m` is even. For 1, 2, ... digits the two neighbours of
the value on that decimal grid are tried; the first grid with a hit wins, of two hits the nearer,
and of two equally near ones the larger.
-/

structure Decimal where
  coefficient : Nat
  exponent : Int
  deriving DecidableEq, Repr

namespace Decimal

/-- The interval of reals that round to a double, with the double itself, over one denominator. -/
structure Span where
  low : Nat
  value : Nat
  high : Nat
  den : Nat
  closed : Bool

/-- Quarters of a unit in the last place: the upper end is two quarters above, the lower end two
quarters below, or one where the next double below is nearer. -/
def Span.around (v : Binary) : Span :=
  let unit := Fraction.ofBinary 1 (v.exponent - 2)
  let below := if v.isBinadeStart then 1 else 2
  { low := (4 * v.mantissa - below) * unit.num
    value := 4 * v.mantissa * unit.num
    high := (4 * v.mantissa + 2) * unit.num
    den := unit.den
    closed := v.mantissa % 2 == 0 }

def Span.contains (s : Span) (c : Nat) (e : Int) : Bool :=
  let point := c * Nat.pow 10 e.toNat * s.den
  let ten := Nat.pow 10 (-e).toNat
  if s.closed then s.low * ten ≤ point && point ≤ s.high * ten
  else s.low * ten < point && point < s.high * ten

def Span.hit? (s : Span) (e : Int) : Option Decimal :=
  let value := Fraction.scale ⟨s.value, s.den⟩ (-e)
  let c := value.floor
  match s.contains c e, s.contains (c + 1) e with
  | true, true =>
    if 2 * (value.num % value.den) < value.den then some ⟨c, e⟩ else some ⟨c + 1, e⟩
  | true, false => some ⟨c, e⟩
  | false, true => some ⟨c + 1, e⟩
  | false, false => none

def normalize (d : Decimal) : Decimal :=
  if d.coefficient = 0 then ⟨0, 0⟩
  else if d.coefficient % 10 = 0 then normalize ⟨d.coefficient / 10, d.exponent + 1⟩ else d
termination_by d.coefficient
decreasing_by all_goals omega

/-- Seventeen digits always tell a double from its neighbours. -/
def maxDigits : Nat := 17

def shortest (v : Binary) : Decimal :=
  if v.mantissa = 0 then ⟨0, 0⟩
  else
    let span := Span.around v
    let k := v.toFraction.magnitude
    let hit := (List.range maxDigits).findSome? fun n => span.hit? (k - (n + 1 : Nat))
    (hit.getD ⟨v.mantissa, v.exponent⟩).normalize

def digits (d : Decimal) : List Char := Nat.toDigits 10 d.coefficient

/-- Exponent of the first digit: `1` for `12.5`, `-1` for `0.125`. -/
def leading (d : Decimal) : Int := d.exponent + d.digits.length - 1

end Decimal

end TubePreamp

/-!
How a double is written: the shortest digits in a positional or exponent layout, a fixed number
of places, or a fixed number of significant digits with an exponent. A sign is written whenever
the sign bit is set, also for zero; a quantity that is not a number has no sign.
-/

namespace TubePreamp.Decimal

structure Layout where
  wholePoint : Bool
  positional : Option (Int × Int)

def Layout.plain : Layout := ⟨false, none⟩

/-- Always a point or an exponent; an exponent below `10 ^ -4` and from `10 ^ 16` on. -/
def Layout.explicit : Layout := ⟨true, some (-4, 15)⟩

def Layout.isPositional (f : Layout) (d : Decimal) : Bool :=
  match f.positional with
  | none => true
  | some (low, high) => d.coefficient == 0 || (low ≤ d.leading && d.leading ≤ high)

def zeros (n : Nat) : List Char := List.replicate n '0'

def positionalText (wholePoint : Bool) (d : Decimal) : List Char :=
  let whole := d.exponent + d.digits.length
  if 0 ≤ d.exponent then
    d.digits ++ zeros d.exponent.toNat ++ (if wholePoint then ['.', '0'] else [])
  else if 0 < whole then
    d.digits.take whole.toNat ++ '.' :: d.digits.drop whole.toNat
  else
    '0' :: '.' :: zeros (-whole).toNat ++ d.digits

def intText (n : Int) : List Char :=
  if n < 0 then '-' :: Nat.toDigits 10 n.natAbs else Nat.toDigits 10 n.natAbs

def exponentText (d : Decimal) : List Char :=
  let mantissa := match d.digits with
    | first :: second :: rest => first :: '.' :: second :: rest
    | short => short
  mantissa ++ 'e' :: intText d.leading

def signedText (finite : Binary → List Char) (x : Float) : String :=
  if x.isNaN then "NaN"
  else
    let magnitude := if x.isInf then "inf".toList else finite (Binary.ofDouble x)
    String.ofList (if Binary.isNegative x then '-' :: magnitude else magnitude)

def Layout.write (f : Layout) (x : Float) : String :=
  signedText (fun v =>
    let d := shortest v
    if f.isPositional d then positionalText f.wholePoint d else exponentText d) x

def padded (width n : Nat) : List Char :=
  let ds := Nat.toDigits 10 n
  zeros (width - ds.length) ++ ds

def writeFixed (places : Nat) (x : Float) : String :=
  signedText (fun v =>
    let scaled := (v.toFraction.scale places).roundHalfEven
    let unit := Nat.pow 10 places
    Nat.toDigits 10 (scaled / unit) ++ '.' :: padded places (scaled % unit)) x

def roundTo (places : Nat) (v : Binary) : Decimal :=
  let r := v.toFraction
  let e := r.magnitude - 1 - places
  let c := (r.scale (-e)).roundHalfEven
  if c = Nat.pow 10 (places + 1) then ⟨Nat.pow 10 places, e + 1⟩ else ⟨c, e⟩

def writeScientific (places : Nat) (x : Float) : String :=
  signedText (fun v =>
    if v.mantissa = 0 then '0' :: '.' :: zeros places ++ ['e', '0']
    else exponentText (roundTo places v)) x

/-!
Numbers in command-line text. A real number is an optional sign followed by `inf`, `infinity` or
`nan` in any case, or by digits with an optional point and exponent, at least one digit standing
before the exponent. A count is an optional plus sign and digits, below `2 ^ 64`.
-/

def spanDigits (cs : List Char) : List Char × List Char := cs.span Char.isDigit

def digitsValue (ds : List Char) : Nat := ds.foldl (fun n c => 10 * n + (c.toNat - '0'.toNat)) 0

def spanSign : List Char → Bool × List Char
  | '-' :: cs => (true, cs)
  | '+' :: cs => (false, cs)
  | cs => (false, cs)

def exponent? : List Char → Option Int
  | [] => some 0
  | mark :: cs =>
    if mark.toLower = 'e' then
      let (negative, ds) := spanSign cs
      match spanDigits ds with
      | ([], _) => none
      | (ds, []) => some (if negative then -(digitsValue ds : Int) else digitsValue ds)
      | _ => none
    else none

/-- Largest power of ten that matters: beyond it a double overflows or vanishes, whatever its
digits, as long as the digits are counted in. -/
def exponentLimit : Nat := 400

/-- The double nearest to `c * 10 ^ e`. Exponents far outside the range of doubles are cut off
before the power of ten is formed. -/
def nearest (c : Nat) (e : Int) : Float :=
  let leading := e + (Nat.toDigits 10 c).length
  if c = 0 || leading < -exponentLimit then 0.0
  else if (exponentLimit : Int) < leading then 1.0 / 0.0
  else OfScientific.ofScientific c (decide (e < 0)) e.natAbs

def magnitude? (cs : List Char) : Option Float :=
  let word := String.ofList (cs.map Char.toLower)
  if word = "inf" || word = "infinity" then some (1.0 / 0.0)
  else if word = "nan" then some (0.0 / 0.0)
  else
    let (whole, rest) := spanDigits cs
    let (part, rest) := match rest with
      | '.' :: rest => spanDigits rest
      | rest => ([], rest)
    if whole.isEmpty && part.isEmpty then none
    else (exponent? rest).map fun e => nearest (digitsValue (whole ++ part)) (e - part.length)

def readFloat? (s : String) : Option Float :=
  let (negative, cs) := spanSign s.toList
  (magnitude? cs).map fun x => if negative then -x else x

def countLimit : Nat := UInt64.size

def readCount? (s : String) : Option Nat :=
  let digits := match s.toList with
    | '+' :: cs => cs
    | cs => cs
  if digits.isEmpty || !digits.all Char.isDigit then none
  else if digitsValue digits < countLimit then some (digitsValue digits) else none

end TubePreamp.Decimal
