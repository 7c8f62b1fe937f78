import TubePreamp.Sample

/-!
The tube table. Each tube has a European and an American name and a datasheet: the four
coefficients of its transfer curve and the components of its reference circuit. White space around
a name are the characters with the Unicode property White_Space.
-/

namespace TubePreamp.Text

/-- Inclusive ranges of code points, in ascending order. -/
def blankRanges : List (Nat × Nat) :=
  [(0x09, 0x0D), (0x20, 0x20), (0x85, 0x85), (0xA0, 0xA0), (0x1680, 0x1680), (0x2000, 0x200A),
   (0x2028, 0x2029), (0x202F, 0x202F), (0x205F, 0x205F), (0x3000, 0x3000)]

def isBlank (c : Char) : Bool :=
  blankRanges.any fun (low, high) => low ≤ c.toNat && c.toNat ≤ high

def trim (cs : List Char) : List Char :=
  ((cs.dropWhile isBlank).reverse.dropWhile isBlank).reverse

def splitCommas : List Char → List (List Char)
  | [] => [[]]
  | c :: cs =>
    match c == ',', splitCommas cs with
    | true, pieces => [] :: pieces
    | false, piece :: pieces => (c :: piece) :: pieces
    | false, [] => [[c]]

end TubePreamp.Text

namespace TubePreamp

/-- The perveance is `g0` at zero grid voltage and tends to `gInf` where the grid is strongly negative;
`d` tells how it follows the grid, and `h` scales the anode voltage. -/
structure Datasheet where
  g0 : Float
  gInf : Float
  d : Float
  h : Float
  vb : Float
  ra : Float
  vk : Float
  rk : Float
  ck : Float

inductive Tube where
  | ecc82
  | ecc83
  deriving DecidableEq, Repr

namespace Tube

instance : Inhabited Tube := ⟨ecc82⟩

def all : List Tube := [ecc82, ecc83]

def index : Tube → Nat
  | ecc82 => 0
  | ecc83 => 1

def name : Tube → String
  | ecc82 => "ECC82"
  | ecc83 => "ECC83"

def spellings : Tube → List String
  | ecc82 => ["ecc82", "12au7"]
  | ecc83 => ["ecc83", "12ax7"]

def datasheet : Tube → Datasheet
  | ecc82 =>
    { g0 := 9.888576e-15, gInf := 6.415385e-24, d := 2.95290, h := 1.021711e-02
      vb := 250, ra := 10e3, vk := 6, rk := 861.652929, ck := 9.235444e-05 }
  | ecc83 =>
    { g0 := 1.609683e-15, gInf := 2.140844e-23, d := 0.61750, h := 1.000794e-02
      vb := 250, ra := 50e3, vk := 1.5, rk := 1430.037044, ck := 5.564714e-05 }

/-- Reads a name; case and surrounding white space do not matter. Only ASCII letters occur in the
accepted names, and no other character has one of them as its small letter. -/
def ofChars? (cs : List Char) : Option Tube :=
  let key := String.ofList ((Text.trim cs).map Char.toLower)
  all.find? fun tube => tube.spellings.contains key

def ofName? (name : String) : Option Tube := ofChars? name.toList

end Tube

/-!
The transfer curve of a triode. The anode current is a cubic in the control voltage
`vgk + vak / h` and zero where that is not positive; its perveance depends on the grid alone. The
anode load line `vak + ra * ia = vb` is solved for the anode-cathode voltage by a fixed number of
Newton steps with the grid held still.
-/

structure Curve (T : Type) where
  g0 : T
  gInf : T
  d : T
  h : T

namespace Curve

variable {T : Type} [Sample T]

def ofDatasheet (p : Datasheet) : Curve T where
  g0 := Sample.ofDouble p.g0
  gInf := Sample.ofDouble p.gInf
  d := Sample.ofDouble p.d
  h := Sample.ofDouble p.h

/-- Perveance at a grid-cathode voltage: a hyperbola below zero and its tangent above. -/
def perveance (c : Curve T) (vgk : T) : T :=
  let span := c.g0 - c.gInf
  if vgk ≤ 0 then c.gInf + span / (1 - c.d * vgk) else c.gInf + span * (1 + c.d * vgk)

def control (c : Curve T) (vgk vak : T) : T := vgk + vak / c.h

def current (c : Curve T) (g vgk vak : T) : T :=
  let x := c.control vgk vak
  if x ≤ 0 then 0 else g * x * x * x

def conductance (c : Curve T) (g vgk vak : T) : T :=
  let x := c.control vgk vak
  if x ≤ 0 then 0 else Sample.ofDouble 3 * g / c.h * x * x

/-- Resistance that a following stage sees: the anode resistor in parallel with the differential
resistance of the tube. A tube that is cut off leaves the anode resistor alone. -/
def outputResistance (c : Curve T) (g vgk vak ra : T) : T :=
  let slope := c.conductance g vgk vak
  if slope ≤ 0 then ra
  else
    let xi := 1 / slope
    ra * xi / (ra + xi)

end Curve

structure LoadLine (T : Type) where
  curve : Curve T
  g : T
  vgk : T
  vb : T
  ra : T

namespace LoadLine

variable {T : Type} [Sample T]

def atGrid (curve : Curve T) (vgk vb ra : T) : LoadLine T :=
  { curve, g := curve.perveance vgk, vgk, vb, ra }

def current (l : LoadLine T) (vak : T) : T := l.curve.current l.g l.vgk vak

def conductance (l : LoadLine T) (vak : T) : T := l.curve.conductance l.g l.vgk vak

def outputResistance (l : LoadLine T) (vak : T) : T :=
  l.curve.outputResistance l.g l.vgk vak l.ra

def residual (l : LoadLine T) (vak : T) : T := vak + l.ra * l.current vak - l.vb

def slope (l : LoadLine T) (vak : T) : T := 1 + l.ra * l.conductance vak

def newton (l : LoadLine T) (vak : T) : T := vak - l.residual vak / l.slope vak

def descend (l : LoadLine T) : Nat → T → T
  | 0, vak => vak
  | n + 1, vak => l.descend n (l.newton vak)

def newtonSteps : Nat := 6

def solve (l : LoadLine T) (start : T) : T := l.descend newtonSteps start

end LoadLine

end TubePreamp
