import TubePreamp.Circuit

/-!
The voltages and currents of a stage at the end of a sample, and the solution of the next sample
from them. Capacitors are discretized with backward differences over one sample period; the tube
is driven by the grid-cathode voltage of the previous sample.
-/

namespace TubePreamp

/-- The tube has just been solved with the cathode at `vkNow`; the next sample starts from `vk`, is
driven by `vgk` and is solved from `vak`. A driven stage is armed until it has taken its first input
as the previous one. -/
structure OperatingPoint (T : Type) where
  vkNow : T
  vk : T
  vg : T
  va : T
  vo : T
  vi : T
  vgk : T
  vak : T
  ig : T
  ia : T
  period : T
  armed : Bool

inductive Tap where
  | coupled
  | direct
  deriving DecidableEq, Repr

inductive Output (T : Type) where
  | coupled (vo : T)
  | direct (va ri : T)

namespace Output

variable {T : Type} [Sample T]

def vo : Output T → T
  | coupled vo => vo
  | direct .. => 0

def va : Output T → T
  | coupled _ => 0
  | direct va _ => va

def ri : Output T → T
  | coupled _ => 0
  | direct _ ri => ri

end Output

namespace OperatingPoint

variable {T : Type} [Sample T]

def atRest (c : Circuit T) (period : T) : OperatingPoint T where
  vkNow := c.vk
  vk := c.vk
  vg := 0
  va := c.vb
  vo := 0
  vi := 0
  vgk := 0 - c.vk
  vak := c.vb
  ig := 0
  ia := 0
  period := period
  armed := true

/-- Back to rest. Whether the first input is still to come is not forgotten. -/
def reset (p : OperatingPoint T) (c : Circuit T) (period : T) : OperatingPoint T :=
  { atRest c period with armed := p.armed }

def openGrid (p : OperatingPoint T) (c : Circuit T) (vi ri : T) : T :=
  (c.rg * (vi - p.vi) + (ri + c.rg) * p.vg) / (ri + c.rg + p.period / c.ci)

/-- Grid voltage and grid current. A conducting grid is clamped at the threshold above the cathode,
and the excess charges the coupling capacitor through the source. -/
def grid (p : OperatingPoint T) (c : Circuit T) (vi ri : T) : T × T :=
  let vg := p.openGrid c vi ri
  let drive := vg - p.vk
  if c.gridThreshold < drive then (p.vk + c.gridThreshold, (drive - c.gridThreshold) / ri)
  else (vg, 0)

def loadLine (p : OperatingPoint T) (c : Circuit T) : LoadLine T :=
  .atGrid c.curve p.vgk (c.vb - p.vk) c.ra

def cathode (p : OperatingPoint T) (c : Circuit T) (ia ig : T) : T :=
  (p.vk + p.period / c.ck * (ia + ig)) / (1 + p.period / (c.rk * c.ck))

def coupledOutput (p : OperatingPoint T) (c : Circuit T) (va : T) : T :=
  va - p.va + p.vo * (1 - p.period / (c.co * c.rg))

def step (p : OperatingPoint T) (c : Circuit T) (tap : Tap) (vi ri : T) :
    Output T × OperatingPoint T :=
  let (vg, ig) := p.grid c vi ri
  let line := p.loadLine c
  let vak := line.solve p.vak
  let ia := line.current vak
  let vk := p.cathode c ia ig
  let va := c.vb - c.ra * ia
  let output := match tap with
    | .coupled => Output.coupled (p.coupledOutput c va)
    | .direct => Output.direct va (line.outputResistance vak)
  (output,
    { p with vkNow := vk, vk, vg, va, vo := output.vo, vi, vgk := vg - vk, vak, ig, ia })

def run (c : Circuit T) (tap : Tap) :
    OperatingPoint T → List (T × T) → List (Output T) × OperatingPoint T
  | p, [] => ([], p)
  | p, (vi, ri) :: rest =>
    let (output, p) := p.step c tap vi ri
    let (outputs, p) := run c tap p rest
    (output :: outputs, p)

/-- A driven stage takes its very first input sample as the previous one too, so that the large
constant part of its input does not arrive as a step. -/
def seed (p : OperatingPoint T) (input : List T) : OperatingPoint T :=
  match p.armed, input with
  | true, first :: _ => { p with vi := first, armed := false }
  | _, _ => p

end OperatingPoint

end TubePreamp
