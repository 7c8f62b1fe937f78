import TubePreamp.Tube
import TubePreamp.Notice

/-!
The components of one stage. The input passes a coupling capacitor `ci` into the grid, which `rg`
loads; the anode hangs from the supply `vb` through `ra`; the cathode rests at `vk` on `rk`
bypassed by `ck`; the output leaves through `co` into `rg`. The grid conducts above `gridThreshold`.
With automatic bias on, a new cathode voltage chooses `rk` and `ck` so that the bias current
develops that voltage and the cathode network keeps its corner frequency.
-/

namespace TubePreamp

structure Circuit (T : Type) where
  curve : Curve T
  ri : T
  rg : T
  ci : T
  co : T
  gridThreshold : T
  rk : T
  ra : T
  ck : T
  vk : T
  vb : T
  autoBias : Bool

inductive Component where
  | ri | rk | rg | ra | ci | ck | co | vk | vb | gridThreshold
  deriving DecidableEq, Repr

def Component.symbol : Component → String
  | ri => "ri"
  | rk => "rk"
  | rg => "rg"
  | ra => "ra"
  | ci => "ci"
  | ck => "ck"
  | co => "co"
  | vk => "vk"
  | vb => "vb"
  | gridThreshold => "vgamma"

namespace Circuit

def defaultRi : Float := 100e3

def defaultRg : Float := 1000e3

def defaultCi : Float := 10e-9

def defaultCo : Float := 10e-9

def defaultGridThreshold : Float := 0.6

def cathodeCorner : Float := 2

variable {T : Type} [Sample T]

def value (c : Circuit T) : Component → T
  | .ri => c.ri
  | .rk => c.rk
  | .rg => c.rg
  | .ra => c.ra
  | .ci => c.ci
  | .ck => c.ck
  | .co => c.co
  | .vk => c.vk
  | .vb => c.vb
  | .gridThreshold => c.gridThreshold

def assign (c : Circuit T) : Component → T → Circuit T
  | .ri, v => { c with ri := v }
  | .rk, v => { c with rk := v }
  | .rg, v => { c with rg := v }
  | .ra, v => { c with ra := v }
  | .ci, v => { c with ci := v }
  | .ck, v => { c with ck := v }
  | .co, v => { c with co := v }
  | .vk, v => { c with vk := v }
  | .vb, v => { c with vb := v }
  | .gridThreshold, v => { c with gridThreshold := v }

def biasLine (c : Circuit T) : LoadLine T := .atGrid c.curve (-c.vk) (c.vb - c.vk) c.ra

def biasCurrent (c : Circuit T) : T := c.biasLine.current (c.biasLine.solve c.biasLine.vb)

def usableBias (c : Circuit T) (ia : T) : Bool :=
  decide (0 < ia) && Sample.isFinite ia && decide (0 < c.vk)

/-- Cathode resistor of the bias point; the present one where no usable current flows. -/
def biasResistor (c : Circuit T) : T :=
  if c.usableBias c.biasCurrent then c.vk / c.biasCurrent else c.rk

def bypassFor (rk : T) : T :=
  1 / (Sample.ofDouble 2 * Sample.pi * Sample.ofDouble cathodeCorner * rk)

def rebias (c : Circuit T) : Circuit T :=
  if c.autoBias then { c with rk := c.biasResistor, ck := bypassFor c.biasResistor } else c

def corner (c : Circuit T) : T := 1 / (Sample.ofDouble 2 * Sample.pi * c.rk * c.ck)

def unbiased (p : Datasheet) : Circuit T where
  curve := .ofDatasheet p
  ri := Sample.ofDouble defaultRi
  rg := Sample.ofDouble defaultRg
  ci := Sample.ofDouble defaultCi
  co := Sample.ofDouble defaultCo
  gridThreshold := Sample.ofDouble defaultGridThreshold
  rk := Sample.ofDouble p.rk
  ra := Sample.ofDouble p.ra
  ck := Sample.ofDouble p.ck
  vk := Sample.ofDouble p.vk
  vb := Sample.ofDouble p.vb
  autoBias := true

def ofDatasheet (p : Datasheet) : Circuit T := (unbiased p).rebias

def ofTube (tube : Tube) : Circuit T := ofDatasheet tube.datasheet

/-- Every circuit value given; nothing is matched to the bias point. -/
def custom (tube : Tube) (ri rk rg ra ci ck co vk vb : T) : Circuit T :=
  { ofTube tube with ri, rk, rg, ra, ci, ck, co, vk, vb }

inductive Edit (T : Type) where
  | set (component : Component) (value : T)
  | autoBias (on : Bool)

/-- Carries out a change; a new cathode voltage moves the bias point. -/
def edit (c : Circuit T) : Edit T → Circuit T
  | .set .vk v => { c with vk := v }.rebias
  | .set component v => c.assign component v
  | .autoBias on => { c with autoBias := on }

def edits (c : Circuit T) (es : List (Edit T)) : Circuit T := es.foldl edit c

def rebiasNotices (c : Circuit T) : List Notice :=
  if c.autoBias then
    let ia := c.biasCurrent
    let after := c.rebias
    let report := Notice.rebiased (Sample.toDouble c.vk) (Sample.toDouble ia)
      (Sample.toDouble after.rk) (Sample.toDouble after.ck)
    if c.usableBias ia then [report]
    else [.noBiasCurrent (Sample.toDouble c.vk) (Sample.toDouble c.rk), report]
  else []

def buildNotices (T : Type) [Sample T] (p : Datasheet) : List Notice :=
  (unbiased p : Circuit T).rebiasNotices

def editNotices (c : Circuit T) : Edit T → List Notice
  | .set .vk v => { c with vk := v }.rebiasNotices
  | _ => []

end Circuit

/-!
Which circuits can be used: every resistor, capacitor and voltage is finite and positive, the grid
threshold is finite, and the cathode stays below the supply. The first defect in this order counts.
-/

def Component.positive : List Component := [ri, rk, rg, ra, ci, ck, co, vk, vb]

namespace Circuit

variable {T : Type} [Sample T]

def reject (c : Circuit T) (k : Component) (reason : String) : Option Fault :=
  some (.badComponent k.symbol (Sample.toDouble (c.value k)) reason)

def finiteDefect? (c : Circuit T) (k : Component) : Option Fault :=
  if Sample.isFinite (c.value k) then none else c.reject k "must be finite"

def signDefect? (c : Circuit T) (k : Component) : Option Fault :=
  if c.value k ≤ 0 then c.reject k "must be positive" else none

def supplyDefect? (c : Circuit T) : Option Fault :=
  if c.vb ≤ c.vk then c.reject .vk "cathode voltage must be below the supply voltage" else none

def defect? (c : Circuit T) : Option Fault :=
  (Component.positive.findSome? fun k => (c.finiteDefect? k).or (c.signDefect? k)).or
    ((c.finiteDefect? .gridThreshold).or c.supplyDefect?)

end Circuit

end TubePreamp
