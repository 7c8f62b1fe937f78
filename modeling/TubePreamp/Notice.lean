import TubePreamp.Decimal
import TubePreamp.Tube

/-!
What is reported: faults to the caller, notices to the log. Each operation that reports something has
a function that lists its notices, beside the function that performs it. Processing a sample never
fails.
-/

namespace TubePreamp

inductive Fault where
  | unknownTube (name : String)
  | badComponent (component : String) (value : Float) (reason : String)
  | badRate (rate : Float)
  | emptyCascade
  | input (reason : String)
  | output (reason : String)
  | worklet (reason : String)

namespace Fault

def message : Fault → String
  | unknownTube name =>
    "Unknown tube type '" ++ name ++ "' (expected one of: ecc82, 12au7, ecc83, 12ax7)"
  | badComponent component value reason =>
    "Invalid parameter '" ++ component ++ "' (value: " ++ Decimal.writeScientific 3 value ++ "): "
      ++ reason
  | badRate rate =>
    "Invalid sample rate " ++ Decimal.Layout.plain.write rate ++ ": must be positive and finite"
  | emptyCascade => "Stage chain has no stages"
  | input reason => "Audio input error: " ++ reason
  | output reason => "Audio output error: " ++ reason
  | worklet reason => "WASM error: " ++ reason

end Fault

/-!
Where a stage stands in a cascade. A stage that drives a next one hands over its anode voltage
and output resistance in place of a coupled output voltage; a stage driven by a previous one takes
these two signals in place of a single input voltage.
-/

structure Placement where
  drives : Bool := false
  driven : Bool := false
  deriving DecidableEq, Repr

namespace Placement

def single : Placement := {}

def inputCount (p : Placement) : Nat := if p.driven then 2 else 1

def outputCount (p : Placement) : Nat := if p.drives then 2 else 1

def name : Placement → String
  | ⟨false, false⟩ => "single"
  | ⟨true, false⟩ => "pre"
  | ⟨false, true⟩ => "follower"
  | ⟨true, true⟩ => "pre/follower"

end Placement

inductive Level where
  | debug
  | warn
  | info
  deriving DecidableEq, Repr

def Level.name : Level → String
  | .debug => "DEBUG"
  | .warn => "WARN"
  | .info => "INFO"

inductive Notice where
  | noBiasCurrent (vk rk : Float)
  | rebiased (vk ia rk ck : Float)
  | stageSetUp (placement : Placement) (rate vk : Float)
  | stagePlaced (before after : Placement)
  | cascadeBuilt (stages : Nat) (rate : Float)
  | bytesDropped (count : Nat)
  | started (tubes : List Tube) (rate : Float) (double : Bool)
  | finished (samples : Nat)

namespace Notice

def level : Notice → Level
  | noBiasCurrent .. => .warn
  | started .. | finished .. => .info
  | _ => .debug

def volts (x : Float) : String := Decimal.writeFixed 3 x ++ " V"

def ohms (x : Float) : String := Decimal.writeFixed 1 x ++ " ohm"

def small (x : Float) : String := Decimal.writeScientific 3 x

def hertz (rate : Float) : String := Decimal.Layout.plain.write rate ++ " Hz"

def text : Notice → String
  | noBiasCurrent vk rk =>
    "No quiescent anode current at Vk = " ++ volts vk ++ ", keeping Rk = " ++ ohms rk
  | rebiased vk ia rk ck =>
    "Cathode low-pass adjusted: Vk = " ++ volts vk ++ ", Ia = " ++ small ia ++ " A, Rk = "
      ++ ohms rk ++ ", Ck = " ++ small ck ++ " F"
  | stageSetUp placement rate vk =>
    "Triode stage setup: " ++ placement.name ++ " mode, " ++ hertz rate ++ ", Vk = " ++ volts vk
  | stagePlaced before after => "Triode stage mode: " ++ before.name ++ " -> " ++ after.name
  | cascadeBuilt stages rate =>
    "Built " ++ toString stages ++ " stage chain at " ++ hertz rate
  | bytesDropped count =>
    "Dropping " ++ toString count ++ " trailing bytes of a partial sample"
  | started tubes rate double =>
    "Triode v0.1.0: " ++ toString tubes.length ++ " stage(s) ["
      ++ String.intercalate " -> " (tubes.map Tube.name) ++ "] at " ++ hertz rate ++ ", "
      ++ (if double then "double" else "single") ++ " precision"
  | finished samples => "Processed " ++ toString samples ++ " samples"

def line (n : Notice) : String := n.level.name ++ " " ++ n.text

end Notice

end TubePreamp
