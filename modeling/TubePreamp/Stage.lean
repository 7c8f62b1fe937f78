import TubePreamp.Notice
import TubePreamp.OperatingPoint
import TubePreamp.Sample

/-!
One stage of a preamplifier: its circuit, its operating point, its place in a cascade and its
sample rate. Circuit and placement change between blocks of samples; a new rate takes effect when
the stage is set up.
-/

namespace TubePreamp

structure Stage (T : Type) where
  circuit : Circuit T
  point : OperatingPoint T
  placement : Placement
  inputCount : Nat
  outputCount : Nat
  rate : Float
  inputDelay : Nat
  outputDelay : Nat

def defaultRate : Float := 48000

/-- Time between two samples, rounded once in double precision. -/
def samplePeriod {T : Type} [Sample T] (rate : Float) : T := Sample.ofDouble (1 / rate)

def usableRate (rate : Float) : Bool := rate.isFinite && decide (0 < rate)

theorem usableRate_iff (rate : Float) :
    usableRate rate = true ↔ rate.isFinite = true ∧ 0 < rate := by
  rw [usableRate, Bool.and_eq_true, decide_eq_true_iff]

namespace Stage

variable {T : Type} [Sample T]

def ofCircuit (c : Circuit T) : Stage T where
  circuit := c
  point := .atRest c (samplePeriod defaultRate)
  placement := .single
  inputCount := Placement.single.inputCount
  outputCount := Placement.single.outputCount
  rate := defaultRate
  inputDelay := 0
  outputDelay := 0

def ofTube (tube : Tube) : Stage T := ofCircuit (.ofTube tube)

/-- Changes the circuit. The cathode jumps to a new cathode voltage at once. -/
def edit (s : Stage T) (e : Circuit.Edit T) : Stage T :=
  match e with
  | .set .vk v =>
    { s with circuit := s.circuit.edit e, point := { s.point with vkNow := v, vk := v } }
  | _ => { s with circuit := s.circuit.edit e }

def setPlacement (s : Stage T) (p : Placement) : Stage T :=
  { s with placement := p, inputCount := p.inputCount, outputCount := p.outputCount }

def setDrives (s : Stage T) (on : Bool) : Stage T :=
  s.setPlacement { s.placement with drives := on }

def setDriven (s : Stage T) (on : Bool) : Stage T :=
  s.setPlacement { s.placement with driven := on }

def setRate (s : Stage T) (rate : Float) : Stage T := { s with rate }

def rested (s : Stage T) : Stage T :=
  { s with
    point := s.point.reset s.circuit (samplePeriod s.rate)
    inputDelay := 1
    outputDelay := 1 }

def setup (s : Stage T) : Except Fault (Stage T) :=
  if usableRate s.rate then .ok s.rested else .error (.badRate s.rate)

def placementNotices (s : Stage T) (after : Placement) : List Notice :=
  if s.placement = after then [] else [.stagePlaced s.placement after]

def setupNotices (s : Stage T) : List Notice :=
  if usableRate s.rate then
    [.stageSetUp s.placement s.rate (Sample.toDouble s.circuit.vk)]
  else []

/-!
A stage at work on buffers. A stage on its own reads one voltage signal; a driven stage reads the
anode voltage and the output resistance of the previous one. It writes one voltage signal, or these
two for a next stage. As many samples are processed as the request and every buffer in use allow; if
a buffer that is needed is missing, none. Buffers past those in use are not touched.
-/

def tap (s : Stage T) : Tap := if s.placement.drives then .direct else .coupled

/-- Samples offered by the inputs, each with the resistance of its source. -/
def feed? (s : Stage T) (inputs : List (List T)) : Option (List (T × T)) :=
  match s.placement.driven, inputs with
  | false, vi :: _ => some (vi.map fun v => (v, s.circuit.ri))
  | true, va :: ri :: _ => some (va.zip ri)
  | _, _ => none

def room? (s : Stage T) (outputs : List (List T)) : Option Nat :=
  match s.placement.drives, outputs with
  | false, vo :: _ => some vo.length
  | true, va :: ri :: _ => some (min va.length ri.length)
  | _, _ => none

def store (s : Stage T) (results : List (Output T)) (outputs : List (List T)) : List (List T) :=
  match s.placement.drives, outputs with
  | false, vo :: rest => overlay (results.map Output.vo) vo :: rest
  | true, va :: ri :: rest =>
    overlay (results.map Output.va) va :: overlay (results.map Output.ri) ri :: rest
  | _, _ => outputs

def seeded (s : Stage T) (inputs : List (List T)) : Stage T :=
  if s.placement.driven then { s with point := s.point.seed (inputs.headD []) } else s

def process (s : Stage T) (inputs outputs : List (List T)) (size : Nat) :
    List (List T) × Stage T :=
  if size = 0 then (outputs, s)
  else
    match s.feed? inputs, s.room? outputs with
    | some feed, some room =>
      let s := s.seeded inputs
      let (results, point) := s.point.run s.circuit s.tap (feed.take (min size room))
      (s.store results outputs, { s with point })
    | _, _ => (outputs, s)

/-!
Everything that a host can do to a stage, as data, so that statements can speak of whole histories.
-/

inductive Action (T : Type) where
  | edit (e : Circuit.Edit T)
  | setDrives (on : Bool)
  | setDriven (on : Bool)
  | setRate (rate : Float)
  | setup
  | process (inputs outputs : List (List T)) (size : Nat)

inductive Reply (T : Type) where
  | done
  | refused (fault : Fault)
  | signals (outputs : List (List T))

def perform (s : Stage T) : Action T → Reply T × Stage T
  | .edit e => (.done, s.edit e)
  | .setDrives on => (.done, s.setDrives on)
  | .setDriven on => (.done, s.setDriven on)
  | .setRate rate => (.done, s.setRate rate)
  | .setup =>
    match s.setup with
    | .ok rested => (.done, rested)
    | .error fault => (.refused fault, s)
  | .process inputs outputs size =>
    let (outputs, s) := s.process inputs outputs size
    (.signals outputs, s)

def notices (s : Stage T) : Action T → List Notice
  | .edit e => s.circuit.editNotices e
  | .setDrives on => s.placementNotices { s.placement with drives := on }
  | .setDriven on => s.placementNotices { s.placement with driven := on }
  | .setup => s.setupNotices
  | _ => []

def after (s : Stage T) (history : List (Action T)) : Stage T :=
  history.foldl (fun s a => (s.perform a).2) s

end Stage

end TubePreamp
