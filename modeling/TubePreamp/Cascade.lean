import TubePreamp.Stage

/-!
Stages in a row. Every stage but the last drives the next one through a link, a pair of buffers
for its anode voltage and output resistance. A signal is processed in blocks, each block by all the
stages in order; link buffers are kept from block to block.
-/

namespace TubePreamp

structure Link (T : Type) where
  va : List T
  ri : List T

structure Cascade (T : Type) where
  stages : List (Stage T)
  links : List (Link T)
  blockSize : Nat

namespace Link

variable {T : Type} [Sample T]

def silent (size : Nat) : Link T := ⟨List.replicate size 0, List.replicate size 0⟩

def resize (size : Nat) (l : Link T) : Link T := ⟨resized size 0 l.va, resized size 0 l.ri⟩

def front (size : Nat) (l : Link T) : List (List T) := [l.va.take size, l.ri.take size]

def store (l : Link T) : List (List T) → Link T
  | va :: ri :: _ => ⟨overlay va l.va, overlay ri l.ri⟩
  | _ => l

end Link

namespace Cascade

variable {T : Type} [Sample T]

def defaultBlockSize : Nat := 1024

def empty : Cascade T := ⟨[], [], defaultBlockSize⟩

def connect (s t : Stage T) : Stage T × Stage T := (s.setDrives true, t.setDriven true)

def push (c : Cascade T) (s : Stage T) : Cascade T :=
  match c.stages.getLast? with
  | none => { c with stages := [s] }
  | some last =>
    let (last, s) := connect last s
    { c with
      stages := c.stages.dropLast ++ [last, s]
      links := c.links ++ [.silent c.blockSize] }

def setBlockSize (c : Cascade T) (size : Nat) : Cascade T :=
  let size := max size 1
  { c with links := c.links.map (Link.resize size), blockSize := size }

def setRate (c : Cascade T) (rate : Float) : Cascade T :=
  { c with stages := c.stages.map fun s => s.setRate rate }

def rate (c : Cascade T) : Float := (c.stages.head?.map Stage.rate).getD defaultRate

def setStage (c : Cascade T) (i : Nat) (s : Stage T) : Cascade T :=
  { c with stages := c.stages.set i s }

def setupStages : List (Stage T) → Option Fault × List (Stage T)
  | [] => (none, [])
  | s :: rest =>
    match s.setup with
    | .error fault => (some fault, s :: rest)
    | .ok s =>
      let (fault, rest) := setupStages rest
      (fault, s :: rest)

/-- Sets up every stage. Where one refuses, the stages before it have been set up. -/
def setup (c : Cascade T) : Option Fault × Cascade T :=
  let (fault, stages) := setupStages c.stages
  (fault, { c with stages })

def ofStages (stages : List (Stage T)) : Cascade T := stages.foldl push empty

def ofTubes (tubes : List Tube) (rate : Float) : Except Fault (Cascade T) :=
  if tubes = [] then .error .emptyCascade
  else
    match ((ofStages (tubes.map Stage.ofTube)).setRate rate).setup with
    | (none, c) => .ok c
    | (some fault, _) => .error fault

/-- Runs one block through stages and the links between them. The first stage reads `inputs`, the
last one writes `output`. -/
def runStages (size : Nat) : List (Stage T) → List (Link T) → List (List T) → List T →
    List T × List (Stage T) × List (Link T)
  | [], links, _, output => (output, [], links)
  | [s], links, inputs, output =>
    let (outputs, s) := s.process inputs [output] size
    (outputs.headD output, [s], links)
  | s :: t :: rest, link :: links, inputs, output =>
    let (outputs, s) := s.process inputs (link.front size) size
    let link := link.store outputs
    let (output, stages, links) := runStages size (t :: rest) links (link.front size) output
    (output, s :: stages, link :: links)
  | stages, [], _, output => (output, stages, [])

def runBlock (c : Cascade T) (input output : List T) : List T × Cascade T :=
  let (output, stages, links) := runStages input.length c.stages c.links [input] output
  (output, { c with stages, links })

def runBlocks (c : Cascade T) : List (List T × List T) → List T × Cascade T
  | [] => ([], c)
  | (input, output) :: rest =>
    let (front, c) := c.runBlock input output
    let (back, c) := c.runBlocks rest
    (front ++ back, c)

/-- Processes as many samples as both buffers hold; gives the output buffer and the cascade
afterwards. Without stages the input is copied. -/
def process (c : Cascade T) (input output : List T) : List T × Cascade T :=
  let n := min input.length output.length
  if c.stages.isEmpty then (overlay (input.take n) output, c)
  else
    let parts := (blocks c.blockSize (input.take n)).zip (blocks c.blockSize (output.take n))
    let (front, c) := c.runBlocks parts
    (overlay front output, c)

inductive Action (T : Type) where
  | push (s : Stage T)
  | setBlockSize (size : Nat)
  | setRate (rate : Float)
  | setup
  | setStage (i : Nat) (s : Stage T)
  | process (input output : List T)

inductive Reply (T : Type) where
  | done
  | refused (fault : Fault)
  | signal (output : List T)

def perform (c : Cascade T) : Action T → Reply T × Cascade T
  | .push s => (.done, c.push s)
  | .setBlockSize size => (.done, c.setBlockSize size)
  | .setRate rate => (.done, c.setRate rate)
  | .setup =>
    match c.setup with
    | (none, c) => (.done, c)
    | (some fault, c) => (.refused fault, c)
  | .setStage i s => (.done, c.setStage i s)
  | .process input output =>
    let (output, c) := c.process input output
    (.signal output, c)

def after (c : Cascade T) (history : List (Action T)) : Cascade T :=
  history.foldl (fun c a => (c.perform a).2) c

def connectNotices (s t : Stage T) : List Notice :=
  s.notices (.setDrives true) ++ t.notices (.setDriven true)

def pushNotices (c : Cascade T) (s : Stage T) : List Notice :=
  match c.stages.getLast? with
  | none => []
  | some last => connectNotices last s

def setupNotices (c : Cascade T) : List Notice :=
  (c.stages.takeWhile fun s => usableRate s.rate).flatMap Stage.setupNotices

def growNotices (c : Cascade T) : List Tube → List Notice
  | [] => []
  | tube :: rest =>
    Circuit.buildNotices T tube.datasheet ++ c.pushNotices (.ofTube tube) ++
      growNotices (c.push (.ofTube tube)) rest

def ofTubesNotices (T : Type) [Sample T] (tubes : List Tube) (rate : Float) : List Notice :=
  if tubes = [] then []
  else
    let c := (ofStages (tubes.map Stage.ofTube) : Cascade T).setRate rate
    let built := match c.setup with
      | (none, c) => [Notice.cascadeBuilt c.stages.length rate]
      | (some _, _) => []
    growNotices (empty : Cascade T) tubes ++ c.setupNotices ++ built

end Cascade

end TubePreamp
