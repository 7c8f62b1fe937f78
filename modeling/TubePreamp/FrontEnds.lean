import TubePreamp.Cascade
import TubePreamp.Decimal
import TubePreamp.Notice
import TubePreamp.Pcm
import TubePreamp.Stage
import TubePreamp.Tube

/-!
The two front ends. The command takes raw samples from its input through a cascade to its output. An
option that takes a value finds it behind an equals sign, directly behind its letter, or in the next
argument, which must not start with a dash. The tube option may be repeated, once per stage, in signal
order; any other may be given once. Names are not abbreviated, and there are no arguments besides
options.
-/

namespace TubePreamp.CommandLine

structure Options where
  tubes : List Tube
  rate : Float
  blockSize : Nat
  double : Bool

def defaultTubes : List Tube := [.ecc83]

def defaultBlockSize : Nat := 256

inductive Setting where
  | tube (t : Tube)
  | rate (r : Float)
  | blockSize (n : Nat)
  | double

inductive Key where
  | tube
  | rate
  | blockSize
  deriving DecidableEq, Repr

namespace Key

def ofName? : String → Option Key
  | "tube" => some tube
  | "sample-rate" => some rate
  | "buffer-size" => some blockSize
  | _ => none

def ofLetter? : Char → Option Key
  | 't' => some tube
  | 's' => some rate
  | 'b' => some blockSize
  | _ => none

def setting? (k : Key) (value : String) : Option Setting :=
  match k with
  | tube => (Tube.ofName? value).map .tube
  | rate => (Decimal.readFloat? value).map .rate
  | blockSize => (Decimal.readCount? value).map .blockSize

end Key

inductive Argument where
  | complete (s : Setting)
  | awaiting (k : Key)
  | closing

namespace Argument

def splitEquals (cs : List Char) : String × Option String :=
  match cs.span (· != '=') with
  | (name, '=' :: value) => (String.ofList name, some (String.ofList value))
  | (name, _) => (String.ofList name, none)

def long? (cs : List Char) : Option Argument :=
  match splitEquals cs with
  | ("f64", none) => some (.complete .double)
  | (name, none) => (Key.ofName? name).map .awaiting
  | (name, some value) => do
    let key ← Key.ofName? name
    return .complete (← key.setting? value)

def short? (letter : Char) (rest : List Char) : Option Argument := do
  let key ← Key.ofLetter? letter
  match rest with
  | [] => return .awaiting key
  | '=' :: value => return .complete (← key.setting? (String.ofList value))
  | value => return .complete (← key.setting? (String.ofList value))

def read? (arg : String) : Option Argument :=
  match arg.toList with
  | ['-', '-'] => some .closing
  | '-' :: '-' :: name => long? name
  | '-' :: letter :: rest => short? letter rest
  | _ => none

end Argument

def settings? : List String → Option (List Setting)
  | [] => some []
  | arg :: rest =>
    match Argument.read? arg with
    | some (.complete s) => (settings? rest).map (s :: ·)
    | some (.awaiting key) =>
      match rest with
      | value :: rest =>
        if value.toList.head? = some '-' then none
        else do
          let s ← key.setting? value
          (settings? rest).map (s :: ·)
      | [] => none
    | some .closing => if rest.isEmpty then some [] else none
    | none => none

def single? {α : Type} (default : α) : List α → Option α
  | [] => some default
  | [x] => some x
  | _ => none

def Setting.tube? : Setting → Option Tube
  | tube t => some t
  | _ => none

def Setting.rate? : Setting → Option Float
  | rate r => some r
  | _ => none

def Setting.blockSize? : Setting → Option Nat
  | blockSize n => some n
  | _ => none

def Setting.double? : Setting → Option Bool
  | double => some true
  | _ => none

def Options.read? (args : List String) : Option Options := do
  let settings ← settings? args
  let tubes := settings.filterMap Setting.tube?
  let rate ← single? defaultRate (settings.filterMap Setting.rate?)
  let blockSize ← single? defaultBlockSize (settings.filterMap Setting.blockSize?)
  let double ← single? false (settings.filterMap Setting.double?)
  return { tubes := if tubes.isEmpty then defaultTubes else tubes, rate, blockSize, double }

inductive Verdict where
  | finished
  | failed (fault : Fault)
  | misused

structure Report where
  verdict : Verdict
  output : List UInt8
  notices : List Notice

namespace Verdict

def exitCode : Verdict → Nat
  | finished => 0
  | failed _ => 1
  | misused => 2

/-- Message for the user. Rates are written so that they cannot be taken for whole numbers. -/
def errorText : Verdict → Option String
  | failed (.badRate rate) =>
    some ("Error: InvalidSampleRate \x7b sample_rate: " ++ Decimal.Layout.explicit.write rate
      ++ " \x7d")
  | failed fault => some ("Error: " ++ fault.message)
  | misused => some "Usage: tube-preamp [-t TUBE]... [-s SAMPLE_RATE] [-b BUFFER_SIZE] [--f64]"
  | finished => none

end Verdict

def session {T : Type} [Sample T] (o : Options) (cascade : Cascade T) (source : Pcm.Source)
    (sink : Pcm.Sink) : Pcm.Session T where
  cascade := cascade.setBlockSize o.blockSize
  reader := .ofSource source o.blockSize
  writer := .ofSink sink o.blockSize

def render (T : Type) [Sample T] (o : Options) (source : Pcm.Source) (sink : Pcm.Sink) :
    Except Fault Nat × List UInt8 × List Notice :=
  let built := Cascade.ofTubesNotices T o.tubes o.rate
  match (Cascade.ofTubes o.tubes o.rate : Except Fault (Cascade T)) with
  | .error fault => (.error fault, sink.written, built)
  | .ok cascade =>
    let outcome := (session o cascade source sink).run o.blockSize
    (outcome.result, outcome.session.writer.sink.written, built ++ outcome.notices)

def renderWith (o : Options) (source : Pcm.Source) (sink : Pcm.Sink) : Report :=
  let (result, output, notices) :=
    if o.double then render Float o source sink else render Float32 o source sink
  let started := Notice.started o.tubes o.rate o.double
  match result with
  | .ok samples => ⟨.finished, output, started :: notices ++ [.finished samples]⟩
  | .error fault => ⟨.failed fault, output, started :: notices⟩

def run (args : List String) (input : List UInt8) : Report :=
  match Options.read? args with
  | some o => renderWith o (.ofBytes input) {}
  | none => ⟨.misused, [], []⟩

end TubePreamp.CommandLine

/-!
The audio worklet is a single precision cascade made from a list of tube names, separated by commas.
Pieces of nothing but white space do not count; at least one name is needed.
-/

namespace TubePreamp.Tube

def namePieces (list : String) : List (List Char) :=
  (Text.splitCommas list.toList).filter fun piece => !(Text.trim piece).isEmpty

def readPiece (piece : List Char) : Except Fault Tube :=
  match ofChars? piece with
  | some tube => .ok tube
  | none => .error (.unknownTube (String.ofList piece))

/-- Tubes of a list in order; the first piece that is no name is quoted as it stands. -/
def ofList (list : String) : Except Fault (List Tube) :=
  match (namePieces list).mapM readPiece with
  | .ok [] => .error (.worklet ("no tube names in '" ++ list ++ "'"))
  | result => result

end TubePreamp.Tube

namespace TubePreamp

structure Worklet where
  cascade : Cascade Float32
  rate : Float32

namespace Worklet

def create (tubes : String) (rate : Float32) : Except Fault Worklet := do
  let tubes ← Tube.ofList tubes
  let cascade ← Cascade.ofTubes tubes (widen rate)
  return { cascade, rate }

def process (w : Worklet) (input output : List Float32) : List Float32 × Worklet :=
  let (output, cascade) := w.cascade.process input output
  (output, { w with cascade })

def render (w : Worklet) (input : List Float32) : List Float32 × Worklet :=
  w.process input (List.replicate input.length 0)

def stageCount (w : Worklet) : Nat := w.cascade.stages.length

end Worklet

end TubePreamp
