import TubePreamp.Proofs.Cascade.Render

/-!
Cascades as they are built and used. Stages pushed one after the other stand connected, whatever
block sizes are chosen in between, and do what the same stages do when they are wired by hand, each
over the whole signal. Where the signal is cut into buffers does not matter.
-/

namespace TubePreamp

def Stage.placedAt {T : Type} (n i : Nat) (s : Stage T) : Stage T :=
  let s := if 0 < i then s.setDriven true else s
  if i + 1 < n then s.setDrives true else s

namespace Stage

variable {T : Type}

theorem placedAt_placement (n i : Nat) (s : Stage T) :
    (s.placedAt n i).placement =
      ⟨s.placement.drives || decide (i + 1 < n), s.placement.driven || decide (0 < i)⟩ := by
  by_cases hfirst : 0 < i <;> by_cases hlast : i + 1 < n <;>
    simp [placedAt, setDriven, setDrives, setPlacement, hfirst, hlast]

@[simp] theorem placedAt_circuit (n i : Nat) (s : Stage T) :
    (s.placedAt n i).circuit = s.circuit := by
  unfold placedAt
  split <;> split <;> rfl

variable [Sample T]

theorem setup_usable {s : Stage T} (h : usableRate s.rate = true) : s.setup = .ok s.rested := by
  rw [setup, if_pos h]

theorem setup_refused {s : Stage T} (h : ¬usableRate s.rate = true) :
    s.setup = .error (.badRate s.rate) := by
  rw [setup, if_neg h]

end Stage

namespace Cascade

variable {T : Type}

def chained (stages : List (Stage T)) : List (Stage T) :=
  stages.mapIdx fun i s => s.placedAt stages.length i

@[simp] theorem chained_length (stages : List (Stage T)) :
    (chained stages).length = stages.length := by
  rw [chained, List.length_mapIdx]

theorem chained_mem {stages : List (Stage T)} {s : Stage T} (h : s ∈ chained stages) :
    ∃ t ∈ stages, ∃ n i, s = t.placedAt n i := by
  obtain ⟨i, hi, rfl⟩ := List.mem_mapIdx.mp h
  exact ⟨stages[i], List.getElem_mem hi, stages.length, i, rfl⟩

theorem chained_concat (stages : List (Stage T)) (s : Stage T) :
    chained (stages ++ [s]) =
      stages.mapIdx (fun i t => t.placedAt (stages.length + 1) i) ++
        [s.placedAt (stages.length + 1) stages.length] := by
  simp [chained]

/-- One more stage behind them changes nothing for stages that have a next one already. -/
theorem placedAt_more (stages : List (Stage T)) {m n : Nat} (hm : stages.length < m)
    (hn : stages.length < n) :
    stages.mapIdx (fun i s => s.placedAt m i) = stages.mapIdx (fun i s => s.placedAt n i) := by
  rw [List.mapIdx_eq_mapIdx_iff]
  intro i hi
  have him : i + 1 < m := by omega
  have hin : i + 1 < n := by omega
  simp only [Stage.placedAt, him, hin]

theorem chained_single (s : Stage T) : chained [s] = [s] := by
  simp [chained, Stage.placedAt]

theorem chained_row {stages : List (Stage T)} (h : ∀ s ∈ stages, s.placement = .single) :
    Row false (chained stages) := by
  rw [row_iff_positions]
  intro i hi
  have hi' : i < stages.length := by simpa using hi
  have hs := h stages[i] (List.getElem_mem hi')
  simp [chained, Stage.placedAt_placement, hs, Placement.single]

def pushed (history : List (Action T)) : List (Stage T) :=
  history.filterMap fun
    | .push s => some s
    | _ => none

/-- Actions that build a cascade of stages that stood on their own. -/
def Builds : Action T → Prop
  | .push s => s.placement = .single
  | .setBlockSize _ => True
  | _ => False

theorem pushed_single {history : List (Action T)} (h : ∀ a ∈ history, Builds a) :
    ∀ s ∈ pushed history, s.placement = .single := by
  intro s hs
  obtain ⟨a, ha, has⟩ := List.mem_filterMap.mp hs
  have hbuilds := h a ha
  cases a with
  | push t =>
    obtain rfl : t = s := by simpa using has
    exact hbuilds
  | _ => simp at has

variable [Sample T]

theorem push_chained {c : Cascade T} {stages : List (Stage T)} (h : c.stages = chained stages)
    (s : Stage T) : (c.push s).stages = chained (stages ++ [s]) := by
  rcases List.eq_nil_or_concat stages with rfl | ⟨front, last, rfl⟩
  · have hnil : c.stages = [] := h
    rw [List.nil_append, chained_single, push, hnil]
    rfl
  · rw [List.concat_eq_append, chained_concat] at h
    have hlast : c.stages.getLast? = some (last.placedAt (front.length + 1) front.length) := by
      rw [h, List.getLast?_concat]
    have hfront : c.stages.dropLast =
        front.mapIdx fun i t => t.placedAt (front.length + 2) i := by
      rw [h, List.dropLast_concat]
      exact placedAt_more front (by omega) (by omega)
    rw [List.concat_eq_append, chained_concat, List.mapIdx_append]
    simp only [push, hlast, hfront]
    simp [connect, Stage.setDrives, Stage.setDriven, Stage.placedAt]

theorem build_stages {c : Cascade T} {stages : List (Stage T)} (hc : c.stages = chained stages)
    {history : List (Action T)} (h : ∀ a ∈ history, Builds a) :
    (c.after history).stages = chained (stages ++ pushed history) := by
  induction history generalizing c stages with
  | nil => simpa [after, pushed] using hc
  | cons a rest ih =>
    rw [List.forall_mem_cons] at h
    cases a with
    | push s =>
      have hrest := ih (push_chained hc s) h.2
      rw [List.append_assoc] at hrest
      exact hrest
    | setBlockSize size => exact ih (c := c.setBlockSize size) hc h.2
    | setRate => exact h.1.elim
    | setup => exact h.1.elim
    | setStage => exact h.1.elim
    | process => exact h.1.elim

theorem foldl_push_stages {c : Cascade T} {front : List (Stage T)} (h : c.stages = chained front)
    (rest : List (Stage T)) : (rest.foldl push c).stages = chained (front ++ rest) := by
  induction rest generalizing c front with
  | nil => simpa using h
  | cons s rest ih =>
    have hrest := ih (push_chained h s)
    rwa [List.append_assoc] at hrest

theorem ofStages_stages (stages : List (Stage T)) :
    (ofStages stages).stages = chained stages := by
  have hempty : (empty : Cascade T).stages = chained [] := rfl
  exact foldl_push_stages hempty stages

theorem ofStages_connected {stages : List (Stage T)} (h : ∀ s ∈ stages, s.placement = .single) :
    (ofStages stages).Connected := by
  rw [connected_iff_row, ofStages_stages]
  exact chained_row h

theorem setupStages_usable {stages : List (Stage T)}
    (h : ∀ s ∈ stages, usableRate s.rate = true) :
    setupStages stages = (none, stages.map Stage.rested) := by
  induction stages with
  | nil => rfl
  | cons s rest ih =>
    rw [List.forall_mem_cons] at h
    have hrest := ih h.2
    simp only [setupStages, Stage.setup_usable h.1, hrest, List.map_cons]

theorem ofTubes_usable {tubes : List Tube} (hne : tubes ≠ []) {rate : Float}
    (hrate : usableRate rate = true) :
    ∃ c : Cascade T, ofTubes tubes rate = .ok c ∧ c.WellFormed ∧
      c.stages = (chained (tubes.map Stage.ofTube)).map fun s => (s.setRate rate).rested := by
  have hw := ((WellFormed.ofStages (tubes.map (Stage.ofTube (T := T)))).setRate rate).setup
  have hset : setupStages ((ofStages (tubes.map (Stage.ofTube (T := T)))).setRate rate).stages =
      (none, (chained (tubes.map Stage.ofTube)).map fun s => (s.setRate rate).rested) := by
    rw [setRate, ofStages_stages, setupStages_usable, List.map_map]
    · rfl
    · intro s hs
      obtain ⟨t, _, rfl⟩ := List.mem_map.mp hs
      exact hrate
  rw [setup, hset] at hw
  refine ⟨_, ?_, hw, rfl⟩
  rw [ofTubes, if_neg hne, setup, hset]

end Cascade

end TubePreamp

namespace TubePreamp.Cascade

variable {T : Type}

/-- A buffer for a cascade to process, after block sizes have been chosen any number of times. -/
structure Call (T : Type) where
  sizes : List Nat
  input : List T
  output : List T

def signal (calls : List (Call T)) : List T := calls.flatMap Call.input

variable [Sample T]

def ready (c : Cascade T) (call : Call T) : Cascade T := call.sizes.foldl setBlockSize c

/-- Calls one after the other: the samples that they write, joined, and the cascade afterwards. -/
def play (c : Cascade T) : List (Call T) → List T × Cascade T
  | [] => ([], c)
  | call :: rest =>
    let (output, c) := (c.ready call).process call.input call.output
    let (later, c) := play c rest
    (output.take call.input.length ++ later, c)

theorem play_cons (c : Cascade T) (call : Call T) (rest : List (Call T)) :
    c.play (call :: rest) =
      (((c.ready call).process call.input call.output).1.take call.input.length ++
          (((c.ready call).process call.input call.output).2.play rest).1,
        (((c.ready call).process call.input call.output).2.play rest).2) := rfl

theorem sizes_stages (sizes : List Nat) (c : Cascade T) :
    (sizes.foldl setBlockSize c).stages = c.stages := by
  induction sizes generalizing c with
  | nil => rfl
  | cons size rest ih => exact ih (c.setBlockSize size)

theorem ready_stages (c : Cascade T) (call : Call T) : (c.ready call).stages = c.stages :=
  sizes_stages call.sizes c

theorem WellFormed.sizes {c : Cascade T} (h : c.WellFormed) (sizes : List Nat) :
    (sizes.foldl Cascade.setBlockSize c).WellFormed := by
  induction sizes generalizing c with
  | nil => exact h
  | cons size rest ih => exact ih (h.setBlockSize size)

theorem WellFormed.ready {c : Cascade T} (h : c.WellFormed) (call : Call T) :
    (c.ready call).WellFormed := h.sizes call.sizes

/-- The induction is on the calls; what carries over from one to the next is the stages alone. -/
theorem play_eq_rendered {c : Cascade T} (hw : c.WellFormed) (hrow : Row false c.stages)
    {calls : List (Call T)} (hroom : ∀ call ∈ calls, call.input.length ≤ call.output.length) :
    (c.play calls).1 = (rendered c.stages (signal calls)).1 ∧
      (c.play calls).2.stages = (rendered c.stages (signal calls)).2 := by
  induction calls generalizing c with
  | nil =>
    have hnil : signal ([] : List (Call T)) = [] := rfl
    rw [hnil, rendered_nil]
    exact ⟨rfl, rfl⟩
  | cons call rest ih =>
    rw [List.forall_mem_cons] at hroom
    have hw' := hw.ready call
    have hrow' : Row false (c.ready call).stages := by rwa [ready_stages]
    obtain ⟨hout, hstages⟩ := process_whole_input hw' hrow' hroom.1
    obtain ⟨hlater, hlast⟩ := ih (hw'.process call.input call.output)
      (process_row hw' hrow' _ _) hroom.2
    have hjoin : signal (call :: rest) = call.input ++ signal rest := rfl
    rw [ready_stages] at hout hstages
    rw [hstages] at hlater hlast
    rw [play_cons, hjoin, rendered_append, hout, hlater, hlast]
    exact ⟨rfl, rfl⟩

/-- Chunking is transparent. Calls that bring in a signal buffer by buffer, each with any choice of
block sizes before it, write the samples and leave the stages of one call on the whole signal, made
on a cascade with the same stages but any other block size and anything else in its links. -/
theorem chunking_transparent {c d : Cascade T} (hc : c.WellFormed) (hcon : c.Connected)
    (hd : d.WellFormed) (hsame : d.stages = c.stages) (calls : List (Call T))
    (hroom : ∀ call ∈ calls, call.input.length ≤ call.output.length) (buffer : List T)
    (hbuffer : (signal calls).length ≤ buffer.length) :
    (c.play calls).1 = (d.process (signal calls) buffer).1.take (signal calls).length ∧
      (c.play calls).2.stages = (d.process (signal calls) buffer).2.stages := by
  have hrow := (connected_iff_row c).mp hcon
  have hrow' : Row false d.stages := by rwa [hsame]
  obtain ⟨hplay, hstages⟩ := play_eq_rendered hc hrow hroom
  obtain ⟨hwhole, hlast⟩ := process_whole_input hd hrow' hbuffer
  rw [hplay, hstages, hwhole, hlast, hsame]
  exact ⟨rfl, rfl⟩

theorem chunking_transparent_two_tubes :
    let c : Cascade Float := ofStages [.ofTube .ecc83, .ofTube .ecc82]
    let calls : List (Call Float) :=
      [⟨[0], [0.5, -0.25], [7, 7, 7]⟩, ⟨[], [], []⟩, ⟨[3, 2], [1], [8]⟩]
    c.WellFormed ∧ c.Connected ∧
      (c.play calls).1 = ((c.setBlockSize 2).process (signal calls) [9, 9, 9, 9]).1.take 3 ∧
      (c.play calls).2.stages = ((c.setBlockSize 2).process (signal calls) [9, 9, 9, 9]).2.stages := by
  intro c calls
  have hw : c.WellFormed := .ofStages _
  have hcon : c.Connected := ofStages_connected (by simp [Stage.ofTube, Stage.ofCircuit])
  refine ⟨hw, hcon, ?_⟩
  exact chunking_transparent hw hcon (hw.setBlockSize 2) rfl calls (by simp [calls]) [9, 9, 9, 9]
    (by simp [calls, signal])

/-- Stages run by hand, each over all of `size` samples. One that drives a next stage writes its
anode voltage and output resistance to new buffers, which the next stage reads. -/
def wire (size : Nat) : List (Stage T) → List (List T) → List T × List (Stage T)
  | [], _ => ([], [])
  | [s], inputs =>
    let (outputs, s) := s.process inputs [List.replicate size 0] size
    (outputs.headD [], [s])
  | s :: t :: rest, inputs =>
    let (outputs, s) := s.process inputs [List.replicate size 0, List.replicate size 0] size
    let (output, stages) := wire size (t :: rest) outputs
    (output, s :: stages)

theorem wire_cons (size : Nat) (s t : Stage T) (rest : List (Stage T)) (inputs : List (List T)) :
    wire size (s :: t :: rest) inputs =
      let first := s.process inputs [List.replicate size 0, List.replicate size 0] size
      ((wire size (t :: rest) first.1).1, first.2 :: (wire size (t :: rest) first.1).2) := rfl

theorem wire_eq_renderRow {size : Nat} {driven : Bool} {stages : List (Stage T)}
    {inputs : List (List T)} {feed : List (T × T)} (hrow : Row driven stages) (hne : stages ≠ [])
    (hfeed : ∀ s ∈ stages.head?, s.feed? inputs = some feed) (hsize : feed.length = size) :
    wire size stages inputs = renderRow stages feed := by
  induction stages generalizing driven inputs feed with
  | nil => exact absurd rfl hne
  | cons s rest ih =>
    obtain ⟨hs, hrest⟩ := hrow
    have hs_feed : s.feed? inputs = some feed := hfeed s rfl
    cases rest with
    | nil =>
      have hone : [List.replicate size (0 : T)].length = s.placement.outputCount := by rw [hs]; rfl
      have hfull := Stage.process_full hs_feed hsize hone (by simp)
      have hlast : s.placement.drives = false := by rw [hs]; rfl
      simp only [wire, hfull, Stage.written, hlast, Bool.false_eq_true, if_false,
        List.headD_cons, renderRow_single]
    | cons t rest =>
      have hdrives : s.placement.drives = true := by rw [hs]; rfl
      have htwo : [List.replicate size (0 : T), List.replicate size 0].length =
          s.placement.outputCount := by rw [hs]; rfl
      have hfull := Stage.process_full hs_feed hsize htwo (by simp)
      have hnext : ∀ t' ∈ (t :: rest).head?, t'.feed? (s.written (s.render feed).1) =
          some ((s.render feed).1.map Output.handed) := by
        intro t' ht'
        obtain rfl : t = t' := by simpa using ht'
        exact feed_written hdrives (by rw [hrest.1]) _
      have htail := ih hrest (by simp) hnext
        (by rw [List.length_map, Stage.render_length, hsize])
      rw [wire_cons, renderRow_cons (by simp)]
      simp only [hfull, htail]

/-- Stages pushed in order, with block sizes chosen at any time in between, process a signal as they
do when they are wired by hand; past what both buffers hold the output stays as it was. -/
theorem process_eq_manual_wiring {history : List (Action T)}
    (hbuild : ∀ a ∈ history, Builds a) (hne : pushed history ≠ []) (input output : List T) :
    let c := (empty : Cascade T).after history
    let n := min input.length output.length
    let manual := wire n (chained (pushed history)) [input.take n]
    (c.process input output).1.take n = manual.1 ∧
      (c.process input output).1.drop n = output.drop n ∧
      (c.process input output).2.stages = manual.2 := by
  intro c n manual
  have hw : c.WellFormed := WellFormed.empty.after history
  have hnone : (empty : Cascade T).stages = chained [] := rfl
  have hstages : c.stages = chained (pushed history) := build_stages hnone hbuild
  have hrow : Row false c.stages := by
    rw [hstages]
    exact chained_row (pushed_single hbuild)
  have hsome : c.stages ≠ [] := by
    rw [hstages, ← List.length_pos_iff, chained_length, List.length_pos_iff]
    exact hne
  have hn : (input.take n).length = n := by
    rw [List.length_take]
    omega
  have hmanual : manual = rendered c.stages (input.take n) := by
    rw [rendered, ← wire_eq_renderRow hrow hsome (source_feed hrow _)
      (by rw [sourceFeed, List.length_map, hn]), hstages]
  have htake : input.take output.length = input.take n := by
    rw [← List.take_length (l := input), List.take_take, List.take_length, Nat.min_comm]
  obtain ⟨hout, hlast⟩ := process_eq_rendered hw hrow input output
  have hlen : (rendered c.stages (input.take n)).1.length = n := by rw [rendered_length, hn]
  have hfront := take_overlay (rendered c.stages (input.take n)).1 output
  have hback := drop_overlay (rendered c.stages (input.take n)).1 output
  rw [hlen] at hfront hback
  rw [hout, hlast, htake, hmanual, hfront, hback]
  exact ⟨rfl, rfl, rfl⟩

theorem process_eq_manual_wiring_three_tubes :
    ∃ history : List (Action Float), (∀ a ∈ history, Builds a) ∧ pushed history ≠ [] ∧
      let c := (empty : Cascade Float).after history
      let input : List Float := [0.5, -0.25, 1]
      let output : List Float := [7, 7, 7, 7, 7]
      let n := min input.length output.length
      let manual := wire n (chained (pushed history)) [input.take n]
      (c.process input output).1.take n = manual.1 ∧
        (c.process input output).1.drop n = output.drop n ∧
        (c.process input output).2.stages = manual.2 := by
  have hbuild : ∀ a ∈ [Action.push (Stage.ofTube .ecc83 : Stage Float), .setBlockSize 0,
      .push (.ofTube .ecc82), .push (.ofTube .ecc83), .setBlockSize 2], Builds a := by
    simp [Builds, Stage.ofTube, Stage.ofCircuit]
  have hne := List.cons_ne_nil (Stage.ofTube .ecc83 : Stage Float) [.ofTube .ecc82, .ofTube .ecc83]
  exact ⟨_, hbuild, hne, process_eq_manual_wiring hbuild hne _ _⟩

end TubePreamp.Cascade
