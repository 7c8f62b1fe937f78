import Mathlib.Data.List.Chain
import TubePreamp.Proofs.Cascade.Wiring
import TubePreamp.Proofs.Stage.Render

/-!
A record of every sample that the stages of a cascade solve, block by block and with one entry per
stage. Each stage reads what the links hold at that time, so nothing is taken for granted of what
the stage before it has left there.
-/

namespace TubePreamp.Cascade

variable {T : Type} [Sample T]

def stagesMoments (size : Nat) : List (Stage T) → List (Link T) → List (List T) → List T →
    List (List (Moment T))
  | [], _, _, _ => []
  | [s], _, inputs, output => [s.moments inputs [output] size]
  | s :: t :: rest, link :: links, inputs, output =>
    let linked := link.store (s.process inputs (link.front size) size).1
    s.moments inputs (link.front size) size ::
      stagesMoments size (t :: rest) links (linked.front size) output
  | _, [], _, _ => []

def blockMoments (c : Cascade T) (input output : List T) : List (List (Moment T)) :=
  stagesMoments input.length c.stages c.links [input] output

def blocksMoments (c : Cascade T) : List (List T × List T) → List (List (List (Moment T)))
  | [] => []
  | (input, output) :: rest =>
    c.blockMoments input output :: blocksMoments (c.runBlock input output).2 rest

def moments (c : Cascade T) (input output : List T) : List (List (List (Moment T))) :=
  let n := min input.length output.length
  if c.stages.isEmpty then []
  else
    c.blocksMoments
      ((blocks c.blockSize (input.take n)).zip (blocks c.blockSize (output.take n)))

def playMoments (c : Cascade T) : List (Call T) → List (List (List (Moment T)))
  | [] => []
  | call :: rest =>
    (c.ready call).moments call.input call.output ++
      playMoments ((c.ready call).process call.input call.output).2 rest

def rowMoments : List (Stage T) → List (T × T) → List (List (Moment T))
  | [], _ => []
  | s :: rest, feed => s.feedMoments feed :: rowMoments rest ((s.render feed).1.map Output.handed)

@[simp] theorem rowMoments_length (stages : List (Stage T)) (feed : List (T × T)) :
    (rowMoments stages feed).length = stages.length := by
  induction stages generalizing feed with
  | nil => rfl
  | cons s rest ih => simp only [rowMoments, List.length_cons, ih]

/-- The samples that leave the last stage of a block. -/
def leaving (row : List (List (Moment T))) : List T :=
  (row.getLast?.getD []).map fun m => m.output.vo

theorem rowMoments_leaving {stages : List (Stage T)} (hne : stages ≠ []) (feed : List (T × T)) :
    leaving (rowMoments stages feed) = (renderRow stages feed).1 := by
  induction stages generalizing feed with
  | nil => exact absurd rfl hne
  | cons s rest ih =>
    cases rest with
    | nil =>
      have hresults := s.feedMoments_output feed
      rw [renderRow_single, ← hresults, List.map_map]
      rfl
    | cons t rest =>
      have htail := ih (by simp) ((s.render feed).1.map Output.handed)
      rw [renderRow_cons (by simp), ← htail]
      rfl

/-- A block of connected stages solves the samples of the row's rendering. The induction is on the
stages. -/
theorem stagesMoments_eq_rowMoments {n size : Nat} {driven : Bool} {stages : List (Stage T)}
    {links : List (Link T)} {inputs : List (List T)} {output : List T} {feed : List (T × T)}
    (hrow : Row driven stages) (hcount : links.length = stages.length - 1)
    (hlinks : ∀ l ∈ links, l.HasSize n) (hn : size ≤ n)
    (hfeed : ∀ s ∈ stages.head?, s.feed? inputs = some feed) (hsize : feed.length = size)
    (hout : output.length = size) :
    stagesMoments size stages links inputs output = rowMoments stages feed := by
  induction stages generalizing driven links inputs feed with
  | nil => rfl
  | cons s rest ih =>
    have hs_feed : s.feed? inputs = some feed := hfeed s rfl
    cases rest with
    | nil =>
      have hone : [output].length = s.placement.outputCount := by rw [hrow.1]; rfl
      have hfull := Stage.moments_full hs_feed hsize hone (by simpa using hout)
      simp only [stagesMoments, rowMoments, hfull]
    | cons t rest =>
      cases links with
      | nil => simp at hcount
      | cons link links =>
        rw [List.forall_mem_cons] at hlinks
        have htwo : (link.front size).length = s.placement.outputCount := by rw [hrow.1]; rfl
        have hfull := Stage.moments_full hs_feed hsize htwo (Link.front_lengths hlinks.1 hn)
        obtain ⟨_, hnext⟩ := process_link hrow hlinks.1 hn hs_feed hsize
        have htail := ih hrow.2 (by simpa using hcount) hlinks.2 (by simpa using hnext)
          (by rw [List.length_map, Stage.render_length, hsize])
        rw [rowMoments, ← hfull, ← htail]
        rfl

theorem blockMoments_eq_rowMoments {c : Cascade T} (hw : c.WellFormed) (hrow : Row false c.stages)
    {part : List T × List T} (hpart : Fits c.blockSize part) :
    c.blockMoments part.1 part.2 = rowMoments c.stages (sourceFeed c.stages part.1) :=
  stagesMoments_eq_rowMoments hrow hw.links_count hw.links_size hpart.2
    (source_feed hrow part.1) (by rw [sourceFeed, List.length_map]) hpart.1

section
variable {P : List (Stage T) → Prop} {c : Cascade T}

/-- A property that rendering keeps holds of the stages wherever a block begins. -/
theorem blocksMoments_rows (hkeep : ∀ stages input, P stages → P (rendered stages input).2)
    (hplaced : ∀ stages, P stages → Row false stages) (hw : c.WellFormed) (hne : c.stages ≠ [])
    (hP : P c.stages) {parts : List (List T × List T)}
    (hparts : ∀ part ∈ parts, Fits c.blockSize part) :
    ∀ rows ∈ c.blocksMoments parts, ∃ stages input, P stages ∧
      rows = rowMoments stages (sourceFeed stages input) := by
  induction parts generalizing c with
  | nil => simp [blocksMoments]
  | cons part rest ih =>
    rw [List.forall_mem_cons] at hparts
    obtain ⟨_, hstages⟩ := runBlock_eq_rendered hw (hplaced _ hP) hne hparts.1
    obtain ⟨_, hsome⟩ := runBlock_row hw (hplaced _ hP) hne hparts.1
    have hfirst := blockMoments_eq_rowMoments hw (hplaced _ hP) hparts.1
    have hP' : P (c.runBlock part.1 part.2).2.stages := by
      rw [hstages]
      exact hkeep _ _ hP
    intro rows hrows
    rcases List.mem_cons.mp hrows with rfl | hrows
    · exact ⟨c.stages, part.1, hP, hfirst⟩
    · exact ih (hw.runBlock _ _) hsome hP' hparts.2 rows hrows

theorem moments_rows (hkeep : ∀ stages input, P stages → P (rendered stages input).2)
    (hplaced : ∀ stages, P stages → Row false stages) (hw : c.WellFormed) (hP : P c.stages)
    (input output : List T) :
    ∀ rows ∈ c.moments input output, ∃ stages input, P stages ∧
      rows = rowMoments stages (sourceFeed stages input) := by
  unfold moments
  split
  · simp
  · next hempty =>
    have hne : c.stages ≠ [] := fun h => hempty (by rw [h]; rfl)
    exact blocksMoments_rows hkeep hplaced hw hne hP
      (process_blocks hw.block_pos input output).2

/-- Over any calls, whatever their buffers and block sizes. -/
theorem playMoments_rows (hkeep : ∀ stages input, P stages → P (rendered stages input).2)
    (hplaced : ∀ stages, P stages → Row false stages) (hw : c.WellFormed) (hP : P c.stages)
    (calls : List (Call T)) :
    ∀ rows ∈ c.playMoments calls, ∃ stages input, P stages ∧
      rows = rowMoments stages (sourceFeed stages input) := by
  induction calls generalizing c with
  | nil => simp [playMoments]
  | cons call rest ih =>
    have hready : P (c.ready call).stages := by rwa [ready_stages]
    have hlast := (process_eq_rendered (hw.ready call) (hplaced _ hready) call.input call.output).2
    have hP' : P ((c.ready call).process call.input call.output).2.stages := by
      rw [hlast]
      exact hkeep _ _ hready
    intro rows hrows
    rcases List.mem_append.mp hrows with hrows | hrows
    · exact moments_rows hkeep hplaced (hw.ready call) hready _ _ rows hrows
    · exact ih ((hw.ready call).process _ _) hP' rows hrows

end

theorem blocksMoments_leaving {c : Cascade T} (hw : c.WellFormed) (hrow : Row false c.stages)
    (hne : c.stages ≠ []) {parts : List (List T × List T)}
    (hparts : ∀ part ∈ parts, Fits c.blockSize part) :
    (c.blocksMoments parts).flatMap leaving = (c.runBlocks parts).1 := by
  induction parts generalizing c with
  | nil => rfl
  | cons part rest ih =>
    rw [List.forall_mem_cons] at hparts
    obtain ⟨hfront, _⟩ := runBlock_eq_rendered hw hrow hne hparts.1
    obtain ⟨hrest, hsome⟩ := runBlock_row hw hrow hne hparts.1
    have hfirst := blockMoments_eq_rowMoments hw hrow hparts.1
    have htail := ih (hw.runBlock _ _) hrest hsome hparts.2
    rw [runBlocks_cons, blocksMoments, List.flatMap_cons, htail, hfirst, rowMoments_leaving hne,
      hfront]
    rfl

/-- The record of a call leaves no sample out and adds none. -/
theorem moments_leaving {c : Cascade T} (hw : c.WellFormed) (hrow : Row false c.stages)
    (hne : c.stages ≠ []) (input output : List T) :
    (c.moments input output).flatMap leaving =
      (c.process input output).1.take input.length := by
  have hempty : ¬c.stages.isEmpty = true := by simpa using hne
  obtain ⟨hjoin, hfit⟩ := process_blocks hw.block_pos input output
  have hfront := (runBlocks_eq_rendered hw hrow hne hfit).1
  have hlen := congrArg List.length hfront
  rw [hjoin, rendered_length, List.length_take] at hlen
  simp only [moments, if_neg hempty, process]
  rw [blocksMoments_leaving hw hrow hne hfit, take_overlay_of_room (by omega)]

theorem playMoments_leaving {c : Cascade T} (hw : c.WellFormed) (hrow : Row false c.stages)
    (hne : c.stages ≠ []) (calls : List (Call T)) :
    (c.playMoments calls).flatMap leaving = (c.play calls).1 := by
  induction calls generalizing c with
  | nil => rfl
  | cons call rest ih =>
    have hready : Row false (c.ready call).stages := by rwa [ready_stages]
    have hsome : (c.ready call).stages ≠ [] := by rwa [ready_stages]
    have hrest := process_row (hw.ready call) hready call.input call.output
    have hfirst := moments_leaving (hw.ready call) hready hsome call.input call.output
    have hlast := (process_eq_rendered (hw.ready call) hready call.input call.output).2
    have hsome' : ((c.ready call).process call.input call.output).2.stages ≠ [] := by
      rw [hlast]
      exact renderRow_ne_nil hsome _
    have htail := ih ((hw.ready call).process _ _) hrest hsome'
    rw [playMoments, List.flatMap_append, hfirst, htail]
    rfl

end TubePreamp.Cascade
