import TubePreamp.Proofs.Cascade.Structure

/-!
What connected stages make of a signal, apart from blocks and links. Each stage renders the whole
feed before the next one begins. A cascade of any block size, with anything in its links, processes
a signal to exactly this.
-/

namespace TubePreamp.Cascade

variable {T : Type}

/-- Placements of stages in a row, the first of which is driven or not. -/
def Row : Bool → List (Stage T) → Prop
  | _, [] => True
  | driven, s :: rest => s.placement = ⟨!rest.isEmpty, driven⟩ ∧ Row true rest

/-- A stage drives exactly if it is not the last, and is driven exactly if it is not the first. -/
def Connected (c : Cascade T) : Prop :=
  ∀ (i : Nat) (h : i < c.stages.length),
    c.stages[i].placement = ⟨decide (i + 1 < c.stages.length), decide (0 < i)⟩

theorem row_iff_positions (driven : Bool) (stages : List (Stage T)) :
    Row driven stages ↔ ∀ (i : Nat) (h : i < stages.length),
      stages[i].placement = ⟨decide (i + 1 < stages.length), driven || decide (0 < i)⟩ := by
  induction stages generalizing driven with
  | nil => simp [Row]
  | cons s rest ih =>
    have hfirst : (!rest.isEmpty) = decide (0 + 1 < (s :: rest).length) := by
      cases rest <;> simp
    rw [Row, ih, hfirst]
    constructor
    · rintro ⟨hs, hrest⟩ i h
      cases i with
      | zero => simpa using hs
      | succ i => simpa using hrest i (by simpa using h)
    · intro h
      have hs := h 0 (Nat.succ_pos _)
      refine ⟨by simpa using hs, ?_⟩
      intro i hi
      have hi' := h (i + 1) (Nat.succ_lt_succ hi)
      simpa using hi'

theorem connected_iff_row (c : Cascade T) : c.Connected ↔ Row false c.stages := by
  rw [row_iff_positions]
  simp only [Connected, Bool.false_or]

theorem Row.drives {driven : Bool} {s t : Stage T} {rest : List (Stage T)}
    (h : Row driven (s :: t :: rest)) : s.placement.drives = true := by
  rw [h.1]
  rfl

theorem Row.map {driven : Bool} {stages : List (Stage T)} (h : Row driven stages)
    {f : Stage T → Stage T} (hf : ∀ s, (f s).placement = s.placement) :
    Row driven (stages.map f) := by
  induction stages generalizing driven with
  | nil => trivial
  | cons s rest ih =>
    obtain ⟨hs, hrest⟩ := h
    refine ⟨?_, ih hrest⟩
    rw [hf, hs, List.isEmpty_map]

def Fits (size : Nat) (part : List T × List T) : Prop :=
  part.2.length = part.1.length ∧ part.1.length ≤ size

theorem blocks_fit {size : Nat} (hpos : 0 < size) {input output : List T}
    (hlen : output.length = input.length) :
    ((blocks size input).zip (blocks size output)).flatMap Prod.fst = input ∧
      ∀ part ∈ (blocks size input).zip (blocks size output), Fits size part := by
  fun_induction blocks size input generalizing output with
  | case1 input hin ih =>
    have hout : 0 < size ∧ output ≠ [] := by
      refine ⟨hpos, fun hnil => hin.2 ?_⟩
      rw [hnil] at hlen
      exact List.length_eq_zero_iff.mp hlen.symm
    have hdrop : (output.drop size).length = (input.drop size).length := by
      simp only [List.length_drop, hlen]
    obtain ⟨hjoin, hfit⟩ := ih hdrop
    rw [blocks.eq_def size output, if_pos hout, List.zip_cons_cons, List.flatMap_cons, hjoin]
    refine ⟨List.take_append_drop _ _, List.forall_mem_cons.mpr ⟨⟨?_, ?_⟩, hfit⟩⟩
    · simp only [List.length_take, hlen]
    · exact List.length_take_le _ _
  | case2 input hin =>
    have hnil : input = [] := by
      by_contra hinput
      exact hin ⟨hpos, hinput⟩
    rw [hnil, List.zip_nil_left]
    exact ⟨rfl, by simp⟩

theorem process_blocks {size : Nat} (hpos : 0 < size) (input output : List T) :
    let n := min input.length output.length
    let parts := (blocks size (input.take n)).zip (blocks size (output.take n))
    parts.flatMap Prod.fst = input.take n ∧ ∀ part ∈ parts, Fits size part := by
  refine blocks_fit hpos ?_
  simp only [List.length_take]
  omega

variable [Sample T]

/-- What a row of stages makes of a feed, and the stages afterwards. -/
def renderRow : List (Stage T) → List (T × T) → List T × List (Stage T)
  | [], feed => (feed.map Prod.fst, [])
  | [s], feed =>
    let (results, s) := s.render feed
    (results.map Output.vo, [s])
  | s :: t :: rest, feed =>
    let (results, s) := s.render feed
    let (output, stages) := renderRow (t :: rest) (results.map Output.handed)
    (output, s :: stages)

@[simp] theorem renderRow_nil (feed : List (T × T)) :
    renderRow ([] : List (Stage T)) feed = (feed.map Prod.fst, []) := rfl

@[simp] theorem renderRow_single (s : Stage T) (feed : List (T × T)) :
    renderRow [s] feed = ((s.render feed).1.map Output.vo, [(s.render feed).2]) := rfl

theorem renderRow_cons {rest : List (Stage T)} (hne : rest ≠ []) (s : Stage T)
    (feed : List (T × T)) :
    renderRow (s :: rest) feed =
      ((renderRow rest ((s.render feed).1.map Output.handed)).1,
        (s.render feed).2 :: (renderRow rest ((s.render feed).1.map Output.handed)).2) := by
  cases rest with
  | nil => exact absurd rfl hne
  | cons t rest => rfl

theorem renderRow_stages_length (stages : List (Stage T)) (feed : List (T × T)) :
    (renderRow stages feed).2.length = stages.length := by
  induction stages generalizing feed with
  | nil => rfl
  | cons s rest ih =>
    by_cases hne : rest = []
    · subst hne; rfl
    · rw [renderRow_cons hne, List.length_cons, ih, List.length_cons]

theorem renderRow_ne_nil {stages : List (Stage T)} (hne : stages ≠ []) (feed : List (T × T)) :
    (renderRow stages feed).2 ≠ [] := by
  intro h
  have hlen := renderRow_stages_length stages feed
  rw [h] at hlen
  exact hne (List.length_eq_zero_iff.mp hlen.symm)

theorem renderRow_length (stages : List (Stage T)) (feed : List (T × T)) :
    (renderRow stages feed).1.length = feed.length := by
  induction stages generalizing feed with
  | nil => simp
  | cons s rest ih =>
    by_cases hne : rest = []
    · subst hne; simp
    · rw [renderRow_cons hne, ih, List.length_map, Stage.render_length]

/-- A row renders a feed that is cut anywhere as it renders the whole: every stage goes on from
where it stood. -/
theorem renderRow_append (stages : List (Stage T)) (a b : List (T × T)) :
    renderRow stages (a ++ b) =
      ((renderRow stages a).1 ++ (renderRow (renderRow stages a).2 b).1,
        (renderRow (renderRow stages a).2 b).2) := by
  induction stages generalizing a b with
  | nil => simp
  | cons s rest ih =>
    by_cases hne : rest = []
    · subst hne
      simp only [renderRow_single, s.render_append a b, List.map_append]
    · rw [renderRow_cons hne, renderRow_cons hne s a, s.render_append a b, List.map_append, ih]
      simp only [renderRow_cons (renderRow_ne_nil hne _)]

theorem renderRow_nil_feed (stages : List (Stage T)) : renderRow stages [] = ([], stages) := by
  induction stages with
  | nil => rfl
  | cons s rest ih =>
    by_cases hne : rest = []
    · subst hne; simp
    · simp [renderRow_cons hne, ih]

theorem renderRow_row {driven : Bool} {stages : List (Stage T)} (h : Row driven stages)
    (feed : List (T × T)) : Row driven (renderRow stages feed).2 := by
  induction stages generalizing driven feed with
  | nil => trivial
  | cons s rest ih =>
    obtain ⟨hs, hrest⟩ := h
    by_cases hne : rest = []
    · subst hne
      simpa [Row] using hs
    · rw [renderRow_cons hne]
      have htail := renderRow_ne_nil hne ((s.render feed).1.map Output.handed)
      refine ⟨?_, ih hrest _⟩
      rw [Stage.render_placement, hs, List.isEmpty_eq_false_iff.mpr hne,
        List.isEmpty_eq_false_iff.mpr htail]

def sourceResistance (stages : List (Stage T)) : T :=
  (stages.head?.map fun s => s.circuit.ri).getD 0

def sourceFeed (stages : List (Stage T)) (input : List T) : List (T × T) :=
  input.map fun v => (v, sourceResistance stages)

def rendered (stages : List (Stage T)) (input : List T) : List T × List (Stage T) :=
  renderRow stages (sourceFeed stages input)

theorem renderRow_source (stages : List (Stage T)) (feed : List (T × T)) :
    sourceResistance (renderRow stages feed).2 = sourceResistance stages := by
  cases stages with
  | nil => rfl
  | cons s rest =>
    by_cases hne : rest = []
    · subst hne; simp [sourceResistance]
    · simp [renderRow_cons hne, sourceResistance]

theorem rendered_append (stages : List (Stage T)) (a b : List T) :
    rendered stages (a ++ b) =
      ((rendered stages a).1 ++ (rendered (rendered stages a).2 b).1,
        (rendered (rendered stages a).2 b).2) := by
  simp only [rendered, sourceFeed, List.map_append, renderRow_append, renderRow_source]

@[simp] theorem rendered_nil (stages : List (Stage T)) : rendered stages [] = ([], stages) :=
  renderRow_nil_feed stages

@[simp] theorem rendered_length (stages : List (Stage T)) (input : List T) :
    (rendered stages input).1.length = input.length := by
  rw [rendered, renderRow_length, sourceFeed, List.length_map]

theorem rendered_row {stages : List (Stage T)} (h : Row false stages) (input : List T) :
    Row false (rendered stages input).2 := renderRow_row h _

theorem rendered_no_stages (input : List T) :
    rendered ([] : List (Stage T)) input = (input, []) := by
  simp [rendered, sourceFeed, Function.comp_def]

theorem zip_written (results : List (Output T)) :
    (results.map Output.va).zip (results.map Output.ri) = results.map Output.handed := by
  induction results with
  | nil => rfl
  | cons o results ih => simp only [List.map_cons, List.zip_cons_cons, ih, Output.handed]

theorem front_store (l : Link T) {s : Stage T} (hs : s.placement.drives = true)
    {results : List (Output T)} {size : Nat} (hlen : results.length = size) :
    (l.store (s.written results)).front size = s.written results := by
  subst hlen
  have hva := take_overlay (results.map Output.va) l.va
  have hri := take_overlay (results.map Output.ri) l.ri
  rw [List.length_map] at hva hri
  simp only [Stage.written, hs, if_true, Link.store, Link.front, hva, hri]

theorem feed_written {s t : Stage T} (hs : s.placement.drives = true)
    (ht : t.placement.driven = true) (results : List (Output T)) :
    t.feed? (s.written results) = some (results.map Output.handed) := by
  simp only [Stage.written, hs, if_true, Stage.feed?, ht, zip_written]

/-- A stage that drives a next one, at work on a block: it renders the block, and the next stage
finds in the link what has just been left there. -/
theorem process_link {n size : Nat} {driven : Bool} {s t : Stage T} {rest : List (Stage T)}
    {link : Link T} {inputs : List (List T)} {feed : List (T × T)}
    (hrow : Row driven (s :: t :: rest)) (hlink : link.HasSize n) (hn : size ≤ n)
    (hfeed : s.feed? inputs = some feed) (hsize : feed.length = size) :
    (s.process inputs (link.front size) size).2 = (s.render feed).2 ∧
      t.feed? ((link.store (s.process inputs (link.front size) size).1).front size) =
        some ((s.render feed).1.map Output.handed) := by
  have hdrives := hrow.drives
  obtain ⟨hs, ht, _⟩ := hrow
  have htwo : (link.front size).length = s.placement.outputCount := by rw [hs]; rfl
  have hfull := Stage.process_full hfeed hsize htwo (Link.front_lengths hlink hn)
  have hresults : (s.render feed).1.length = size := by rw [Stage.render_length, hsize]
  rw [hfull, front_store link hdrives hresults]
  exact ⟨rfl, feed_written hdrives (by rw [ht]) _⟩

/-- One block through stages and links is the row's rendering of the block. The induction is on the
stages. -/
theorem runStages_eq_renderRow {n size : Nat} {driven : Bool} {stages : List (Stage T)}
    {links : List (Link T)} {inputs : List (List T)} {output : List T} {feed : List (T × T)}
    (hrow : Row driven stages) (hne : stages ≠ []) (hcount : links.length = stages.length - 1)
    (hlinks : ∀ l ∈ links, l.HasSize n) (hn : size ≤ n)
    (hfeed : ∀ s ∈ stages.head?, s.feed? inputs = some feed) (hsize : feed.length = size)
    (hout : output.length = size) :
    (runStages size stages links inputs output).1 = (renderRow stages feed).1 ∧
      (runStages size stages links inputs output).2.1 = (renderRow stages feed).2 := by
  induction stages generalizing driven links inputs feed with
  | nil => exact absurd rfl hne
  | cons s rest ih =>
    have hs_feed : s.feed? inputs = some feed := hfeed s rfl
    cases rest with
    | nil =>
      have hone : [output].length = s.placement.outputCount := by rw [hrow.1]; rfl
      have hfull := Stage.process_full hs_feed hsize hone (by simpa using hout)
      have hlast : s.placement.drives = false := by rw [hrow.1]; rfl
      simp only [runStages, hfull, Stage.written, hlast, Bool.false_eq_true, if_false,
        List.headD_cons, renderRow_single, and_self]
    | cons t rest =>
      cases links with
      | nil => simp at hcount
      | cons link links =>
        rw [List.forall_mem_cons] at hlinks
        obtain ⟨hafter, hnext⟩ := process_link hrow hlinks.1 hn hs_feed hsize
        have htail := ih hrow.2 (by simp) (by simpa using hcount) hlinks.2
          (by simpa using hnext) (by rw [List.length_map, Stage.render_length, hsize])
        rw [runStages_cons, renderRow_cons (by simp)]
        simp only [hafter, htail.1, htail.2, and_self]

theorem source_feed {stages : List (Stage T)} (hrow : Row false stages) (input : List T) :
    ∀ s ∈ stages.head?, s.feed? [input] = some (sourceFeed stages input) := by
  intro s hs
  obtain ⟨rest, rfl⟩ := List.head?_eq_some_iff.mp hs
  have hfirst : s.placement.driven = false := by rw [hrow.1]
  simp [Stage.feed?, hfirst, sourceFeed, sourceResistance]

theorem runBlock_eq_rendered {c : Cascade T} (hw : c.WellFormed) (hrow : Row false c.stages)
    (hne : c.stages ≠ []) {part : List T × List T} (hpart : Fits c.blockSize part) :
    (c.runBlock part.1 part.2).1 = (rendered c.stages part.1).1 ∧
      (c.runBlock part.1 part.2).2.stages = (rendered c.stages part.1).2 :=
  runStages_eq_renderRow hrow hne hw.links_count hw.links_size hpart.2
    (source_feed hrow part.1) (by rw [sourceFeed, List.length_map]) hpart.1

theorem runBlocks_cons (c : Cascade T) (input output : List T) (rest : List (List T × List T)) :
    c.runBlocks ((input, output) :: rest) =
      ((c.runBlock input output).1 ++ ((c.runBlock input output).2.runBlocks rest).1,
        ((c.runBlock input output).2.runBlocks rest).2) := rfl

theorem runBlock_row {c : Cascade T} (hw : c.WellFormed) (hrow : Row false c.stages)
    (hne : c.stages ≠ []) {part : List T × List T} (hpart : Fits c.blockSize part) :
    Row false (c.runBlock part.1 part.2).2.stages ∧
      (c.runBlock part.1 part.2).2.stages ≠ [] := by
  rw [(runBlock_eq_rendered hw hrow hne hpart).2]
  exact ⟨rendered_row hrow _, renderRow_ne_nil hne _⟩

theorem runBlocks_eq_rendered {c : Cascade T} (hw : c.WellFormed) (hrow : Row false c.stages)
    (hne : c.stages ≠ []) {parts : List (List T × List T)}
    (hparts : ∀ part ∈ parts, Fits c.blockSize part) :
    (c.runBlocks parts).1 = (rendered c.stages (parts.flatMap Prod.fst)).1 ∧
      (c.runBlocks parts).2.stages = (rendered c.stages (parts.flatMap Prod.fst)).2 := by
  induction parts generalizing c with
  | nil =>
    rw [List.flatMap_nil, rendered_nil]
    exact ⟨rfl, rfl⟩
  | cons part rest ih =>
    rw [List.forall_mem_cons] at hparts
    obtain ⟨hfront, hstages⟩ := runBlock_eq_rendered hw hrow hne hparts.1
    obtain ⟨hrest, hsome⟩ := runBlock_row hw hrow hne hparts.1
    obtain ⟨hback, hlast⟩ := ih (hw.runBlock _ _) hrest hsome hparts.2
    rw [hstages] at hback hlast
    rw [runBlocks_cons, List.flatMap_cons, rendered_append, hfront, hback, hlast]
    exact ⟨rfl, rfl⟩

/-- Processing renders as much of the input as the output has room for. Neither the block size nor
what links and output held before has any part in it. -/
theorem process_eq_rendered {c : Cascade T} (hw : c.WellFormed) (hrow : Row false c.stages)
    (input output : List T) :
    (c.process input output).1 =
        overlay (rendered c.stages (input.take output.length)).1 output ∧
      (c.process input output).2.stages = (rendered c.stages (input.take output.length)).2 := by
  have htake : input.take (min input.length output.length) = input.take output.length := by
    rw [Nat.min_comm, ← List.take_take, List.take_length]
  unfold process
  split
  · next hempty =>
    have hnil : c.stages = [] := List.isEmpty_iff.mp hempty
    simp only [htake, hnil, rendered_no_stages, and_self]
  · next hempty =>
    have hne : c.stages ≠ [] := fun h => hempty (by rw [h]; rfl)
    obtain ⟨hjoin, hfit⟩ := process_blocks hw.block_pos input output
    obtain ⟨hfront, hstages⟩ := runBlocks_eq_rendered hw hrow hne hfit
    rw [hjoin, htake] at hfront hstages
    simp only [htake, hfront, hstages, and_self]

theorem process_whole_input {c : Cascade T} (hw : c.WellFormed) (hrow : Row false c.stages)
    {input output : List T} (hroom : input.length ≤ output.length) :
    (c.process input output).1.take input.length = (rendered c.stages input).1 ∧
      (c.process input output).2.stages = (rendered c.stages input).2 := by
  obtain ⟨hout, hstages⟩ := process_eq_rendered hw hrow input output
  rw [List.take_of_length_le hroom] at hout hstages
  refine ⟨?_, hstages⟩
  have htake := take_overlay (rendered c.stages input).1 output
  rw [rendered_length] at htake
  rw [hout, htake]

theorem process_same_length {c : Cascade T} (hw : c.WellFormed) (hrow : Row false c.stages)
    {input output : List T} (hlen : output.length = input.length) :
    (c.process input output).1 = (rendered c.stages input).1 ∧
      (c.process input output).2.stages = (rendered c.stages input).2 := by
  obtain ⟨hout, hstages⟩ := process_eq_rendered hw hrow input output
  rw [hlen, List.take_length] at hout hstages
  refine ⟨?_, hstages⟩
  rw [hout, overlay_eq_left (Nat.le_of_eq (by rw [rendered_length, hlen]))]

theorem process_row {c : Cascade T} (hw : c.WellFormed) (hrow : Row false c.stages)
    (input output : List T) : Row false (c.process input output).2.stages := by
  rw [(process_eq_rendered hw hrow input output).2]
  exact rendered_row hrow _

end TubePreamp.Cascade
