import TubePreamp.Proofs.Exact.Arithmetic
import TubePreamp.Proofs.Stage.Segments

/-!
A constant part of what a driven stage reads. In exact arithmetic only differences of its input
count, and a stage that still has its seed to take makes even the first one zero, so that the
constant shows in no output and nowhere in the stage but in the input that it keeps.
-/

namespace TubePreamp

variable {T : Type}

namespace OperatingPoint

variable [Sample T]

def raisedBy (c : T) (p : OperatingPoint T) : OperatingPoint T := { p with vi := p.vi + c }

def raiseFeed (c : T) (feed : List (T × T)) : List (T × T) := feed.map fun x => (x.1 + c, x.2)

theorem step_raisedBy (hexact : ∀ a b c : T, a + c - (b + c) = a - b) (p : OperatingPoint T)
    (circuit : Circuit T) (tap : Tap) (vi ri c : T) :
    (p.raisedBy c).step circuit tap (vi + c) ri =
      ((p.step circuit tap vi ri).1, (p.step circuit tap vi ri).2.raisedBy c) := by
  have hopen : (p.raisedBy c).openGrid circuit (vi + c) ri = p.openGrid circuit vi ri := by
    simp only [openGrid, raisedBy, hexact]
  have hgrid : (p.raisedBy c).grid circuit (vi + c) ri = p.grid circuit vi ri := by
    rw [grid, hopen]
    rfl
  simp only [step, hgrid]
  rfl

theorem run_raisedBy (hexact : ∀ a b c : T, a + c - (b + c) = a - b) (circuit : Circuit T)
    (tap : Tap) (p : OperatingPoint T) (c : T) (feed : List (T × T)) :
    run circuit tap (p.raisedBy c) (raiseFeed c feed) =
      ((run circuit tap p feed).1, (run circuit tap p feed).2.raisedBy c) := by
  induction feed generalizing p with
  | nil => rfl
  | cons x feed ih =>
    have hfirst := step_raisedBy hexact p circuit tap x.1 x.2 c
    have hrest := ih (p.step circuit tap x.1 x.2).2
    rw [raiseFeed] at hrest
    rw [raiseFeed, List.map_cons, run_cons, run_cons, hfirst, hrest]

theorem seed_raisedBy (p : OperatingPoint T) (c : T) (input : List T) :
    (p.raisedBy c).seed (input.map (· + c)) = (p.seed input).raisedBy c := by
  have harmed : (p.raisedBy c).armed = p.armed := rfl
  unfold seed
  rw [harmed]
  cases p.armed <;> cases input <;> rfl

end OperatingPoint

namespace Stage

open OperatingPoint (raiseFeed)

structure Block (T : Type) where
  inputs : List (List T)
  outputs : List (List T)
  size : Nat

structure Block.Fits (b : Block T) (p : Placement) : Prop where
  size_pos : 0 < b.size
  supplied : p.Supplied b.inputs b.outputs b.size

variable [Sample T]

def processBlocks (s : Stage T) : List (Block T) → List (List (List T) × Stage T)
  | [] => []
  | b :: rest =>
    let r := s.process b.inputs b.outputs b.size
    r :: processBlocks r.2 rest

theorem processBlocks_cons (s : Stage T) (b : Block T) (rest : List (Block T)) :
    s.processBlocks (b :: rest) =
      s.process b.inputs b.outputs b.size ::
        (s.process b.inputs b.outputs b.size).2.processBlocks rest := rfl

def raisedBy (c : T) (s : Stage T) : Stage T := { s with point := s.point.raisedBy c }

def raiseInputs (c : T) : List (List T) → List (List T)
  | [] => []
  | va :: rest => va.map (· + c) :: rest

def Block.raisedBy (c : T) (b : Block T) : Block T := { b with inputs := raiseInputs c b.inputs }

theorem feed?_raiseInputs {s : Stage T} (hdriven : s.placement.driven = true) (c : T)
    (inputs : List (List T)) :
    s.feed? (raiseInputs c inputs) = (s.feed? inputs).map (raiseFeed c) := by
  unfold feed?
  rw [hdriven]
  rcases inputs with _ | ⟨va, _ | ⟨ri, rest⟩⟩
  · rfl
  · rfl
  · simp [raiseInputs, raiseFeed, List.zip_map_left]

theorem raiseInputs_supplied {p : Placement} {inputs outputs : List (List T)} {size : Nat}
    (h : p.Supplied inputs outputs size) (c : T) :
    p.Supplied (raiseInputs c inputs) outputs size := by
  apply h.of_lengths
  cases inputs with
  | nil => rfl
  | cons va rest => rw [raiseInputs, List.map_cons, List.map_cons, List.length_map]

theorem seeded_raisedBy (s : Stage T) (c : T) (feed : List (T × T)) :
    (s.raisedBy c).seeded [(raiseFeed c feed).map Prod.fst] =
      (s.seeded [feed.map Prod.fst]).raisedBy c := by
  have hfeed : (raiseFeed c feed).map Prod.fst = (feed.map Prod.fst).map (· + c) := by
    simp [raiseFeed]
  by_cases hdriven : s.placement.driven = true
  · have hdriven' : (s.raisedBy c).placement.driven = true := hdriven
    have hpoint : (s.raisedBy c).point.seed ((feed.map Prod.fst).map (· + c)) =
        (s.point.seed (feed.map Prod.fst)).raisedBy c := s.point.seed_raisedBy c _
    rw [seeded, if_pos hdriven', seeded, if_pos hdriven, List.headD_cons, List.headD_cons, hfeed,
      hpoint]
    rfl
  · have hdriven' : ¬(s.raisedBy c).placement.driven = true := hdriven
    rw [seeded, if_neg hdriven', seeded, if_neg hdriven]

theorem render_raisedBy (hexact : ∀ a b c : T, a + c - (b + c) = a - b) (s : Stage T) (c : T)
    (feed : List (T × T)) :
    (s.raisedBy c).render (raiseFeed c feed) =
      ((s.render feed).1, (s.render feed).2.raisedBy c) := by
  have htap : (s.raisedBy c).tap = s.tap := rfl
  have hcircuit : (s.raisedBy c).circuit = s.circuit := rfl
  have hpoint : ((s.seeded [feed.map Prod.fst]).raisedBy c).point =
      (s.seeded [feed.map Prod.fst]).point.raisedBy c := rfl
  have hrun := OperatingPoint.run_raisedBy hexact s.circuit s.tap
    (s.seeded [feed.map Prod.fst]).point c feed
  rw [render_eq, render_eq, seeded_raisedBy, htap, hcircuit, hpoint, hrun]
  rfl

theorem render_forgets_input {s : Stage T} (hdriven : s.placement.driven = true)
    (harmed : s.point.armed = true) {feed : List (T × T)} (hne : feed ≠ []) (c : T) :
    (s.raisedBy c).render feed = s.render feed := by
  -- the seed takes the place of the input that the stage has kept
  have hseeded : (s.raisedBy c).seeded [feed.map Prod.fst] = s.seeded [feed.map Prod.fst] := by
    obtain ⟨x, rest, rfl⟩ := List.exists_cons_of_ne_nil hne
    unfold seeded raisedBy OperatingPoint.seed OperatingPoint.raisedBy
    simp only [hdriven, harmed, if_true, List.map_cons, List.headD_cons]
  have htap : (s.raisedBy c).tap = s.tap := rfl
  have hcircuit : (s.raisedBy c).circuit = s.circuit := rfl
  rw [render_eq, render_eq, hseeded, htap, hcircuit]

theorem process_raisedBy (hexact : ∀ a b c : T, a + c - (b + c) = a - b) {s : Stage T}
    (hdriven : s.placement.driven = true) {b : Block T} (hb : b.Fits s.placement) (c : T) :
    (s.raisedBy c).process (raiseInputs c b.inputs) b.outputs b.size =
      ((s.process b.inputs b.outputs b.size).1,
        (s.process b.inputs b.outputs b.size).2.raisedBy c) := by
  obtain ⟨feed, _, hfeed, -⟩ := wired_feed_room hb.supplied.wired
  have hraised : (s.raisedBy c).feed? (raiseInputs c b.inputs) = some (raiseFeed c feed) := by
    have hsame := feed?_raiseInputs hdriven c b.inputs
    rw [hfeed] at hsame
    exact hsame
  have hsupplied : (s.raisedBy c).placement.Supplied (raiseInputs c b.inputs) b.outputs b.size :=
    raiseInputs_supplied hb.supplied c
  have htake : (raiseFeed c feed).take b.size = raiseFeed c (feed.take b.size) :=
    List.map_take.symm
  rw [process_supplied hsupplied hraised, process_supplied hb.supplied hfeed, htake,
    render_raisedBy hexact]
  rfl

theorem process_forgets_input {s : Stage T} (hdriven : s.placement.driven = true)
    (harmed : s.point.armed = true) {b : Block T} (hb : b.Fits s.placement) (c : T) :
    (s.raisedBy c).process b.inputs b.outputs b.size = s.process b.inputs b.outputs b.size := by
  obtain ⟨feed, _, hfeed, -⟩ := wired_feed_room hb.supplied.wired
  have hfeed' : (s.raisedBy c).feed? b.inputs = some feed := hfeed
  have hsupplied : (s.raisedBy c).placement.Supplied b.inputs b.outputs b.size := hb.supplied
  have hne : feed.take b.size ≠ [] := by
    have hlen := le_feed_length hb.supplied hfeed
    have hpos := hb.size_pos
    rw [← List.length_pos_iff, List.length_take]
    omega
  rw [process_supplied hsupplied hfeed', process_supplied hb.supplied hfeed,
    render_forgets_input hdriven harmed hne]
  rfl

theorem process_placement (s : Stage T) (inputs outputs : List (List T)) (size : Nat) :
    (s.process inputs outputs size).2.placement = s.placement := by
  rw [s.process_frame inputs outputs size]

theorem processBlocks_raisedBy (hexact : ∀ a b c : T, a + c - (b + c) = a - b) {s : Stage T}
    (hdriven : s.placement.driven = true) {blocks : List (Block T)}
    (hfit : ∀ b ∈ blocks, b.Fits s.placement) (c : T) :
    (s.raisedBy c).processBlocks (blocks.map (Block.raisedBy c)) =
      (s.processBlocks blocks).map fun r => (r.1, r.2.raisedBy c) := by
  induction blocks generalizing s with
  | nil => rfl
  | cons b rest ih =>
    rw [List.forall_mem_cons] at hfit
    have hplace := s.process_placement b.inputs b.outputs b.size
    have hfirst := process_raisedBy hexact hdriven hfit.1 c
    have hrest := ih (s := (s.process b.inputs b.outputs b.size).2) (by rw [hplace, hdriven])
      (by rw [hplace]; exact hfit.2)
    rw [List.map_cons, processBlocks_cons, processBlocks_cons, List.map_cons, ← hrest]
    simp only [Block.raisedBy, hfirst]

theorem Block.Fits.raisedBy {b : Block T} {p : Placement} (h : b.Fits p) (c : T) :
    (b.raisedBy c).Fits p :=
  ⟨h.size_pos, raiseInputs_supplied h.supplied c⟩

theorem processBlocks_forgets_input {s : Stage T} (hdriven : s.placement.driven = true)
    (harmed : s.point.armed = true) {blocks : List (Block T)}
    (hfit : ∀ b ∈ blocks, b.Fits s.placement) (c : T) :
    (s.raisedBy c).processBlocks blocks = s.processBlocks blocks := by
  cases blocks with
  | nil => rfl
  | cons b rest =>
    -- after the first call nothing is left of the input that was kept
    have hfirst := process_forgets_input hdriven harmed (hfit b List.mem_cons_self) c
    rw [processBlocks_cons, processBlocks_cons, hfirst]

/-- A driven stage ignores a constant part of what it reads. In arithmetic where a common offset
cancels from a difference, as it does in every field, any sequence of calls whose buffers are there
gives the same outputs with all anode voltages raised by a constant, and after each call the same
stage but for the input that it keeps, which is raised as well. An armed stage may start from any
kept input; one that has had its seed starts from one that is raised too. -/
theorem driven_ignores_offset (hexact : ∀ a b c : T, a + c - (b + c) = a - b) {s : Stage T}
    (hdriven : s.placement.driven = true) {blocks : List (Block T)}
    (hfit : ∀ b ∈ blocks, b.Fits s.placement) (c : T) :
    let raised := blocks.map (Block.raisedBy c)
    let expected := (s.processBlocks blocks).map fun r => (r.1, r.2.raisedBy c)
    (s.point.armed = true → s.processBlocks raised = expected) ∧
      (s.raisedBy c).processBlocks raised = expected := by
  intro raised expected
  have hshifted : (s.raisedBy c).processBlocks raised = expected :=
    processBlocks_raisedBy hexact hdriven hfit c
  refine ⟨?_, hshifted⟩
  intro harmed
  have hfit' : ∀ b ∈ raised, b.Fits s.placement := by
    intro b hb
    obtain ⟨whole, hwhole, rfl⟩ := List.mem_map.mp hb
    exact (hfit whole hwhole).raisedBy c
  rw [← processBlocks_forgets_input hdriven harmed hfit' c]
  exact hshifted

/-- Rational arithmetic, a second call of another length, and 50 V more at the input. -/
theorem driven_ignores_offset_rational :
    let s : Stage ℚ := (ofTube .ecc83).setDriven true
    let blocks : List (Block ℚ) :=
      [⟨[[201, 202], [30000, 30000]], [[0, 0]], 2⟩, ⟨[[203, 1], [20000]], [[0, 9]], 1⟩]
    let raised := blocks.map (Block.raisedBy 50)
    let expected := (s.processBlocks blocks).map fun r => (r.1, r.2.raisedBy 50)
    s.point.armed = true ∧ s.processBlocks raised = expected ∧
      (s.raisedBy 50).processBlocks raised = expected := by
  intro s blocks raised expected
  have hexact : ∀ a b c : ℚ, a + c - (b + c) = a - b := add_sub_add_right_eq_sub
  have hfit : ∀ b ∈ blocks, b.Fits s.placement :=
    List.forall_mem_cons.mpr ⟨⟨by decide, by decide⟩,
      List.forall_mem_singleton.mpr ⟨by decide, by decide⟩⟩
  obtain ⟨harmed, hshifted⟩ := driven_ignores_offset hexact rfl hfit 50
  exact ⟨rfl, harmed rfl, hshifted⟩

end Stage

end TubePreamp
