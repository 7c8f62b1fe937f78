import TubePreamp.Proofs.Stage.Bookkeeping
import TubePreamp.Proofs.Stage.Render

/-!
What a sample takes for the input before it. That is the input sample solved last, or zero at rest,
over any history of mode changes and empty buffers. There is one exception in the lifetime of a
stage: the first sample that it solves while it is driven takes itself.
-/

namespace TubePreamp

def Moment.inputStep {T : Type} [Sample T] (m : Moment T) : T := m.vi - m.point.vi

namespace OperatingPoint

variable {T : Type} [Sample T]

theorem run_vi (c : Circuit T) (tap : Tap) (p : OperatingPoint T) (feed : List (T × T)) :
    (run c tap p feed).2.vi = (feed.map Prod.fst).getLastD p.vi := by
  induction feed generalizing p with
  | nil => rfl
  | cons x rest ih => rw [run_cons, ih, List.map_cons, List.getLastD_cons]; rfl

theorem moments_previous (c : Circuit T) (tap : Tap) (p : OperatingPoint T)
    (feed : List (T × T)) :
    (moments c tap p feed).map (fun m => m.point.vi) =
      (p.vi :: feed.map Prod.fst).take feed.length := by
  induction feed generalizing p with
  | nil => rfl
  | cons x rest ih =>
    have hrest := ih (p.step c tap x.1 x.2).2
    rw [List.length_cons, List.take_succ_cons, moments, List.map_cons, hrest]
    rfl

end OperatingPoint

namespace Stage

open OperatingPoint

variable {T : Type}

structure Serves (s : Stage T) (inputs outputs : List (List T)) (size : Nat) : Prop where
  inputs_count : s.inputCount ≤ inputs.length
  outputs_count : s.outputCount ≤ outputs.length
  inputs_room : ∀ port ∈ inputs.take s.inputCount, size ≤ port.length
  outputs_room : ∀ port ∈ outputs.take s.outputCount, size ≤ port.length

def inputSamples (inputs : List (List T)) (size : Nat) : List T := (inputs.headD []).take size

theorem two_ports {ports : List (List T)} (h : 2 ≤ ports.length) :
    ∃ va ri rest, ports = va :: ri :: rest := by
  rcases ports with _ | ⟨va, _ | ⟨ri, rest⟩⟩
  · simp at h
  · simp at h
  · exact ⟨va, ri, rest, rfl⟩

theorem Serves.feed {s : Stage T} {inputs outputs : List (List T)} {size : Nat}
    (h : s.Serves inputs outputs size) (hcount : s.inputCount = s.placement.inputCount) :
    ∃ feed, s.feed? inputs = some feed ∧ size ≤ feed.length ∧
      (feed.take size).map Prod.fst = inputSamples inputs size := by
  have hports := h.inputs_count
  have hroom := h.inputs_room
  rw [hcount, Placement.inputCount] at hports hroom
  cases hd : s.placement.driven with
  | false =>
    rw [hd] at hports hroom
    obtain ⟨vi, rest, rfl⟩ := List.exists_cons_of_length_pos hports
    have hvi := hroom vi (by simp)
    refine ⟨vi.map fun v => (v, s.circuit.ri), by simp only [feed?, hd], by simpa using hvi, ?_⟩
    simp [inputSamples, List.map_take, Function.comp_def]
  | true =>
    rw [hd] at hports hroom
    obtain ⟨va, ri, rest, rfl⟩ := two_ports hports
    have hva := hroom va (by simp)
    have hri := hroom ri (by simp)
    refine ⟨va.zip ri, by simp only [feed?, hd], ?_, ?_⟩
    · rw [List.length_zip]
      omega
    · rw [List.zip, List.take_zipWith, ← List.zip, inputSamples, List.headD_cons]
      apply List.map_fst_zip
      exact Nat.le_of_eq ((List.length_take_of_le hva).trans (List.length_take_of_le hri).symm)

theorem Serves.room {s : Stage T} {inputs outputs : List (List T)} {size : Nat}
    (h : s.Serves inputs outputs size) (hcount : s.outputCount = s.placement.outputCount) :
    ∃ room, s.room? outputs = some room ∧ size ≤ room := by
  have hports := h.outputs_count
  have hroom := h.outputs_room
  rw [hcount, Placement.outputCount] at hports hroom
  cases hd : s.placement.drives with
  | false =>
    rw [hd] at hports hroom
    obtain ⟨vo, rest, rfl⟩ := List.exists_cons_of_length_pos hports
    exact ⟨vo.length, by simp only [room?, hd], hroom vo (by simp)⟩
  | true =>
    rw [hd] at hports hroom
    obtain ⟨va, ri, rest, rfl⟩ := two_ports hports
    have hva := hroom va (by simp)
    have hri := hroom ri (by simp)
    exact ⟨min va.length ri.length, by simp only [room?, hd], by omega⟩

theorem length_inputSamples {s : Stage T} {inputs outputs : List (List T)} {size : Nat}
    (h : s.Serves inputs outputs size) (hcount : s.inputCount = s.placement.inputCount) :
    (inputSamples inputs size).length = size := by
  obtain ⟨feed, -, hlen, hsamples⟩ := h.feed hcount
  rw [← hsamples, List.length_map, List.length_take]
  omega

/-- The input before the first sample of a call. A driven stage that is armed takes the sample. -/
theorem seeded_vi (s : Stage T) (inputs : List (List T)) :
    (s.seeded inputs).point.vi =
      if s.placement.driven && s.point.armed then (inputs.headD []).headD s.point.vi
      else s.point.vi := by
  unfold seeded OperatingPoint.seed
  cases s.placement.driven <;> cases s.point.armed <;> cases inputs.headD [] <;> rfl

theorem seeded_armed (s : Stage T) {inputs : List (List T)} (hne : inputs.headD [] ≠ []) :
    (s.seeded inputs).point.armed = (s.point.armed && !s.placement.driven) := by
  obtain ⟨first, rest, hhead⟩ := List.exists_cons_of_ne_nil hne
  unfold seeded OperatingPoint.seed
  rw [hhead]
  cases hd : s.placement.driven <;> cases ha : s.point.armed <;> simp [ha]

variable [Sample T]

theorem process_output (s : Stage T) (inputs outputs : List (List T)) (size : Nat) :
    (s.process inputs outputs size).1 =
      s.store ((s.moments inputs outputs size).map Moment.output) outputs := by
  unfold process moments
  by_cases hsize : size = 0
  · rw [if_pos hsize, if_pos hsize, List.map_nil, store_nil]
  · rw [if_neg hsize, if_neg hsize]
    rcases s.feed? inputs with _ | feed
    · rw [List.map_nil, store_nil]
    · rcases s.room? outputs with _ | room
      · rw [List.map_nil, store_nil]
      · simp only [seeded_store, seeded_circuit, seeded_tap, moments_output]

theorem process_served {s : Stage T} (hs : s.InStep) {inputs outputs : List (List T)} {size : Nat}
    (h : s.Serves inputs outputs size) (hpos : 0 < size) :
    ∃ feed, feed.length = size ∧ feed.map Prod.fst = inputSamples inputs size ∧
      s.moments inputs outputs size =
        OperatingPoint.moments s.circuit s.tap (s.seeded inputs).point feed ∧
      (s.process inputs outputs size).2.point =
        (run s.circuit s.tap (s.seeded inputs).point feed).2 := by
  obtain ⟨feed, hfeed, hlen, hsamples⟩ := h.feed hs.inputs
  obtain ⟨room, hroom, hle⟩ := h.room hs.outputs
  have hsize : size ≠ 0 := by omega
  have hmin : min size room = size := Nat.min_eq_left hle
  refine ⟨feed.take size, ?_, hsamples, ?_, ?_⟩
  · rw [List.length_take]
    omega
  · simp only [moments, if_neg hsize, hfeed, hroom, hmin]
  · simp only [process, if_neg hsize, hfeed, hroom, hmin, seeded_circuit, seeded_tap]

/-- The samples of a call that is served, and what each is solved against. -/
theorem moments_served {s : Stage T} (hs : s.InStep) {inputs outputs : List (List T)} {size : Nat}
    (h : s.Serves inputs outputs size) :
    (s.moments inputs outputs size).map Moment.vi = inputSamples inputs size ∧
      (s.moments inputs outputs size).map (fun m => m.point.vi) =
        ((s.seeded inputs).point.vi :: inputSamples inputs size).take size := by
  by_cases hpos : 0 < size
  · obtain ⟨feed, hlen, hsamples, hmoments, -⟩ := process_served hs h hpos
    have hread := moments_read s.circuit s.tap (s.seeded inputs).point feed
    rw [hmoments, ← hsamples, ← hlen, moments_previous]
    refine ⟨?_, rfl⟩
    nth_rewrite 2 [← hread]
    rw [List.map_map]
    rfl
  · obtain rfl : size = 0 := by omega
    exact ⟨(List.take_zero).symm, rfl⟩

/-- A process call of the action is served; any other action asks for nothing. -/
def Admits (s : Stage T) : Action T → Prop
  | .process inputs outputs size => s.Serves inputs outputs size
  | _ => True

def Served (s : Stage T) : List (Action T) → Prop
  | [] => True
  | a :: rest => s.Admits a ∧ Served (s.perform a).2 rest

def solvesDriven (s : Stage T) : Action T → Bool
  | .process _ _ size => s.placement.driven && decide (0 < size)
  | _ => false

def hasSolvedDriven (s : Stage T) : List (Action T) → Bool
  | [] => false
  | a :: rest => s.solvesDriven a || hasSolvedDriven (s.perform a).2 rest

def noteInput (s : Stage T) (last : T) : Action T → T
  | .setup => if usableRate s.rate then 0 else last
  | .process inputs _ size => (inputSamples inputs size).getLastD last
  | _ => last

/-- The input sample solved last in a history, zero after a set-up; `last` if there is neither. -/
def lastInput (s : Stage T) (last : T) : List (Action T) → T
  | [] => last
  | a :: rest => lastInput (s.perform a).2 (s.noteInput last a) rest

structure Remembers (s : Stage T) (last : T) (solved : Bool) : Prop where
  inStep : s.InStep
  vi : s.point.vi = last
  armed : s.point.armed = !solved

theorem process_remembers {s : Stage T} {last : T} {solved : Bool} (h : s.Remembers last solved)
    {inputs outputs : List (List T)} {size : Nat} (hserves : s.Serves inputs outputs size) :
    (s.process inputs outputs size).2.point.vi = (inputSamples inputs size).getLastD last ∧
      (s.process inputs outputs size).2.point.armed =
        !(solved || (s.placement.driven && decide (0 < size))) := by
  by_cases hpos : 0 < size
  · obtain ⟨feed, hlen, hsamples, -, hpoint⟩ := process_served h.inStep hserves hpos
    have hne : inputSamples inputs size ≠ [] := by
      rw [← List.length_pos_iff, ← hsamples, List.length_map, hlen]
      exact hpos
    have hhead : inputs.headD [] ≠ [] := by
      intro hnil
      apply hne
      rw [inputSamples, hnil, List.take_nil]
    constructor
    · rw [hpoint, run_vi, hsamples]
      -- the samples are not empty, so it does not matter what the run began with
      obtain ⟨x, rest, hcons⟩ := List.exists_cons_of_ne_nil hne
      rw [hcons, List.getLastD_cons, List.getLastD_cons]
    · rw [hpoint, run_armed, seeded_armed s hhead, h.armed, decide_eq_true hpos]
      cases s.placement.driven <;> simp
  · obtain rfl : size = 0 := by omega
    have hsame : (s.process inputs outputs 0).2 = s := rfl
    rw [hsame, h.vi, h.armed]
    simp [inputSamples]

theorem edit_inputs (s : Stage T) (e : Circuit.Edit T) :
    (s.edit e).point.vi = s.point.vi ∧ (s.edit e).point.armed = s.point.armed := by
  cases e with
  | autoBias on => exact ⟨rfl, rfl⟩
  | set component v => cases component <;> exact ⟨rfl, rfl⟩

theorem perform_remembers {s : Stage T} {last : T} {solved : Bool} (h : s.Remembers last solved)
    {a : Action T} (ha : s.Admits a) :
    (s.perform a).2.Remembers (s.noteInput last a) (solved || s.solvesDriven a) := by
  have hstep := perform_inStep s a h.inStep
  have harmed : s.point.armed = !(solved || false) := by rw [Bool.or_false, h.armed]
  cases a with
  | edit e =>
    obtain ⟨hvi, hsame⟩ := s.edit_inputs e
    exact ⟨hstep, hvi.trans h.vi, hsame.trans harmed⟩
  | setup =>
    rw [setup_perform] at hstep ⊢
    rw [noteInput]
    split
    · next husable =>
      rw [if_pos husable] at hstep
      exact ⟨hstep, rfl, harmed⟩
    · exact ⟨h.inStep, h.vi, harmed⟩
  | process inputs outputs size =>
    obtain ⟨hvi, hseeded⟩ := process_remembers h ha
    exact ⟨hstep, hvi, hseeded⟩
  | _ => exact ⟨hstep, h.vi, harmed⟩

theorem after_remembers {s : Stage T} {last : T} {solved : Bool} (h : s.Remembers last solved)
    {history : List (Action T)} (hserved : s.Served history) :
    (s.after history).Remembers (s.lastInput last history) (solved || s.hasSolvedDriven history) := by
  induction history generalizing s last solved with
  | nil =>
    rw [hasSolvedDriven, Bool.or_false]
    exact h
  | cons a rest ih =>
    have hrest := ih (perform_remembers h hserved.1) hserved.2
    rw [Bool.or_assoc] at hrest
    exact hrest

theorem perform_disarmed (s : Stage T) (a : Action T) (h : s.point.armed = false) :
    (s.perform a).2.point.armed = false := by
  cases a with
  | edit e => exact (s.edit_inputs e).2.trans h
  | setup =>
    rw [setup_perform]
    split <;> exact h
  | process inputs outputs size =>
    exact process_keeps (P := fun p => p.armed = false) (fun _ _ _ _ _ hp => hp) (fun _ _ _ => rfl)
      h inputs outputs size
  | _ => exact h

/-- What the samples of the next call are solved against. -/
theorem Remembers.moments_before {s : Stage T} {last : T} {solved : Bool}
    (h : s.Remembers last solved) {inputs outputs : List (List T)} {size : Nat}
    (hserves : s.Serves inputs outputs size) :
    (s.moments inputs outputs size).map (fun m => m.point.vi) =
      ((if s.placement.driven && !solved then (inputSamples inputs size).headD last else last) ::
        inputSamples inputs size).take size := by
  have hprevious := (moments_served h.inStep hserves).2
  by_cases hpos : 0 < size
  · have hhead : (inputs.headD []).headD last = (inputSamples inputs size).headD last := by
      rw [List.headD_eq_head?_getD (l := inputSamples inputs size), inputSamples,
        List.head?_take, if_neg (Nat.pos_iff_ne_zero.mp hpos), List.headD_eq_head?_getD]
    rw [hprevious, seeded_vi, h.armed, h.vi, hhead]
  · obtain rfl : size = 0 := by omega
    exact hprevious

/-- A sample that is its own previous input comes without a step. -/
theorem first_without_step {moments : List (Moment T)} {samples : List T} {last : T} {size : Nat}
    (hvi : moments.map Moment.vi = samples) (hlen : samples.length = size)
    (hbefore : moments.map (fun m => m.point.vi) = (samples.headD last :: samples).take size)
    (hexact : ∀ x : T, x - x = 0) : ∀ m ∈ moments.head?, m.inputStep = 0 := by
  intro m hm
  obtain ⟨rest, rfl⟩ := List.head?_eq_some_iff.mp hm
  rw [List.map_cons] at hvi hbefore
  rw [← hlen, ← hvi, List.length_cons, List.take_succ_cons, List.headD_cons] at hbefore
  have hself : m.point.vi = m.vi := (List.cons.inj hbefore).1
  rw [Moment.inputStep, hself]
  exact hexact m.vi

/-- The seed is taken once in a lifetime. Over any history whose calls are served, the stage is
disarmed exactly if it has solved a sample while driven, and it is never armed again. The first
sample that it solves while driven is its own previous input, so exact arithmetic sees no step
there; any other sample is solved against the input sample solved just before it. -/
theorem seeded_once_per_lifetime (c : Circuit T) {history : List (Action T)}
    (hserved : (ofCircuit c).Served history) :
    let s := (ofCircuit c).after history
    let solved := (ofCircuit c).hasSolvedDriven history
    let last := (ofCircuit c).lastInput 0 history
    s.point.armed = !solved ∧
      (∀ later, s.point.armed = false → (s.after later).point.armed = false) ∧
      ∀ inputs outputs size, s.Serves inputs outputs size →
        let samples := inputSamples inputs size
        let moments := s.moments inputs outputs size
        let first := if s.placement.driven && !solved then samples.headD last else last
        samples.length = size ∧ moments.map Moment.vi = samples ∧
          moments.map (fun m => m.point.vi) = (first :: samples).take size ∧
          (s.process inputs outputs size).1 = s.store (moments.map Moment.output) outputs ∧
          (s.placement.driven = true → solved = false → (∀ x : T, x - x = 0) →
            ∀ m ∈ moments.head?, m.inputStep = 0) := by
  intro s solved last
  have hstart : (ofCircuit c).Remembers 0 false := ⟨ofCircuit_inStep c, rfl, rfl⟩
  have hs : s.Remembers last solved := after_remembers hstart hserved
  refine ⟨hs.armed, ?_, ?_⟩
  · intro later hdisarmed
    exact after_keeps (P := fun s => s.point.armed = false) perform_disarmed hdisarmed later
  · intro inputs outputs size hserves samples moments first
    have hlen : samples.length = size := length_inputSamples hserves hs.inStep.inputs
    have hvi : moments.map Moment.vi = samples := (moments_served hs.inStep hserves).1
    have hbefore : moments.map (fun m => m.point.vi) = (first :: samples).take size :=
      hs.moments_before hserves
    refine ⟨hlen, hvi, hbefore, s.process_output inputs outputs size, ?_⟩
    intro hdriven hunsolved hexact
    have hfirst : first = samples.headD last := by
      simp only [first, hdriven, hunsolved, Bool.not_false, Bool.and_self, if_true]
    rw [hfirst] at hbefore
    exact first_without_step hvi hlen hbefore hexact

/-- A stage that has worked on its own, and then been driven by nothing, takes 201 V as the input
before 201 V. -/
theorem seeded_once_per_lifetime_driven_late :
    let c : Circuit Float := .ofTube .ecc83
    let history : List (Action Float) :=
      [.process [[0.5]] [[0]] 1, .setDriven true, .process [[], []] [[]] 0, .edit (.set .vk 2)]
    let s := (ofCircuit c).after history
    let moments := s.moments [[201, 202], [3e4, 3e4]] [[0, 0]] 2
    (ofCircuit c).Served history ∧ s.Serves [[201, 202], [3e4, 3e4]] [[0, 0]] 2 ∧
      s.point.armed = true ∧ moments.map Moment.vi = [201, 202] ∧
      moments.map (fun m => m.point.vi) = [201, 201] := by
  intro c history s moments
  have hserved : (ofCircuit c).Served history := by
    refine ⟨⟨Nat.le_refl 1, Nat.le_refl 1, ?_, ?_⟩, trivial,
      ⟨Nat.le_refl 2, Nat.le_refl 1, ?_, ?_⟩, trivial, trivial⟩
    · intro port hport
      obtain rfl := List.mem_singleton.mp (List.mem_of_mem_take hport)
      exact Nat.le_refl 1
    · intro port hport
      obtain rfl := List.mem_singleton.mp (List.mem_of_mem_take hport)
      exact Nat.le_refl 1
    · intro port hport
      exact Nat.zero_le _
    · intro port hport
      exact Nat.zero_le _
  have hserves : s.Serves [[201, 202], [3e4, 3e4]] [[0, 0]] 2 := by
    refine ⟨Nat.le_refl 2, Nat.le_refl 1, ?_, ?_⟩
    · intro port hport
      have hmem := List.mem_of_mem_take hport
      simp only [List.mem_cons, List.not_mem_nil, or_false] at hmem
      rcases hmem with rfl | rfl
      · exact Nat.le_refl 2
      · exact Nat.le_refl 2
    · intro port hport
      obtain rfl := List.mem_singleton.mp (List.mem_of_mem_take hport)
      exact Nat.le_refl 2
  have hdriven : s.placement.driven = true := rfl
  have hunsolved : (ofCircuit c).hasSolvedDriven history = false := rfl
  obtain ⟨harmed, -, hcalls⟩ := seeded_once_per_lifetime c hserved
  obtain ⟨-, hvi, hbefore, -, -⟩ := hcalls _ _ _ hserves
  rw [hunsolved] at harmed hbefore
  exact ⟨hserved, hserves, harmed, hvi, hbefore⟩

end Stage

end TubePreamp
