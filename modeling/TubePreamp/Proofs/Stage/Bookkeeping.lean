import TubePreamp.Proofs.Circuit
import TubePreamp.Proofs.Stage.Render
import TubePreamp.Stage

/-!
The record that a stage keeps of its past, after any history. Each setting has the last value given
to it, the sample period is that of the last set-up, and whatever is written twice or derived from
something else stays in step with it.
-/

namespace TubePreamp

namespace OperatingPoint

variable {T : Type} {P : OperatingPoint T → Prop}

theorem seed_keeps (hvi : ∀ p vi, P p → P { p with vi, armed := false }) {p : OperatingPoint T}
    (h : P p) (input : List T) : P (p.seed input) := by
  unfold seed
  split
  · exact hvi p _ h
  · exact h

variable [Sample T]

theorem run_keeps {c : Circuit T} {tap : Tap}
    (hstep : ∀ p vi ri, P p → P (p.step c tap vi ri).2) {p : OperatingPoint T} (h : P p)
    (feed : List (T × T)) : P (run c tap p feed).2 := by
  induction feed generalizing p with
  | nil => exact h
  | cons x rest ih => exact ih (hstep p x.1 x.2 h)

end OperatingPoint

namespace Stage

open OperatingPoint

variable {T : Type} [Sample T]

theorem process_frame (s : Stage T) (inputs outputs : List (List T)) (size : Nat) :
    (s.process inputs outputs size).2 =
      { s with point := (s.process inputs outputs size).2.point } := by
  have hseed : ∀ p, { s.seeded inputs with point := p } = { s with point := p } := by
    intro p
    unfold seeded
    split <;> rfl
  unfold process
  split
  · rfl
  · split
    · exact hseed _
    · rfl

theorem process_keeps {P : OperatingPoint T → Prop}
    (hstep : ∀ p c tap vi ri, P p → P (p.step c tap vi ri).2)
    (hvi : ∀ p vi, P p → P { p with vi, armed := false }) {s : Stage T} (h : P s.point)
    (inputs outputs : List (List T)) (size : Nat) :
    P (s.process inputs outputs size).2.point := by
  unfold process
  split
  · exact h
  · split
    · apply run_keeps (fun p vi ri => hstep p _ _ vi ri)
      unfold seeded
      split
      · exact seed_keeps hvi h _
      · exact h
    · exact h

/-- What every action keeps, every history keeps. -/
theorem after_keeps {P : Stage T → Prop} (hperform : ∀ s a, P s → P (s.perform a).2)
    {s : Stage T} (h : P s) (history : List (Action T)) : P (s.after history) := by
  induction history generalizing s with
  | nil => exact h
  | cons a rest ih => exact ih (hperform s a h)

/-- The last value that a history gives to a setting; `default` if it gives none. -/
def lastGiven {α : Type} (given : Action T → Option α) (default : α) (history : List (Action T)) :
    α :=
  (history.filterMap given).getLastD default

theorem after_eq_lastGiven {α : Type} {f : Stage T → α} {given : Action T → Option α}
    (hperform : ∀ s a, f (s.perform a).2 = (given a).getD (f s)) (s : Stage T)
    (history : List (Action T)) : f (s.after history) = lastGiven given (f s) history :=
  foldl_eq_getLastD hperform s history

def Action.drives? : Action T → Option Bool
  | .setDrives on => some on
  | _ => none

def Action.driven? : Action T → Option Bool
  | .setDriven on => some on
  | _ => none

def Action.rate? : Action T → Option Float
  | .setRate rate => some rate
  | _ => none

theorem setup_perform (s : Stage T) :
    s.perform .setup =
      if usableRate s.rate then (.done, s.rested) else (.refused (.badRate s.rate), s) := by
  unfold perform setup
  by_cases hrate : usableRate s.rate = true
  · simp only [if_pos hrate]
  · simp only [if_neg hrate]

theorem edit_frame (s : Stage T) (e : Circuit.Edit T) :
    s.edit e = { s with circuit := s.circuit.edit e, point := (s.edit e).point } := by
  cases e with
  | autoBias on => rfl
  | set component v => cases component <;> rfl

/-- Each setting of the stage is written by its own action alone, and the curve by none. -/
theorem perform_settings (s : Stage T) (a : Action T) :
    (s.perform a).2.placement.drives = a.drives?.getD s.placement.drives ∧
      (s.perform a).2.placement.driven = a.driven?.getD s.placement.driven ∧
      (s.perform a).2.rate = a.rate?.getD s.rate ∧
      (s.perform a).2.circuit.curve = s.circuit.curve := by
  cases a with
  | edit e =>
    simp only [perform]
    rw [s.edit_frame e]
    exact ⟨rfl, rfl, rfl, s.circuit.edit_curve e⟩
  | setup =>
    rw [setup_perform]
    split <;> exact ⟨rfl, rfl, rfl, rfl⟩
  | process inputs outputs size =>
    simp only [perform]
    rw [s.process_frame inputs outputs size]
    exact ⟨rfl, rfl, rfl, rfl⟩
  | _ => exact ⟨rfl, rfl, rfl, rfl⟩

structure InStep (s : Stage T) : Prop where
  inputs : s.inputCount = s.placement.inputCount
  outputs : s.outputCount = s.placement.outputCount
  cathode : s.point.vkNow = s.point.vk
  delays : s.inputDelay = s.outputDelay

theorem ofCircuit_inStep (c : Circuit T) : (ofCircuit c).InStep := ⟨rfl, rfl, rfl, rfl⟩

theorem perform_inStep (s : Stage T) (a : Action T) (h : s.InStep) : (s.perform a).2.InStep := by
  cases a with
  | edit e =>
    cases e with
    | autoBias on => exact ⟨h.inputs, h.outputs, h.cathode, h.delays⟩
    | set component v =>
      cases component with
      | vk => exact ⟨h.inputs, h.outputs, rfl, h.delays⟩
      | _ => exact ⟨h.inputs, h.outputs, h.cathode, h.delays⟩
  | setDrives on => exact ⟨rfl, rfl, h.cathode, h.delays⟩
  | setDriven on => exact ⟨rfl, rfl, h.cathode, h.delays⟩
  | setRate rate => exact ⟨h.inputs, h.outputs, h.cathode, h.delays⟩
  | setup =>
    rw [setup_perform]
    split
    · exact ⟨h.inputs, h.outputs, rfl, rfl⟩
    · exact h
  | process inputs outputs size =>
    have hpoint : (s.process inputs outputs size).2.point.vkNow =
        (s.process inputs outputs size).2.point.vk :=
      process_keeps (P := fun p => p.vkNow = p.vk) (fun _ _ _ _ _ _ => rfl) (fun _ _ hp => hp)
        h.cathode inputs outputs size
    have hframe := s.process_frame inputs outputs size
    simp only [perform]
    rw [hframe]
    exact ⟨h.inputs, h.outputs, hpoint, h.delays⟩

/-- Rates in force at the set-ups of a history that succeed, in order; `rate` is in force before. -/
def setupRates (rate : Float) : List (Action T) → List Float
  | [] => []
  | .setup :: rest =>
    if rate.isFinite = true ∧ 0 < rate then rate :: setupRates rate rest else setupRates rate rest
  | a :: rest => setupRates (a.rate?.getD rate) rest

structure SetUpAt (s : Stage T) (rates : List Float) : Prop where
  period : s.point.period = Sample.ofDouble (1 / rates.getLastD 48000)
  delay : s.inputDelay = if rates.isEmpty then 0 else 1

omit [Sample T] in
theorem setupRates_cons (rate : Float) (a : Action T) (rest : List (Action T)) :
    setupRates rate (a :: rest) = setupRates rate [a] ++ setupRates (a.rate?.getD rate) rest := by
  cases a with
  | setup =>
    simp only [setupRates, Action.rate?, Option.getD_none]
    split <;> rfl
  | _ => rfl

/-- A set-up that is refused leaves no rate behind, whatever the rate is set to later. -/
theorem setup_setUpAt {s : Stage T} {rates : List Float} (h : s.SetUpAt rates) :
    (s.perform .setup).2.SetUpAt (rates ++ setupRates s.rate [.setup (T := T)]) := by
  rw [setup_perform, setupRates, setupRates]
  by_cases husable : usableRate s.rate = true
  · rw [if_pos husable, if_pos ((usableRate_iff s.rate).mp husable)]
    constructor
    · rw [List.getLastD_concat]
      rfl
    · simp [rested]
  · rw [if_neg husable, if_neg (mt (usableRate_iff s.rate).mpr husable), List.append_nil]
    exact h

theorem perform_setUpAt {s : Stage T} {rates : List Float} (h : s.SetUpAt rates) (a : Action T) :
    (s.perform a).2.SetUpAt (rates ++ setupRates s.rate [a]) := by
  by_cases ha : a = .setup
  · subst ha
    exact setup_setUpAt h
  · have hnone : setupRates s.rate [a] = [] := by
      cases a with
      | setup => exact absurd rfl ha
      | _ => rfl
    rw [hnone, List.append_nil]
    cases a with
    | edit e =>
      cases e with
      | autoBias on => exact ⟨h.period, h.delay⟩
      | set component v => cases component <;> exact ⟨h.period, h.delay⟩
    | setup => exact absurd rfl ha
    | process inputs outputs size =>
      have hpoint : (s.process inputs outputs size).2.point.period =
          Sample.ofDouble (1 / rates.getLastD 48000) :=
        process_keeps (P := fun p => p.period = Sample.ofDouble (1 / rates.getLastD 48000))
          (fun _ _ _ _ _ hp => hp) (fun _ _ hp => hp) h.period inputs outputs size
      have hframe := s.process_frame inputs outputs size
      simp only [perform]
      rw [hframe]
      exact ⟨hpoint, h.delay⟩
    | _ => exact ⟨h.period, h.delay⟩

theorem after_setUpAt {s : Stage T} {rates : List Float} (h : s.SetUpAt rates)
    (history : List (Action T)) : (s.after history).SetUpAt (rates ++ setupRates s.rate history) := by
  induction history generalizing s rates with
  | nil =>
    rw [setupRates, List.append_nil]
    exact h
  | cons a rest ih =>
    have hrest := ih (perform_setUpAt h a)
    rw [(s.perform_settings a).2.2.1, List.append_assoc, ← setupRates_cons] at hrest
    exact hrest

/-- The books of a stage balance after any history. Placement and rate are those given last, port
counts are those of the placement, both cathode voltages are one, the period is that of the rate in
force at the last set-up that succeeded, the delays tell whether there has been one, the curve is
the first one, and a set-up that is refused changes nothing. -/
theorem history_keeps_books (c : Circuit T) (history : List (Action T)) :
    let s := (ofCircuit c).after history
    let rates := setupRates 48000 history
    s.placement.drives = lastGiven Action.drives? false history ∧
      s.placement.driven = lastGiven Action.driven? false history ∧
      s.inputCount = (if s.placement.driven then 2 else 1) ∧
      s.outputCount = (if s.placement.drives then 2 else 1) ∧
      s.point.vkNow = s.point.vk ∧
      s.point.period = Sample.ofDouble (1 / rates.getLastD 48000) ∧
      s.inputDelay = s.outputDelay ∧ s.inputDelay = (if rates.isEmpty then 0 else 1) ∧
      s.circuit.curve = c.curve ∧
      ∀ fault, (s.perform .setup).1 = .refused fault → (s.perform .setup).2 = s := by
  intro s rates
  have hdrives := after_eq_lastGiven (f := fun s => s.placement.drives)
    (fun s a => (perform_settings s a).1) (ofCircuit c) history
  have hdriven := after_eq_lastGiven (f := fun s => s.placement.driven)
    (fun s a => (perform_settings s a).2.1) (ofCircuit c) history
  have hstep := after_keeps perform_inStep (ofCircuit_inStep c) history
  have hstart : (ofCircuit c).SetUpAt [] := ⟨rfl, rfl⟩
  have hsetup : s.SetUpAt rates := after_setUpAt hstart history
  have hcurve : s.circuit.curve = c.curve :=
    after_keeps (P := fun s => s.circuit.curve = c.curve)
      (fun s a h => (perform_settings s a).2.2.2.trans h) rfl history
  refine ⟨hdrives, hdriven, hstep.inputs, hstep.outputs, hstep.cathode, hsetup.period,
    hstep.delays, hsetup.delay, hcurve, ?_⟩
  intro fault hrefused
  rw [setup_perform] at hrefused ⊢
  split at hrefused
  · cases hrefused
  · next hrate => rw [if_neg hrate]

end Stage

/-!
Which cathode voltage drives the tube. A sample and a set-up both leave a grid-cathode voltage that
is the difference of the grid and cathode voltages they leave. A cathode voltage set by hand moves
the cathode alone, so until the next sample or set-up the tube is driven from where the cathode was.
-/

namespace OperatingPoint

variable {T : Type} [Sample T]

def Coherent (p : OperatingPoint T) : Prop := p.vgk = p.vg - p.vk

theorem step_coherent (p : OperatingPoint T) (c : Circuit T) (tap : Tap) (vi ri : T) :
    (p.step c tap vi ri).2.Coherent := rfl

theorem reset_coherent (p : OperatingPoint T) (c : Circuit T) (period : T) :
    (p.reset c period).Coherent := rfl

theorem run_coherent {feed : List (T × T)} (hne : feed ≠ []) (c : Circuit T) (tap : Tap)
    (p : OperatingPoint T) : (run c tap p feed).2.Coherent := by
  induction feed generalizing p with
  | nil => exact absurd rfl hne
  | cons x rest ih =>
    rw [run_cons]
    by_cases hrest : rest = []
    · subst hrest
      exact step_coherent p c tap x.1 x.2
    · exact ih hrest (p.step c tap x.1 x.2).2

theorem moments_eq_nil {c : Circuit T} {tap : Tap} {p : OperatingPoint T} {feed : List (T × T)} :
    moments c tap p feed = [] ↔ feed = [] := by
  cases feed <;> simp [moments]

/-- Cathode voltages of a history: `settled` at the end of the last sample or set-up, `jump` the one
set by hand since then. -/
structure Cathode (T : Type) where
  settled : T
  jump : Option T

structure DrivenFrom (p : OperatingPoint T) (k : Cathode T) : Prop where
  vgk : p.vgk = p.vg - k.settled
  vk : p.vk = k.jump.getD k.settled

theorem DrivenFrom.coherent_iff {p : OperatingPoint T} {k : Cathode T} (h : p.DrivenFrom k) :
    p.Coherent ↔ ∀ v ∈ k.jump, p.vg - k.settled = p.vg - v := by
  have hvk := h.vk
  rw [Coherent, h.vgk, hvk]
  cases k.jump with
  | none => simp
  | some v => simp

theorem Coherent.drivenFrom {p : OperatingPoint T} (h : p.Coherent) :
    p.DrivenFrom ⟨p.vk, none⟩ := by
  constructor
  · exact h
  · rfl

theorem DrivenFrom.seed {p : OperatingPoint T} {k : Cathode T} (h : p.DrivenFrom k)
    (input : List T) : (p.seed input).DrivenFrom k := by
  unfold OperatingPoint.seed
  split
  · exact ⟨h.vgk, h.vk⟩
  · exact h

end OperatingPoint

namespace Stage

open OperatingPoint

variable {T : Type} [Sample T]

def noteCathode (s : Stage T) (k : Cathode T) : Action T → Cathode T
  | .edit (.set .vk v) => { k with jump := some v }
  | .setup => if usableRate s.rate then ⟨s.circuit.vk, none⟩ else k
  | .process inputs outputs size =>
    if (s.moments inputs outputs size).isEmpty then k
    else ⟨(s.process inputs outputs size).2.point.vk, none⟩
  | _ => k

def noteCathodes (s : Stage T) (k : Cathode T) : List (Action T) → Cathode T
  | [] => k
  | a :: rest => noteCathodes (s.perform a).2 (s.noteCathode k a) rest

theorem seeded_drivenFrom {s : Stage T} {k : Cathode T} (h : s.point.DrivenFrom k)
    (inputs : List (List T)) : (s.seeded inputs).point.DrivenFrom k := by
  unfold seeded
  split
  · exact h.seed _
  · exact h

/-- A call that solves a sample settles the cathode; any other leaves both voltages alone. -/
theorem process_drivenFrom {s : Stage T} {k : Cathode T} (h : s.point.DrivenFrom k)
    (inputs outputs : List (List T)) (size : Nat) :
    (s.process inputs outputs size).2.point.DrivenFrom
      (s.noteCathode k (.process inputs outputs size)) := by
  unfold noteCathode moments process
  by_cases hsize : size = 0
  · simp only [if_pos hsize]
    exact h
  · simp only [if_neg hsize]
    cases s.feed? inputs with
    | none => exact h
    | some feed =>
      cases s.room? outputs with
      | none => exact h
      | some room =>
        by_cases hnone : feed.take (min size room) = []
        · simp only [hnone]
          exact seeded_drivenFrom h inputs
        · have hsolved := run_coherent hnone s.circuit s.tap (s.seeded inputs).point
          have hsome : OperatingPoint.moments s.circuit s.tap (s.seeded inputs).point
              (feed.take (min size room)) ≠ [] := fun h => hnone (moments_eq_nil.mp h)
          simp only [seeded_circuit, seeded_tap, List.isEmpty_iff, if_neg hsome]
          exact hsolved.drivenFrom

theorem edit_drivenFrom {s : Stage T} {k : Cathode T} (h : s.point.DrivenFrom k)
    (e : Circuit.Edit T) : (s.edit e).point.DrivenFrom (s.noteCathode k (.edit e)) := by
  cases e with
  | autoBias on => exact h
  | set component v =>
    cases component with
    | vk => exact ⟨h.vgk, rfl⟩
    | _ => exact h

theorem perform_drivenFrom {s : Stage T} {k : Cathode T} (h : s.point.DrivenFrom k)
    (a : Action T) : (s.perform a).2.point.DrivenFrom (s.noteCathode k a) := by
  cases a with
  | edit e => exact edit_drivenFrom h e
  | setDrives on => exact h
  | setDriven on => exact h
  | setRate rate => exact h
  | setup =>
    by_cases hrate : usableRate s.rate = true
    · have hrest := reset_coherent s.point s.circuit (samplePeriod s.rate)
      simp only [perform, setup, noteCathode, if_pos hrate]
      exact hrest.drivenFrom
    · simp only [perform, setup, noteCathode, if_neg hrate]
      exact h
  | process inputs outputs size => exact process_drivenFrom h inputs outputs size

theorem after_drivenFrom {s : Stage T} {k : Cathode T} (h : s.point.DrivenFrom k)
    (history : List (Action T)) :
    (s.after history).point.DrivenFrom (s.noteCathodes k history) := by
  induction history generalizing s k with
  | nil => exact h
  | cons a rest ih => exact ih (perform_drivenFrom h a)

/-- Over any history the tube is driven from the cathode voltage of the last sample or set-up. The
point is coherent as long as no other cathode voltage that makes a difference has been set since. -/
theorem tube_driven_from_settled_cathode (c : Circuit T) (history : List (Action T)) :
    let s := (ofCircuit c).after history
    let k := (ofCircuit c).noteCathodes ⟨c.vk, none⟩ history
    s.point.vgk = s.point.vg - k.settled ∧ s.point.vk = k.jump.getD k.settled ∧
      (s.point.Coherent ↔ ∀ v ∈ k.jump, s.point.vg - k.settled = s.point.vg - v) := by
  intro s k
  have hstart : (ofCircuit c).point.DrivenFrom ⟨c.vk, none⟩ := ⟨rfl, rfl⟩
  have hlast := after_drivenFrom hstart history
  exact ⟨hlast.vgk, hlast.vk, hlast.coherent_iff⟩

/-- A cathode set to 3 V on a stage at rest at 6 V leaves the tube driven by 6 V. -/
theorem cathode_jump_not_coherent :
    ¬((ofTube .ecc82 : Stage Float).after [.edit (.set .vk 3)]).point.Coherent := by
  unfold Coherent
  decide +kernel

end Stage

end TubePreamp
