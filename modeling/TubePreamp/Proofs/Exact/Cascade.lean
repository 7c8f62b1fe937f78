import Mathlib
import TubePreamp.Proofs.Cascade.Moments
import TubePreamp.Proofs.Exact.Arithmetic
import TubePreamp.Proofs.Exact.OperatingPoint
import TubePreamp.Stage

/-!
Cascades of tubes in exact arithmetic. No sample of any stage divides by anything that is not
positive, and the resistances that a stage reads are those that the stage before it has just
written, which lie above zero and not above its anode resistor.
-/

namespace TubePreamp

variable {K : Type} [Field K] [LinearOrder K] [IsStrictOrderedRing K] [Exact K]

structure Moment.Sound (m : Moment K) : Prop where
  divisors : m.point.Divisors m.circuit m.vi m.ri
  settled : m.point.Settled m.circuit m.after

structure Stage.Sound (s : Stage K) : Prop where
  circuit : s.circuit.Sound
  charged : s.point.Charged s.circuit

namespace OperatingPoint

variable {c : Circuit K} {p : OperatingPoint K}

theorem run_charged (hc : c.Sound) (hp : p.Charged c) (tap : Tap) {feed : List (K × K)}
    (hfeed : ∀ x ∈ feed, 0 < x.2) : (run c tap p feed).2.Charged c := by
  induction feed generalizing p with
  | nil => exact hp
  | cons x feed ih =>
    rw [List.forall_mem_cons] at hfeed
    exact ih (step_charged hc hp tap x.1 hfeed.1) hfeed.2

theorem moments_sound (hc : c.Sound) (hp : p.Charged c) (tap : Tap) {feed : List (K × K)}
    (hfeed : ∀ x ∈ feed, 0 < x.2) : ∀ m ∈ moments c tap p feed, m.Sound := by
  induction feed generalizing p with
  | nil => simp [moments]
  | cons x feed ih =>
    rw [List.forall_mem_cons] at hfeed
    intro m hm
    rcases List.mem_cons.mp hm with rfl | hm
    · exact ⟨divisors_pos hc hp hfeed.1, step_settled hc hp tap x.1 hfeed.1⟩
    · exact ih (step_charged hc hp tap x.1 hfeed.1) hfeed.2 m hm

end OperatingPoint

namespace Stage

variable {s : Stage K}

theorem Sound.seeded (hs : s.Sound) (inputs : List (List K)) : (s.seeded inputs).Sound := by
  unfold Stage.seeded
  split
  · exact ⟨hs.circuit, OperatingPoint.seed_charged hs.charged _⟩
  · exact hs

theorem Sound.render (hs : s.Sound) {feed : List (K × K)} (hfeed : ∀ x ∈ feed, 0 < x.2) :
    (s.render feed).2.Sound := by
  have hseeded := hs.seeded [feed.map Prod.fst]
  rw [render_eq]
  refine ⟨hseeded.circuit, ?_⟩
  rw [seeded_circuit]
  have hcharged := hseeded.charged
  rw [seeded_circuit] at hcharged
  exact OperatingPoint.run_charged hs.circuit hcharged s.tap hfeed

theorem feedMoments_sound (hs : s.Sound) {feed : List (K × K)} (hfeed : ∀ x ∈ feed, 0 < x.2) :
    ∀ m ∈ s.feedMoments feed, m.Sound := by
  have hcharged := (hs.seeded [feed.map Prod.fst]).charged
  rw [seeded_circuit] at hcharged
  exact OperatingPoint.moments_sound hs.circuit hcharged s.tap hfeed

theorem feedMoments_resistance (hs : s.Sound) (hd : s.placement.drives = true)
    (feed : List (K × K)) :
    ∀ m ∈ s.feedMoments feed, 0 < m.output.ri ∧ m.output.ri ≤ m.circuit.ra := by
  intro m hm
  obtain ⟨hcircuit, htap⟩ := OperatingPoint.moments_place m hm
  rw [Moment.output, htap, tap, hd, if_pos rfl, hcircuit]
  exact OperatingPoint.step_resistance hs.circuit m.point m.vi m.ri

theorem render_handed_pos (hs : s.Sound) (hd : s.placement.drives = true) (feed : List (K × K)) :
    ∀ x ∈ (s.render feed).1.map Output.handed, 0 < x.2 := by
  intro x hx
  rw [← feedMoments_output, List.map_map] at hx
  obtain ⟨m, hm, rfl⟩ := List.mem_map.mp hx
  exact (feedMoments_resistance hs hd feed m hm).1

end Stage

namespace Cascade

/-- One stage's samples of a block and the next stage's: what the second reads is what the first has
written, with every resistance in range. -/
structure Hands (up down : List (Moment K)) : Prop where
  reads : down.map Moment.read = up.map fun m => m.output.handed
  range : ∀ m ∈ up, 0 < m.output.ri ∧ m.output.ri ≤ m.circuit.ra

structure SoundRow (count : Nat) (stages : List (Stage K)) : Prop where
  ne_nil : stages ≠ []
  length : stages.length = count
  row : Row false stages
  sound : ∀ s ∈ stages, s.Sound

variable {driven : Bool} {stages : List (Stage K)} {feed : List (K × K)}

/-- The induction is on the stages: each hands positive resistances to the next. -/
theorem renderRow_sound (hrow : Row driven stages) (hs : ∀ s ∈ stages, s.Sound)
    (hfeed : ∀ x ∈ feed, 0 < x.2) : ∀ s ∈ (renderRow stages feed).2, s.Sound := by
  induction stages generalizing driven feed with
  | nil => exact hs
  | cons s rest ih =>
    rw [List.forall_mem_cons] at hs
    have hfirst := hs.1.render hfeed
    cases rest with
    | nil => simpa using hfirst
    | cons t rest =>
      have hhanded := Stage.render_handed_pos hs.1 hrow.drives feed
      rw [renderRow_cons (by simp)]
      exact List.forall_mem_cons.mpr ⟨hfirst, ih hrow.2 hs.2 hhanded⟩

theorem rowMoments_sound (hrow : Row driven stages) (hs : ∀ s ∈ stages, s.Sound)
    (hfeed : ∀ x ∈ feed, 0 < x.2) : ∀ row ∈ rowMoments stages feed, ∀ m ∈ row, m.Sound := by
  induction stages generalizing driven feed with
  | nil => simp [rowMoments]
  | cons s rest ih =>
    rw [List.forall_mem_cons] at hs
    have hfirst := Stage.feedMoments_sound hs.1 hfeed
    cases rest with
    | nil => simpa [rowMoments] using hfirst
    | cons t rest =>
      have hhanded := Stage.render_handed_pos hs.1 hrow.drives feed
      exact List.forall_mem_cons.mpr ⟨hfirst, ih hrow.2 hs.2 hhanded⟩

theorem rowMoments_hands (hrow : Row driven stages) (hs : ∀ s ∈ stages, s.Sound) :
    (rowMoments stages feed).IsChain Hands := by
  induction stages generalizing driven feed with
  | nil => exact .nil
  | cons s rest ih =>
    rw [List.forall_mem_cons] at hs
    cases rest with
    | nil => exact .singleton _
    | cons t rest =>
      have hreads := t.feedMoments_read ((s.render feed).1.map Output.handed)
      rw [← s.feedMoments_output, List.map_map] at hreads
      have hrange := Stage.feedMoments_resistance hs.1 hrow.drives feed
      refine List.isChain_cons_cons.mpr ⟨⟨?_, hrange⟩, ih hrow.2 hs.2⟩
      rw [← s.feedMoments_output, List.map_map]
      exact hreads

theorem SoundRow.source_pos {count : Nat} (h : SoundRow count stages) (input : List K) :
    ∀ x ∈ sourceFeed stages input, 0 < x.2 := by
  obtain ⟨s, rest, rfl⟩ := List.exists_cons_of_ne_nil h.ne_nil
  have hs := h.sound s (by simp)
  intro x hx
  obtain ⟨v, _, rfl⟩ := List.mem_map.mp hx
  exact hs.circuit.positive .ri (by decide)

theorem SoundRow.rendered {count : Nat} (h : SoundRow count stages) (input : List K) :
    SoundRow count (rendered stages input).2 where
  ne_nil := renderRow_ne_nil h.ne_nil _
  length := by rw [Cascade.rendered, renderRow_stages_length, h.length]
  row := rendered_row h.row input
  sound := renderRow_sound h.row h.sound (h.source_pos input)

theorem ofTubes_soundRow {tubes : List Tube} (hne : tubes ≠ []) {rate : Float}
    (hrate : 0 < rate) :
    SoundRow tubes.length ((chained (tubes.map Stage.ofTube)).map fun s : Stage K =>
      (s.setRate rate).rested) where
  ne_nil := by
    rw [← List.length_pos_iff, List.length_map, chained_length, List.length_map,
      List.length_pos_iff]
    exact hne
  length := by rw [List.length_map, chained_length, List.length_map]
  row := by
    refine (chained_row ?_).map fun _ => rfl
    simp [Stage.ofTube, Stage.ofCircuit]
  sound := by
    intro s hs
    obtain ⟨t, ht, rfl⟩ := List.mem_map.mp hs
    obtain ⟨u, hu, n, i, rfl⟩ := chained_mem ht
    obtain ⟨tube, _, rfl⟩ := List.mem_map.mp hu
    have hcircuit : ((Stage.ofTube tube : Stage K).placedAt n i).circuit.Sound := by
      rw [Stage.placedAt_circuit]
      exact Circuit.ofTube_sound tube
    exact ⟨hcircuit, OperatingPoint.reset_charged hcircuit _ (samplePeriod_nonneg hrate)⟩

/-- No division by zero anywhere in a cascade of tubes, over any calls with any buffers and block
sizes. The record of the samples solved is complete: the samples that leave it are those written. -/
theorem ofTubes_never_divides_by_zero {tubes : List Tube} (hne : tubes ≠ []) {rate : Float}
    (hfinite : rate.isFinite = true) (hpos : 0 < rate) :
    ∃ c : Cascade K, ofTubes tubes rate = .ok c ∧ ∀ calls : List (Call K),
      (c.playMoments calls).flatMap leaving = (c.play calls).1 ∧
        ∀ rows ∈ c.playMoments calls, rows.length = tubes.length ∧
          (∀ row ∈ rows, ∀ m ∈ row, m.Sound) ∧ rows.IsChain Hands := by
  have husable : usableRate rate = true := by
    rw [usableRate, hfinite, decide_eq_true hpos, Bool.and_self]
  obtain ⟨c, hc, hw, hstages⟩ := ofTubes_usable (T := K) hne husable
  have hsound : SoundRow tubes.length c.stages := hstages ▸ ofTubes_soundRow hne hpos
  refine ⟨c, hc, fun calls => ⟨playMoments_leaving hw hsound.row hsound.ne_nil calls, ?_⟩⟩
  intro rows hrows
  obtain ⟨stages, input, hrow, rfl⟩ := playMoments_rows (fun _ input h => h.rendered input)
    (fun _ h => h.row) hw hsound calls rows hrows
  refine ⟨?_, rowMoments_sound hrow.row hrow.sound (hrow.source_pos input),
    rowMoments_hands hrow.row hrow.sound⟩
  rw [rowMoments_length, hrow.length]

theorem ofTubes_never_divides_by_zero_two_tubes :
    [Tube.ecc83, .ecc82] ≠ [] ∧ (48000 : Float).isFinite = true ∧ (0 : Float) < 48000 ∧
      ∃ c : Cascade ℚ, ofTubes [Tube.ecc83, .ecc82] 48000 = .ok c ∧
        ∀ calls : List (Call ℚ),
          (c.playMoments calls).flatMap leaving = (c.play calls).1 ∧
            ∀ rows ∈ c.playMoments calls, rows.length = 2 ∧
              (∀ row ∈ rows, ∀ m ∈ row, m.Sound) ∧ rows.IsChain Hands := by
  have hfinite : (48000 : Float).isFinite = true := by decide +kernel
  have hpos : (0 : Float) < 48000 := by decide +kernel
  have hne := List.cons_ne_nil Tube.ecc83 [.ecc82]
  exact ⟨hne, hfinite, hpos, ofTubes_never_divides_by_zero hne hfinite hpos⟩

end Cascade

end TubePreamp
