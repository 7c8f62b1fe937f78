import Mathlib.Data.List.Forall2
import TubePreamp.Proofs.Cascade.Wiring
import TubePreamp.Proofs.Circuit

/-!
What a set-up leaves of the past. Stages of the same parts in the same places, set up for the same
rates, give the same signals from then on, whatever they have been through. Only whether a driven
stage has had its first sample outlives the set-up.
-/

namespace TubePreamp

namespace Stage

variable {T : Type}

/-- Equal in all that a set-up keeps. -/
structure Alike (s t : Stage T) : Prop where
  circuit : s.circuit = t.circuit
  placement : s.placement = t.placement
  rate : s.rate = t.rate
  armed : s.point.armed = t.point.armed

/-- Equal in all that a sample is solved from. -/
structure Twin (s t : Stage T) : Prop where
  circuit : s.circuit = t.circuit
  placement : s.placement = t.placement
  point : s.point = t.point

theorem Alike.trans {s t u : Stage T} (h : s.Alike t) (k : t.Alike u) : s.Alike u :=
  ⟨h.circuit.trans k.circuit, h.placement.trans k.placement, h.rate.trans k.rate,
    h.armed.trans k.armed⟩

theorem Twin.seeded {s t : Stage T} (h : s.Twin t) (inputs : List (List T)) :
    (s.seeded inputs).point = (t.seeded inputs).point := by
  unfold Stage.seeded
  rw [h.placement]
  split
  · exact congrArg (OperatingPoint.seed · _) h.point
  · exact h.point

variable [Sample T]

theorem Alike.rested {s t : Stage T} (h : s.Alike t) : s.rested.Twin t.rested where
  circuit := h.circuit
  placement := h.placement
  point := by
    simp only [Stage.rested, OperatingPoint.reset]
    rw [h.circuit, h.rate, h.armed]

theorem Twin.render {s t : Stage T} (h : s.Twin t) (feed : List (T × T)) :
    (s.render feed).1 = (t.render feed).1 ∧ (s.render feed).2.Twin (t.render feed).2 := by
  have htap : s.tap = t.tap := by rw [tap, h.placement, tap]
  have hrun : (s.seeded [feed.map Prod.fst]).point.run s.circuit s.tap feed =
      (t.seeded [feed.map Prod.fst]).point.run t.circuit t.tap feed := by
    rw [h.seeded, h.circuit, htap]
  refine ⟨?_, ?_, ?_, ?_⟩
  · rw [render_eq, render_eq, hrun]
  · rw [render_circuit, render_circuit, h.circuit]
  · rw [render_placement, render_placement, h.placement]
  · rw [render_eq, render_eq, hrun]

/-- A stage that is not driven keeps its seed for later. -/
theorem render_alike {s : Stage T} (hs : s.placement.driven = false) (feed : List (T × T)) :
    s.Alike (s.render feed).2 := by
  have hseed : s.seeded [feed.map Prod.fst] = s := by
    unfold seeded
    rw [if_neg (by rw [hs]; decide)]
  rw [render_eq, hseed]
  exact ⟨rfl, rfl, rfl, (s.point.run_armed _ _ _).symm⟩

end Stage

namespace Cascade

open Stage (Alike Twin)

variable {T : Type}

theorem Row.of_alike {driven : Bool} {stages others : List (Stage T)} (h : Row driven stages)
    (hsame : List.Forall₂ Alike stages others) : Row driven others := by
  induction hsame generalizing driven with
  | nil => trivial
  | @cons s t rest others hst hrest ih =>
    have hempty : rest.isEmpty = others.isEmpty := by cases hrest <;> rfl
    obtain ⟨hs, hrow⟩ := h
    exact ⟨by rw [← hst.placement, hs, hempty], ih hrow⟩

theorem usable_of_alike {stages others : List (Stage T)} (hsame : List.Forall₂ Alike stages others)
    (h : ∀ s ∈ stages, usableRate s.rate = true) : ∀ s ∈ others, usableRate s.rate = true := by
  induction hsame with
  | nil => exact h
  | cons hst hrest ih =>
    rw [List.forall_mem_cons, hst.rate] at h
    exact List.forall_mem_cons.mpr ⟨h.1, ih h.2⟩

variable [Sample T]

theorem usable_of_setupStages {stages : List (Stage T)} (h : (setupStages stages).1 = none) :
    ∀ s ∈ stages, usableRate s.rate = true := by
  induction stages with
  | nil => simp
  | cons s rest ih =>
    by_cases hs : usableRate s.rate = true
    · simp only [setupStages, Stage.setup_usable hs] at h
      exact List.forall_mem_cons.mpr ⟨hs, ih h⟩
    · simp only [setupStages, Stage.setup_refused hs] at h
      cases h

theorem setup_rested {c : Cascade T} (h : c.setup.1 = none) :
    c.setup.2.stages = c.stages.map Stage.rested := by
  have husable := setupStages_usable (usable_of_setupStages h)
  simp only [setup, husable]

theorem setup_succeeds {c : Cascade T} (h : ∀ s ∈ c.stages, usableRate s.rate = true) :
    c.setup.1 = none := by
  simp only [setup, setupStages_usable h]

theorem renderRow_twins {stages others : List (Stage T)} (h : List.Forall₂ Twin stages others)
    (feed : List (T × T)) :
    (renderRow stages feed).1 = (renderRow others feed).1 ∧
      List.Forall₂ Twin (renderRow stages feed).2 (renderRow others feed).2 := by
  induction h generalizing feed with
  | nil => exact ⟨rfl, .nil⟩
  | @cons s t rest others hst hrest ih =>
    obtain ⟨hout, htwin⟩ := hst.render feed
    by_cases hne : rest = []
    · subst hne
      cases hrest
      rw [renderRow_single, renderRow_single, hout]
      exact ⟨rfl, .cons htwin .nil⟩
    · have hne' : others ≠ [] := by
        intro hnil
        subst hnil
        cases hrest
        exact hne rfl
      obtain ⟨hlast, htwins⟩ := ih ((s.render feed).1.map Output.handed)
      rw [renderRow_cons hne, renderRow_cons hne', ← hout]
      exact ⟨hlast, .cons htwin htwins⟩

theorem rendered_twins {stages others : List (Stage T)} (h : List.Forall₂ Twin stages others)
    (input : List T) :
    (rendered stages input).1 = (rendered others input).1 ∧
      List.Forall₂ Twin (rendered stages input).2 (rendered others input).2 := by
  have hsource : sourceResistance stages = sourceResistance others := by
    cases h with
    | nil => rfl
    | cons hst _ => exact congrArg (fun circuit => circuit.ri) hst.circuit
  have hrow := renderRow_twins h (sourceFeed stages input)
  rw [rendered, rendered, sourceFeed, sourceFeed, ← hsource]
  exact hrow

structure Call.Matches (a b : Call T) : Prop where
  input : a.input = b.input
  room : a.output.length = b.output.length

theorem process_written {c : Cascade T} (hw : c.WellFormed) (hrow : Row false c.stages)
    (input output : List T) :
    (c.process input output).1.take input.length =
      (rendered c.stages (input.take output.length)).1 := by
  rw [(process_eq_rendered hw hrow input output).1]
  apply take_overlay_of_room
  rw [rendered_length, List.length_take, Nat.min_comm]

/-- The induction is on the calls; between them the two cascades have nothing in common but twin
stages. -/
theorem play_twins {c d : Cascade T} (hc : c.WellFormed) (hd : d.WellFormed)
    (hrow : Row false c.stages) (hrow' : Row false d.stages)
    (htwins : List.Forall₂ Twin c.stages d.stages) {calls others : List (Call T)}
    (hcalls : List.Forall₂ Call.Matches calls others) :
    (c.play calls).1 = (d.play others).1 ∧
      List.Forall₂ Twin (c.play calls).2.stages (d.play others).2.stages := by
  induction hcalls generalizing c d with
  | nil => exact ⟨rfl, htwins⟩
  | @cons a b calls others hab _ ih =>
    have hcr : Row false (c.ready a).stages := by rwa [ready_stages]
    have hdr : Row false (d.ready b).stages := by rwa [ready_stages]
    obtain ⟨hout, hstages⟩ := rendered_twins htwins (a.input.take a.output.length)
    -- what either writes is a rendering; its block size and links do not occur in it
    have hfront := process_written (hc.ready a) hcr a.input a.output
    have hfront' := process_written (hd.ready b) hdr b.input b.output
    have hlast := (process_eq_rendered (hc.ready a) hcr a.input a.output).2
    have hlast' := (process_eq_rendered (hd.ready b) hdr b.input b.output).2
    rw [ready_stages] at hfront hlast hfront' hlast'
    rw [← hab.input, ← hab.room] at hfront' hlast'
    have hnext := hstages
    rw [← hlast, ← hlast'] at hnext
    obtain ⟨hlater, hend⟩ := ih ((hc.ready a).process _ _) ((hd.ready b).process _ _)
      (process_row (hc.ready a) hcr _ _) (process_row (hd.ready b) hdr _ _) hnext
    rw [play_cons, play_cons, ← hab.input, hfront, hfront', hout, hlater]
    exact ⟨rfl, hend⟩

theorem play_keeps {P : List (Stage T) → Prop}
    (hkeep : ∀ stages input, P stages → P (rendered stages input).2)
    (hplaced : ∀ stages, P stages → Row false stages) {c : Cascade T} (hw : c.WellFormed)
    (hP : P c.stages) (calls : List (Call T)) :
    (c.play calls).2.WellFormed ∧ P (c.play calls).2.stages := by
  induction calls generalizing c with
  | nil => exact ⟨hw, hP⟩
  | cons call rest ih =>
    have hready : P (c.ready call).stages := by rwa [ready_stages]
    have hlast := (process_eq_rendered (hw.ready call) (hplaced _ hready) call.input call.output).2
    have hP' : P ((c.ready call).process call.input call.output).2.stages := by
      rw [hlast]
      exact hkeep _ _ hready
    exact ih ((hw.ready call).process _ _) hP'

theorem usable_of_ofTubes {tubes : List Tube} {rate : Float} {c : Cascade T}
    (h : ofTubes tubes rate = .ok c) : tubes ≠ [] ∧ usableRate rate = true := by
  by_cases hne : tubes = []
  · rw [ofTubes, if_pos hne] at h
    cases h
  · refine ⟨hne, ?_⟩
    rw [ofTubes, if_neg hne] at h
    split at h
    · next built hset =>
      have husable : ∀ s ∈ ((ofStages (tubes.map Stage.ofTube) : Cascade T).setRate rate).stages,
          usableRate s.rate = true := usable_of_setupStages (congrArg Prod.fst hset)
      have hpos : 0 < ((ofStages (tubes.map Stage.ofTube) : Cascade T).setRate rate).stages.length := by
        rw [setRate, List.length_map, ofStages_stages, chained_length, List.length_map]
        exact List.length_pos_iff.mpr hne
      obtain ⟨s, hs⟩ := List.exists_mem_of_length_pos hpos
      have hrate : s.rate = rate := by
        obtain ⟨t, -, rfl⟩ := List.mem_map.mp hs
        rfl
      have hs_usable := husable s hs
      rwa [hrate] at hs_usable
    · cases h

/-- A stage on its own at rest, and what is left of it after any processing and a set-up. -/
theorem ofTubes_single {tube : Tube} {rate : Float} {c : Cascade T}
    (h : ofTubes [tube] rate = .ok c) :
    c.WellFormed ∧ ∃ s : Stage T, c.stages = [s.rested] ∧ s.placement = .single ∧
      usableRate s.rate = true := by
  obtain ⟨hne, husable⟩ := usable_of_ofTubes h
  obtain ⟨d, hd, hw, hstages⟩ := ofTubes_usable (T := T) hne husable
  obtain rfl : d = c := Except.ok.inj (hd.symm.trans h)
  rw [List.map_singleton, chained_single, List.map_singleton] at hstages
  exact ⟨hw, _, hstages, rfl, husable⟩

theorem Row.setup {c : Cascade T} (hrow : Row false c.stages) (hset : c.setup.1 = none) :
    Row false c.setup.2.stages := by
  rw [setup_rested hset]
  exact hrow.map fun _ => rfl

theorem setup_twins {c d : Cascade T} (hsame : List.Forall₂ Alike c.stages d.stages)
    (hset : c.setup.1 = none) :
    d.setup.1 = none ∧ List.Forall₂ Twin c.setup.2.stages d.setup.2.stages := by
  have hset' : d.setup.1 = none :=
    setup_succeeds (usable_of_alike hsame (usable_of_setupStages hset))
  refine ⟨hset', ?_⟩
  rw [setup_rested hset, setup_rested hset', List.forall₂_map_left_iff, List.forall₂_map_right_iff]
  exact hsame.imp fun _ _ h => h.rested

/-- No processing gives a stage on its own anything that a set-up does not take away. -/
theorem play_single {c : Cascade T} (hw : c.WellFormed) {s : Stage T} (hstages : c.stages = [s])
    (hplace : s.placement = .single) (calls : List (Call T)) :
    (c.play calls).2.WellFormed ∧ List.Forall₂ Alike c.stages (c.play calls).2.stages := by
  rw [hstages]
  have hrow : Row false [s] := ⟨hplace, trivial⟩
  refine play_keeps (P := fun stages => List.Forall₂ Alike [s] stages) ?_
    (fun _ hsame => hrow.of_alike hsame) hw ?_ calls
  · intro stages input hsame
    obtain ⟨t, rest, ht, hrest, rfl⟩ := List.forall₂_cons_left_iff.mp hsame
    cases hrest
    have hdriven : t.placement.driven = false := by rw [← ht.placement, hplace]; rfl
    exact .cons (ht.trans (Stage.render_alike hdriven _)) .nil
  · rw [hstages]
    exact .cons ⟨rfl, rfl, rfl, rfl⟩ .nil

/-- A set-up erases all that has happened before but the seeds that have been taken. Two connected
cascades of like stages, set up, write the same samples from then on, call by call and whatever
their links, buffers and block sizes, and their stages stay equal. So a tube on its own, set up
again after any processing, is as good as new. -/
theorem setup_erases_history :
    (∀ c d : Cascade T, c.WellFormed → d.WellFormed → c.Connected →
      List.Forall₂ Alike c.stages d.stages → c.setup.1 = none →
        d.setup.1 = none ∧ ∀ calls others, List.Forall₂ Call.Matches calls others →
          (c.setup.2.play calls).1 = (d.setup.2.play others).1 ∧
            List.Forall₂ Twin (c.setup.2.play calls).2.stages (d.setup.2.play others).2.stages) ∧
      ∀ (tube : Tube) (rate : Float) (c : Cascade T), ofTubes [tube] rate = .ok c →
        ∀ past, (c.play past).2.setup.1 = none ∧
          ∀ calls others, List.Forall₂ Call.Matches calls others →
            (c.play calls).1 = ((c.play past).2.setup.2.play others).1 ∧
              List.Forall₂ Twin (c.play calls).2.stages
                ((c.play past).2.setup.2.play others).2.stages := by
  constructor
  · intro c d hc hd hcon hsame hset
    obtain ⟨hset', htwins⟩ := setup_twins hsame hset
    have hrow := (connected_iff_row c).mp hcon
    have hrow' := hrow.of_alike hsame
    refine ⟨hset', ?_⟩
    intro calls others hcalls
    exact play_twins hc.setup hd.setup (hrow.setup hset) (hrow'.setup hset') htwins hcalls
  · intro tube rate c hbuilt past
    obtain ⟨hw, s, hstages, hplace, husable⟩ := ofTubes_single hbuilt
    obtain ⟨hpast, hsame⟩ := play_single hw hstages hplace past
    have hset : c.setup.1 = none := by
      apply setup_succeeds
      rw [hstages]
      exact List.forall_mem_singleton.mpr husable
    obtain ⟨hset', htwins⟩ := setup_twins hsame hset
    -- a new cascade is at rest, so setting it up once more gives its stages back
    have hrest : c.setup.2.stages = c.stages := by
      rw [setup_rested hset, hstages]
      rfl
    rw [hrest] at htwins
    have hrow : Row false c.stages := by
      rw [hstages]
      exact ⟨hplace, trivial⟩
    refine ⟨hset', ?_⟩
    intro calls others hcalls
    exact play_twins hw hpast.setup hrow ((hrow.of_alike hsame).setup hset') htwins hcalls

/-- A worn first stage and another block size make no difference after a set-up. -/
theorem setup_erases_history_worn_stage :
    let s : Stage Float := .ofTube .ecc83
    let worn : Stage Float := { s with point := { s.point with vg := 5, vi := -3 } }
    let c : Cascade Float := ofStages [s, .ofTube .ecc82]
    let d : Cascade Float := (ofStages [worn, .ofTube .ecc82]).setBlockSize 3
    c.WellFormed ∧ d.WellFormed ∧ c.Connected ∧ List.Forall₂ Alike c.stages d.stages ∧
      c.setup.1 = none ∧
      (c.setup.2.play [⟨[], [0.5, -0.25], [0, 0]⟩]).1 =
        (d.setup.2.play [⟨[1], [0.5, -0.25], [7, 8]⟩]).1 := by
  intro s worn c d
  have hc : c.WellFormed := .ofStages _
  have hd : d.WellFormed := (WellFormed.ofStages _).setBlockSize 3
  have hcon : c.Connected := ofStages_connected (by simp [s, Stage.ofTube, Stage.ofCircuit])
  have hsame : List.Forall₂ Alike c.stages d.stages :=
    .cons ⟨rfl, rfl, rfl, rfl⟩ (.cons ⟨rfl, rfl, rfl, rfl⟩ .nil)
  have hset : c.setup.1 = none := by
    have hrate : usableRate defaultRate = true := by decide +kernel
    apply setup_succeeds
    exact List.forall_mem_cons.mpr ⟨hrate, List.forall_mem_singleton.mpr hrate⟩
  have hcalls := (setup_erases_history.1 c d hc hd hcon hsame hset).2
  have hmatch : List.Forall₂ Call.Matches [⟨[], [0.5, -0.25], [0, 0]⟩]
      [(⟨[1], [0.5, -0.25], [7, 8]⟩ : Call Float)] := .cons ⟨rfl, rfl⟩ .nil
  exact ⟨hc, hd, hcon, hsame, hset, (hcalls _ _ hmatch).1⟩

end Cascade

end TubePreamp

/-!
How far a set-up gets. Stages are set up in order until one has a rate that it refuses. Those before
it are at rest by then; it and all behind it are as they were.
-/

namespace TubePreamp.Cascade

variable {T : Type}

theorem exists_first_unusable {stages : List (Stage T)}
    (h : ¬∀ s ∈ stages, usableRate s.rate = true) :
    ∃ front bad behind, stages = front ++ bad :: behind ∧
      (∀ s ∈ front, usableRate s.rate = true) ∧ ¬usableRate bad.rate = true := by
  induction stages with
  | nil => exact absurd (List.forall_mem_nil _) h
  | cons s rest ih =>
    by_cases hs : usableRate s.rate = true
    · have hrest : ¬∀ t ∈ rest, usableRate t.rate = true :=
        fun hall => h (List.forall_mem_cons.mpr ⟨hs, hall⟩)
      obtain ⟨front, bad, behind, rfl, hfront, hbad⟩ := ih hrest
      exact ⟨s :: front, bad, behind, rfl, List.forall_mem_cons.mpr ⟨hs, hfront⟩, hbad⟩
    · exact ⟨[], s, rest, rfl, List.forall_mem_nil _, hs⟩

variable [Sample T]

theorem setupStages_refused {front : List (Stage T)} {bad : Stage T}
    (hfront : ∀ s ∈ front, usableRate s.rate = true) (hbad : ¬usableRate bad.rate = true)
    (behind : List (Stage T)) :
    setupStages (front ++ bad :: behind) =
      (some (.badRate bad.rate), front.map Stage.rested ++ bad :: behind) := by
  induction front with
  | nil => simp only [List.nil_append, setupStages, Stage.setup_refused hbad, List.map_nil]
  | cons s rest ih =>
    rw [List.forall_mem_cons] at hfront
    have hrest := ih hfront.2
    simp only [List.cons_append, setupStages, Stage.setup_usable hfront.1, hrest, List.map_cons]

/-- A set-up succeeds exactly if every stage has a finite positive rate, and then it leaves each at
rest in its own circuit at its own rate, with the seed, the place, the circuit and the rate that it
had. Otherwise it names the first rate that is not, has done this to the stages before, and has not
touched that stage or any behind it. Links and block size stay in both cases. -/
theorem setup_stops_at_bad_rate (c : Cascade T) :
    let good : Stage T → Prop := fun s => s.rate.isFinite = true ∧ 0 < s.rate
    let rest : Stage T → Stage T := fun s =>
      { s with
        point :=
          { vkNow := s.circuit.vk, vk := s.circuit.vk, vg := 0, va := s.circuit.vb, vo := 0, vi := 0
            vgk := 0 - s.circuit.vk, vak := s.circuit.vb, ig := 0, ia := 0
            period := Sample.ofDouble (1 / s.rate), armed := s.point.armed }
        inputDelay := 1
        outputDelay := 1 }
    (c.setup.1 = none ↔ ∀ s ∈ c.stages, good s) ∧
      ((∀ s ∈ c.stages, good s) → c.setup = (none, { c with stages := c.stages.map rest })) ∧
      ((¬∀ s ∈ c.stages, good s) → ∃ k bad, c.stages[k]? = some bad ∧ ¬good bad ∧
        (∀ s ∈ c.stages.take k, good s) ∧
        c.setup = (some (.badRate bad.rate),
          { c with stages := (c.stages.take k).map rest ++ c.stages.drop k })) := by
  intro good rest
  have hgood : ∀ s, usableRate s.rate = true ↔ good s := fun s => usableRate_iff s.rate
  simp only [← hgood]
  refine ⟨⟨usable_of_setupStages, setup_succeeds⟩, ?_, ?_⟩
  · intro hall
    rw [setup, setupStages_usable hall]
    rfl
  · intro hsome
    obtain ⟨front, bad, behind, hstages, hfront, hbad⟩ := exists_first_unusable hsome
    have htake : c.stages.take front.length = front := by rw [hstages, List.take_left]
    have hdrop : c.stages.drop front.length = bad :: behind := by rw [hstages, List.drop_left]
    refine ⟨front.length, bad, ?_, hbad, ?_, ?_⟩
    · rw [← List.head?_drop, hdrop, List.head?_cons]
    · rwa [htake]
    · rw [htake, hdrop, setup, hstages, setupStages_refused hfront hbad]
      rfl

/-- A worn stage alone, and before one with a negative rate and another bad one. -/
theorem setup_stops_at_bad_rate_second :
    let s : Stage Float := .ofTube .ecc83
    let worn : Stage Float := { s with point := { s.point with vg := 5, armed := false } }
    let c : Cascade Float := ⟨[worn], [], 4⟩
    let d : Cascade Float := ⟨[worn, s.setRate (-1), s.setRate 0], [], 4⟩
    (∀ t ∈ c.stages, t.rate.isFinite = true ∧ 0 < t.rate) ∧
      c.setup = (none, ⟨[worn.rested], [], 4⟩) ∧
      (¬∀ t ∈ d.stages, t.rate.isFinite = true ∧ 0 < t.rate) ∧
      d.setup =
        (some (.badRate (-1)), ⟨[worn.rested, s.setRate (-1), s.setRate 0], [], 4⟩) := by
  intro s worn c d
  have hworn : worn.rate.isFinite = true ∧ 0 < worn.rate := by decide +kernel
  have hbelow : ¬((s.setRate (-1)).rate.isFinite = true ∧ 0 < (s.setRate (-1)).rate) := by
    decide +kernel
  have hc : ∀ t ∈ c.stages, t.rate.isFinite = true ∧ 0 < t.rate := List.forall_mem_singleton.mpr hworn
  have hd : ¬∀ t ∈ d.stages, t.rate.isFinite = true ∧ 0 < t.rate :=
    fun hall => hbelow (hall _ (List.mem_cons_of_mem _ List.mem_cons_self))
  obtain ⟨-, hgood, -⟩ := setup_stops_at_bad_rate c
  obtain ⟨-, -, hstops⟩ := setup_stops_at_bad_rate d
  obtain ⟨k, bad, hk, hbad, hbefore, hsetup⟩ := hstops hd
  refine ⟨hc, hgood hc, hd, ?_⟩
  match k, hk, hbefore, hsetup with
  | 0, hk, _, _ =>
    obtain rfl : worn = bad := Option.some.inj hk
    exact absurd hworn hbad
  | 1, hk, _, hsetup =>
    obtain rfl : s.setRate (-1) = bad := Option.some.inj hk
    exact hsetup
  | _ + 2, _, hbefore, _ =>
    exact absurd (hbefore _ (List.mem_cons_of_mem _ List.mem_cons_self)) hbelow

end TubePreamp.Cascade

/-!
Where the stages of a cascade stand once it has been built. Each push places the last stage and the
new one, so that a stage in between is placed twice: once when it comes, once when it is followed.
-/

namespace TubePreamp

def Placement.row : Nat → List Placement
  | 0 => []
  | 1 => [.single]
  | n + 2 => ⟨true, false⟩ :: List.replicate n ⟨true, true⟩ ++ [⟨false, true⟩]

namespace Stage

variable {T : Type}

theorem placedAt_eq_setPlacement {n i : Nat} (hn : 1 < n) (hi : i < n) (s : Stage T) :
    s.placedAt n i = s.setPlacement
      ⟨s.placement.drives || decide (i + 1 < n), s.placement.driven || decide (0 < i)⟩ := by
  by_cases hfirst : 0 < i
  · by_cases hlast : i + 1 < n
    · simp [placedAt, setDriven, setDrives, setPlacement, hfirst, hlast]
    · simp [placedAt, setDriven, setPlacement, hfirst, hlast]
  · have hlast : i + 1 < n := by omega
    simp [placedAt, setDrives, setPlacement, hfirst, hlast]

theorem placedAt_counts {n i : Nat} (hi : i < n) (s : Stage T) (hn : 1 < n) :
    (s.placedAt n i).inputCount = (if (s.placedAt n i).placement.driven then 2 else 1) ∧
      (s.placedAt n i).outputCount = (if (s.placedAt n i).placement.drives then 2 else 1) := by
  rw [placedAt_eq_setPlacement hn hi]
  exact ⟨rfl, rfl⟩

theorem placedAt_only (s : Stage T) : s.placedAt 1 0 = s := rfl

theorem placedAt_frame (n i : Nat) (s : Stage T) :
    s.placedAt n i =
      { s with
        placement := (s.placedAt n i).placement
        inputCount := (s.placedAt n i).inputCount
        outputCount := (s.placedAt n i).outputCount } := by
  unfold placedAt
  split <;> split <;> rfl

variable [Sample T]

/-- A stage at place `i` of `n` at rest for its rate: no signal, the anode at the supply of its tube
and the cathode at the bias voltage, and the seed still to be taken. -/
def standing (n i : Nat) (rate : Float) (tube : Tube) : Stage T where
  circuit := .ofTube tube
  point :=
    { vkNow := Sample.ofDouble tube.datasheet.vk, vk := Sample.ofDouble tube.datasheet.vk
      vg := 0, va := Sample.ofDouble tube.datasheet.vb, vo := 0, vi := 0
      vgk := 0 - Sample.ofDouble tube.datasheet.vk, vak := Sample.ofDouble tube.datasheet.vb
      ig := 0, ia := 0, period := Sample.ofDouble (1 / rate), armed := true }
  placement := ⟨decide (i + 1 < n), decide (0 < i)⟩
  inputCount := if 0 < i then 2 else 1
  outputCount := if i + 1 < n then 2 else 1
  rate := rate
  inputDelay := 1
  outputDelay := 1

theorem standing_eq (n i : Nat) (rate : Float) (tube : Tube) :
    (((Stage.ofTube tube : Stage T).placedAt n i).setRate rate).rested =
      standing n i rate tube := by
  have hvk : (Circuit.ofTube tube : Circuit T).vk = Sample.ofDouble tube.datasheet.vk :=
    Circuit.rebias_vk _
  have hvb : (Circuit.ofTube tube : Circuit T).vb = Sample.ofDouble tube.datasheet.vb :=
    Circuit.rebias_vb _
  by_cases hfirst : 0 < i <;> by_cases hlast : i + 1 < n <;>
    simp [placedAt, standing, rested, setRate, setDriven, setDrives, setPlacement, ofTube, ofCircuit,
      OperatingPoint.reset, OperatingPoint.atRest, samplePeriod, Placement.single,
      Placement.inputCount, Placement.outputCount, hfirst, hlast, hvk, hvb]

end Stage

namespace Cascade

variable {T : Type}

theorem Row.placements_behind {s : Stage T} {rest : List (Stage T)} (h : Row true (s :: rest)) :
    (s :: rest).map Stage.placement =
      List.replicate rest.length ⟨true, true⟩ ++ [⟨false, true⟩] := by
  induction rest generalizing s with
  | nil => simp [h.1]
  | cons t rest ih =>
    have hs : s.placement = ⟨true, true⟩ := h.1
    rw [List.map_cons, ih h.2, hs, List.length_cons, List.replicate_succ, List.cons_append]

theorem Row.placements {stages : List (Stage T)} (h : Row false stages) :
    stages.map Stage.placement = Placement.row stages.length := by
  match stages, h with
  | [], _ => rfl
  | [s], h => simp [h.1, Placement.row, Placement.single]
  | s :: t :: rest, h =>
    have hs : s.placement = ⟨true, false⟩ := h.1
    rw [List.map_cons, h.2.placements_behind, hs]
    rfl

variable [Sample T]

theorem ofTubes_refused {tubes : List Tube} (hne : tubes ≠ []) {rate : Float}
    (hrate : ¬usableRate rate = true) :
    (ofTubes tubes rate : Except Fault (Cascade T)) = .error (.badRate rate) := by
  obtain ⟨tube, rest, rfl⟩ := List.exists_cons_of_ne_nil hne
  have hfirst : ∃ s behind,
      ((ofStages ((tube :: rest).map Stage.ofTube) : Cascade T).setRate rate).stages =
        Stage.setRate s rate :: behind := by
    rw [setRate, ofStages_stages, List.map_cons, chained, List.mapIdx_cons, List.map_cons]
    exact ⟨_, _, rfl⟩
  obtain ⟨s, behind, hstages⟩ := hfirst
  have hrefused : (s.setRate rate).setup = .error (.badRate rate) := Stage.setup_refused hrate
  rw [ofTubes, if_neg hne, setup, hstages, setupStages, hrefused]

theorem ofTubes_standing {tubes : List Tube} (hne : tubes ≠ []) {rate : Float}
    (hrate : usableRate rate = true) :
    ∃ c : Cascade T, ofTubes tubes rate = .ok c ∧
      c.stages = tubes.mapIdx (fun i tube => .standing tubes.length i rate tube) ∧
      c.stages.map Stage.placement = Placement.row tubes.length := by
  obtain ⟨c, hbuilt, -, hstages⟩ := ofTubes_usable (T := T) hne hrate
  have hstanding : c.stages = tubes.mapIdx fun i tube => .standing tubes.length i rate tube := by
    apply List.ext_getElem
    · simp [hstages]
    · intro i _ _
      simp only [hstages, chained, List.getElem_map, List.getElem_mapIdx, List.length_map,
        Stage.standing_eq]
  refine ⟨c, hbuilt, hstanding, ?_⟩
  have hrow : Row false c.stages := by
    rw [row_iff_positions, hstanding]
    intro i hi
    simp [Stage.standing]
  rw [hrow.placements, hstanding, List.length_mapIdx]

theorem foldl_push_getElem? {c : Cascade T} (hc : c.stages = []) {stages : List (Stage T)} {i : Nat}
    {s : Stage T} (hs : stages[i]? = some s) :
    (stages.foldl push c).stages[i]? = some (s.placedAt stages.length i) := by
  have hempty : c.stages = chained [] := hc
  have hstages : (stages.foldl push c).stages = chained stages := foldl_push_stages hempty stages
  rw [hstages, chained, List.getElem?_mapIdx, hs, Option.map_some]

/-- A stage pushed at place `i` of several is driven if it is not the first and drives if it is not
the last, and both if it did before; nothing else of it changes. A cascade of tubes is refused for
its emptiness before its rate, and otherwise stands in one row, every stage at rest and not seeded
yet. -/
theorem pushed_stages_stand_in_row :
    (∀ (c : Cascade T) (stages : List (Stage T)), c.stages = [] →
      (stages.foldl push c).stages.length = stages.length ∧
        ∀ i s, stages[i]? = some s → ∃ t, (stages.foldl push c).stages[i]? = some t ∧
          (t.placement.driven = true ↔ 0 < i ∨ s.placement.driven = true) ∧
          (t.placement.drives = true ↔ i + 1 < stages.length ∨ s.placement.drives = true) ∧
          t = { s with
            placement := t.placement
            inputCount := t.inputCount
            outputCount := t.outputCount } ∧
          (stages.length = 1 → t = s) ∧
          (1 < stages.length → t.inputCount = (if t.placement.driven then 2 else 1) ∧
            t.outputCount = (if t.placement.drives then 2 else 1))) ∧
      ∀ (tubes : List Tube) (rate : Float),
        ((ofTubes tubes rate : Except Fault (Cascade T)) = .error .emptyCascade ↔ tubes = []) ∧
        (∀ r, (ofTubes tubes rate : Except Fault (Cascade T)) = .error (.badRate r) ↔
          tubes ≠ [] ∧ ¬(rate.isFinite = true ∧ 0 < rate) ∧ r = rate) ∧
        (tubes ≠ [] → rate.isFinite = true → 0 < rate →
          ∃ c : Cascade T, ofTubes tubes rate = .ok c ∧
            c.stages = tubes.mapIdx (fun i tube => .standing tubes.length i rate tube) ∧
            c.stages.map Stage.placement = Placement.row tubes.length ∧
            ∀ s ∈ c.stages, s.point.armed = true) := by
  constructor
  · intro c stages hc
    have hempty : c.stages = chained [] := hc
    have hstages : (stages.foldl push c).stages = chained stages := foldl_push_stages hempty stages
    refine ⟨hstages ▸ chained_length stages, ?_⟩
    intro i s hs
    have hi : i < stages.length := (List.getElem?_eq_some_iff.mp hs).1
    refine ⟨s.placedAt stages.length i, foldl_push_getElem? hc hs, ?_, ?_, s.placedAt_frame _ _,
      ?_, s.placedAt_counts hi⟩
    · rw [Stage.placedAt_placement, Bool.or_eq_true, decide_eq_true_iff, or_comm]
    · rw [Stage.placedAt_placement, Bool.or_eq_true, decide_eq_true_iff, or_comm]
    · intro hone
      obtain rfl : i = 0 := by omega
      rw [hone, Stage.placedAt_only]
  · intro tubes rate
    by_cases hne : tubes = []
    · subst hne
      have hempty : (ofTubes [] rate : Except Fault (Cascade T)) = .error .emptyCascade := rfl
      simp [hempty]
    · by_cases hrate : usableRate rate = true
      · obtain ⟨c, hbuilt, hstanding, hrow⟩ := ofTubes_standing (T := T) hne hrate
        have hgood := (usableRate_iff rate).mp hrate
        rw [hbuilt]
        refine ⟨by simp [hne], by simp [hgood], ?_⟩
        intro _ _ _
        refine ⟨c, rfl, hstanding, hrow, ?_⟩
        intro s hs
        rw [hstanding] at hs
        obtain ⟨i, hi, rfl⟩ := List.mem_mapIdx.mp hs
        rfl
      · have hrefused := ofTubes_refused (T := T) hne hrate
        have hbad : ¬(rate.isFinite = true ∧ 0 < rate) := by rwa [← usableRate_iff]
        rw [hrefused]
        refine ⟨by simp [hne], ?_, ?_⟩
        · intro r
          simp only [Except.error.injEq, Fault.badRate.injEq]
          exact ⟨fun h => ⟨hne, hbad, h.symm⟩, fun h => h.2.2.symm⟩
        · intro _ hfinite hpos
          exact absurd ⟨hfinite, hpos⟩ hbad

/-- Stages in three different placements, and a cascade of tubes at a good and at a bad rate. -/
theorem pushed_stages_stand_in_row_mixed :
    let first : Stage Float := (Stage.ofTube .ecc83).setDriven true
    let last : Stage Float := (Stage.ofTube .ecc82).setDrives true
    let c : Cascade Float := empty.setBlockSize 3
    let tubes : List Tube := [.ecc83, .ecc82, .ecc83]
    c.stages = [] ∧
      (∃ t, ([first, .ofTube .ecc83, last].foldl push c).stages[0]? = some t ∧
        t.placement.driven = true ∧ t.placement.drives = true ∧ t.rate = first.rate) ∧
      (∃ t, ([first, .ofTube .ecc83, last].foldl push c).stages[2]? = some t ∧
        t.placement.driven = true ∧ t.placement.drives = true ∧ t.point = last.point) ∧
      tubes ≠ [] ∧ (44100 : Float).isFinite = true ∧ (0 : Float) < 44100 ∧
      (∃ d : Cascade Float, ofTubes tubes 44100 = .ok d ∧
        d.stages.map Stage.placement = [⟨true, false⟩, ⟨true, true⟩, ⟨false, true⟩]) ∧
      (ofTubes tubes 0 : Except Fault (Cascade Float)) = .error (.badRate 0) := by
  intro first last c tubes
  have hne : tubes ≠ [] := by decide
  have hfinite : (44100 : Float).isFinite = true := by decide +kernel
  have hpos : (0 : Float) < 44100 := by decide +kernel
  obtain ⟨hpushed, htubes⟩ := pushed_stages_stand_in_row (T := Float)
  obtain ⟨-, hplaces⟩ := hpushed c [first, .ofTube .ecc83, last] rfl
  obtain ⟨t, ht, hdriven, hdrives, hframe, -, -⟩ := hplaces 0 first rfl
  obtain ⟨u, hu, hdriven', hdrives', hframe', -, -⟩ := hplaces 2 last rfl
  obtain ⟨-, -, hbuilt⟩ := htubes tubes 44100
  obtain ⟨d, hd, -, hrow, -⟩ := hbuilt hne hfinite hpos
  have hzero : ¬((0 : Float).isFinite = true ∧ (0 : Float) < 0) := by decide +kernel
  refine ⟨rfl, ⟨t, ht, hdriven.mpr (Or.inr rfl), hdrives.mpr (Or.inl (by decide)), ?_⟩,
    ⟨u, hu, hdriven'.mpr (Or.inl (by decide)), hdrives'.mpr (Or.inr rfl), ?_⟩,
    hne, hfinite, hpos, ⟨d, hd, hrow⟩, ((htubes tubes 0).2.1 0).mpr ⟨hne, hzero, rfl⟩⟩
  · rw [hframe]
  · rw [hframe']

end Cascade

end TubePreamp
