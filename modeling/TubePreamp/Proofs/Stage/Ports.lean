import TubePreamp.Proofs.Stage.Seeding

/-!
How much of its ports a call uses. If a port that the stage needs is missing, nothing happens. If
all are there, as many samples are processed as are asked for and every port in use holds, and the
call does what it would do with these ports cut to that length. No other sample is read or written,
except that a driven stage takes its seed before it knows whether there is anything to process.
-/

namespace TubePreamp

variable {T : Type}

def fronts (n : Nat) (ports : List (List T)) : List (List T) := ports.map (List.take n)

def rests (n : Nat) (ports : List (List T)) : List (List T) := ports.map (List.drop n)

theorem le_foldl_min {lengths : List Nat} {m n : Nat} :
    m ≤ lengths.foldl min n ↔ m ≤ n ∧ ∀ length ∈ lengths, m ≤ length := by
  induction lengths generalizing n with
  | nil => simp
  | cons length rest ih => simp only [List.foldl_cons, List.forall_mem_cons, ih, Nat.le_min, and_assoc]

namespace Placement

structure Wired (p : Placement) (inputs outputs : List (List T)) : Prop where
  inputs : p.inputCount ≤ inputs.length
  outputs : p.outputCount ≤ outputs.length

instance (p : Placement) (inputs outputs : List (List T)) : Decidable (p.Wired inputs outputs) :=
  decidable_of_iff (p.inputCount ≤ inputs.length ∧ p.outputCount ≤ outputs.length)
    ⟨fun h => ⟨h.1, h.2⟩, fun h => ⟨h.inputs, h.outputs⟩⟩

def inUse (p : Placement) (inputs outputs : List (List T)) : List (List T) :=
  inputs.take p.inputCount ++ outputs.take p.outputCount

def span (p : Placement) (inputs outputs : List (List T)) (size : Nat) : Nat :=
  ((p.inUse inputs outputs).map List.length).foldl min size

theorem le_span_iff {p : Placement} {inputs outputs : List (List T)} {m size : Nat} :
    m ≤ p.span inputs outputs size ↔
      m ≤ size ∧ ∀ port ∈ p.inUse inputs outputs, m ≤ port.length := by
  rw [span, le_foldl_min, List.forall_mem_map]

theorem length_fronts_span (p : Placement) (inputs outputs : List (List T)) (size : Nat) :
    ∀ port ∈ fronts (p.span inputs outputs size) (outputs.take p.outputCount),
      port.length = p.span inputs outputs size := by
  intro port hport
  obtain ⟨whole, hwhole, rfl⟩ := List.mem_map.mp hport
  have hspan := (le_span_iff.mp (Nat.le_refl (p.span inputs outputs size))).2 whole
    (List.mem_append_right _ hwhole)
  exact List.length_take_of_le hspan

end Placement

namespace Stage

theorem feed?_eq_none_iff (s : Stage T) (inputs : List (List T)) :
    s.feed? inputs = none ↔ inputs.length < s.placement.inputCount := by
  unfold feed? Placement.inputCount
  cases s.placement.driven with
  | false => cases inputs <;> simp
  | true => rcases inputs with _ | ⟨va, _ | ⟨ri, rest⟩⟩ <;> simp

theorem room?_eq_none_iff (s : Stage T) (outputs : List (List T)) :
    s.room? outputs = none ↔ outputs.length < s.placement.outputCount := by
  unfold room? Placement.outputCount
  cases s.placement.drives with
  | false => cases outputs <;> simp
  | true => rcases outputs with _ | ⟨va, _ | ⟨ri, rest⟩⟩ <;> simp

theorem wired_feed_room {s : Stage T} {inputs outputs : List (List T)}
    (h : s.placement.Wired inputs outputs) :
    ∃ feed room, s.feed? inputs = some feed ∧ s.room? outputs = some room := by
  have hfeed : s.feed? inputs ≠ none := by
    rw [Ne, feed?_eq_none_iff]
    exact Nat.not_lt.mpr h.inputs
  have hroom : s.room? outputs ≠ none := by
    rw [Ne, room?_eq_none_iff]
    exact Nat.not_lt.mpr h.outputs
  obtain ⟨feed, hfeed⟩ := Option.ne_none_iff_exists'.mp hfeed
  obtain ⟨room, hroom⟩ := Option.ne_none_iff_exists'.mp hroom
  exact ⟨feed, room, hfeed, hroom⟩

theorem feed?_in_use (s : Stage T) (inputs : List (List T)) :
    s.feed? (inputs.take s.placement.inputCount) = s.feed? inputs := by
  unfold feed? Placement.inputCount
  cases s.placement.driven with
  | false => cases inputs <;> simp
  | true => rcases inputs with _ | ⟨va, _ | ⟨ri, rest⟩⟩ <;> simp

theorem feed?_fronts (s : Stage T) (n : Nat) (inputs : List (List T)) :
    s.feed? (fronts n inputs) = (s.feed? inputs).map (List.take n) := by
  unfold feed? fronts
  cases s.placement.driven with
  | false => cases inputs <;> simp [List.map_take]
  | true =>
    rcases inputs with _ | ⟨va, _ | ⟨ri, rest⟩⟩
    · rfl
    · rfl
    · simp [List.zip, List.take_zipWith]

theorem foldl_min_inputs {s : Stage T} {inputs : List (List T)} {feed : List (T × T)}
    (hfeed : s.feed? inputs = some feed) (n : Nat) :
    ((inputs.take s.placement.inputCount).map List.length).foldl min n = min n feed.length := by
  unfold feed? at hfeed
  unfold Placement.inputCount
  split at hfeed
  · next vi rest hdriven =>
    cases hfeed
    simp [hdriven]
  · next va ri rest hdriven =>
    cases hfeed
    simp [hdriven, Nat.min_assoc]
  · cases hfeed

theorem foldl_min_outputs {s : Stage T} {outputs : List (List T)} {room : Nat}
    (hroom : s.room? outputs = some room) (n : Nat) :
    ((outputs.take s.placement.outputCount).map List.length).foldl min n = min n room := by
  unfold room? at hroom
  unfold Placement.outputCount
  split at hroom
  · next vo rest hdrives =>
    cases hroom
    simp [hdrives]
  · next va ri rest hdrives =>
    cases hroom
    simp [hdrives, Nat.min_assoc]
  · cases hroom

theorem span_eq {s : Stage T} {inputs outputs : List (List T)} {feed : List (T × T)} {room : Nat}
    (hfeed : s.feed? inputs = some feed) (hroom : s.room? outputs = some room) (size : Nat) :
    s.placement.span inputs outputs size = min (min size feed.length) room := by
  rw [Placement.span, Placement.inUse, List.map_append, List.foldl_append,
    foldl_min_inputs hfeed, foldl_min_outputs hroom]

variable [Sample T]

/-! What is written where -/

theorem store_fronts {s : Stage T} {outputs : List (List T)}
    (hports : s.placement.outputCount ≤ outputs.length) (results : List (Output T)) :
    fronts results.length ((s.store results outputs).take s.placement.outputCount) =
      s.written results := by
  unfold Placement.outputCount at hports ⊢
  unfold store written fronts
  cases hdrives : s.placement.drives with
  | false =>
    rw [hdrives] at hports
    obtain ⟨vo, rest, rfl⟩ := List.exists_cons_of_length_pos hports
    have hvo := take_overlay (results.map Output.vo) vo
    rw [List.length_map] at hvo
    simp [hvo]
  | true =>
    rw [hdrives] at hports
    obtain ⟨va, ri, rest, rfl⟩ := two_ports hports
    have hva := take_overlay (results.map Output.va) va
    have hri := take_overlay (results.map Output.ri) ri
    rw [List.length_map] at hva hri
    simp [hva, hri]

theorem store_rests (s : Stage T) (results : List (Output T)) (outputs : List (List T)) :
    rests results.length (s.store results outputs) = rests results.length outputs := by
  unfold store rests
  split
  · next vo rest _ =>
    have hvo := drop_overlay (results.map Output.vo) vo
    rw [List.length_map] at hvo
    rw [List.map_cons, List.map_cons, hvo]
  · next va ri rest _ =>
    have hva := drop_overlay (results.map Output.va) va
    have hri := drop_overlay (results.map Output.ri) ri
    rw [List.length_map] at hva hri
    simp only [List.map_cons, hva, hri]
  · rfl

theorem store_extra (s : Stage T) (results : List (Output T)) (outputs : List (List T)) :
    (s.store results outputs).drop s.placement.outputCount =
      outputs.drop s.placement.outputCount := by
  unfold store Placement.outputCount
  cases s.placement.drives with
  | false => cases outputs <;> rfl
  | true => rcases outputs with _ | ⟨va, _ | ⟨ri, rest⟩⟩ <;> rfl

/-! What a call comes to -/

theorem process_unwired {s : Stage T} {inputs outputs : List (List T)}
    (h : ¬s.placement.Wired inputs outputs) (size : Nat) :
    s.process inputs outputs size = (outputs, s) := by
  unfold process
  split
  · rfl
  · split
    · next feed room hfeed hroom =>
      exfalso
      apply h
      constructor
      · apply Nat.not_lt.mp
        rw [← feed?_eq_none_iff, hfeed]
        exact Option.some_ne_none feed
      · apply Nat.not_lt.mp
        rw [← room?_eq_none_iff, hroom]
        exact Option.some_ne_none room
    · rfl

/-- A call renders the samples that it spans. If it spans none it still takes its seed. -/
theorem process_eq_span {s : Stage T} {inputs outputs : List (List T)} {feed : List (T × T)}
    {room size : Nat} (hfeed : s.feed? inputs = some feed) (hroom : s.room? outputs = some room)
    (hsize : size ≠ 0) :
    let k := s.placement.span inputs outputs size
    s.process inputs outputs size =
      (s.store (s.render (feed.take k)).1 outputs,
        if k = 0 then s.seeded inputs else (s.render (feed.take k)).2) := by
  intro k
  have hk : k = min (min size feed.length) room := span_eq hfeed hroom size
  have htake : feed.take (min size room) = feed.take k := by
    rw [hk, ← List.take_length (l := feed), List.take_take, List.take_take, List.take_length]
    congr 1
    omega
  by_cases hnone : k = 0
  · have hempty : feed.take (min size room) = [] := by rw [htake, hnone, List.take_zero]
    rw [if_pos hnone, hnone, List.take_zero, render_nil]
    simp only [process, if_neg hsize, hfeed, hroom, hempty, OperatingPoint.run_nil, seeded_store]
  · have hpos : 0 < min size room := by omega
    have hne : feed ≠ [] := by
      intro hnil
      rw [hnil, List.length_nil] at hk
      omega
    rw [process_eq_render hfeed hroom hpos hne, htake, if_neg hnone]

/-- What a call reads of its ports, what it writes and what it leaves, all of one length. -/
theorem process_wired {s : Stage T} {inputs outputs : List (List T)}
    (hw : s.placement.Wired inputs outputs) {size : Nat} (hsize : size ≠ 0) :
    let k := s.placement.span inputs outputs size
    let r := s.process inputs outputs size
    ∃ feed, s.feed? (fronts k (inputs.take s.placement.inputCount)) = some feed ∧
      feed.length = k ∧
      fronts k (r.1.take s.placement.outputCount) = s.written (s.render feed).1 ∧
      rests k r.1 = rests k outputs ∧
      r.1.drop s.placement.outputCount = outputs.drop s.placement.outputCount ∧
      r.2 = if k = 0 then s.seeded inputs else (s.render feed).2 := by
  intro k r
  obtain ⟨feed, room, hfeed, hroom⟩ := wired_feed_room hw
  have hk : k = min (min size feed.length) room := span_eq hfeed hroom size
  have hr : r = _ := process_eq_span hfeed hroom hsize
  have hlen : (feed.take k).length = k := by
    rw [List.length_take]
    omega
  have hfront := store_fronts hw.outputs (s.render (feed.take k)).1
  have hrest := s.store_rests (s.render (feed.take k)).1 outputs
  rw [render_length, hlen] at hfront hrest
  refine ⟨feed.take k, ?_, hlen, ?_, ?_, ?_, ?_⟩
  · rw [feed?_fronts, feed?_in_use, hfeed, Option.map_some]
  · rw [hr]
    exact hfront
  · rw [hr]
    exact hrest
  · rw [hr]
    exact s.store_extra _ outputs
  · rw [hr]

theorem process_cut {s : Stage T} {inputs outputs : List (List T)}
    (hw : s.placement.Wired inputs outputs) (size : Nat) {feed : List (T × T)}
    (hfeed : s.feed? (fronts (s.placement.span inputs outputs size)
      (inputs.take s.placement.inputCount)) = some feed)
    (hlen : feed.length = s.placement.span inputs outputs size) :
    let k := s.placement.span inputs outputs size
    s.process (fronts k (inputs.take s.placement.inputCount))
      (fronts k (outputs.take s.placement.outputCount)) k =
        (s.written (s.render feed).1, (s.render feed).2) := by
  intro k
  apply process_full hfeed hlen
  · rw [fronts, List.length_map, List.length_take]
    have hports := hw.outputs
    omega
  · exact s.placement.length_fronts_span inputs outputs size

/-- What a call does with ports of any number and lengths. Without samples to process or with a port
missing, nothing. Otherwise it processes as many samples as are asked for and every port in use
holds, as if these ports ended there; the rest of each buffer, the extra buffers and all of the stage
but its voltages and currents stay as they are. Nothing else that the buffers hold makes a
difference, except that a call that spans no sample lets a driven stage that is armed take its seed
from the anode voltage, if that port holds any. -/
theorem process_confined_to_span (s : Stage T) (inputs outputs : List (List T)) (size : Nat) :
    let r := s.process inputs outputs size
    (size = 0 ∨ ¬s.placement.Wired inputs outputs → r = (outputs, s)) ∧
      (size ≠ 0 → s.placement.Wired inputs outputs →
        let k := s.placement.span inputs outputs size
        let ins := s.placement.inputCount
        let outs := s.placement.outputCount
        let short := s.process (fronts k (inputs.take ins)) (fronts k (outputs.take outs)) k
        fronts k (r.1.take outs) = short.1 ∧ rests k r.1 = rests k outputs ∧
          r.1.drop outs = outputs.drop outs ∧
          r.2 = { s with point := { r.2.point with period := s.point.period } } ∧
          (k ≠ 0 → r.2 = short.2) ∧
          (k = 0 → r.2 =
            match s.placement.driven, s.point.armed, inputs.headD [] with
            | true, true, first :: _ => { s with point := { s.point with vi := first, armed := false } }
            | _, _, _ => s) ∧
          ∀ inputs' outputs' size', size' ≠ 0 → s.placement.Wired inputs' outputs' →
            s.placement.span inputs' outputs' size' = k →
            fronts k (inputs'.take ins) = fronts k (inputs.take ins) →
              let r' := s.process inputs' outputs' size'
              fronts k (r'.1.take outs) = fronts k (r.1.take outs) ∧ (k ≠ 0 → r'.2 = r.2)) := by
  intro r
  constructor
  · rintro (hsize | hmissing)
    · simp only [r, process, if_pos hsize]
    · exact process_unwired hmissing size
  · intro hsize hw k ins outs short
    -- the call and the one on the cut ports render the same feed
    obtain ⟨feed, hfeed, hlen, hfront, hrest, hextra, hstage⟩ := process_wired hw hsize
    have hshort : short = (s.written (s.render feed).1, (s.render feed).2) :=
      process_cut hw size hfeed hlen
    have hperiod : r.2.point.period = s.point.period :=
      process_keeps (P := fun p => p.period = s.point.period) (fun _ _ _ _ _ hp => hp)
        (fun _ _ hp => hp) rfl inputs outputs size
    refine ⟨?_, hrest, hextra, ?_, ?_, ?_, ?_⟩
    · rw [hshort]
      exact hfront
    · rw [← hperiod]
      exact s.process_frame inputs outputs size
    · intro hsome
      rw [hshort]
      exact hstage.trans (if_neg hsome)
    · intro hnone
      refine (hstage.trans (if_pos hnone)).trans ?_
      unfold seeded OperatingPoint.seed
      cases s.placement.driven <;> cases s.point.armed <;> cases inputs.headD [] <;> rfl
    · intro inputs' outputs' size' hsize' hw' hspan hsame r'
      -- so does any other call whose inputs are the same when cut
      obtain ⟨feed', hfeed', -, hfront', -, -, hstage'⟩ := process_wired hw' hsize'
      rw [hspan, hsame, hfeed] at hfeed'
      obtain rfl : feed = feed' := Option.some.inj hfeed'
      rw [hspan] at hfront' hstage'
      refine ⟨hfront'.trans hfront.symm, ?_⟩
      intro hsome
      rw [if_neg hsome] at hstage hstage'
      exact hstage'.trans hstage.symm

/-- Ports of different lengths, a port that is empty, and a port that is missing. -/
theorem process_confined_to_span_uneven :
    let s : Stage Float := (ofTube .ecc83).setDriven true
    let r := s.process [[201, 202, 203], [3e4, 3e4], [7]] [[0, 0, 0, 0], [5, 6, 7]] 9
    let short := s.process [[201, 202], [3e4, 3e4]] [[0, 0]] 2
    fronts 2 (r.1.take 1) = short.1 ∧ rests 2 r.1 = [[0, 0], [7]] ∧ r.1.drop 1 = [[5, 6, 7]] ∧
      r.2 = short.2 ∧
      (s.process [[201], []] [[0]] 4).2 =
        { s with point := { s.point with vi := 201, armed := false } } ∧
      s.process [[201]] [[0]] 4 = ([[0]], s) := by
  intro s
  have hwired : s.placement.Wired [[201, 202, 203], [3e4, 3e4], [7]] [[0, 0, 0, 0], [5, 6, 7]] := by
    decide
  have hempty : s.placement.Wired [[(201 : Float)], []] [[0]] := by decide
  have hmissing : ¬s.placement.Wired [[(201 : Float)]] [[0]] := by decide
  obtain ⟨hfront, hrest, hextra, -, hstage, -, -⟩ :=
    (process_confined_to_span s [[201, 202, 203], [3e4, 3e4], [7]] [[0, 0, 0, 0], [5, 6, 7]] 9).2
      (by decide) hwired
  obtain ⟨-, -, -, -, -, hseed, -⟩ :=
    (process_confined_to_span s [[201], []] [[0]] 4).2 (by decide) hempty
  have hnothing := (process_confined_to_span s [[201]] [[0]] 4).1 (.inr hmissing)
  exact ⟨hfront, hrest, hextra, hstage (by decide), hseed rfl, hnothing⟩

end Stage

end TubePreamp
