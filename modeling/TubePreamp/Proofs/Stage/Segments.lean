import Mathlib.Algebra.GroupWithZero.Nat
import TubePreamp.Proofs.Stage.Ports

/-!
A stage that processes its ports piece by piece. Wherever they are cut, the buffers put together
again and the stage are those of one call on the whole, in every placement and with or without a
seed still to be taken.
-/

namespace TubePreamp

variable {T : Type}

theorem fronts_append_rests (n : Nat) (ports : List (List T)) :
    List.zipWith (· ++ ·) (fronts n ports) (rests n ports) = ports := by
  induction ports with
  | nil => rfl
  | cons port rest ih =>
    rw [fronts, rests, List.map_cons, List.map_cons, List.zipWith_cons_cons,
      List.take_append_drop]
    exact congrArg _ ih

theorem rests_zero (ports : List (List T)) : rests 0 ports = ports := List.map_id' ports

theorem fronts_zero (ports : List (List T)) : fronts 0 ports = List.replicate ports.length [] :=
  List.map_const'

theorem fronts_zero_append {ports others : List (List T)}
    (hlen : others.map List.length = ports.map List.length) :
    List.zipWith (· ++ ·) (fronts 0 ports) others = others := by
  have hcount := congrArg List.length hlen
  rw [List.length_map, List.length_map] at hcount
  have hwhole := fronts_append_rests 0 others
  rwa [rests_zero, fronts_zero, hcount, ← fronts_zero] at hwhole

theorem headD_map_nil {f : List T → List T} (hf : f [] = []) (ports : List (List T)) :
    (ports.map f).headD [] = f (ports.headD []) := by
  cases ports with
  | nil => exact hf.symm
  | cons port rest => rfl

theorem overlay_append (a b old : List T) :
    overlay (a ++ b) old = overlay a (old.take a.length) ++ overlay b (old.drop a.length) := by
  have hfull : (old.take a.length).drop a.length = [] :=
    List.drop_eq_nil_of_le (List.length_take_le _ _)
  rw [overlay, overlay, overlay, hfull, List.append_nil, List.drop_drop, List.length_append,
    List.append_assoc]

theorem overlay_within {new old : List T} {n : Nat} (hn : new.length ≤ n)
    (hold : new.length ≤ old.length) :
    overlay new old = overlay new (old.take n) ++ old.drop n := by
  have hfront : new.length ≤ (old.take n).length := by
    rw [List.length_take]
    omega
  have hrest : old.drop new.length = (old.take n).drop new.length ++ old.drop n := by
    rw [← List.drop_append_of_le_length hfront, List.take_append_drop]
  rw [overlay, overlay, List.append_assoc, ← hrest]

namespace Placement

structure Supplied (p : Placement) (inputs outputs : List (List T)) (size : Nat) : Prop where
  wired : p.Wired inputs outputs
  room : ∀ port ∈ p.inUse inputs outputs, size ≤ port.length

instance (p : Placement) (inputs outputs : List (List T)) (size : Nat) :
    Decidable (p.Supplied inputs outputs size) :=
  decidable_of_iff (p.Wired inputs outputs ∧ ∀ port ∈ p.inUse inputs outputs, size ≤ port.length)
    ⟨fun h => ⟨h.1, h.2⟩, fun h => ⟨h.wired, h.room⟩⟩

variable {p : Placement} {inputs outputs : List (List T)}

theorem wired_map (f g : List T → List T) :
    p.Wired (inputs.map f) (outputs.map g) ↔ p.Wired inputs outputs := by
  constructor
  · rintro ⟨hins, houts⟩
    rw [List.length_map] at hins houts
    exact ⟨hins, houts⟩
  · rintro ⟨hins, houts⟩
    constructor
    · rwa [List.length_map]
    · rwa [List.length_map]

theorem Supplied.of_lengths {size : Nat} {others : List (List T)}
    (h : p.Supplied inputs outputs size)
    (hsame : others.map List.length = inputs.map List.length) :
    p.Supplied others outputs size := by
  have hspan : p.span others outputs size = p.span inputs outputs size := by
    simp only [span, inUse, List.map_append, List.map_take, hsame]
  have hroom : size ≤ p.span others outputs size := by
    rw [hspan]
    exact le_span_iff.mpr ⟨Nat.le_refl size, h.room⟩
  have hcount := congrArg List.length hsame
  rw [List.length_map, List.length_map] at hcount
  constructor
  · constructor
    · rw [hcount]
      exact h.wired.inputs
    · exact h.wired.outputs
  · exact (le_span_iff.mp hroom).2

end Placement

namespace Stage

theorem feed?_rests (s : Stage T) (n : Nat) (inputs : List (List T)) :
    s.feed? (rests n inputs) = (s.feed? inputs).map (List.drop n) := by
  unfold feed? rests
  cases s.placement.driven with
  | false => cases inputs <;> simp [List.map_drop]
  | true =>
    rcases inputs with _ | ⟨va, _ | ⟨ri, rest⟩⟩
    · rfl
    · rfl
    · simp [List.zip, List.drop_zipWith]

theorem room?_fronts (s : Stage T) (n : Nat) (outputs : List (List T)) :
    s.room? (fronts n outputs) = (s.room? outputs).map (min n) := by
  unfold room? fronts
  cases s.placement.drives with
  | false => cases outputs <;> simp
  | true =>
    rcases outputs with _ | ⟨va, _ | ⟨ri, rest⟩⟩
    · rfl
    · rfl
    · simp; omega

theorem room?_rests (s : Stage T) (n : Nat) (outputs : List (List T)) :
    s.room? (rests n outputs) = (s.room? outputs).map (· - n) := by
  unfold room? rests
  cases s.placement.drives with
  | false => cases outputs <;> simp
  | true =>
    rcases outputs with _ | ⟨va, _ | ⟨ri, rest⟩⟩
    · rfl
    · rfl
    · simp; omega

def TakesNoSeed (s : Stage T) (inputs : List (List T)) : Prop :=
  s.placement.driven = true → s.point.armed = true → inputs.headD [] = []

theorem TakesNoSeed.seeded {s : Stage T} {inputs : List (List T)} (h : s.TakesNoSeed inputs) :
    s.seeded inputs = s := by
  unfold Stage.seeded
  split
  · next hdriven =>
    cases harmed : s.point.armed with
    | true => rw [h hdriven harmed, OperatingPoint.seed_nil]
    | false => rw [OperatingPoint.seed_disarmed harmed]
  · rfl

theorem takesNoSeed_seeded (s : Stage T) (inputs : List (List T)) :
    (s.seeded inputs).TakesNoSeed inputs := by
  intro hdriven harmed
  rw [seeded_placement] at hdriven
  by_contra hne
  rw [seeded_armed s hne, hdriven, Bool.not_true, Bool.and_false] at harmed
  cases harmed

theorem TakesNoSeed.map {s : Stage T} {inputs : List (List T)} (h : s.TakesNoSeed inputs)
    {f : List T → List T} (hf : f [] = []) : s.TakesNoSeed (inputs.map f) := by
  intro hdriven harmed
  rw [headD_map_nil hf, h hdriven harmed, hf]

theorem seeded_fronts (s : Stage T) {n : Nat} (hn : n ≠ 0) (inputs : List (List T)) :
    s.seeded (fronts n inputs) = s.seeded inputs := by
  apply s.seeded_eq_of_head
  intro _
  rw [fronts, headD_map_nil List.take_nil, List.head?_take, if_neg hn]

theorem TakesNoSeed.feed {s : Stage T} {inputs : List (List T)} (h : s.TakesNoSeed inputs)
    {feed : List (T × T)} (hfeed : s.feed? inputs = some feed) (n : Nat) :
    s.TakesNoSeed [(feed.take n).map Prod.fst] := by
  intro hdriven harmed
  rw [List.headD_cons]
  by_contra hne
  have hfull : feed ≠ [] := by
    rintro rfl
    rw [List.take_nil] at hne
    exact hne rfl
  have hhead := feed_head hfeed hdriven hfull
  rw [h hdriven harmed] at hhead
  exact hfull (List.map_eq_nil_iff.mp (List.head?_eq_none_iff.mp hhead.symm))

/-! Putting pieces together -/

section Pieces

variable [Sample T]

theorem render_feed? (s : Stage T) (feed : List (T × T)) (inputs : List (List T)) :
    (s.render feed).2.feed? inputs = s.feed? inputs := by
  unfold feed?
  rw [render_placement, render_circuit]

theorem render_store (s : Stage T) (feed : List (T × T)) (results : List (Output T))
    (outputs : List (List T)) :
    (s.render feed).2.store results outputs = s.store results outputs := by
  unfold store
  rw [render_placement]

theorem store_append (s : Stage T) (a b : List (Output T)) (outputs : List (List T)) :
    s.store (a ++ b) outputs =
      List.zipWith (· ++ ·) (s.store a (fronts a.length outputs))
        (s.store b (rests a.length outputs)) := by
  unfold store fronts rests
  cases s.placement.drives with
  | false =>
    rcases outputs with _ | ⟨vo, rest⟩
    · rfl
    · have hrest := fronts_append_rests a.length rest
      have hvo := overlay_append (a.map Output.vo) (b.map Output.vo) vo
      rw [List.length_map] at hvo
      simp only [List.map_cons, List.map_append, List.zipWith_cons_cons, hvo]
      exact congrArg _ hrest.symm
  | true =>
    rcases outputs with _ | ⟨va, _ | ⟨ri, rest⟩⟩
    · rfl
    · exact (fronts_append_rests a.length [va]).symm
    · have hrest := fronts_append_rests a.length rest
      have hva := overlay_append (a.map Output.va) (b.map Output.va) va
      have hri := overlay_append (a.map Output.ri) (b.map Output.ri) ri
      rw [List.length_map] at hva hri
      simp only [List.map_cons, List.map_append, List.zipWith_cons_cons, hva, hri]
      exact congrArg _ (congrArg _ hrest.symm)

/-- Results that end within the front of the ports leave what comes after it. -/
theorem store_within {s : Stage T} {results : List (Output T)} {outputs : List (List T)}
    {room n : Nat} (hroom : s.room? outputs = some room) (hn : results.length ≤ n)
    (hfit : results.length ≤ room) :
    s.store results outputs =
      List.zipWith (· ++ ·) (s.store results (fronts n outputs)) (rests n outputs) := by
  unfold room? at hroom
  unfold store fronts rests
  split at hroom
  · next vo rest hdrives =>
    cases hroom
    have hvo : overlay (results.map Output.vo) vo =
        overlay (results.map Output.vo) (vo.take n) ++ vo.drop n := by
      apply overlay_within <;> rwa [List.length_map]
    simp only [List.map_cons, List.zipWith_cons_cons, hdrives, hvo]
    exact congrArg _ (fronts_append_rests n rest).symm
  · next va ri rest hdrives =>
    cases hroom
    have hva : overlay (results.map Output.va) va =
        overlay (results.map Output.va) (va.take n) ++ va.drop n := by
      apply overlay_within <;> rw [List.length_map] <;> omega
    have hri : overlay (results.map Output.ri) ri =
        overlay (results.map Output.ri) (ri.take n) ++ ri.drop n := by
      apply overlay_within <;> rw [List.length_map] <;> omega
    simp only [List.map_cons, List.zipWith_cons_cons, hdrives, hva, hri]
    exact congrArg _ (congrArg _ (fronts_append_rests n rest).symm)
  · cases hroom

theorem store_parts {s : Stage T} {a b : List (Output T)} {outputs : List (List T)} {room n : Nat}
    (hroom : s.room? outputs = some room) (hfit : a.length ≤ min n room)
    (hfull : a.length = n ∨ b = []) :
    s.store (a ++ b) outputs =
      List.zipWith (· ++ ·) (s.store a (fronts n outputs)) (s.store b (rests n outputs)) := by
  rcases hfull with rfl | rfl
  · exact s.store_append a b outputs
  · rw [List.append_nil, store_nil]
    exact store_within hroom (by omega) (by omega)

end Pieces

/-- What fits into the room is what fits into its front and then into what is left of it. -/
theorem take_room_add (feed : List (T × T)) (n m room : Nat) :
    feed.take (min (n + m) room) =
      feed.take (min n room) ++ (feed.drop n).take (min m (room - n)) := by
  rcases Nat.le_total n room with hroom | hroom
  · have hfront : min n room = n := by omega
    have hwhole : min (n + m) room = n + min m (room - n) := by omega
    rw [hfront, hwhole, List.take_add]
  · have hrest : min m (room - n) = 0 := by omega
    have hwhole : min (n + m) room = min n room := by omega
    rw [hrest, hwhole, List.take_zero, List.append_nil]

theorem take_room_full (feed : List (T × T)) (n m room : Nat) :
    (feed.take (min n room)).length = n ∨ (feed.drop n).take (min m (room - n)) = [] := by
  by_cases hreach : n ≤ room ∧ n ≤ feed.length
  · left
    rw [List.length_take]
    omega
  · right
    rw [List.take_eq_nil_iff, List.drop_eq_nil_iff]
    omega

theorem le_feed_length {s : Stage T} {inputs outputs : List (List T)} {size : Nat}
    (h : s.placement.Supplied inputs outputs size) {feed : List (T × T)}
    (hfeed : s.feed? inputs = some feed) : size ≤ feed.length := by
  obtain ⟨_, room, -, hroom⟩ := wired_feed_room h.wired
  have hspan := Placement.le_span_iff.mpr ⟨Nat.le_refl size, h.room⟩
  rw [span_eq hfeed hroom] at hspan
  omega

variable [Sample T]

/-- A call to a stage that takes no seed renders its samples and does nothing else. -/
theorem process_unseeded {s : Stage T} {inputs outputs : List (List T)}
    (hs : s.TakesNoSeed inputs) {feed : List (T × T)} {room : Nat}
    (hfeed : s.feed? inputs = some feed) (hroom : s.room? outputs = some room) (size : Nat) :
    s.process inputs outputs size =
      (s.store (s.render (feed.take (min size room))).1 outputs,
        (s.render (feed.take (min size room))).2) := by
  by_cases hsize : size = 0
  · rw [hsize, Nat.zero_min, List.take_zero, render_nil, store_nil]
    rfl
  · rw [render_eq, (hs.feed hfeed _).seeded]
    simp only [process, if_neg hsize, hfeed, hroom, hs.seeded]

theorem process_seeded {s : Stage T} {inputs outputs : List (List T)}
    (hw : s.placement.Wired inputs outputs) {size : Nat} (hsize : size ≠ 0) :
    s.process inputs outputs size = (s.seeded inputs).process inputs outputs size := by
  obtain ⟨feed, room, hfeed, hroom⟩ := wired_feed_room hw
  have hfeed' : (s.seeded inputs).feed? inputs = some feed := by
    unfold feed? at hfeed ⊢
    rwa [seeded_placement, seeded_circuit]
  have hroom' : (s.seeded inputs).room? outputs = some room := by
    unfold room? at hroom ⊢
    rwa [seeded_placement]
  have honce := (s.takesNoSeed_seeded inputs).seeded
  simp only [process, if_neg hsize, hfeed, hroom, hfeed', hroom', honce]

theorem TakesNoSeed.rests {s : Stage T} {inputs : List (List T)} (h : s.TakesNoSeed inputs)
    {feed : List (T × T)} (hfeed : s.feed? inputs = some feed) (n k : Nat) :
    (s.render (feed.take k)).2.TakesNoSeed (rests n inputs) := by
  intro hdriven harmed
  rw [render_placement] at hdriven
  rw [render_eq, (h.feed hfeed k).seeded] at harmed
  exact h.map List.drop_nil hdriven ((OperatingPoint.run_armed ..).symm.trans harmed)

theorem process_add_unseeded {s : Stage T} {inputs outputs : List (List T)}
    (hs : s.TakesNoSeed inputs) (hw : s.placement.Wired inputs outputs) (n m : Nat) :
    let first := s.process (fronts n inputs) (fronts n outputs) n
    let later := first.2.process (rests n inputs) (rests n outputs) m
    s.process inputs outputs (n + m) = (List.zipWith (· ++ ·) first.1 later.1, later.2) := by
  obtain ⟨feed, room, hfeed, hroom⟩ := wired_feed_room hw
  have hnone : s.TakesNoSeed (fronts n inputs) := hs.map List.take_nil
  have hfeedFront : s.feed? (fronts n inputs) = some (feed.take n) := by
    rw [feed?_fronts, hfeed, Option.map_some]
  have hroomFront : s.room? (fronts n outputs) = some (min n room) := by
    rw [room?_fronts, hroom, Option.map_some]
  have hfirst := process_unseeded hnone hfeedFront hroomFront n
  have hfront : (feed.take n).take (min n (min n room)) = feed.take (min n room) := by
    rw [List.take_take]
    congr 1
    omega
  rw [hfront] at hfirst
  have hfeedRest : (s.render (feed.take (min n room))).2.feed? (rests n inputs) =
      some (feed.drop n) := by
    rw [render_feed?, feed?_rests, hfeed, Option.map_some]
  have hroomRest : (s.render (feed.take (min n room))).2.room? (rests n outputs) =
      some (room - n) := by
    rw [room?_rests]
    unfold room? at hroom ⊢
    rw [render_placement, hroom, Option.map_some]
  have hlater := process_unseeded (hs.rests hfeed n (min n room)) hfeedRest hroomRest m
  have hwhole := process_unseeded hs hfeed hroom (n + m)
  have hfit : (s.render (feed.take (min n room))).1.length ≤ min n room := by
    rw [render_length]
    exact List.length_take_le _ _
  have hfull : (s.render (feed.take (min n room))).1.length = n ∨
      ((s.render (feed.take (min n room))).2.render
        ((feed.drop n).take (min m (room - n)))).1 = [] := by
    rw [render_length]
    apply (take_room_full feed n m room).imp_right
    intro hnone
    rw [hnone, render_nil]
  rw [take_room_add, render_append, store_parts hroom hfit hfull] at hwhole
  simp only [hwhole, hfirst, hlater, render_store]

/-- A call can be cut in two anywhere, whatever its ports are and hold. -/
theorem process_add (s : Stage T) (inputs outputs : List (List T)) (n m : Nat) :
    let first := s.process (fronts n inputs) (fronts n outputs) n
    let later := first.2.process (rests n inputs) (rests n outputs) m
    s.process inputs outputs (n + m) = (List.zipWith (· ++ ·) first.1 later.1, later.2) := by
  by_cases hw : s.placement.Wired inputs outputs
  · by_cases hn : n = 0
    · have hlen := s.process_lengths inputs outputs m
      have hnothing : s.process (fronts 0 inputs) (fronts 0 outputs) 0 = (fronts 0 outputs, s) := rfl
      simp only [hn, Nat.zero_add, rests_zero, hnothing, fronts_zero_append hlen]
    · -- with the seed taken first, nothing happens at the cut but the change of buffers
      have hcut := process_add_unseeded (s.takesNoSeed_seeded inputs)
        (by rwa [seeded_placement]) n m
      have hwfront : s.placement.Wired (fronts n inputs) (fronts n outputs) :=
        (Placement.wired_map _ _).mpr hw
      rw [process_seeded hw (by omega), process_seeded hwfront hn, seeded_fronts s hn]
      exact hcut
  · have hfront : ¬s.placement.Wired (fronts n inputs) (fronts n outputs) := by
      rwa [fronts, fronts, Placement.wired_map]
    have hrest : ¬s.placement.Wired (rests n inputs) (rests n outputs) := by
      rwa [rests, rests, Placement.wired_map]
    simp only [process_unwired hw, process_unwired hfront, process_unwired hrest, fronts_append_rests]

/-- A call on ports that hold what is asked for renders all of it. -/
theorem process_supplied {s : Stage T} {inputs outputs : List (List T)} {size : Nat}
    (h : s.placement.Supplied inputs outputs size) {feed : List (T × T)}
    (hfeed : s.feed? inputs = some feed) :
    s.process inputs outputs size =
      (s.store (s.render (feed.take size)).1 outputs, (s.render (feed.take size)).2) := by
  by_cases hsize : size = 0
  · rw [hsize, List.take_zero, render_nil, store_nil]
    rfl
  · obtain ⟨_, room, -, hroom⟩ := wired_feed_room h.wired
    have hspan : s.placement.span inputs outputs size = size := by
      apply Nat.le_antisymm
      · exact (Placement.le_span_iff.mp (Nat.le_refl _)).1
      · exact Placement.le_span_iff.mpr ⟨Nat.le_refl size, h.room⟩
    have hcall := process_eq_span hfeed hroom hsize
    simp only [hspan, if_neg hsize] at hcall
    exact hcall

/-- Processes the ports in segments of the given lengths, each as buffers of its own, and puts the
outputs together again. -/
def processSegments (s : Stage T) (inputs outputs : List (List T)) :
    List Nat → List (List T) × Stage T
  | [] => (outputs, s)
  | n :: lengths =>
    let (done, s) := s.process (fronts n inputs) (fronts n outputs) n
    let (later, s) := processSegments s (rests n inputs) (rests n outputs) lengths
    (List.zipWith (· ++ ·) done later, s)

theorem processSegments_cons (s : Stage T) (inputs outputs : List (List T)) (n : Nat)
    (lengths : List Nat) :
    s.processSegments inputs outputs (n :: lengths) =
      let first := s.process (fronts n inputs) (fronts n outputs) n
      let later := first.2.processSegments (rests n inputs) (rests n outputs) lengths
      (List.zipWith (· ++ ·) first.1 later.1, later.2) := rfl

/-- Cutting is transparent whatever the ports are and hold. -/
theorem processSegments_eq_process (s : Stage T) (inputs outputs : List (List T))
    (lengths : List Nat) :
    s.processSegments inputs outputs lengths = s.process inputs outputs lengths.sum := by
  induction lengths generalizing s inputs outputs with
  | nil => rfl
  | cons n lengths ih =>
    rw [processSegments_cons, List.sum_cons, process_add]
    simp only [ih]

theorem processSegments_supplied {s : Stage T} {inputs outputs : List (List T)}
    {lengths : List Nat} (h : s.placement.Supplied inputs outputs lengths.sum)
    {feed : List (T × T)} (hfeed : s.feed? inputs = some feed) :
    s.processSegments inputs outputs lengths =
      (s.store (s.render (feed.take lengths.sum)).1 outputs,
        (s.render (feed.take lengths.sum)).2) := by
  rw [processSegments_eq_process, process_supplied h hfeed]

/-- Cutting is transparent. A stage in any placement and state, with every port that it needs there
and holding `size` samples, gives the same outputs and is left the same stage whether it processes
them at once or in consecutive segments of any lengths. -/
theorem segments_transparent (s : Stage T) {inputs outputs : List (List T)} {size : Nat}
    (h : s.placement.Supplied inputs outputs size) {lengths : List Nat}
    (hsum : lengths.sum = size) :
    s.processSegments inputs outputs lengths = s.process inputs outputs size := by
  subst hsum
  obtain ⟨feed, _, hfeed, -⟩ := wired_feed_room h.wired
  rw [processSegments_supplied h hfeed, process_supplied h hfeed]

/-- Cuts before and right after the sample that a driven stage seeds itself from, on ports that go on
past the last segment. -/
theorem segments_transparent_seeding :
    let s : Stage Float := ((ofTube .ecc83).setDriven true).setDrives true
    let inputs : List (List Float) := [[201, 202, 203, 204], [3e4, 3e4, 3e4], [7]]
    let outputs : List (List Float) := [[0, 0, 0, 0], [0, 0, 0], [5, 6]]
    s.point.armed = true ∧ s.placement.Supplied inputs outputs 3 ∧
      s.processSegments inputs outputs [0, 1, 0, 2] = s.process inputs outputs 3 := by
  intro s inputs outputs
  have hsupplied : s.placement.Supplied inputs outputs 3 := by decide
  exact ⟨rfl, hsupplied, segments_transparent s hsupplied rfl⟩

end Stage

end TubePreamp

/-!
A driven stage behind a source that does not change. Where the resistance port holds the circuit's
own source resistance throughout, a stage that has had its seed does what it does on its own with
the voltage signal alone. One that has its seed still to take does what it would do with that sample
kept as the input before.
-/

namespace TubePreamp.Stage

variable {T : Type}

def steadySource (s : Stage T) (vi : List T) : List T := List.replicate vi.length s.circuit.ri

def seededWith (s : Stage T) (first : T) : Stage T :=
  { s with point := { s.point with vi := first, armed := false } }

theorem zip_steadySource (s : Stage T) (vi : List T) :
    vi.zip (s.steadySource vi) = vi.map fun v => (v, s.circuit.ri) := by
  have hfst : (vi.map fun v => (v, s.circuit.ri)).map Prod.fst = vi := by
    rw [List.map_map]
    exact List.map_id vi
  have hsnd : (vi.map fun v => (v, s.circuit.ri)).map Prod.snd = s.steadySource vi := by
    rw [List.map_map]
    exact List.map_const'
  exact (List.zip_of_prod hfst hsnd).symm

theorem feed?_steadySource (s : Stage T) (vi : List T) (more others : List (List T)) :
    (s.setDriven true).feed? (vi :: s.steadySource vi :: more) =
      (s.setDriven false).feed? (vi :: others) := by
  have hzip := s.zip_steadySource vi
  exact congrArg some hzip

theorem seeded_first {s : Stage T} (harmed : s.point.armed = true) (first : T) (rest : List T)
    (more : List (List T)) :
    (s.setDriven true).seeded ((first :: rest) :: more) = (s.seededWith first).setDriven true := by
  have hseed : s.point.seed (first :: rest) = (s.seededWith first).point := by
    simp only [OperatingPoint.seed, harmed, seededWith]
  exact congrArg (fun point => { s.setDriven true with point }) hseed

variable [Sample T]

theorem process_steadySource {s : Stage T} (hseeded : s.point.armed = false) (vi : List T)
    (more others outputs : List (List T)) (size : Nat) :
    (s.setDriven true).process (vi :: s.steadySource vi :: more) outputs size =
      let alone := (s.setDriven false).process (vi :: others) outputs size
      (alone.1, alone.2.setDriven true) := by
  have hdriven : (s.setDriven true).TakesNoSeed (vi :: s.steadySource vi :: more) := by
    intro _ harmed
    exact absurd (hseeded.symm.trans harmed) Bool.false_ne_true
  have halone : (s.setDriven false).TakesNoSeed (vi :: others) := by
    intro hplaced
    exact absurd hplaced Bool.false_ne_true
  have hroom : (s.setDriven true).room? outputs = (s.setDriven false).room? outputs := rfl
  unfold process
  rw [s.feed?_steadySource vi more others, hroom, hdriven.seeded, halone.seeded]
  split
  · rfl
  · split
    · rfl
    · rfl

/-- Behind a steady source a driven stage is as good as one on its own. If it has had its seed, any
signal cut in any way gives the outputs and the state that the stage gives on its own, however the
signal is cut there. If it is armed, whatever the resistances are, the first sample that it is asked
for takes effect as the input before, and nothing else is different. -/
theorem steady_source_as_alone (s : Stage T) (vi : List T) (outputs : List (List T))
    {lengths pieces : List Nat} (hsum : lengths.sum = pieces.sum) :
    (s.point.armed = false → ∀ more others : List (List T),
      (s.setDriven true).processSegments (vi :: s.steadySource vi :: more) outputs lengths =
        let alone := (s.setDriven false).processSegments (vi :: others) outputs pieces
        (alone.1, alone.2.setDriven true)) ∧
      (s.point.armed = true → s.placement.outputCount ≤ outputs.length → 0 < lengths.sum →
        ∀ (first : T) (rest ri : List T) (more : List (List T)), vi = first :: rest →
          (s.setDriven true).processSegments (vi :: ri :: more) outputs lengths =
            ((s.seededWith first).setDriven true).processSegments (vi :: ri :: more) outputs
              pieces) := by
  constructor
  · intro hseeded more others
    rw [processSegments_eq_process, processSegments_eq_process, hsum]
    exact process_steadySource hseeded vi more others outputs pieces.sum
  · intro harmed hports hsome first rest ri more hvi
    subst hvi
    have hw : (s.setDriven true).placement.Wired ((first :: rest) :: ri :: more) outputs :=
      ⟨Nat.le_add_left 2 more.length, hports⟩
    rw [processSegments_eq_process, processSegments_eq_process, ← hsum,
      process_seeded hw (Nat.pos_iff_ne_zero.mp hsome), seeded_first harmed]

/-- Three samples at once against one and two with an empty buffer between, into ports of different
lengths, after the seed and before it. -/
theorem steady_source_as_alone_cut :
    let fresh : Stage Float := (ofTube .ecc83).setDrives true
    let s := fresh.seededWith 3
    let vi : List Float := [201, 202, 203]
    let outputs : List (List Float) := [[0, 0, 0], [0, 0]]
    let alone := (s.setDriven false).processSegments [vi] outputs [3]
    [1, 0, 2].sum = [3].sum ∧ s.point.armed = false ∧
      (s.setDriven true).processSegments [vi, s.steadySource vi] outputs [1, 0, 2] =
        (alone.1, alone.2.setDriven true) ∧
      fresh.point.armed = true ∧ fresh.placement.outputCount ≤ outputs.length ∧
      0 < [1, 0, 2].sum ∧
      (fresh.setDriven true).processSegments [vi, [3e4, 2e4, 1e4]] outputs [1, 0, 2] =
        ((fresh.seededWith 201).setDriven true).processSegments [vi, [3e4, 2e4, 1e4]] outputs
          [3] := by
  intro fresh s vi outputs alone
  have hsum : [1, 0, 2].sum = [3].sum := rfl
  have hports : fresh.placement.outputCount ≤ outputs.length := Nat.le_refl 2
  have hsome : 0 < [1, 0, 2].sum := by decide
  obtain ⟨hseeded, -⟩ := steady_source_as_alone s vi outputs hsum
  obtain ⟨-, harmed⟩ := steady_source_as_alone fresh vi outputs hsum
  exact ⟨hsum, rfl, hseeded rfl [] [], rfl, hports, hsome,
    harmed rfl hports hsome 201 [202, 203] [3e4, 2e4, 1e4] [] rfl⟩

end TubePreamp.Stage
