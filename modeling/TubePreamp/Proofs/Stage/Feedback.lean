import TubePreamp.Proofs.Stage.Segments

/-!
Which signal leaves a stage makes no difference to the stage. Runs that take their outputs at
different taps stay together in all but the output voltage, so that the coupled output is what the
output capacitor makes of the anode voltages of a stage that drives a next one.
-/

namespace TubePreamp

namespace OperatingPoint

variable {T : Type}

def SameBehind (p q : OperatingPoint T) : Prop := { p with vo := q.vo } = q

theorem SameBehind.refl (p : OperatingPoint T) : p.SameBehind p := rfl

theorem SameBehind.va {p q : OperatingPoint T} (h : p.SameBehind q) : p.va = q.va := by
  rw [← h]

variable [Sample T]

theorem SameBehind.step {p q : OperatingPoint T} (h : p.SameBehind q) (c : Circuit T)
    (tap other : Tap) (vi ri : T) :
    (p.step c tap vi ri).2.SameBehind (q.step c other vi ri).2 := by
  obtain ⟨vo, rfl⟩ : ∃ vo, q = { p with vo } := ⟨q.vo, h.symm⟩
  rfl

/-- The points after each sample, the output of each taken at a tap of its own. -/
def trace (c : Circuit T) : OperatingPoint T → List (Tap × T × T) → List (OperatingPoint T)
  | _, [] => []
  | p, (tap, vi, ri) :: rest =>
    (p.step c tap vi ri).2 :: trace c (p.step c tap vi ri).2 rest

theorem SameBehind.trace {p q : OperatingPoint T} (h : p.SameBehind q) (c : Circuit T)
    {taps others : List Tap} (hlen : taps.length = others.length) (feed : List (T × T)) :
    List.Forall₂ SameBehind (OperatingPoint.trace c p (taps.zip feed))
      (OperatingPoint.trace c q (others.zip feed)) := by
  induction feed generalizing p q taps others with
  | nil =>
    rw [List.zip_nil_right, List.zip_nil_right]
    exact .nil
  | cons x feed ih =>
    cases taps with
    | nil =>
      obtain rfl : others = [] := List.length_eq_zero_iff.mp hlen.symm
      exact .nil
    | cons tap taps =>
      obtain ⟨other, others, rfl⟩ := List.exists_cons_of_length_eq_add_one hlen.symm
      have hnext := h.step c tap other x.1 x.2
      exact .cons hnext (ih hnext (Nat.succ.inj hlen))

/-- What the output capacitor makes of a run of anode voltages, from the anode voltage and the output
before it. Of the output it keeps the part `decay` from one sample to the next. -/
def decoupled (decay : T) : T → T → List T → List T
  | _, _, [] => []
  | before, vo, va :: rest =>
    (va - before + vo * decay) :: decoupled decay va (va - before + vo * decay) rest

theorem SameBehind.run {p q : OperatingPoint T} (h : p.SameBehind q) (c : Circuit T)
    (feed : List (T × T)) :
    (OperatingPoint.run c .coupled p feed).1.map Output.vo =
        decoupled (1 - p.period / (c.co * c.rg)) p.va p.vo
          ((OperatingPoint.run c .direct q feed).1.map Output.va) ∧
      (OperatingPoint.run c .coupled p feed).2.SameBehind
        (OperatingPoint.run c .direct q feed).2 := by
  induction feed generalizing p q with
  | nil => exact ⟨rfl, h⟩
  | cons x feed ih =>
    -- the points stay the same behind the output, and the coupled one keeps its output for the next
    -- sample
    have hnext := h.step c .coupled .direct x.1 x.2
    obtain ⟨hlater, hlast⟩ := ih hnext
    have hva : (p.step c .coupled x.1 x.2).2.va = (q.step c .direct x.1 x.2).1.va := hnext.va
    have hperiod : (p.step c .coupled x.1 x.2).2.period = p.period := rfl
    rw [hperiod, hva] at hlater
    rw [run_cons, run_cons, List.map_cons, List.map_cons, hlater, decoupled]
    have hvo : (p.step c .coupled x.1 x.2).1.vo =
        (q.step c .direct x.1 x.2).1.va - p.va + p.vo * (1 - p.period / (c.co * c.rg)) := by
      rw [← hva]
      rfl
    have hkept : (p.step c .coupled x.1 x.2).2.vo = (p.step c .coupled x.1 x.2).1.vo := rfl
    rw [hkept, hvo]
    exact ⟨rfl, hlast⟩

end OperatingPoint

namespace Stage

open OperatingPoint

variable {T : Type}

theorem seeded_point (s : Stage T) (inputs : List (List T)) :
    (s.seeded inputs).point =
      if s.placement.driven then s.point.seed (inputs.headD []) else s.point := by
  unfold seeded
  split <;> rfl

/-- A seed is no voltage that the output is made of. -/
theorem seeded_output (s : Stage T) (inputs : List (List T)) :
    (s.seeded inputs).point.va = s.point.va ∧ (s.seeded inputs).point.vo = s.point.vo ∧
      (s.seeded inputs).point.period = s.point.period := by
  rw [seeded_point]
  split
  · exact seed_keeps (P := fun p => p.va = s.point.va ∧ p.vo = s.point.vo ∧
      p.period = s.point.period) (fun _ _ h => h) ⟨rfl, rfl, rfl⟩ _
  · exact ⟨rfl, rfl, rfl⟩

theorem headD_fronts_take (n : Nat) {m : Nat} (hm : 0 < m) (ports : List (List T)) :
    (fronts n (ports.take m)).headD [] = (ports.headD []).take n := by
  obtain ⟨m, rfl⟩ := Nat.exists_eq_add_one.mpr hm
  cases ports <;> simp [fronts]

theorem written_headD [Sample T] (s : Stage T) (results : List (Output T)) :
    (s.written results).headD [] =
      results.map (if s.placement.drives then Output.va else Output.vo) := by
  unfold written
  split <;> rfl

theorem outputCount_pos (p : Placement) : 0 < p.outputCount := by
  unfold Placement.outputCount
  split <;> decide

variable [Sample T]

theorem first_output_supplied {s : Stage T} {inputs outputs : List (List T)} {size : Nat}
    (h : s.placement.Supplied inputs outputs size) {feed : List (T × T)}
    (hfeed : s.feed? inputs = some feed) {lengths : List Nat} (hsum : lengths.sum = size) :
    ((s.processSegments inputs outputs lengths).1.headD []).take size =
      (s.render (feed.take size)).1.map (if s.placement.drives then Output.va else Output.vo) := by
  subst hsum
  have hlen : (s.render (feed.take lengths.sum)).1.length = lengths.sum := by
    have hfits := le_feed_length h hfeed
    rw [render_length, List.length_take]
    omega
  have hfront := store_fronts h.wired.outputs (s.render (feed.take lengths.sum)).1
  rw [hlen] at hfront
  rw [processSegments_supplied h hfeed, ← written_headD, ← hfront,
    headD_fronts_take _ (outputCount_pos _)]

theorem render_coupled {s : Stage T} (hdrives : s.placement.drives = false)
    (feed : List (T × T)) :
    (s.render feed).1.map Output.vo =
        decoupled (1 - s.point.period / (s.circuit.co * s.circuit.rg)) s.point.va s.point.vo
          (((s.setDrives true).render feed).1.map Output.va) ∧
      (s.render feed).2.point.SameBehind ((s.setDrives true).render feed).2.point := by
  -- both stages seed themselves alike, so they run over the same samples from the same point
  have hseeded : ((s.setDrives true).seeded [feed.map Prod.fst]).point =
      (s.seeded [feed.map Prod.fst]).point := by
    rw [seeded_point, seeded_point]
    rfl
  have htap : s.tap = .coupled := by
    rw [tap, hdrives]
    rfl
  have hdirect : (s.setDrives true).tap = .direct := rfl
  obtain ⟨hva, hvo, hperiod⟩ := s.seeded_output [feed.map Prod.fst]
  have hrun := (SameBehind.refl (s.seeded [feed.map Prod.fst]).point).run s.circuit feed
  rw [hva, hvo, hperiod] at hrun
  rw [render_eq, render_eq, hseeded, htap, hdirect]
  exact hrun

/-- The tap never feeds back. Whatever taps two runs over the same samples use, sample by sample,
their points after each of them are equal in all but the output voltage. So the output of a stage
that drives nothing is, sample by sample, the step in the anode voltage of the same stage driving
something, plus what is left of the output before; both stages may process the signal in any
segments, and end up the same but for the output voltage. -/
theorem output_never_feeds_back :
    (∀ (c : Circuit T) (p : OperatingPoint T) (feed : List (T × T)) (taps others : List Tap),
      taps.length = feed.length → others.length = feed.length →
        List.Forall₂ SameBehind (trace c p (taps.zip feed)) (trace c p (others.zip feed))) ∧
      ∀ (s : Stage T) (inputs outputs links : List (List T)) (lengths others : List Nat),
        s.placement.drives = false → others.sum = lengths.sum →
        s.placement.Supplied inputs outputs lengths.sum →
        (s.setDrives true).placement.Supplied inputs links lengths.sum →
          let coupled := s.processSegments inputs outputs lengths
          let direct := (s.setDrives true).processSegments inputs links others
          let va := (direct.1.headD []).take lengths.sum
          va.length = lengths.sum ∧
            (coupled.1.headD []).take lengths.sum =
              decoupled (1 - s.point.period / (s.circuit.co * s.circuit.rg)) s.point.va s.point.vo
                va ∧
            coupled.2.point.SameBehind direct.2.point := by
  constructor
  · intro c p feed taps others htaps hothers
    exact (SameBehind.refl p).trace c (htaps.trans hothers.symm) feed
  · intro s inputs outputs links lengths others hdrives hsum hs hd coupled direct va
    obtain ⟨feed, _, hfeed, -⟩ := wired_feed_room hs.wired
    have hfeed' : (s.setDrives true).feed? inputs = some feed := hfeed
    have hvo : (coupled.1.headD []).take lengths.sum =
        (s.render (feed.take lengths.sum)).1.map Output.vo := by
      rw [first_output_supplied hs hfeed rfl, hdrives]
      rfl
    have hva : va = ((s.setDrives true).render (feed.take lengths.sum)).1.map Output.va :=
      first_output_supplied hd hfeed' hsum
    have hlen := le_feed_length hs hfeed
    obtain ⟨hout, hpoint⟩ := render_coupled hdrives (feed.take lengths.sum)
    refine ⟨?_, ?_, ?_⟩
    · rw [hva, List.length_map, render_length, List.length_take]
      omega
    · rw [hvo, hva]
      exact hout
    · have hcoupled : coupled.2 = (s.render (feed.take lengths.sum)).2 := by
        simp only [coupled, processSegments_supplied hs hfeed]
      have hdirect : direct.2 = ((s.setDrives true).render (feed.take lengths.sum)).2 := by
        rw [← hsum] at hd
        simp only [direct, processSegments_supplied hd hfeed', hsum]
      rw [hcoupled, hdirect]
      exact hpoint

/-- Two taps that change from sample to sample, and a driven stage against one that drives as well,
cut in other places. -/
theorem output_never_feeds_back_driven :
    let s : Stage Float := (ofTube .ecc83).setDriven true
    let feed : List (Float × Float) := [(1, 3e4), (-2, 2e4)]
    let inputs : List (List Float) := [[201, 202, 203], [3e4, 3e4, 3e4]]
    let coupled := s.processSegments inputs [[0, 0, 0]] [1, 2]
    let direct := (s.setDrives true).processSegments inputs [[0, 0, 0], [0, 0, 0, 0]] [0, 3]
    let va := (direct.1.headD []).take 3
    List.Forall₂ SameBehind (trace s.circuit s.point ([.coupled, .direct].zip feed))
        (trace s.circuit s.point ([.direct, .direct].zip feed)) ∧
      va.length = 3 ∧
      (coupled.1.headD []).take 3 =
        decoupled (1 - s.point.period / (s.circuit.co * s.circuit.rg)) s.point.va s.point.vo va ∧
      coupled.2.point.SameBehind direct.2.point := by
  intro s feed inputs
  have htrace := output_never_feeds_back.1 s.circuit s.point feed [.coupled, .direct]
    [.direct, .direct] rfl rfl
  have hsupplied : s.placement.Supplied inputs [[0, 0, 0]] 3 := by decide
  have hsupplied' : (s.setDrives true).placement.Supplied inputs [[0, 0, 0], [0, 0, 0, 0]] 3 := by
    decide
  exact ⟨htrace, output_never_feeds_back.2 s inputs [[0, 0, 0]] [[0, 0, 0], [0, 0, 0, 0]] [1, 2]
    [0, 3] rfl rfl hsupplied hsupplied'⟩

end Stage

end TubePreamp
