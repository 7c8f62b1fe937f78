import Mathlib
import TubePreamp.OperatingPoint
import TubePreamp.Proofs.Circuit
import TubePreamp.Proofs.Exact.LoadLine
import TubePreamp.Proofs.Stage.Render

/-!
One sample in exact arithmetic. While the source has a positive resistance, nothing that is divided
by can vanish, and the charges that the next sample starts from stay in the range that this rests
on.
-/

namespace TubePreamp.OperatingPoint

variable {K : Type} [Field K] [LinearOrder K]

structure Charged (p : OperatingPoint K) (c : Circuit K) : Prop where
  vk_pos : 0 < p.vk
  vak_le : p.vak ≤ c.vb
  period_nonneg : 0 ≤ p.period

theorem seed_charged {p : OperatingPoint K} {c : Circuit K} (hp : p.Charged c) (input : List K) :
    (p.seed input).Charged c := by
  unfold seed
  split
  · exact ⟨hp.vk_pos, hp.vak_le, hp.period_nonneg⟩
  · exact hp

variable [IsStrictOrderedRing K] [Exact K]

/-- All that solving a sample divides by, in the order of the divisions. -/
structure Divisors (p : OperatingPoint K) (c : Circuit K) (vi ri : K) : Prop where
  coupling : 0 < c.ci
  network : 0 < ri + c.rg + p.period / c.ci
  source : c.gridThreshold < p.openGrid c vi ri - p.vk → 0 < ri
  hyperbola : p.vgk ≤ 0 → 0 < 1 - c.curve.d * p.vgk
  control : 0 < c.curve.h
  newton : ∀ n < LoadLine.newtonSteps,
    0 < (p.loadLine c).slope ((p.loadLine c).descend n p.vak)
  bypass : 0 < c.ck
  corner : 0 < c.rk * c.ck
  cathode : 0 < 1 + p.period / (c.rk * c.ck)
  blocker : 0 < c.co * c.rg
  conductance : ¬(p.loadLine c).conductance ((p.loadLine c).solve p.vak) ≤ 0 →
    0 < (p.loadLine c).conductance ((p.loadLine c).solve p.vak)
  parallel : ¬(p.loadLine c).conductance ((p.loadLine c).solve p.vak) ≤ 0 →
    0 < c.ra + 1 / (p.loadLine c).conductance ((p.loadLine c).solve p.vak)

structure Settled (p : OperatingPoint K) (c : Circuit K) (q : OperatingPoint K) : Prop where
  ia_nonneg : 0 ≤ q.ia
  ig_nonneg : 0 ≤ q.ig
  vk_pos : 0 < q.vk
  va_le : q.va ≤ c.vb
  vak_le : q.vak ≤ c.vb
  vg_le : q.vg ≤ p.vk + c.gridThreshold

variable {c : Circuit K} {p : OperatingPoint K} {vi ri : K}

theorem loadLine_passive (hc : c.Sound) (p : OperatingPoint K) : (p.loadLine c).Passive :=
  LoadLine.atGrid_passive hc.curve (hc.positive .ra (by decide)).le p.vgk (c.vb - p.vk)

theorem divisors_pos (hc : c.Sound) (hp : p.Charged c) (hri : 0 < ri) : Divisors p c vi ri := by
  have hrg : 0 < c.rg := hc.positive .rg (by decide)
  have hci : 0 < c.ci := hc.positive .ci (by decide)
  have hrk : 0 < c.rk := hc.positive .rk (by decide)
  have hck : 0 < c.ck := hc.positive .ck (by decide)
  have hco : 0 < c.co := hc.positive .co (by decide)
  have hra : 0 < c.ra := hc.positive .ra (by decide)
  have hcharge : 0 ≤ p.period / c.ci := div_nonneg hp.period_nonneg hci.le
  have hcorner : 0 < c.rk * c.ck := mul_pos hrk hck
  have hleak : 0 ≤ p.period / (c.rk * c.ck) := div_nonneg hp.period_nonneg hcorner.le
  refine ⟨hci, by linarith, fun _ => hri, hc.curve.hyperbola_pos, hc.curve.h_pos, ?_, hck, hcorner,
    by linarith, mul_pos hco hrg, not_le.mp, ?_⟩
  · intro n _
    exact lt_of_lt_of_le one_pos (LoadLine.one_le_slope (loadLine_passive hc p) _)
  · intro hslope
    exact add_pos hra (one_div_pos.mpr (not_le.mp hslope))

theorem grid_le (p : OperatingPoint K) (c : Circuit K) (vi ri : K) :
    (p.grid c vi ri).1 ≤ p.vk + c.gridThreshold := by
  simp only [grid]
  split
  · exact le_rfl
  · next hopen =>
    have hdrive := not_lt.mp hopen
    exact sub_le_iff_le_add'.mp hdrive

theorem grid_current_nonneg (p : OperatingPoint K) (c : Circuit K) (vi : K) (hri : 0 < ri) :
    0 ≤ (p.grid c vi ri).2 := by
  simp only [grid]
  split
  · next hdrive => exact div_nonneg (sub_pos.mpr hdrive).le hri.le
  · exact le_rfl

theorem cathode_pos (hc : c.Sound) (hp : p.Charged c) {ia ig : K} (hia : 0 ≤ ia) (hig : 0 ≤ ig) :
    0 < p.cathode c ia ig := by
  have hrk : 0 < c.rk := hc.positive .rk (by decide)
  have hck : 0 < c.ck := hc.positive .ck (by decide)
  have hvk := hp.vk_pos
  have hperiod := hp.period_nonneg
  rw [cathode]
  positivity

/-- The solve starts at or below the supply and the load line ends below it, so the anode does. -/
theorem anode_le (hc : c.Sound) (hp : p.Charged c) : (p.loadLine c).solve p.vak ≤ c.vb := by
  have hsolve := LoadLine.solve_le (loadLine_passive hc p) p.vak
  have hsupply : (p.loadLine c).vb ≤ c.vb := by
    have hvk := hp.vk_pos
    simp only [loadLine, LoadLine.atGrid]
    linarith
  exact hsolve.trans (max_le hp.vak_le hsupply)

theorem step_settled (hc : c.Sound) (hp : p.Charged c) (tap : Tap) (vi : K) (hri : 0 < ri) :
    Settled p c (p.step c tap vi ri).2 := by
  have hra : 0 < c.ra := hc.positive .ra (by decide)
  have hia := LoadLine.current_nonneg (loadLine_passive hc p) ((p.loadLine c).solve p.vak)
  have hig := grid_current_nonneg p c vi hri
  refine ⟨hia, hig, cathode_pos hc hp hia hig, ?_, anode_le hc hp, grid_le p c vi ri⟩
  exact sub_le_self _ (mul_nonneg hra.le hia)

theorem step_charged (hc : c.Sound) (hp : p.Charged c) (tap : Tap) (vi : K) (hri : 0 < ri) :
    (p.step c tap vi ri).2.Charged c := by
  have hsettled := step_settled hc hp tap vi hri
  exact ⟨hsettled.vk_pos, hsettled.vak_le, hp.period_nonneg⟩

theorem step_resistance (hc : c.Sound) (p : OperatingPoint K) (vi ri : K) :
    0 < (p.step c .direct vi ri).1.ri ∧ (p.step c .direct vi ri).1.ri ≤ c.ra :=
  Curve.outputResistance_bounds c.curve _ _ _ (hc.positive .ra (by decide))

theorem reset_charged (hc : c.Sound) (p : OperatingPoint K) {period : K} (hperiod : 0 ≤ period) :
    (p.reset c period).Charged c :=
  ⟨hc.positive .vk (by decide), le_rfl, hperiod⟩

end TubePreamp.OperatingPoint

/-!
Automatic bias. Whether a bias current flows is decided at the full supply, and the fixed number of
Newton steps decides it the same way. Where one flows, the cathode resistor is matched to it; where
none does, the resistor stays. The bypass capacitor follows in both cases.
-/

namespace TubePreamp.Circuit

variable {K : Type} [Field K] [LinearOrder K] [IsStrictOrderedRing K] [Exact K] {c : Circuit K}

theorem biasLine_passive (hcurve : c.curve.Regular) (hra : 0 ≤ c.ra) : c.biasLine.Passive :=
  LoadLine.atGrid_passive hcurve hra (-c.vk) (c.vb - c.vk)

theorem biasLine_reach (c : Circuit K) :
    c.biasLine.reach = c.vb - c.vk - c.curve.h * c.vk := by
  simp only [LoadLine.reach, biasLine, LoadLine.atGrid]
  ring

theorem biasCurrent_pos (hcurve : c.curve.Regular) (hra : 0 ≤ c.ra)
    (hreach : c.curve.h * c.vk < c.vb - c.vk) : 0 < c.biasCurrent := by
  have hl := biasLine_passive hcurve hra
  have hpos : 0 < c.biasLine.reach := by
    rw [biasLine_reach]
    linarith
  have hstart : 0 < c.biasLine.control c.biasLine.vb := by
    apply pos_of_mul_pos_right _ hl.h_pos.le
    rw [LoadLine.control_of_supply hl]
    exact hpos
  -- no step from the supply falls back into cut-off
  have hend := LoadLine.control_descend_pos hl hpos LoadLine.newtonSteps hstart
  exact Curve.current_pos (Curve.perveance_pos hcurve _) hend

theorem biasCurrent_cut_off (hcurve : c.curve.Regular) (hra : 0 ≤ c.ra)
    (hreach : c.vb - c.vk ≤ c.curve.h * c.vk) : c.biasCurrent = 0 := by
  have hl := biasLine_passive hcurve hra
  have hstart : c.biasLine.control c.biasLine.vb ≤ 0 := by
    apply nonpos_of_mul_nonpos_right _ hl.h_pos
    rw [LoadLine.control_of_supply hl, biasLine_reach]
    linarith
  have hnone : c.biasLine.current c.biasLine.vb = 0 := Curve.current_cut_off hstart _
  -- the supply is the root, and the solve starts there
  have hroot : c.biasLine.residual c.biasLine.vb = 0 := by
    rw [LoadLine.residual, hnone]
    ring
  rw [biasCurrent, LoadLine.solve, LoadLine.descend_of_root hroot, hnone]

theorem biasCurrent_pos_iff (hcurve : c.curve.Regular) (hra : 0 ≤ c.ra) :
    0 < c.biasCurrent ↔ c.curve.h * c.vk < c.vb - c.vk := by
  constructor
  · intro hpos
    by_contra hreach
    rw [biasCurrent_cut_off hcurve hra (not_lt.mp hreach)] at hpos
    exact lt_irrefl 0 hpos
  · exact biasCurrent_pos hcurve hra

theorem usableBias_iff (c : Circuit K) (ia : K) : c.usableBias ia = true ↔ 0 < ia ∧ 0 < c.vk := by
  have hfinite : Sample.isFinite ia = true := rfl
  simp only [usableBias_eq_true, hfinite, true_and]

theorem biasResistor_ne_zero (hrk : c.rk ≠ 0) : c.biasResistor ≠ 0 := by
  unfold biasResistor
  split
  · next husable =>
    obtain ⟨hia, hvk⟩ := (c.usableBias_iff _).mp husable
    exact (div_pos hvk hia).ne'
  · exact hrk

theorem corner_of_bypass (hrk : c.rk ≠ 0) (hck : c.ck = bypassFor c.rk) : c.corner = 2 := by
  have hpi : (Sample.pi : K) ≠ 0 := (Exact.pi_pos : (0 : K) < Exact.pi).ne'
  have hcorner : (Sample.ofDouble cathodeCorner : K) = 2 := ofDouble_two
  rw [corner, hck, bypassFor, hcorner, ofDouble_two]
  field_simp

/-- With a positive cathode below the supply, automatic bias leads from one circuit without a defect
to another. -/
theorem rebias_defect_none (hcurve : c.curve.Regular) (hvalid : c.defect? = none) {v : K}
    (hv : 0 < v) (hsupply : v < c.vb) : (c.edit (.set .vk v)).defect? = none := by
  have hpositive := (c.defect_none_iff.mp hvalid).1
  have hmoved : { c with vk := v }.Sound := by
    refine ⟨hcurve, fun k hk => ?_⟩
    cases k with
    | vk => exact hv
    | _ => exact hpositive _ hk
  have hedit : c.edit (.set .vk v) = { c with vk := v }.rebias := rfl
  rw [hedit, defect_none_iff]
  refine ⟨hmoved.rebias.positive, ?_⟩
  rw [rebias_frame]
  exact hsupply

/-- Automatic bias puts the circuit at its bias point wherever there is one, keeps the cathode
resistor where there is none, and holds the corner frequency in both cases. -/
theorem rebias_meets_bias_point (hcurve : c.curve.Regular) (hra : 0 < c.ra) (hrk : c.rk ≠ 0)
    (hauto : c.autoBias = true) :
    (0 < c.biasCurrent ↔ c.curve.h * c.vk < c.vb - c.vk) ∧
      (¬c.curve.h * c.vk < c.vb - c.vk → c.biasCurrent = 0) ∧
      (0 < c.vk → c.curve.h * c.vk < c.vb - c.vk → c.rebias.rk * c.rebias.biasCurrent = c.vk) ∧
      (¬(0 < c.vk ∧ c.curve.h * c.vk < c.vb - c.vk) → c.rebias.rk = c.rk) ∧
      c.rebias.corner = 2 ∧
      c.rebias = { c with rk := c.rebias.rk, ck := c.rebias.ck } ∧
      (c.defect? = none → ∀ v, 0 < v → v < c.vb → (c.edit (.set .vk v)).defect? = none) := by
  have hflows := biasCurrent_pos_iff hcurve hra.le
  have hrebias : c.rebias = { c with rk := c.biasResistor, ck := bypassFor c.biasResistor } := by
    rw [rebias, if_pos hauto]
  have hresistor : c.rebias.rk = c.biasResistor := by rw [hrebias]
  refine ⟨hflows, ?_, ?_, ?_, ?_, c.rebias_frame, ?_⟩
  · intro hreach
    exact biasCurrent_cut_off hcurve hra.le (not_lt.mp hreach)
  · intro hvk hreach
    have hia := hflows.mpr hreach
    rw [hresistor, rebias_biasCurrent, biasResistor, if_pos ((c.usableBias_iff _).mpr ⟨hia, hvk⟩)]
    exact div_mul_cancel₀ _ hia.ne'
  · intro hnone
    have hunusable : ¬c.usableBias c.biasCurrent = true := by
      rw [usableBias_iff, hflows]
      exact fun h => hnone h.symm
    rw [hresistor, biasResistor, if_neg hunusable]
  · apply corner_of_bypass
    · rw [hresistor]
      exact biasResistor_ne_zero hrk
    · rw [hrebias]
  · intro hvalid v hv hsupply
    exact rebias_defect_none hcurve hvalid hv hsupply

/-- A tube with a bias point, moved to another one, and moved so far that it has none. -/
theorem rebias_meets_bias_point_ecc82 :
    let c : Circuit ℚ := .unbiased Tube.ecc82.datasheet
    let d : Circuit ℚ := { c with vk := 249 }
    c.curve.Regular ∧ 0 < c.ra ∧ c.rk ≠ 0 ∧ c.autoBias = true ∧ c.defect? = none ∧
      0 < c.biasCurrent ∧ c.rebias.rk * c.rebias.biasCurrent = c.vk ∧ c.rebias.corner = 2 ∧
      (c.edit (.set .vk 4)).defect? = none ∧
      d.biasCurrent = 0 ∧ d.rebias.rk = c.rk ∧ d.rebias.corner = 2 := by
  intro c d
  have hc : c.Sound := unbiased_sound (Tube.datasheet_usable .ecc82)
  have hra : 0 < c.ra := hc.positive .ra (by decide)
  have hrk : 0 < c.rk := hc.positive .rk (by decide)
  have hvk : 0 < c.vk := hc.positive .vk (by decide)
  have hsupply : c.vk < c.vb := by decide +kernel
  have hreach : c.curve.h * c.vk < c.vb - c.vk := by decide +kernel
  have hfour : (4 : ℚ) < c.vb := by decide +kernel
  have hnone : ¬d.curve.h * d.vk < d.vb - d.vk := by decide +kernel
  have hvalid := c.defect_none_iff.mpr ⟨hc.positive, hsupply⟩
  obtain ⟨hflows, -, hmatched, -, hcorner, -, hmoved⟩ :=
    rebias_meets_bias_point hc.curve hra hrk.ne' rfl
  obtain ⟨-, hcutoff, -, hkept, hcorner', -, -⟩ :=
    rebias_meets_bias_point (c := d) hc.curve hra hrk.ne' rfl
  exact ⟨hc.curve, hra, hrk.ne', rfl, hvalid, hflows.mpr hreach, hmatched hvk hreach, hcorner,
    hmoved hvalid 4 (by norm_num) hfour, hcutoff hnone, hkept (fun h => hnone h.2), hcorner'⟩

end TubePreamp.Circuit

/-!
A silent stage at its bias point. The grid stays at ground and does not conduct, Newton's steps do not
leave the root that they start from, and the cathode network gives off what the tube feeds it, so
that no sample changes anything.
-/

namespace TubePreamp.OperatingPoint

section Quiet

variable {T : Type} [Sample T]

def atBias (c : Circuit T) (vak period : T) (armed : Bool) : OperatingPoint T where
  vkNow := c.vk
  vk := c.vk
  vg := 0
  va := c.vb - c.ra * c.biasLine.current vak
  vo := 0
  vi := 0
  vgk := -c.vk
  vak
  ig := 0
  ia := c.biasLine.current vak
  period
  armed

def quiet (c : Circuit T) (vak : T) : Tap → Output T
  | .coupled => .coupled 0
  | .direct => .direct (c.vb - c.ra * c.biasLine.current vak) (c.biasLine.outputResistance vak)

theorem run_of_step_fixed {c : Circuit T} {tap : Tap} {p : OperatingPoint T} {output : Output T}
    {feed : List (T × T)} (h : ∀ x ∈ feed, p.step c tap x.1 x.2 = (output, p)) :
    run c tap p feed = (List.replicate feed.length output, p) := by
  induction feed with
  | nil => rfl
  | cons x feed ih =>
    rw [List.forall_mem_cons] at h
    rw [run_cons, h.1, ih h.2, List.length_cons, List.replicate_succ]

end Quiet

variable {K : Type} [Field K] [LinearOrder K] [IsStrictOrderedRing K] [Exact K] {c : Circuit K}
  {vak period : K} {armed : Bool}

theorem atBias_charged (hc : c.Sound) (hperiod : 0 ≤ period) (hroot : c.biasLine.residual vak = 0) :
    (atBias c vak period armed).Charged c := by
  have hvk : 0 < c.vk := hc.positive .vk (by decide)
  have hra : 0 < c.ra := hc.positive .ra (by decide)
  have hia : 0 ≤ c.biasLine.current vak :=
    c.curve.current_nonneg (Curve.perveance_pos hc.curve _).le _ vak
  have hline : vak + c.ra * c.biasLine.current vak - (c.vb - c.vk) = 0 := hroot
  refine ⟨hvk, ?_, hperiod⟩
  have hdrop := mul_nonneg hra.le hia
  change vak ≤ c.vb
  linarith

/-- The cathode is above ground and the threshold is not below it. -/
theorem grid_atBias (hvk : 0 < c.vk) (hthreshold : 0 ≤ c.gridThreshold) (ri : K) :
    (atBias c vak period armed).grid c 0 ri = (0, 0) := by
  have hopen : (atBias c vak period armed).openGrid c 0 ri = 0 := by
    simp only [openGrid, atBias, sub_zero, mul_zero, add_zero, zero_div]
  have hclosed : ¬c.gridThreshold < 0 - c.vk := by
    rw [not_lt]
    linarith
  simp only [grid, hopen]
  exact if_neg hclosed

theorem solve_atBias (hroot : c.biasLine.residual vak = 0) :
    ((atBias c vak period armed).loadLine c).solve vak = vak :=
  LoadLine.descend_of_root hroot LoadLine.newtonSteps

theorem cathode_atBias (hc : c.Sound) (hperiod : 0 ≤ period)
    (hresistor : c.rk * c.biasLine.current vak = c.vk) :
    (atBias c vak period armed).cathode c (c.biasLine.current vak) 0 = c.vk := by
  have hrk : 0 < c.rk := hc.positive .rk (by decide)
  have hck : 0 < c.ck := hc.positive .ck (by decide)
  have hdecay : 0 < 1 + period / (c.rk * c.ck) := by positivity
  -- in one period the capacitor gets from the tube what the resistor takes from it
  have hbalance : period / c.ck * c.biasLine.current vak = period / (c.rk * c.ck) * c.vk := by
    rw [← hresistor]
    field_simp
  simp only [cathode, atBias, add_zero]
  rw [div_eq_iff hdecay.ne', hbalance]
  ring

theorem step_atBias (hc : c.Sound) (hthreshold : 0 ≤ c.gridThreshold) (hperiod : 0 ≤ period)
    (hroot : c.biasLine.residual vak = 0) (hresistor : c.rk * c.biasLine.current vak = c.vk)
    (tap : Tap) (ri : K) :
    (atBias c vak period armed).step c tap 0 ri = (quiet c vak tap, atBias c vak period armed) := by
  have hvk : 0 < c.vk := hc.positive .vk (by decide)
  have hgrid : (atBias c vak period armed).grid c 0 ri = (0, 0) := grid_atBias hvk hthreshold ri
  have hanode : ((atBias c vak period armed).loadLine c).solve vak = vak := solve_atBias hroot
  have hcathode : (atBias c vak period armed).cathode c (c.biasLine.current vak) 0 = c.vk :=
    cathode_atBias hc hperiod hresistor
  have hline : (atBias c vak period armed).loadLine c = c.biasLine := rfl
  have hstart : (atBias c vak period armed).vak = vak := rfl
  rw [hline] at hanode
  simp only [step, hgrid, hline, hstart, hanode, hcathode, zero_sub]
  cases tap with
  | direct => rfl
  | coupled =>
    have hblocked : (atBias c vak period armed).coupledOutput c
        (c.vb - c.ra * c.biasLine.current vak) = 0 := by
      simp only [coupledOutput, atBias, sub_self, zero_mul, add_zero]
    rw [hblocked]
    rfl

/-- At a bias point that lies on the load line, with the cathode resistor that it asks for, silence
changes nothing, whatever resistance the silence comes from and wherever the signal is taken. Nothing
that is divided by vanishes there. -/
theorem silence_keeps_bias_point (hvalid : c.defect? = none) (hthreshold : 0 ≤ c.gridThreshold)
    (hcurve : c.curve.Regular) (hperiod : 0 < period) (hroot : c.biasLine.residual vak = 0)
    (hresistor : c.rk * c.biasLine.current vak = c.vk) (armed : Bool) :
    let p := atBias c vak period armed
    (∀ tap ri, 0 < ri → Divisors p c 0 ri ∧ p.step c tap 0 ri = (quiet c vak tap, p)) ∧
      (∀ tap (sources : List K), (∀ ri ∈ sources, 0 < ri) →
        run c tap p (sources.map fun ri => (0, ri)) =
          (List.replicate sources.length (quiet c vak tap), p)) ∧
      (quiet c vak .coupled).vo = 0 ∧ (quiet c vak .direct).va = c.vb - c.ra * p.ia ∧
      0 < (quiet c vak .direct).ri ∧ (quiet c vak .direct).ri ≤ c.ra := by
  intro p
  have hc : c.Sound := ⟨hcurve, (c.defect_none_iff.mp hvalid).1⟩
  have hra : 0 < c.ra := hc.positive .ra (by decide)
  have hstep : ∀ tap ri, 0 < ri → Divisors p c 0 ri ∧ p.step c tap 0 ri = (quiet c vak tap, p) := by
    intro tap ri hri
    constructor
    · exact divisors_pos hc (atBias_charged hc hperiod.le hroot) hri
    · exact step_atBias hc hthreshold hperiod.le hroot hresistor tap ri
  refine ⟨hstep, ?_, rfl, rfl, c.curve.outputResistance_bounds _ _ _ hra⟩
  intro tap sources hsources
  have hfixed : ∀ x ∈ sources.map fun ri => ((0 : K), ri),
      p.step c tap x.1 x.2 = (quiet c vak tap, p) := by
    intro x hx
    obtain ⟨ri, hmem, rfl⟩ := List.mem_map.mp hx
    exact (hstep tap ri (hsources ri hmem)).2
  rw [run_of_step_fixed hfixed, List.length_map]

/-- A tube and a circuit whose bias point is a whole number of volts. -/
theorem silence_keeps_bias_point_whole_volts :
    let c : Circuit ℚ :=
      { curve := ⟨2, 1, 1, 1⟩, ri := 100, rg := 1000, ci := 1 / 50, co := 1 / 20
        gridThreshold := 3 / 5, rk := 2 / 3, ra := 2, ck := 1 / 10, vk := 1, vb := 6
        autoBias := false }
    let p := atBias c 2 (1 / 48000) true
    c.defect? = none ∧ c.biasLine.residual 2 = 0 ∧ c.rk * c.biasLine.current 2 = c.vk ∧
      p.step c .coupled 0 100 = (.coupled 0, p) ∧
      run c .direct p [(0, 100), (0, 7), (0, 1 / 2)] =
        (List.replicate 3 (.direct 3 (c.biasLine.outputResistance 2)), p) ∧
      0 < c.biasLine.outputResistance 2 ∧ c.biasLine.outputResistance 2 ≤ c.ra := by
  intro c p
  have hvalid : c.defect? = none := by
    rw [Circuit.defect_none_iff]
    decide +kernel
  have hthreshold : 0 ≤ c.gridThreshold := by decide +kernel
  have hcurve : c.curve.Regular :=
    ⟨by norm_num [c], by norm_num [c], by norm_num [c], by norm_num [c]⟩
  have hroot : c.biasLine.residual 2 = 0 := by decide +kernel
  have hresistor : c.rk * c.biasLine.current 2 = c.vk := by decide +kernel
  have hanode : c.vb - c.ra * c.biasLine.current 2 = 3 := by decide +kernel
  have hperiod : (0 : ℚ) < 1 / 48000 := by norm_num
  obtain ⟨hstep, hrun, -, -, hpos, hle⟩ :=
    silence_keeps_bias_point hvalid hthreshold hcurve hperiod hroot hresistor true
  have hlast := hrun .direct [100, 7, 1 / 2] (by norm_num)
  have hquiet : quiet c 2 .direct = .direct 3 (c.biasLine.outputResistance 2) := by
    rw [quiet, hanode]
  rw [hquiet] at hlast
  exact ⟨hvalid, hroot, hresistor, (hstep .coupled 100 (by norm_num)).2, hlast, hpos, hle⟩

end TubePreamp.OperatingPoint
