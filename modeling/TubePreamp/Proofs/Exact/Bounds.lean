import Mathlib
import TubePreamp.Proofs.Exact.OperatingPoint
import TubePreamp.Proofs.Stage.Bookkeeping

/-!
A bounded input keeps a stage bounded, in exact arithmetic and for as long as it runs. The grid
network and the output blocker are linear filters, but the grid clamps and the Newton solve may stop
anywhere, so neither is followed through time. What carries over from sample to sample is the part of
each voltage that a capacitor holds; every one of these is a weighted mean of what it was and of what
drives it.
-/

namespace TubePreamp

section Mean

variable {K : Type} [Field K] [LinearOrder K] [IsStrictOrderedRing K] {x y w b : K}

theorem mean_le (hw : 0 ≤ w) (hx : x ≤ b) (hy : y ≤ b) : (x + w * y) / (1 + w) ≤ b := by
  have hwy : w * y ≤ w * b := mul_le_mul_of_nonneg_left hy hw
  rw [div_le_iff₀ (by linarith)]
  linarith

theorem le_mean (hw : 0 ≤ w) (hx : b ≤ x) (hy : b ≤ y) : b ≤ (x + w * y) / (1 + w) := by
  have hwy : w * b ≤ w * y := mul_le_mul_of_nonneg_left hy hw
  rw [le_div_iff₀ (by linarith)]
  linarith

theorem abs_mean_le (hw : 0 ≤ w) (hx : |x| ≤ b) (hy : |y| ≤ b) : |(x + w * y) / (1 + w)| ≤ b := by
  rw [abs_le] at hx hy ⊢
  exact ⟨le_mean hw hx.1 hy.1, mean_le hw hx.2 hy.2⟩

end Mean

namespace Circuit

variable {K : Type} [Field K]

def divider (c : Circuit K) : K := c.rg / (c.ri + c.rg)

def gridSwing (c : Circuit K) (M : K) : K := 2 * M * c.rg / (c.ri + c.rg)

theorem gridSwing_eq (c : Circuit K) (M : K) :
    c.gridSwing M = c.divider * M + c.divider * M := by
  rw [gridSwing, divider]
  ring

variable [LinearOrder K] [IsStrictOrderedRing K] [Exact K] {c : Circuit K} {M : K}

def currentSwing (c : Circuit K) (M : K) : K :=
  c.curve.perveance (c.gridSwing M) * (c.gridSwing M + c.vb / c.curve.h) ^ 3

theorem divider_pos (hc : c.Sound) : 0 < c.divider := by
  have hri : 0 < c.ri := hc.positive .ri (by decide)
  have hrg : 0 < c.rg := hc.positive .rg (by decide)
  rw [divider]
  positivity

theorem gridSwing_nonneg (hc : c.Sound) (hM : 0 ≤ M) : 0 ≤ c.gridSwing M := by
  have hd := mul_nonneg (divider_pos hc).le hM
  rw [gridSwing_eq]
  exact add_nonneg hd hd

end Circuit

namespace OperatingPoint

section Inputs

variable {T : Type} [Sample T]

def afterInputs (c : Circuit T) (p : OperatingPoint T) (inputs : List (Tap × T)) :
    OperatingPoint T :=
  inputs.foldl (fun p x => (p.step c x.1 x.2 c.ri).2) p

end Inputs

variable {K : Type} [Field K]

/-- What the coupling capacitor adds to the grid voltage. -/
def charge (p : OperatingPoint K) (c : Circuit K) : K := p.vg - c.divider * p.vi

variable [LinearOrder K] [IsStrictOrderedRing K] [Exact K] {c : Circuit K} {p : OperatingPoint K}
  {M : K}

structure Bounded (p : OperatingPoint K) (c : Circuit K) (M : K) : Prop where
  charged : p.Charged c
  coherent : p.Coherent
  input : |p.vi| ≤ M
  charge : |p.charge c| ≤ c.divider * M
  ig_nonneg : 0 ≤ p.ig
  ig_le : p.ig ≤ c.gridSwing M / c.ri
  ia_nonneg : 0 ≤ p.ia
  ia_le : p.ia ≤ c.currentSwing M
  anode : p.va = c.vb - c.ra * p.ia
  vk_le : p.vk ≤ max c.vk (c.rk * (c.currentSwing M + c.gridSwing M / c.ri))

theorem Bounded.vg_le (h : p.Bounded c M) (hd : 0 ≤ c.divider) : |p.vg| ≤ c.gridSwing M := by
  have hsplit : p.vg = p.charge c + c.divider * p.vi := by
    rw [OperatingPoint.charge]
    ring
  have hinput : |c.divider * p.vi| ≤ c.divider * M := by
    rw [abs_mul, abs_of_nonneg hd]
    exact mul_le_mul_of_nonneg_left h.input hd
  calc |p.vg| = |p.charge c + c.divider * p.vi| := by rw [← hsplit]
    _ ≤ |p.charge c| + |c.divider * p.vi| := abs_add_le _ _
    _ ≤ c.divider * M + c.divider * M := add_le_add h.charge hinput
    _ = c.gridSwing M := (c.gridSwing_eq M).symm

/-- While the grid is open, the charge moves from where it was towards the one that cancels the
input. -/
theorem openGrid_charge (hc : c.Sound) (hp : 0 ≤ p.period) (vi : K) :
    p.openGrid c vi c.ri - c.divider * vi =
      (p.charge c + p.period / c.ci / (c.ri + c.rg) * -(c.divider * vi)) /
        (1 + p.period / c.ci / (c.ri + c.rg)) := by
  have hri : 0 < c.ri := hc.positive .ri (by decide)
  have hrg : 0 < c.rg := hc.positive .rg (by decide)
  have hci : 0 < c.ci := hc.positive .ci (by decide)
  have hnetwork : 0 < c.ri + c.rg + p.period / c.ci := by positivity
  have hweight : 0 < 1 + p.period / c.ci / (c.ri + c.rg) := by positivity
  rw [openGrid, OperatingPoint.charge, Circuit.divider]
  field_simp
  ring

theorem openGrid_le (hc : c.Sound) (hp : p.Bounded c M) {vi : K} (hvi : |vi| ≤ M) :
    |p.openGrid c vi c.ri - c.divider * vi| ≤ c.divider * M := by
  have hri : 0 < c.ri := hc.positive .ri (by decide)
  have hrg : 0 < c.rg := hc.positive .rg (by decide)
  have hci : 0 < c.ci := hc.positive .ci (by decide)
  have hperiod := hp.charged.period_nonneg
  have hweight : 0 ≤ p.period / c.ci / (c.ri + c.rg) := by positivity
  have hcancel : |-(c.divider * vi)| ≤ c.divider * M := by
    rw [abs_neg, abs_mul, abs_of_pos (Circuit.divider_pos hc)]
    exact mul_le_mul_of_nonneg_left hvi (Circuit.divider_pos hc).le
  rw [openGrid_charge hc hperiod]
  exact abs_mean_le hweight hp.charge hcancel

/-- The clamp only ever pulls the grid down, and not below ground. -/
theorem grid_charge_le (hc : c.Sound) (hthreshold : 0 ≤ c.gridThreshold) (hp : p.Bounded c M)
    {vi : K} (hvi : |vi| ≤ M) :
    |(p.grid c vi c.ri).1 - c.divider * vi| ≤ c.divider * M := by
  have hopen := openGrid_le hc hp hvi
  simp only [grid]
  split
  · next hdrive =>
    have hvk := hp.charged.vk_pos
    have hinput : c.divider * vi ≤ c.divider * M :=
      mul_le_mul_of_nonneg_left (le_of_abs_le hvi) (Circuit.divider_pos hc).le
    rw [abs_le] at hopen ⊢
    constructor
    · linarith
    · linarith [hopen.2]
  · exact hopen

theorem grid_current_le (hc : c.Sound) (hthreshold : 0 ≤ c.gridThreshold) (hM : 0 ≤ M)
    (hp : p.Bounded c M) {vi : K} (hvi : |vi| ≤ M) :
    (p.grid c vi c.ri).2 ≤ c.gridSwing M / c.ri := by
  have hri : 0 < c.ri := hc.positive .ri (by decide)
  simp only [grid]
  split
  · have hopen := le_of_abs_le (openGrid_le hc hp hvi)
    have hinput : c.divider * vi ≤ c.divider * M :=
      mul_le_mul_of_nonneg_left (le_of_abs_le hvi) (Circuit.divider_pos hc).le
    have hswing := c.gridSwing_eq M
    have hvk := hp.charged.vk_pos
    apply div_le_div_of_nonneg_right _ hri.le
    linarith
  · exact div_nonneg (Circuit.gridSwing_nonneg hc hM) hri.le

/-- The tube is driven by no more than the whole grid swing and the whole supply. -/
theorem anode_current_le (hc : c.Sound) (hM : 0 ≤ M) (hp : p.Bounded c M) :
    (p.loadLine c).current ((p.loadLine c).solve p.vak) ≤ c.currentSwing M := by
  have hh : 0 < c.curve.h := hc.curve.h_pos
  have hvb : 0 < c.vb := hc.positive .vb (by decide)
  have hvk := hp.charged.vk_pos
  have hswing := Circuit.gridSwing_nonneg hc hM
  have hvgk : p.vgk ≤ c.gridSwing M := by
    have hvg := le_of_abs_le (hp.vg_le (Circuit.divider_pos hc).le)
    rw [hp.coherent]
    linarith
  have hanode : (p.loadLine c).solve p.vak / c.curve.h ≤ c.vb / c.curve.h :=
    div_le_div_of_nonneg_right (anode_le hc hp.charged) hh.le
  apply Curve.current_le
  · exact (Curve.perveance_pos hc.curve p.vgk).le
  · exact Curve.perveance_mono hc.curve hvgk
  · positivity
  · exact add_le_add hvgk hanode

theorem cathode_le (hc : c.Sound) (hp : 0 ≤ p.period) {ia ig top : K} (hvk : p.vk ≤ top)
    (hcurrent : c.rk * (ia + ig) ≤ top) : p.cathode c ia ig ≤ top := by
  have hrk : 0 < c.rk := hc.positive .rk (by decide)
  have hck : 0 < c.ck := hc.positive .ck (by decide)
  have hweight : 0 ≤ p.period / (c.rk * c.ck) := by positivity
  have hmean : p.cathode c ia ig =
      (p.vk + p.period / (c.rk * c.ck) * (c.rk * (ia + ig))) / (1 + p.period / (c.rk * c.ck)) := by
    rw [cathode]
    field_simp
  rw [hmean]
  exact mean_le hweight hvk hcurrent

theorem step_bounded (hc : c.Sound) (hthreshold : 0 ≤ c.gridThreshold) (hM : 0 ≤ M)
    (hp : p.Bounded c M) (tap : Tap) {vi : K} (hvi : |vi| ≤ M) :
    (p.step c tap vi c.ri).2.Bounded c M := by
  have hri : 0 < c.ri := hc.positive .ri (by decide)
  have hrk : 0 < c.rk := hc.positive .rk (by decide)
  have hsettled := step_settled hc hp.charged tap vi hri
  have hia : (p.step c tap vi c.ri).2.ia ≤ c.currentSwing M := anode_current_le hc hM hp
  have hig : (p.step c tap vi c.ri).2.ig ≤ c.gridSwing M / c.ri :=
    grid_current_le hc hthreshold hM hp hvi
  constructor
  · exact step_charged hc hp.charged tap vi hri
  · exact step_coherent p c tap vi c.ri
  · exact hvi
  · exact grid_charge_le hc hthreshold hp hvi
  · exact hsettled.ig_nonneg
  · exact hig
  · exact hsettled.ia_nonneg
  · exact hia
  · rfl
  · apply cathode_le hc hp.charged.period_nonneg hp.vk_le
    exact (mul_le_mul_of_nonneg_left (add_le_add hia hig) hrk.le).trans (le_max_right _ _)

theorem reset_bounded (hc : c.Sound) (hM : 0 ≤ M) (q : OperatingPoint K) {period : K}
    (hperiod : 0 ≤ period) : (q.reset c period).Bounded c M := by
  have hri : 0 < c.ri := hc.positive .ri (by decide)
  have hvb : 0 < c.vb := hc.positive .vb (by decide)
  have hh : 0 < c.curve.h := hc.curve.h_pos
  have hswing := Circuit.gridSwing_nonneg hc hM
  have hperveance := Curve.perveance_pos hc.curve (c.gridSwing M)
  constructor
  · exact reset_charged hc q hperiod
  · exact reset_coherent q c period
  · simpa [reset, atRest] using hM
  · simpa [reset, atRest, OperatingPoint.charge] using mul_nonneg (Circuit.divider_pos hc).le hM
  · exact le_rfl
  · exact div_nonneg hswing hri.le
  · exact le_rfl
  · simp only [reset, atRest, Circuit.currentSwing]
    positivity
  · simp [reset, atRest]
  · exact le_max_left _ _

theorem afterInputs_bounded (hc : c.Sound) (hthreshold : 0 ≤ c.gridThreshold) (hM : 0 ≤ M)
    (hp : p.Bounded c M) {inputs : List (Tap × K)} (hin : ∀ x ∈ inputs, |x.2| ≤ M) :
    (afterInputs c p inputs).Bounded c M := by
  induction inputs generalizing p with
  | nil => exact hp
  | cons x rest ih =>
    rw [List.forall_mem_cons] at hin
    exact ih (step_bounded hc hthreshold hM hp x.1 hin.1) hin.2

theorem Bounded.va_bounds (h : p.Bounded c M) (hra : 0 ≤ c.ra) :
    c.vb - c.ra * c.currentSwing M ≤ p.va ∧ p.va ≤ c.vb := by
  have hdrop := mul_le_mul_of_nonneg_left h.ia_le hra
  have hsign := mul_nonneg hra h.ia_nonneg
  rw [h.anode]
  constructor
  · linarith
  · linarith

/-- What the output capacitor holds: the anode voltage taken off the output, within its range. -/
structure Blocked (p : OperatingPoint K) (c : Circuit K) (M : K) : Prop where
  le : -c.vb ≤ p.vo - p.va
  ge : p.vo - p.va ≤ c.ra * c.currentSwing M - c.vb

theorem Blocked.vo_le (h : p.Blocked c M) (hp : p.Bounded c M) (hra : 0 ≤ c.ra) :
    |p.vo| ≤ c.ra * c.currentSwing M := by
  obtain ⟨hlow, hhigh⟩ := hp.va_bounds hra
  have hle := h.le
  have hge := h.ge
  rw [abs_le]
  constructor
  · linarith
  · linarith

/-- While the leak takes no more than it holds, the output capacitor moves towards the anode. -/
theorem step_blocked (hc : c.Sound) (hp : p.Bounded c M) (hb : p.Blocked c M)
    (hleak : p.period ≤ c.co * c.rg) (vi : K) : (p.step c .coupled vi c.ri).2.Blocked c M := by
  have hra : 0 < c.ra := hc.positive .ra (by decide)
  have hcorner : 0 < c.co * c.rg :=
    mul_pos (hc.positive .co (by decide)) (hc.positive .rg (by decide))
  obtain ⟨hlow, hhigh⟩ := hp.va_bounds hra.le
  have hle := hb.le
  have hge := hb.ge
  have hzero : 0 ≤ p.period / (c.co * c.rg) := div_nonneg hp.charged.period_nonneg hcorner.le
  have hone : 0 ≤ 1 - p.period / (c.co * c.rg) := sub_nonneg.mpr ((div_le_one hcorner).mpr hleak)
  have hmean : (p.step c .coupled vi c.ri).2.vo - (p.step c .coupled vi c.ri).2.va =
      (1 - p.period / (c.co * c.rg)) * (p.vo - p.va) + p.period / (c.co * c.rg) * -p.va := by
    simp only [step, Output.vo, coupledOutput]
    ring
  constructor
  · rw [hmean]
    have hheld := mul_le_mul_of_nonneg_left hle hone
    have hdriven := mul_le_mul_of_nonneg_left (neg_le_neg hhigh) hzero
    linarith
  · rw [hmean]
    have hheld := mul_le_mul_of_nonneg_left hge hone
    have hdriven := mul_le_mul_of_nonneg_left (neg_le_neg hlow) hzero
    linarith

theorem afterInputs_blocked (hc : c.Sound) (hthreshold : 0 ≤ c.gridThreshold) (hM : 0 ≤ M)
    (hp : p.Bounded c M) (hb : p.Blocked c M) (hleak : p.period ≤ c.co * c.rg)
    {inputs : List (Tap × K)} (hin : ∀ x ∈ inputs, |x.2| ≤ M)
    (htap : ∀ x ∈ inputs, x.1 = .coupled) : (afterInputs c p inputs).Blocked c M := by
  induction inputs generalizing p with
  | nil => exact hb
  | cons x rest ih =>
    rw [List.forall_mem_cons] at hin htap
    have hnext := step_bounded hc hthreshold hM hp x.1 hin.1
    have hblocked : (p.step c x.1 x.2 c.ri).2.Blocked c M := by
      rw [htap.1]
      exact step_blocked hc hp hb hleak x.2
    exact ih hnext hblocked hleak hin.2 htap.2

theorem reset_blocked (hc : c.Sound) (hM : 0 ≤ M) (q : OperatingPoint K) (period : K) :
    (q.reset c period).Blocked c M := by
  have hra : 0 < c.ra := hc.positive .ra (by decide)
  have hvb : 0 < c.vb := hc.positive .vb (by decide)
  have hh : 0 < c.curve.h := hc.curve.h_pos
  have hswing := Circuit.gridSwing_nonneg hc hM
  have hperveance := Curve.perveance_pos hc.curve (c.gridSwing M)
  have hcurrent : 0 ≤ c.ra * c.currentSwing M := by
    rw [Circuit.currentSwing]
    positivity
  constructor
  · simp [reset, atRest]
  · simp only [reset, atRest]
    linarith

/-- Inputs up to `M`, however many, keep a stage that starts at rest within bounds that depend on the
circuit and on `M` alone. Where every sample is coupled out and the period is at most the time
constant of the output, the output is bounded too. -/
theorem bounded_input_keeps_stage_bounded (hvalid : c.defect? = none)
    (hthreshold : 0 ≤ c.gridThreshold) (hcurve : c.curve.Regular) {period : K} (hperiod : 0 < period)
    (hM : 0 ≤ M) (hp : p = atRest c period ∨ ∃ q : OperatingPoint K, p = q.reset c period)
    {inputs : List (Tap × K)} (hin : ∀ x ∈ inputs, |x.2| ≤ M) :
    let V := 2 * M * c.rg / (c.ri + c.rg)
    let I := c.curve.perveance V * (V + c.vb / c.curve.h) ^ 3
    let q := afterInputs c p inputs
    |q.vg| ≤ V ∧ (0 ≤ q.ig ∧ q.ig ≤ V / c.ri) ∧ (0 ≤ q.ia ∧ q.ia ≤ I) ∧
      (c.vb - c.ra * I ≤ q.va ∧ q.va ≤ c.vb) ∧ q.vak ≤ c.vb ∧
      (0 < q.vk ∧ q.vk ≤ max c.vk (c.rk * (I + V / c.ri))) ∧
      ((∀ x ∈ inputs, x.1 = .coupled) → period ≤ c.co * c.rg → |q.vo| ≤ c.ra * I) := by
  intro V I q
  have hc : c.Sound := ⟨hcurve, (c.defect_none_iff.mp hvalid).1⟩
  have hra : 0 < c.ra := hc.positive .ra (by decide)
  have hrest : ∃ r : OperatingPoint K, p = r.reset c period := by
    rcases hp with hp | hp
    · exact ⟨p, by rw [hp]; rfl⟩
    · exact hp
  obtain ⟨r, rfl⟩ := hrest
  have hstart := reset_bounded hc hM r hperiod.le
  have hq : q.Bounded c M := afterInputs_bounded hc hthreshold hM hstart hin
  refine ⟨hq.vg_le (Circuit.divider_pos hc).le, ⟨hq.ig_nonneg, hq.ig_le⟩, ⟨hq.ia_nonneg, hq.ia_le⟩,
    hq.va_bounds hra.le, hq.charged.vak_le, ⟨hq.charged.vk_pos, hq.vk_le⟩, ?_⟩
  intro htap hleak
  have hblocked : q.Blocked c M :=
    afterInputs_blocked hc hthreshold hM hstart (reset_blocked hc hM r period) hleak hin htap
  exact hblocked.vo_le hq hra.le

theorem bounded_input_keeps_stage_bounded_ecc83 :
    let c : Circuit ℚ := .ofTube .ecc83
    let V := 2 * 10 * c.rg / (c.ri + c.rg)
    let I := c.curve.perveance V * (V + c.vb / c.curve.h) ^ 3
    let q := afterInputs c (atRest c (1 / 48000)) [(.coupled, 10), (.coupled, -10), (.coupled, 1 / 2)]
    c.defect? = none ∧ |q.vg| ≤ V ∧ (0 ≤ q.ig ∧ q.ig ≤ V / c.ri) ∧ (0 ≤ q.ia ∧ q.ia ≤ I) ∧
      (c.vb - c.ra * I ≤ q.va ∧ q.va ≤ c.vb) ∧ q.vak ≤ c.vb ∧
      (0 < q.vk ∧ q.vk ≤ max c.vk (c.rk * (I + V / c.ri))) ∧ |q.vo| ≤ c.ra * I := by
  have hsound : (Circuit.ofTube .ecc83 : Circuit ℚ).Sound := Circuit.ofTube_sound .ecc83
  have hsupply : exactly ℚ 1.5 < exactly ℚ 250 := by decide +kernel
  have hvalid := (Circuit.defect_none_iff _).mpr ⟨hsound.positive, hsupply⟩
  have hthreshold : 0 ≤ (Circuit.ofTube .ecc83 : Circuit ℚ).gridThreshold :=
    exactly_nonneg (x := Circuit.defaultGridThreshold) (by decide +kernel)
  have hconstant : (1 / 48000 : ℚ) ≤ exactly ℚ Circuit.defaultCo * exactly ℚ Circuit.defaultRg := by
    decide +kernel
  have hleak : (1 / 48000 : ℚ) ≤
      (Circuit.ofTube .ecc83 : Circuit ℚ).co * (Circuit.ofTube .ecc83 : Circuit ℚ).rg := hconstant
  -- From here on the values of the circuit must not be looked at: they are long fractions.
  generalize (Circuit.ofTube .ecc83 : Circuit ℚ) = c at *
  have hperiod : (0 : ℚ) < 1 / 48000 := by norm_num
  have hM : (0 : ℚ) ≤ 10 := by norm_num
  have hin : ∀ x ∈ [(Tap.coupled, (10 : ℚ)), (.coupled, -10), (.coupled, 1 / 2)], |x.2| ≤ 10 := by
    norm_num
  obtain ⟨hvg, hig, hia, hva, hvak, hvk, hvo⟩ := bounded_input_keeps_stage_bounded hvalid hthreshold
    hsound.curve hperiod hM (.inl rfl) hin
  exact ⟨hvalid, hvg, hig, hia, hva, hvak, hvk, hvo (by simp) hleak⟩

end OperatingPoint

end TubePreamp
