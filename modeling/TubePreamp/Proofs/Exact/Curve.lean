import Mathlib
import TubePreamp.Tube
import TubePreamp.Proofs.Exact.Arithmetic

/-!
The transfer curve in exact arithmetic. Its limit and its span apart, the perveance is one function of
the drive `d * vgk`: a hyperbola up to zero and its tangent above. The two branches meet with one value
and one slope, so that the perveance rises with every rise of the grid and lies nowhere below the
tangent.
-/

namespace TubePreamp.Curve

section Rise

variable {K : Type} [Field K] [LinearOrder K] {u : K}

/-- How far the perveance is above its limit, in units of the span, at the drive `u`. -/
def rise (u : K) : K := if u ≤ 0 then 1 / (1 - u) else 1 + u

theorem rise_of_nonpos (hu : u ≤ 0) : rise u = 1 / (1 - u) := if_pos hu

theorem rise_of_pos (hu : 0 < u) : rise u = 1 + u := if_neg (not_le.mpr hu)

variable [IsStrictOrderedRing K]

/-- The hyperbola has its pole above the drives that it is used for. -/
theorem pole_above (hu : u ≤ 0) : 0 < 1 - u := by linarith

theorem rise_pos (u : K) : 0 < rise u := by
  by_cases hu : u ≤ 0
  · rw [rise_of_nonpos hu]
    exact one_div_pos.mpr (pole_above hu)
  · rw [rise_of_pos (not_le.mp hu)]
    linarith

theorem rise_le_one (hu : u ≤ 0) : rise u ≤ 1 := by
  rw [rise_of_nonpos hu, div_le_one (pole_above hu)]
  linarith

theorem one_lt_rise (hu : 0 < u) : 1 < rise u := by
  rw [rise_of_pos hu]
  linarith

theorem rise_strictMono : StrictMono (rise : K → K) := by
  intro u v huv
  by_cases hv : v ≤ 0
  · rw [rise_of_nonpos (huv.le.trans hv), rise_of_nonpos hv]
    apply one_div_lt_one_div_of_lt (pole_above hv)
    linarith
  · have hv : 0 < v := not_le.mp hv
    by_cases hu : u ≤ 0
    · exact (rise_le_one hu).trans_lt (one_lt_rise hv)
    · rw [rise_of_pos (not_le.mp hu), rise_of_pos hv]
      linarith

theorem rise_sub_tangent (hu : u ≤ 0) : rise u - (1 + u) = u ^ 2 * rise u := by
  have hpole := (pole_above hu).ne'
  rw [rise_of_nonpos hu]
  field_simp
  ring

theorem rise_near_tangent (u : K) : 0 ≤ rise u - (1 + u) ∧ rise u - (1 + u) ≤ u ^ 2 := by
  by_cases hu : u ≤ 0
  · rw [rise_sub_tangent hu]
    constructor
    · exact mul_nonneg (sq_nonneg u) (rise_pos u).le
    · exact mul_le_of_le_one_right (sq_nonneg u) (rise_le_one hu)
  · rw [rise_of_pos (not_le.mp hu), sub_self]
    exact ⟨le_rfl, sq_nonneg u⟩

theorem rise_eq_tangent_iff : rise u - (1 + u) = 0 ↔ 0 ≤ u := by
  rcases lt_trichotomy u 0 with hneg | rfl | hpos
  · have hgap : 0 < rise u - (1 + u) := by
      rw [rise_sub_tangent hneg.le]
      exact mul_pos (sq_pos_of_neg hneg) (rise_pos u)
    exact iff_of_false hgap.ne' (not_le.mpr hneg)
  · rw [rise_sub_tangent le_rfl]
    simp
  · rw [rise_of_pos hpos, sub_self]
    exact iff_of_true rfl hpos.le

theorem rise_lt {ε : K} (hε : 0 < ε) (hu : u ≤ -(1 / ε)) : rise u < ε := by
  have hinverse : 0 < 1 / ε := one_div_pos.mpr hε
  have hneg : u ≤ 0 := by linarith
  rw [rise_of_nonpos hneg, one_div_lt (pole_above hneg) hε]
  linarith

end Rise

variable {K : Type} [Field K] [LinearOrder K] [IsStrictOrderedRing K] [Exact K] {c : Curve K}

theorem perveance_eq_rise (hd : 0 ≤ c.d) (v : K) :
    c.perveance v = c.gInf + (c.g0 - c.gInf) * rise (c.d * v) := by
  by_cases hv : v ≤ 0
  · have hdrive : c.d * v ≤ 0 := mul_nonpos_of_nonneg_of_nonpos hd hv
    rw [rise_of_nonpos hdrive, mul_one_div]
    exact if_pos hv
  · rcases hd.eq_or_lt with hzero | hpos
    · -- without a sensitivity both branches are constant
      rw [← hzero, zero_mul, rise_of_nonpos le_rfl]
      simp [perveance, ← hzero]
    · rw [rise_of_pos (mul_pos hpos (not_le.mp hv))]
      exact if_neg hv

theorem perveance_sub_tangent (hd : 0 ≤ c.d) (v : K) :
    c.perveance v - (c.g0 + (c.g0 - c.gInf) * c.d * v) =
      (c.g0 - c.gInf) * (rise (c.d * v) - (1 + c.d * v)) := by
  rw [perveance_eq_rise hd]
  ring

theorem limit_lt_perveance (hspan : c.gInf < c.g0) (hd : 0 ≤ c.d) (v : K) :
    c.gInf < c.perveance v := by
  rw [perveance_eq_rise hd]
  exact lt_add_of_pos_right _ (mul_pos (sub_pos.mpr hspan) (rise_pos _))

theorem perveance_strictMono (hspan : c.gInf < c.g0) (hd : 0 < c.d) : StrictMono c.perveance := by
  intro v w hvw
  have hdrive : c.d * v < c.d * w := mul_lt_mul_of_pos_left hvw hd
  have hrise := mul_lt_mul_of_pos_left (rise_strictMono hdrive) (sub_pos.mpr hspan)
  rw [perveance_eq_rise hd.le, perveance_eq_rise hd.le]
  linarith

theorem perveance_le_iff (hspan : c.gInf < c.g0) (hd : 0 < c.d) (v : K) :
    c.perveance v ≤ c.g0 ↔ v ≤ 0 := by
  have hzero : c.perveance 0 = c.g0 := by
    rw [perveance_eq_rise hd.le, mul_zero, rise_of_nonpos le_rfl]
    ring
  rw [← hzero]
  exact (perveance_strictMono hspan hd).le_iff_le

theorem perveance_near_tangent (hspan : c.gInf ≤ c.g0) (hd : 0 ≤ c.d) (v : K) :
    0 ≤ c.perveance v - (c.g0 + (c.g0 - c.gInf) * c.d * v) ∧
      c.perveance v - (c.g0 + (c.g0 - c.gInf) * c.d * v) ≤
        (c.g0 - c.gInf) * c.d ^ 2 * v ^ 2 := by
  have hs : 0 ≤ c.g0 - c.gInf := sub_nonneg.mpr hspan
  obtain ⟨hlow, hhigh⟩ := rise_near_tangent (c.d * v)
  rw [perveance_sub_tangent hd]
  constructor
  · exact mul_nonneg hs hlow
  · calc (c.g0 - c.gInf) * (rise (c.d * v) - (1 + c.d * v))
        ≤ (c.g0 - c.gInf) * (c.d * v) ^ 2 := mul_le_mul_of_nonneg_left hhigh hs
      _ = (c.g0 - c.gInf) * c.d ^ 2 * v ^ 2 := by ring

theorem perveance_eq_tangent_iff (hspan : c.gInf < c.g0) (hd : 0 < c.d) (v : K) :
    c.perveance v - (c.g0 + (c.g0 - c.gInf) * c.d * v) = 0 ↔ 0 ≤ v := by
  have hs : c.g0 - c.gInf ≠ 0 := (sub_pos.mpr hspan).ne'
  rw [perveance_sub_tangent hd.le, mul_eq_zero_iff_left hs, rise_eq_tangent_iff,
    mul_nonneg_iff_of_pos_left hd]

theorem perveance_near_limit (hspan : c.gInf < c.g0) (hd : 0 < c.d) {ε : K} (hε : 0 < ε) :
    ∃ v₀, ∀ v ≤ v₀, c.perveance v < c.gInf + ε := by
  have hs : 0 < c.g0 - c.gInf := sub_pos.mpr hspan
  have hshare : 0 < ε / (c.g0 - c.gInf) := div_pos hε hs
  -- below the drive at which the hyperbola has come down to the share that `ε` is of the span
  refine ⟨-(1 / (ε / (c.g0 - c.gInf))) / c.d, ?_⟩
  intro v hv
  have hdrive : c.d * v ≤ -(1 / (ε / (c.g0 - c.gInf))) := by
    rwa [le_div_iff₀' hd] at hv
  have hrise : rise (c.d * v) < ε / (c.g0 - c.gInf) := rise_lt hshare hdrive
  rw [lt_div_iff₀' hs] at hrise
  rw [perveance_eq_rise hd.le]
  linarith

/-- The perveance rises strictly from its limit, which it approaches and never reaches, through `g0`
at the grid voltage zero. There the tangent of the hyperbola takes over: the perveance lies above it
by no more than a square, and by nothing exactly from zero on. -/
theorem perveance_law (hspan : c.gInf < c.g0) (hd : 0 < c.d) :
    StrictMono c.perveance ∧ (∀ v, c.gInf < c.perveance v) ∧ (∀ v, c.perveance v ≤ c.g0 ↔ v ≤ 0) ∧
      (∀ v, let above := c.perveance v - (c.g0 + (c.g0 - c.gInf) * c.d * v)
        0 ≤ above ∧ above ≤ (c.g0 - c.gInf) * c.d ^ 2 * v ^ 2 ∧ (above = 0 ↔ 0 ≤ v)) ∧
      ∀ ε, 0 < ε → ∃ v₀, ∀ v ≤ v₀, c.perveance v < c.gInf + ε := by
  refine ⟨perveance_strictMono hspan hd, limit_lt_perveance hspan hd.le,
    perveance_le_iff hspan hd, ?_, ?_⟩
  · intro v above
    obtain ⟨hlow, hhigh⟩ := perveance_near_tangent hspan.le hd.le v
    exact ⟨hlow, hhigh, perveance_eq_tangent_iff hspan hd v⟩
  · intro ε hε
    exact perveance_near_limit hspan hd hε

/-- A tube of the table, on either side of the grid voltage zero. -/
theorem perveance_law_ecc83 :
    let c : Curve ℚ := .ofDatasheet Tube.ecc83.datasheet
    c.gInf < c.g0 ∧ 0 < c.d ∧ c.perveance (-1 / 2) < c.perveance (1 / 2) ∧
      c.gInf < c.perveance (-100) ∧ c.perveance (-1 / 2) ≤ c.g0 ∧ ¬c.perveance (1 / 2) ≤ c.g0 ∧
      c.perveance (-1 / 2) - (c.g0 + (c.g0 - c.gInf) * c.d * (-1 / 2)) ≤
        (c.g0 - c.gInf) * c.d ^ 2 * (-1 / 2) ^ 2 ∧
      c.perveance (1 / 2) - (c.g0 + (c.g0 - c.gInf) * c.d * (1 / 2)) = 0 ∧
      ∃ v₀, ∀ v ≤ v₀, c.perveance v < c.gInf + 1 / 10 ^ 20 := by
  intro c
  have hspan : c.gInf < c.g0 := by decide +kernel
  have hd : 0 < c.d := by decide +kernel
  obtain ⟨hrises, hlimit, hbelow, htangent, hnear⟩ := perveance_law hspan hd
  have hhigh : ¬c.perveance (1 / 2) ≤ c.g0 := by
    rw [hbelow]
    norm_num
  exact ⟨hspan, hd, hrises (by norm_num), hlimit (-100), (hbelow _).mpr (by norm_num), hhigh,
    (htangent (-1 / 2)).2.1, (htangent (1 / 2)).2.2.mpr (by norm_num), hnear _ (by norm_num)⟩

end TubePreamp.Curve

/-!
What the four coefficients must satisfy, and the signs and bounds that follow.
-/

namespace TubePreamp.Curve

variable {K : Type} [Field K] [LinearOrder K] [IsStrictOrderedRing K]

structure Regular (c : Curve K) : Prop where
  limit_pos : 0 < c.gInf
  limit_le : c.gInf ≤ c.g0
  d_nonneg : 0 ≤ c.d
  h_pos : 0 < c.h

theorem Regular.hyperbola_pos {c : Curve K} (hc : c.Regular) {vgk : K} (hv : vgk ≤ 0) :
    0 < 1 - c.d * vgk :=
  pole_above (mul_nonpos_of_nonneg_of_nonpos hc.d_nonneg hv)

variable [Exact K]

theorem perveance_pos {c : Curve K} (hc : c.Regular) (vgk : K) : 0 < c.perveance vgk := by
  have hspan : 0 ≤ c.g0 - c.gInf := sub_nonneg.mpr hc.limit_le
  rw [perveance_eq_rise hc.d_nonneg]
  exact add_pos_of_pos_of_nonneg hc.limit_pos (mul_nonneg hspan (rise_pos _).le)

theorem perveance_mono {c : Curve K} (hc : c.Regular) : Monotone c.perveance := by
  intro v w hvw
  have hspan : 0 ≤ c.g0 - c.gInf := sub_nonneg.mpr hc.limit_le
  have hdrive : c.d * v ≤ c.d * w := mul_le_mul_of_nonneg_left hvw hc.d_nonneg
  have hrise : rise (c.d * v) ≤ rise (c.d * w) := rise_strictMono.monotone hdrive
  rw [perveance_eq_rise hc.d_nonneg, perveance_eq_rise hc.d_nonneg]
  exact add_le_add_right (mul_le_mul_of_nonneg_left hrise hspan) c.gInf

theorem control_sub (c : Curve K) (vgk v w : K) :
    c.control vgk w - c.control vgk v = (w - v) / c.h := by
  simp only [control]
  ring

section Branches

variable {c : Curve K} {vgk vak : K}

theorem current_cut_off (hx : c.control vgk vak ≤ 0) (g : K) : c.current g vgk vak = 0 := by
  simp only [current, if_pos hx]

theorem conductance_cut_off (hx : c.control vgk vak ≤ 0) (g : K) :
    c.conductance g vgk vak = 0 := by
  simp only [conductance, if_pos hx]

/-- The cubic also holds at the control voltage zero, where the tube is just cut off. -/
theorem current_eq_cubic (hx : 0 ≤ c.control vgk vak) (g : K) :
    c.current g vgk vak = g * c.control vgk vak ^ 3 := by
  rcases hx.eq_or_lt with hzero | hpos
  · rw [current_cut_off hzero.ge, ← hzero]
    ring
  · simp only [current, if_neg (not_le.mpr hpos)]
    ring

theorem conductance_eq_square (hx : 0 ≤ c.control vgk vak) (g : K) :
    c.conductance g vgk vak = 3 * g / c.h * c.control vgk vak ^ 2 := by
  rcases hx.eq_or_lt with hzero | hpos
  · rw [conductance_cut_off hzero.ge, ← hzero]
    ring
  · simp only [conductance, ofDouble_three, if_neg (not_le.mpr hpos)]
    ring

theorem current_pos {g : K} (hg : 0 < g) (hx : 0 < c.control vgk vak) :
    0 < c.current g vgk vak := by
  rw [current_eq_cubic hx.le]
  positivity

end Branches

theorem current_nonneg (c : Curve K) {g : K} (hg : 0 ≤ g) (vgk vak : K) :
    0 ≤ c.current g vgk vak := by
  rcases le_total (c.control vgk vak) 0 with hx | hx
  · exact (current_cut_off hx g).ge
  · rw [current_eq_cubic hx]
    positivity

theorem current_le (c : Curve K) {g gMax vgk vak x : K} (hg : 0 ≤ g) (hgMax : g ≤ gMax)
    (hx : 0 ≤ x) (hcontrol : c.control vgk vak ≤ x) : c.current g vgk vak ≤ gMax * x ^ 3 := by
  rcases le_total (c.control vgk vak) 0 with hoff | hon
  · rw [current_cut_off hoff]
    exact mul_nonneg (hg.trans hgMax) (pow_nonneg hx 3)
  · have hcube : c.control vgk vak ^ 3 ≤ x ^ 3 := pow_le_pow_left₀ hon hcontrol 3
    rw [current_eq_cubic hon]
    calc g * c.control vgk vak ^ 3
        ≤ g * x ^ 3 := mul_le_mul_of_nonneg_left hcube hg
      _ ≤ gMax * x ^ 3 := mul_le_mul_of_nonneg_right hgMax (pow_nonneg hx 3)

theorem conductance_nonneg {c : Curve K} (hh : 0 < c.h) {g : K} (hg : 0 ≤ g) (vgk vak : K) :
    0 ≤ c.conductance g vgk vak := by
  rcases le_total (c.control vgk vak) 0 with hx | hx
  · exact (conductance_cut_off hx g).ge
  · rw [conductance_eq_square hx]
    positivity

/-- The current is convex in the anode voltage, across the cut-off too: it lies on or above each of
its tangents. -/
theorem current_tangent (c : Curve K) {g : K} (hg : 0 ≤ g) (vgk v w : K) :
    c.conductance g vgk v * (w - v) ≤ c.current g vgk w - c.current g vgk v := by
  rcases le_total (c.control vgk v) 0 with hv | hv
  · rw [conductance_cut_off hv, current_cut_off hv, zero_mul, sub_zero]
    exact c.current_nonneg hg vgk w
  · have htangent : c.conductance g vgk v * (w - v) =
        3 * g * c.control vgk v ^ 2 * (c.control vgk w - c.control vgk v) := by
      rw [conductance_eq_square hv, control_sub]
      ring
    rw [htangent, current_eq_cubic hv]
    rcases le_total (c.control vgk w) 0 with hw | hw
    · have hdrop : 0 ≤ g * c.control vgk v ^ 2 * (2 * c.control vgk v - 3 * c.control vgk w) :=
        mul_nonneg (by positivity) (by linarith)
      rw [current_cut_off hw]
      linarith
    · have hgap : 0 ≤ g * ((c.control vgk w - c.control vgk v) ^ 2 *
          (c.control vgk w + 2 * c.control vgk v)) := by positivity
      rw [current_eq_cubic hw]
      linarith

theorem outputResistance_bounds (c : Curve K) (g vgk vak : K) {ra : K} (hra : 0 < ra) :
    0 < c.outputResistance g vgk vak ra ∧ c.outputResistance g vgk vak ra ≤ ra := by
  by_cases hslope : c.conductance g vgk vak ≤ 0
  · simp only [outputResistance, if_pos hslope]
    exact ⟨hra, le_rfl⟩
  · have hxi : 0 < 1 / c.conductance g vgk vak := one_div_pos.mpr (not_le.mp hslope)
    simp only [outputResistance, if_neg hslope]
    refine ⟨div_pos (mul_pos hra hxi) (add_pos hra hxi), ?_⟩
    rw [div_le_iff₀ (add_pos hra hxi)]
    exact mul_le_mul_of_nonneg_left (by linarith) hra.le

end TubePreamp.Curve

/-!
The conductance is the slope of the anode current, on either side of cut-off and across it. The
current lies between the tangents at any two anode voltages. The tangents turn into one another as
the voltages approach, which makes the conductance the derivative, and the resistance that the next
stage sees falls as they get steeper.
-/

namespace TubePreamp.Curve

variable {K : Type} [Field K] [LinearOrder K] [IsStrictOrderedRing K] [Exact K] {c : Curve K} {g : K}

theorem current_between_tangents (c : Curve K) (hg : 0 ≤ g) (vgk v w : K) :
    c.conductance g vgk v * (w - v) ≤ c.current g vgk w - c.current g vgk v ∧
      c.current g vgk w - c.current g vgk v ≤ c.conductance g vgk w * (w - v) := by
  have hbehind := c.current_tangent hg vgk v w
  have hahead := c.current_tangent hg vgk w v
  constructor
  · exact hbehind
  · linarith

/-- Two tangents that enclose the same rise are ordered like their points. -/
theorem conductance_mono (c : Curve K) (hg : 0 ≤ g) (vgk : K) : Monotone (c.conductance g vgk) := by
  intro v w hvw
  rcases hvw.eq_or_lt with rfl | hlt
  · exact le_rfl
  · obtain ⟨hlow, hhigh⟩ := c.current_between_tangents hg vgk v w
    apply le_of_mul_le_mul_right _ (sub_pos.mpr hlt)
    exact hlow.trans hhigh

theorem conductance_eq_clipped (c : Curve K) (g vgk vak : K) :
    c.conductance g vgk vak = 3 * g / c.h * max (c.control vgk vak) 0 ^ 2 := by
  rcases le_total (c.control vgk vak) 0 with hx | hx
  · rw [conductance_cut_off hx, max_eq_right hx]
    ring
  · rw [conductance_eq_square hx, max_eq_left hx]

theorem clipped_control_near (hh : 0 < c.h) (vgk v w : K) :
    |max (c.control vgk w) 0 - max (c.control vgk v) 0| ≤ |w - v| / c.h := by
  calc |max (c.control vgk w) 0 - max (c.control vgk v) 0|
      ≤ |c.control vgk w - c.control vgk v| := abs_max_sub_max_le_abs _ _ _
    _ = |w - v| / c.h := by rw [control_sub, abs_div, abs_of_pos hh]

/-- While the control voltage moves by no more than a volt, the conductance moves in proportion at
most. -/
theorem conductance_near (hh : 0 < c.h) (hg : 0 ≤ g) (vgk v : K) :
    ∃ steepness, 0 ≤ steepness ∧ ∀ w, |w - v| ≤ c.h →
      |c.conductance g vgk w - c.conductance g vgk v| ≤ steepness * |w - v| := by
  have hfactor : 0 ≤ 3 * g / c.h := by positivity
  have hclipped : ∀ u, 0 ≤ max (c.control vgk u) 0 := fun u => le_max_right _ _
  have hfrom := hclipped v
  refine ⟨3 * g / c.h * (2 * max (c.control vgk v) 0 + 1) / c.h, by positivity, ?_⟩
  intro w hw
  have hgap := clipped_control_near hh vgk v w
  have hsum : max (c.control vgk w) 0 + max (c.control vgk v) 0 ≤
      2 * max (c.control vgk v) 0 + 1 := by
    have hunit : |w - v| / c.h ≤ 1 := (div_le_one hh).mpr hw
    have hreach := (le_abs_self _).trans (hgap.trans hunit)
    linarith
  rw [conductance_eq_clipped, conductance_eq_clipped, ← mul_sub, sq_sub_sq, abs_mul, abs_mul,
    abs_of_nonneg hfactor, abs_of_nonneg (add_nonneg (hclipped w) hfrom)]
  calc 3 * g / c.h * ((max (c.control vgk w) 0 + max (c.control vgk v) 0) *
        |max (c.control vgk w) 0 - max (c.control vgk v) 0|)
      ≤ 3 * g / c.h * ((2 * max (c.control vgk v) 0 + 1) * (|w - v| / c.h)) := by gcongr
    _ = 3 * g / c.h * (2 * max (c.control vgk v) 0 + 1) / c.h * |w - v| := by ring

theorem conductance_continuous (hh : 0 < c.h) (hg : 0 ≤ g) (vgk v : K) {ε : K} (hε : 0 < ε) :
    ∃ δ, 0 < δ ∧ ∀ w, |w - v| < δ → |c.conductance g vgk w - c.conductance g vgk v| ≤ ε := by
  obtain ⟨steepness, hsteep, hnear⟩ := conductance_near hh hg vgk v
  -- a tube without a perveance has no steepness to divide by
  have hpos : 0 < steepness + 1 := by linarith
  refine ⟨min c.h (ε / (steepness + 1)), lt_min hh (div_pos hε hpos), ?_⟩
  intro w hw
  obtain ⟨hvicinity, hclose⟩ := lt_min_iff.mp hw
  calc |c.conductance g vgk w - c.conductance g vgk v|
      ≤ steepness * |w - v| := hnear w hvicinity.le
    _ ≤ (steepness + 1) * |w - v| := by
      apply mul_le_mul_of_nonneg_right _ (abs_nonneg _)
      linarith
    _ ≤ ε := by
      rw [lt_div_iff₀' hpos] at hclose
      exact hclose.le

theorem current_sub_tangent (c : Curve K) (hg : 0 ≤ g) (vgk v w : K) :
    |c.current g vgk w - c.current g vgk v - c.conductance g vgk v * (w - v)| ≤
      |c.conductance g vgk w - c.conductance g vgk v| * |w - v| := by
  obtain ⟨hlow, hhigh⟩ := c.current_between_tangents hg vgk v w
  rw [abs_of_nonneg (sub_nonneg.mpr hlow), ← abs_mul]
  refine le_trans ?_ (le_abs_self _)
  linarith

theorem current_derivative (hh : 0 < c.h) (hg : 0 ≤ g) (vgk v : K) {ε : K} (hε : 0 < ε) :
    ∃ δ, 0 < δ ∧ ∀ w, |w - v| < δ →
      |c.current g vgk w - c.current g vgk v - c.conductance g vgk v * (w - v)| ≤ ε * |w - v| := by
  obtain ⟨δ, hδ, hnear⟩ := conductance_continuous hh hg vgk v hε
  refine ⟨δ, hδ, ?_⟩
  intro w hw
  apply (c.current_sub_tangent hg vgk v w).trans
  exact mul_le_mul_of_nonneg_right (hnear w hw) (abs_nonneg _)

variable {ra : K}

/-- Two resistors in parallel; a tube that is cut off is none. -/
theorem outputResistance_eq (hh : 0 < c.h) (hg : 0 ≤ g) (hra : 0 < ra) (vgk vak : K) :
    c.outputResistance g vgk vak ra = ra / (1 + ra * c.conductance g vgk vak) := by
  rcases (conductance_nonneg hh hg vgk vak).eq_or_lt with hoff | hon
  · simp only [outputResistance, ← hoff, le_refl, if_true, mul_zero, add_zero, div_one]
  · have hxi : 0 < 1 / c.conductance g vgk vak := one_div_pos.mpr hon
    have hslope := hon.ne'
    simp only [outputResistance, if_neg (not_le.mpr hon)]
    rw [div_eq_div_iff (add_pos hra hxi).ne' (by positivity)]
    field_simp
    ring

theorem outputResistance_eq_iff (hh : 0 < c.h) (hg : 0 ≤ g) (hra : 0 < ra) (vgk vak : K) :
    c.outputResistance g vgk vak ra = ra ↔ c.conductance g vgk vak = 0 := by
  have hdrop : 0 ≤ ra * c.conductance g vgk vak :=
    mul_nonneg hra.le (conductance_nonneg hh hg vgk vak)
  have hpos : 1 + ra * c.conductance g vgk vak ≠ 0 := by positivity
  rw [outputResistance_eq hh hg hra, div_eq_iff hpos, eq_comm, mul_eq_left₀ hra.ne', add_eq_left,
    mul_eq_zero_iff_left hra.ne']

theorem outputResistance_antitone (hh : 0 < c.h) (hg : 0 ≤ g) (hra : 0 < ra) (vgk : K) :
    Antitone fun vak => c.outputResistance g vgk vak ra := by
  intro v w hvw
  have hslope : ra * c.conductance g vgk v ≤ ra * c.conductance g vgk w :=
    mul_le_mul_of_nonneg_left (c.conductance_mono hg vgk hvw) hra.le
  have hdrop : 0 ≤ ra * c.conductance g vgk v :=
    mul_nonneg hra.le (conductance_nonneg hh hg vgk v)
  simp only [outputResistance_eq hh hg hra]
  apply div_le_div_of_nonneg_left hra.le
  · linarith
  · linarith

/-- The rise of the current between two anode voltages lies between the tangents at both, and the
conductance is the derivative of the current everywhere, cut-off included. The output resistance is
that of the anode resistor in parallel with the tube: positive, at most the resistor, the whole
resistor exactly if the tube has no conductance, and nowhere rising with the anode voltage. -/
theorem conductance_is_slope (hh : 0 < c.h) (hg : 0 ≤ g) (vgk : K) :
    (∀ v w, c.conductance g vgk v * (w - v) ≤ c.current g vgk w - c.current g vgk v ∧
        c.current g vgk w - c.current g vgk v ≤ c.conductance g vgk w * (w - v)) ∧
      (∀ v ε, 0 < ε → ∃ δ, 0 < δ ∧ ∀ w, |w - v| < δ →
        |c.current g vgk w - c.current g vgk v - c.conductance g vgk v * (w - v)| ≤
          ε * |w - v|) ∧
      ∀ ra, 0 < ra →
        (∀ vak, let ri := c.outputResistance g vgk vak ra
          ri = ra / (1 + ra * c.conductance g vgk vak) ∧ 0 < ri ∧ ri ≤ ra ∧
            (ri = ra ↔ c.conductance g vgk vak = 0)) ∧
          Antitone fun vak => c.outputResistance g vgk vak ra := by
  refine ⟨c.current_between_tangents hg vgk, ?_, ?_⟩
  · intro v ε hε
    exact current_derivative hh hg vgk v hε
  · intro ra hra
    refine ⟨?_, outputResistance_antitone hh hg hra vgk⟩
    intro vak ri
    obtain ⟨hpos, hle⟩ := c.outputResistance_bounds g vgk vak hra
    exact ⟨outputResistance_eq hh hg hra vgk vak, hpos, hle,
      outputResistance_eq_iff hh hg hra vgk vak⟩

/-- From an anode voltage at which the tube is cut off to one at which it conducts. -/
theorem conductance_is_slope_ecc83 :
    let c : Curve ℚ := .ofDatasheet Tube.ecc83.datasheet
    let g := c.perveance (-3 / 2)
    let vgk : ℚ := -3 / 2
    0 < c.h ∧ 0 ≤ g ∧ c.conductance g vgk 0 = 0 ∧ 0 < c.conductance g vgk 150 ∧
      c.conductance g vgk 0 * (150 - 0) ≤ c.current g vgk 150 - c.current g vgk 0 ∧
      c.current g vgk 150 - c.current g vgk 0 ≤ c.conductance g vgk 150 * (150 - 0) ∧
      c.outputResistance g vgk 0 50000 = 50000 ∧
      c.outputResistance g vgk 150 50000 = 50000 / (1 + 50000 * c.conductance g vgk 150) ∧
      c.outputResistance g vgk 150 50000 ≠ 50000 ∧
      c.outputResistance g vgk 300 50000 ≤ c.outputResistance g vgk 150 50000 ∧
      ∃ δ, 0 < δ ∧ ∀ w, |w - 150| < δ →
        |c.current g vgk w - c.current g vgk 150 - c.conductance g vgk 150 * (w - 150)| ≤
          1 / 10 ^ 9 * |w - 150| := by
  intro c g vgk
  have hh : 0 < c.h := by decide +kernel
  have hg : 0 ≤ g := by decide +kernel
  have hoff : c.conductance g vgk 0 = 0 := by decide +kernel
  have hon : 0 < c.conductance g vgk 150 := by decide +kernel
  obtain ⟨htangents, hderivative, hresistance⟩ := conductance_is_slope hh hg vgk
  obtain ⟨hri, hfalls⟩ := hresistance 50000 (by norm_num)
  obtain ⟨hparallel, -, -, hwhole⟩ := hri 150
  exact ⟨hh, hg, hoff, hon, (htangents 0 150).1, (htangents 0 150).2, (hri 0).2.2.2.mpr hoff,
    hparallel, fun h => hon.ne' (hwhole.mp h), hfalls (by norm_num),
    hderivative 150 _ (by norm_num)⟩

end TubePreamp.Curve
