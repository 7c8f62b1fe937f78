import Mathlib
import TubePreamp.Circuit
import TubePreamp.Tube
import TubePreamp.Proofs.Exact.Curve

/-!
The load line in exact arithmetic. A Newton step never divides by less than one and never ends
above both the point that it starts from and the supply.
-/

namespace TubePreamp.LoadLine

variable {K : Type} [Field K] [LinearOrder K] [IsStrictOrderedRing K]

structure Passive (l : LoadLine K) : Prop where
  h_pos : 0 < l.curve.h
  g_nonneg : 0 ≤ l.g
  ra_nonneg : 0 ≤ l.ra

variable [Exact K] {l : LoadLine K}

theorem atGrid_passive {c : Curve K} (hc : c.Regular) {ra : K} (hra : 0 ≤ ra) (vgk vb : K) :
    (atGrid c vgk vb ra).Passive where
  h_pos := hc.h_pos
  g_nonneg := (Curve.perveance_pos hc vgk).le
  ra_nonneg := hra

theorem current_nonneg (hl : l.Passive) (vak : K) : 0 ≤ l.current vak :=
  l.curve.current_nonneg hl.g_nonneg l.vgk vak

theorem conductance_nonneg (hl : l.Passive) (vak : K) : 0 ≤ l.conductance vak :=
  Curve.conductance_nonneg hl.h_pos hl.g_nonneg l.vgk vak

theorem one_le_slope (hl : l.Passive) (vak : K) : 1 ≤ l.slope vak := by
  have hdrop := mul_nonneg hl.ra_nonneg (conductance_nonneg hl vak)
  simp only [slope]
  linarith

/-- The current only ever pulls the step down: without it the step would end between its start and
the supply. -/
theorem newton_le (hl : l.Passive) (vak : K) : l.newton vak ≤ max vak l.vb := by
  have hslope := one_le_slope hl vak
  have hpos : 0 < l.slope vak := lt_of_lt_of_le one_pos hslope
  have hdrop := mul_nonneg hl.ra_nonneg (current_nonneg hl vak)
  simp only [newton, residual]
  rw [sub_le_iff_le_add, ← sub_le_iff_le_add', le_div_iff₀ hpos]
  rcases le_total vak l.vb with hv | hv
  · rw [max_eq_right hv]
    have hscale := mul_le_mul_of_nonpos_left hslope (sub_nonpos.mpr hv)
    linarith
  · rw [max_eq_left hv, sub_self, zero_mul]
    linarith

theorem descend_le (hl : l.Passive) (n : Nat) (vak : K) : l.descend n vak ≤ max vak l.vb := by
  induction n generalizing vak with
  | zero => exact le_max_left _ _
  | succ n ih =>
    have hrest := ih (l.newton vak)
    have hstep := newton_le hl vak
    exact hrest.trans (max_le hstep (le_max_right _ _))

theorem solve_le (hl : l.Passive) (start : K) : l.solve start ≤ max start l.vb :=
  descend_le hl newtonSteps start

end TubePreamp.LoadLine

/-!
Circuits that can be solved: a regular curve and positive components. The reference circuit of every
tube is one, and automatic bias leads from one to another.
-/

namespace TubePreamp

def Datasheet.Usable (p : Datasheet) : Prop :=
  (∀ x ∈ [p.gInf, p.d, p.h, p.vb, p.ra, p.vk, p.rk, p.ck], Binary.IsPositive x) ∧
    Binary.Ascending p.gInf p.g0

instance (p : Datasheet) : Decidable p.Usable :=
  inferInstanceAs (Decidable (_ ∧ _))

theorem Tube.datasheet_usable (tube : Tube) : tube.datasheet.Usable := by
  cases tube <;> decide +kernel

namespace Circuit

theorem defaults_positive : Binary.IsPositive defaultRi ∧ Binary.IsPositive defaultRg ∧
    Binary.IsPositive defaultCi ∧ Binary.IsPositive defaultCo := by
  decide +kernel

variable {K : Type} [Field K] [LinearOrder K] [IsStrictOrderedRing K]

structure Sound [Exact K] (c : Circuit K) : Prop where
  curve : c.curve.Regular
  positive : ∀ k ∈ Component.positive, 0 < c.value k

variable [Exact K]

theorem defect_none_iff (c : Circuit K) :
    c.defect? = none ↔ (∀ k ∈ Component.positive, 0 < c.value k) ∧ c.vk < c.vb := by
  have hfinite : ∀ k, c.finiteDefect? k = none := fun _ => rfl
  have hsign : ∀ k, c.signDefect? k = none ↔ 0 < c.value k := by
    intro k
    simp [signDefect?, reject]
  have hsupply : c.supplyDefect? = none ↔ c.vk < c.vb := by simp [supplyDefect?, reject]
  simp only [defect?, Option.or_eq_none_iff, List.findSome?_eq_none_iff, hfinite, hsign, hsupply,
    true_and]

theorem bypassFor_pos {rk : K} (hrk : 0 < rk) : 0 < bypassFor rk := by
  have hpi : (0 : K) < Sample.pi := Exact.pi_pos
  have hcorner : (Sample.ofDouble cathodeCorner : K) = 2 := ofDouble_two
  rw [bypassFor, hcorner, ofDouble_two]
  positivity

theorem biasResistor_pos {c : Circuit K} (hrk : 0 < c.rk) : 0 < c.biasResistor := by
  unfold biasResistor
  split
  · next husable =>
    simp only [usableBias, Bool.and_eq_true, decide_eq_true_eq] at husable
    exact div_pos husable.2 husable.1.1
  · exact hrk

theorem Sound.rebias {c : Circuit K} (hc : c.Sound) : c.rebias.Sound := by
  have hrk : 0 < c.biasResistor := biasResistor_pos (hc.positive .rk (by decide))
  unfold Circuit.rebias
  split
  · refine ⟨hc.curve, fun k hk => ?_⟩
    cases k with
    | rk => exact hrk
    | ck => exact bypassFor_pos hrk
    | _ => exact hc.positive _ hk
  · exact hc

theorem unbiased_sound {p : Datasheet} (hp : p.Usable) : (unbiased p : Circuit K).Sound := by
  obtain ⟨hpos, hrise⟩ := hp
  refine ⟨⟨?_, exactly_le hrise, (exactly_pos (hpos p.d (by simp))).le, ?_⟩, fun k hk => ?_⟩
  · exact exactly_pos (hpos p.gInf (by simp))
  · exact exactly_pos (hpos p.h (by simp))
  · cases k with
    | ri => exact exactly_pos defaults_positive.1
    | rg => exact exactly_pos defaults_positive.2.1
    | ci => exact exactly_pos defaults_positive.2.2.1
    | co => exact exactly_pos defaults_positive.2.2.2
    | gridThreshold => simp [Component.positive] at hk
    | rk => exact exactly_pos (hpos p.rk (by simp))
    | ra => exact exactly_pos (hpos p.ra (by simp))
    | ck => exact exactly_pos (hpos p.ck (by simp))
    | vk => exact exactly_pos (hpos p.vk (by simp))
    | vb => exact exactly_pos (hpos p.vb (by simp))

theorem ofTube_sound (tube : Tube) : (ofTube tube : Circuit K).Sound :=
  (unbiased_sound tube.datasheet_usable).rebias

end Circuit

end TubePreamp

/-!
Newton's steps. The residual is convex, so that every step ends on or above the root, from whichever
side it came; from there on the steps only go down. Where the supply alone brings the tube out of
cut-off, no step falls back into it, and the residual there is a line and a cube, of which a step
leaves no more than a third.
-/

namespace TubePreamp.LoadLine

section Cubic

variable {K : Type} [Field K] [LinearOrder K] [IsStrictOrderedRing K]

/-- A part times the rest grows with the part up to the half. -/
theorem part_mul_rest_le {whole y z : K} (hyz : y ≤ z) (hhalf : z + z ≤ whole) :
    y * (whole - y) ≤ z * (whole - z) := by
  have hgap := mul_nonneg (sub_nonneg.mpr hyz) (show 0 ≤ whole - y - z by linarith)
  linarith

theorem cubes_le {A h : K} (hA : 0 ≤ A) (hh : 0 ≤ h) :
    3 * (A * ((h + A) * (2 * h + 8 * A))) ≤ (h + 3 * A) ^ 3 := by
  have hmixed : 0 ≤ h ^ 2 - h * A + A ^ 2 := by
    have hsquare := sq_nonneg (h - A)
    have hproduct := mul_nonneg hh hA
    linarith
  have hcube := pow_nonneg hh 3
  have hrest := mul_nonneg hA hmixed
  linarith

/-- A step `y` down from `x` on `h * x + a * x ^ 3` that a tangent takes no further than to the root
at zero. -/
theorem cubic_step_le {a h x y : K} (ha : 0 ≤ a) (hh : 0 < h) (hx : 0 ≤ x)
    (hy : y * (h + 3 * a * x ^ 2) ≤ h * x + a * x ^ 3) :
    3 * (a * y * (3 * x - y)) ≤ h + 3 * a * x ^ 2 := by
  have hunit : 0 < h + 3 * a * x ^ 2 := by positivity
  have hhalf : h * x + a * x ^ 3 + (h * x + a * x ^ 3) ≤ 3 * x * (h + 3 * a * x ^ 2) := by
    have hroom : 0 ≤ h * x + 7 * (a * x ^ 3) := by positivity
    linarith
  have hfarthest := part_mul_rest_le hy hhalf
  have hcubes := cubes_le (show 0 ≤ a * x ^ 2 by positivity) hh.le
  -- in units of the slope of the tangent nothing has to be divided
  have hscaled : 3 * (a * y * (3 * x - y)) * (h + 3 * a * x ^ 2) ^ 2 ≤
      (h + 3 * a * x ^ 2) * (h + 3 * a * x ^ 2) ^ 2 := by
    calc 3 * (a * y * (3 * x - y)) * (h + 3 * a * x ^ 2) ^ 2
        = 3 * (a * (y * (h + 3 * a * x ^ 2) *
            (3 * x * (h + 3 * a * x ^ 2) - y * (h + 3 * a * x ^ 2)))) := by ring
      _ ≤ 3 * (a * ((h * x + a * x ^ 3) *
            (3 * x * (h + 3 * a * x ^ 2) - (h * x + a * x ^ 3)))) := by gcongr
      _ = 3 * (a * x ^ 2 * ((h + a * x ^ 2) * (2 * h + 8 * (a * x ^ 2)))) := by ring
      _ ≤ (h + 3 * (a * x ^ 2)) ^ 3 := hcubes
      _ = (h + 3 * a * x ^ 2) * (h + 3 * a * x ^ 2) ^ 2 := by ring
  exact le_of_mul_le_mul_right hscaled (pow_pos hunit 2)

end Cubic

theorem descend_succ {T : Type} [Sample T] (l : LoadLine T) (n : Nat) (vak : T) :
    l.descend (n + 1) vak = l.newton (l.descend n vak) := by
  induction n generalizing vak with
  | zero => rfl
  | succ n ih => exact ih (l.newton vak)

variable {K : Type} [Field K] [LinearOrder K] [IsStrictOrderedRing K] [Exact K] {l : LoadLine K}

theorem slope_pos (hl : l.Passive) (vak : K) : 0 < l.slope vak :=
  lt_of_lt_of_le one_pos (one_le_slope hl vak)

theorem residual_tangent (hl : l.Passive) (v w : K) :
    l.slope v * (w - v) ≤ l.residual w - l.residual v := by
  have hcurrent := l.curve.current_tangent hl.g_nonneg l.vgk v w
  have hdrop := mul_le_mul_of_nonneg_left hcurrent hl.ra_nonneg
  simp only [slope, residual, conductance, current]
  linarith

theorem slope_mul_newton (hl : l.Passive) (vak : K) :
    l.slope vak * (vak - l.newton vak) = l.residual vak := by
  have hslope := (slope_pos hl vak).ne'
  rw [newton]
  field_simp
  ring

theorem newton_residual_nonneg (hl : l.Passive) (vak : K) : 0 ≤ l.residual (l.newton vak) := by
  -- the step ends where the tangent is zero, and the residual lies above the tangent
  have htangent := residual_tangent hl vak (l.newton vak)
  have hstep := slope_mul_newton hl vak
  linarith

theorem newton_le_self (hl : l.Passive) {vak : K} (hr : 0 ≤ l.residual vak) :
    l.newton vak ≤ vak :=
  sub_le_self vak (div_nonneg hr (slope_pos hl vak).le)

theorem newton_of_root {vak : K} (hr : l.residual vak = 0) : l.newton vak = vak := by
  rw [newton, hr, zero_div, sub_zero]

theorem descend_of_root {vak : K} (hr : l.residual vak = 0) (n : Nat) :
    l.descend n vak = vak := by
  induction n with
  | zero => rfl
  | succ n ih => rw [descend_succ, ih, newton_of_root hr]

theorem solve_residual_nonneg (hl : l.Passive) (start : K) : 0 ≤ l.residual (l.solve start) := by
  rw [solve, newtonSteps, descend_succ]
  exact newton_residual_nonneg hl _

/-! Out of cut-off -/

def control (l : LoadLine K) (vak : K) : K := l.curve.control l.vgk vak

def reach (l : LoadLine K) : K := l.vb + l.curve.h * l.vgk

theorem anode_of_control (hl : l.Passive) (vak : K) :
    vak = l.curve.h * (l.control vak - l.vgk) := by
  have hh := hl.h_pos.ne'
  rw [control, Curve.control]
  field_simp
  ring

theorem control_of_supply (hl : l.Passive) : l.curve.h * l.control l.vb = l.reach := by
  have hsupply := anode_of_control hl l.vb
  rw [reach]
  linarith

theorem residual_of_control (hl : l.Passive) {vak : K} (hx : 0 ≤ l.control vak) :
    l.residual vak =
      l.curve.h * l.control vak + l.ra * l.g * l.control vak ^ 3 - l.reach := by
  have hanode := anode_of_control hl vak
  have hcurrent : l.current vak = l.g * l.control vak ^ 3 := Curve.current_eq_cubic hx l.g
  rw [residual, hcurrent, reach]
  linarith

theorem slope_of_control (hl : l.Passive) {vak : K} (hx : 0 ≤ l.control vak) :
    l.curve.h * l.slope vak = l.curve.h + 3 * (l.ra * l.g) * l.control vak ^ 2 := by
  have hh := hl.h_pos.ne'
  have hconductance : l.conductance vak = 3 * l.g / l.curve.h * l.control vak ^ 2 :=
    Curve.conductance_eq_square hx l.g
  rw [slope, hconductance]
  field_simp

theorem control_step (hl : l.Passive) {vak : K} (hx : 0 ≤ l.control vak) :
    (l.control vak - l.control (l.newton vak)) *
      (l.curve.h + 3 * (l.ra * l.g) * l.control vak ^ 2) = l.residual vak := by
  have hfrom := anode_of_control hl vak
  have hto := anode_of_control hl (l.newton vak)
  have hdrop : vak - l.newton vak = l.curve.h * (l.control vak - l.control (l.newton vak)) := by
    linarith
  rw [← slope_mul_newton hl vak, ← slope_of_control hl hx, hdrop]
  ring

theorem control_newton (hl : l.Passive) {vak : K} (hx : 0 ≤ l.control vak) :
    l.control (l.newton vak) * (l.curve.h + 3 * (l.ra * l.g) * l.control vak ^ 2) =
      2 * (l.ra * l.g) * l.control vak ^ 3 + l.reach := by
  have hstep := control_step hl hx
  have hresidual := residual_of_control hl hx
  linarith

theorem control_unit_pos (hl : l.Passive) (vak : K) :
    0 < l.curve.h + 3 * (l.ra * l.g) * l.control vak ^ 2 := by
  have hh := hl.h_pos
  have hg := hl.g_nonneg
  have hra := hl.ra_nonneg
  positivity

theorem control_cube_nonneg (hl : l.Passive) {vak : K} (hx : 0 ≤ l.control vak) :
    0 ≤ 2 * (l.ra * l.g) * l.control vak ^ 3 := by
  have hg := hl.g_nonneg
  have hra := hl.ra_nonneg
  positivity

theorem control_newton_nonneg (hl : l.Passive) (hreach : 0 ≤ l.reach) {vak : K}
    (hx : 0 ≤ l.control vak) : 0 ≤ l.control (l.newton vak) := by
  apply nonneg_of_mul_nonneg_left _ (control_unit_pos hl vak)
  rw [control_newton hl hx]
  exact add_nonneg (control_cube_nonneg hl hx) hreach

theorem control_newton_pos (hl : l.Passive) (hreach : 0 < l.reach) {vak : K}
    (hx : 0 < l.control vak) : 0 < l.control (l.newton vak) := by
  apply pos_of_mul_pos_left _ (control_unit_pos hl vak).le
  rw [control_newton hl hx.le]
  exact add_pos_of_nonneg_of_pos (control_cube_nonneg hl hx.le) hreach

theorem control_descend_pos (hl : l.Passive) (hreach : 0 < l.reach) (n : Nat) {vak : K}
    (hx : 0 < l.control vak) : 0 < l.control (l.descend n vak) := by
  induction n with
  | zero => exact hx
  | succ n ih =>
    rw [descend_succ]
    exact control_newton_pos hl hreach ih

theorem control_nonneg_of_residual (hl : l.Passive) (hreach : 0 ≤ l.reach) {vak : K}
    (hr : 0 ≤ l.residual vak) : 0 ≤ l.control vak := by
  rcases le_total 0 (l.control vak) with hx | hx
  · exact hx
  · -- without a current the root is the supply, where the tube is not cut off
    have hcurrent : l.current vak = 0 := Curve.current_cut_off hx l.g
    have hanode := anode_of_control hl vak
    rw [residual, hcurrent, mul_zero, add_zero] at hr
    rw [reach] at hreach
    apply nonneg_of_mul_nonneg_right _ hl.h_pos
    linarith

theorem residual_newton (hl : l.Passive) {vak : K} (hx : 0 ≤ l.control vak)
    (hnext : 0 ≤ l.control (l.newton vak)) :
    l.residual (l.newton vak) =
      l.ra * l.g * (l.control vak - l.control (l.newton vak)) *
        (3 * l.control vak - (l.control vak - l.control (l.newton vak))) *
        (l.control vak - l.control (l.newton vak)) := by
  have hstep := control_step hl hx
  rw [residual_of_control hl hx] at hstep
  rw [residual_of_control hl hnext]
  linarith

theorem newton_contracts (hl : l.Passive) (hreach : 0 ≤ l.reach) {vak : K}
    (hr : 0 ≤ l.residual vak) : l.residual (l.newton vak) ≤ l.residual vak / 3 := by
  have hx := control_nonneg_of_residual hl hreach hr
  have hnext := control_newton_nonneg hl hreach hx
  have hstep := control_step hl hx
  have hresidual := residual_of_control hl hx
  have hforward : 0 ≤ l.control vak - l.control (l.newton vak) := by
    apply nonneg_of_mul_nonneg_left _ (control_unit_pos hl vak)
    rw [hstep]
    exact hr
  have hthird := cubic_step_le (y := l.control vak - l.control (l.newton vak))
    (mul_nonneg hl.ra_nonneg hl.g_nonneg) hl.h_pos hx (by linarith)
  have hscaled := mul_le_mul_of_nonneg_right hthird hforward
  rw [residual_newton hl hx hnext, le_div_iff₀ three_pos]
  linarith

theorem descend_contracts (hl : l.Passive) (hreach : 0 ≤ l.reach) (n : Nat) {vak : K}
    (hr : 0 ≤ l.residual vak) :
    0 ≤ l.residual (l.descend n vak) ∧ l.residual (l.descend n vak) ≤ l.residual vak / 3 ^ n := by
  induction n with
  | zero => exact ⟨hr, by rw [pow_zero, div_one]; exact le_rfl⟩
  | succ n ih =>
    have hthird := newton_contracts hl hreach ih.1
    rw [descend_succ]
    refine ⟨newton_residual_nonneg hl _, hthird.trans ?_⟩
    rw [pow_succ, ← div_div]
    exact div_le_div_of_nonneg_right ih.2 three_pos.le

/-- The fixed number of steps, from any start. They divide by one at least, end on or above the root
and never above both the start and the supply, and from above the root they only go down. Where the
supply brings the tube out of cut-off, each step from there leaves at most a third of the residual;
a start below the root loses one step by it. -/
theorem solve_descends_to_root (hl : l.Passive) (start : K) :
    (∀ n < newtonSteps, 1 ≤ l.slope (l.descend n start)) ∧
      0 ≤ l.residual (l.solve start) ∧ l.solve start ≤ max start l.vb ∧
      (∀ vak, 0 ≤ l.residual vak → l.newton vak ≤ vak ∧ 0 ≤ l.residual (l.newton vak)) ∧
      (0 ≤ l.vb + l.curve.h * l.vgk →
        (∀ vak, 0 ≤ l.residual vak → l.residual (l.newton vak) ≤ l.residual vak / 3) ∧
        (0 ≤ l.residual start → l.residual (l.solve start) ≤ l.residual start / 3 ^ 6) ∧
        (l.residual start < 0 →
          l.residual (l.solve start) ≤ l.residual (l.newton start) / 3 ^ 5)) := by
  refine ⟨?_, solve_residual_nonneg hl start, solve_le hl start, ?_, ?_⟩
  · intro n _
    exact one_le_slope hl _
  · intro vak hr
    exact ⟨newton_le_self hl hr, newton_residual_nonneg hl vak⟩
  · intro hreach
    refine ⟨fun vak hr => newton_contracts hl hreach hr, ?_, ?_⟩
    · intro hr
      exact (descend_contracts hl hreach 6 hr).2
    · intro _
      exact (descend_contracts hl hreach 5 (newton_residual_nonneg hl start)).2

/-- A start above the supply, and one far below the root with the tube cut off. -/
theorem solve_descends_to_root_ecc83 :
    let l := (Circuit.unbiased Tube.ecc83.datasheet : Circuit ℚ).biasLine
    l.Passive ∧ 0 ≤ l.vb + l.curve.h * l.vgk ∧ 0 ≤ l.residual 300 ∧ l.residual (-20) < 0 ∧
      0 ≤ l.residual (l.solve 300) ∧ l.solve 300 ≤ max 300 l.vb ∧
      l.residual (l.solve 300) ≤ l.residual 300 / 3 ^ 6 ∧
      l.residual (l.solve (-20)) ≤ l.residual (l.newton (-20)) / 3 ^ 5 := by
  intro l
  have hl : l.Passive := by
    have hc : (Circuit.unbiased Tube.ecc83.datasheet : Circuit ℚ).Sound :=
      Circuit.unbiased_sound (Tube.datasheet_usable .ecc83)
    exact ⟨hc.curve.h_pos, (Curve.perveance_pos hc.curve _).le, (hc.positive .ra (by decide)).le⟩
  have hreach : 0 ≤ l.vb + l.curve.h * l.vgk := by decide +kernel
  have habove : 0 ≤ l.residual 300 := by decide +kernel
  have hbelow : l.residual (-20) < 0 := by decide +kernel
  obtain ⟨-, hroot, htop, -, hthirds⟩ := solve_descends_to_root hl 300
  obtain ⟨-, -, -, -, hothers⟩ := solve_descends_to_root hl (-20)
  exact ⟨hl, hreach, habove, hbelow, hroot, htop, (hthirds hreach).2.1 habove,
    (hothers hreach).2.2 hbelow⟩

end TubePreamp.LoadLine

/-!
The operating point follows the grid. Perveance and control voltage both rise with the grid, across
the change of branch and across cut-off, so that the load line meets the curve at no more than one
point, at a lower anode voltage and a higher current for a higher grid.
-/

namespace TubePreamp

namespace Curve

variable {K : Type} [Field K] [LinearOrder K] [IsStrictOrderedRing K] [Exact K] {c : Curve K}
  {g g' vgk vgk' vak vak' : K}

theorem control_le (hh : 0 < c.h) (hgrid : vgk ≤ vgk') (hanode : vak ≤ vak') :
    c.control vgk vak ≤ c.control vgk' vak' :=
  add_le_add hgrid (div_le_div_of_nonneg_right hanode hh.le)

theorem control_lt (hh : 0 < c.h) (hgrid : vgk < vgk') (hanode : vak ≤ vak') :
    c.control vgk vak < c.control vgk' vak' :=
  add_lt_add_of_lt_of_le hgrid (div_le_div_of_nonneg_right hanode hh.le)

theorem current_mono (hg : 0 ≤ g) (hgg : g ≤ g')
    (hx : c.control vgk vak ≤ c.control vgk' vak') :
    c.current g vgk vak ≤ c.current g' vgk' vak' := by
  rcases le_total (c.control vgk' vak') 0 with hoff | hon
  · rw [current_cut_off hoff, current_cut_off (hx.trans hoff)]
  · rw [current_eq_cubic hon]
    exact c.current_le hg hgg hon hx

theorem current_strict (hg : 0 < g) (hgg : g ≤ g')
    (hx : c.control vgk vak < c.control vgk' vak') (hon : 0 < c.control vgk' vak') :
    c.current g vgk vak < c.current g' vgk' vak' := by
  rcases le_total (c.control vgk vak) 0 with hoff | hlow
  · rw [current_cut_off hoff]
    exact current_pos (hg.trans_le hgg) hon
  · have hcube : c.control vgk vak ^ 3 < c.control vgk' vak' ^ 3 :=
      pow_lt_pow_left₀ hx hlow three_ne_zero
    rw [current_eq_cubic hlow, current_eq_cubic hon.le]
    calc g * c.control vgk vak ^ 3
        < g * c.control vgk' vak' ^ 3 := mul_lt_mul_of_pos_left hcube hg
      _ ≤ g' * c.control vgk' vak' ^ 3 := mul_le_mul_of_nonneg_right hgg (pow_nonneg hon.le 3)

theorem control_pos_of_current (hon : 0 < c.current g vgk vak) : 0 < c.control vgk vak := by
  by_contra hoff
  rw [current_cut_off (not_lt.mp hoff)] at hon
  exact lt_irrefl 0 hon

end Curve

namespace LoadLine

variable {K : Type} [Field K] [LinearOrder K] [IsStrictOrderedRing K] [Exact K] {l : LoadLine K}
  {c : Curve K}

theorem residual_strictMono (hl : l.Passive) : StrictMono l.residual := by
  intro v w hvw
  have hcurrent : l.current v ≤ l.current w :=
    Curve.current_mono hl.g_nonneg le_rfl (Curve.control_le hl.h_pos le_rfl hvw.le)
  have hdrop := mul_le_mul_of_nonneg_left hcurrent hl.ra_nonneg
  simp only [residual]
  linarith

theorem root_unique (hl : l.Passive) {v w : K} (hv : l.residual v = 0) (hw : l.residual w = 0) :
    v = w :=
  (residual_strictMono hl).injective (hv.trans hw.symm)

theorem drop_of_root {vak : K} (hr : l.residual vak = 0) : l.ra * l.current vak = l.vb - vak := by
  rw [residual] at hr
  linarith

section TwoGrids

variable {vgk₁ vgk₂ vak₁ vak₂ vb ra : K}

theorem current_le_of_grid (hc : c.Regular) (hgrid : vgk₁ ≤ vgk₂) (hanode : vak₁ ≤ vak₂) :
    (atGrid c vgk₁ vb ra).current vak₁ ≤ (atGrid c vgk₂ vb ra).current vak₂ :=
  Curve.current_mono (Curve.perveance_pos hc vgk₁).le (Curve.perveance_mono hc hgrid)
    (Curve.control_le hc.h_pos hgrid hanode)

theorem current_lt_of_grid (hc : c.Regular) (hgrid : vgk₁ < vgk₂) (hanode : vak₁ ≤ vak₂)
    (hon : 0 < (atGrid c vgk₂ vb ra).current vak₂) :
    (atGrid c vgk₁ vb ra).current vak₁ < (atGrid c vgk₂ vb ra).current vak₂ :=
  Curve.current_strict (Curve.perveance_pos hc vgk₁) (Curve.perveance_mono hc hgrid.le)
    (Curve.control_lt hc.h_pos hgrid hanode) (Curve.control_pos_of_current hon)

/-- Were the anode higher as well, more current would flow, and a higher current leaves less for the
anode. -/
theorem root_antitone (hc : c.Regular) (hra : 0 < ra) (hgrid : vgk₁ ≤ vgk₂)
    (h₁ : (atGrid c vgk₁ vb ra).residual vak₁ = 0) (h₂ : (atGrid c vgk₂ vb ra).residual vak₂ = 0) :
    vak₂ ≤ vak₁ := by
  by_contra hup
  have hanode : vak₁ < vak₂ := not_le.mp hup
  have hcurrent : (atGrid c vgk₁ vb ra).current vak₁ ≤ (atGrid c vgk₂ vb ra).current vak₂ :=
    current_le_of_grid hc hgrid hanode.le
  have hdrop := mul_le_mul_of_nonneg_left hcurrent hra.le
  have hfirst : ra * (atGrid c vgk₁ vb ra).current vak₁ = vb - vak₁ := drop_of_root h₁
  have hsecond : ra * (atGrid c vgk₂ vb ra).current vak₂ = vb - vak₂ := drop_of_root h₂
  linarith

theorem root_strictAnti (hc : c.Regular) (hra : 0 < ra) (hgrid : vgk₁ < vgk₂)
    (h₁ : (atGrid c vgk₁ vb ra).residual vak₁ = 0) (h₂ : (atGrid c vgk₂ vb ra).residual vak₂ = 0)
    (hon : 0 < (atGrid c vgk₂ vb ra).current vak₂) : vak₂ < vak₁ := by
  apply lt_of_le_of_ne (root_antitone hc hra hgrid.le h₁ h₂)
  intro hsame
  have hcurrent := current_lt_of_grid hc hgrid hsame.ge hon
  have hdrop := mul_lt_mul_of_pos_left hcurrent hra
  have hfirst : ra * (atGrid c vgk₁ vb ra).current vak₁ = vb - vak₁ := drop_of_root h₁
  have hsecond : ra * (atGrid c vgk₂ vb ra).current vak₂ = vb - vak₂ := drop_of_root h₂
  linarith

/-- What moves the drop in the resistor is the current after the grid has risen. -/
theorem drop_rises_iff (hc : c.Regular) (hra : 0 < ra) (hgrid : vgk₁ < vgk₂)
    (h₁ : (atGrid c vgk₁ vb ra).residual vak₁ = 0) (h₂ : (atGrid c vgk₂ vb ra).residual vak₂ = 0) :
    0 < (atGrid c vgk₂ vb ra).current vak₂ ↔
      ra * (atGrid c vgk₁ vb ra).current vak₁ < ra * (atGrid c vgk₂ vb ra).current vak₂ := by
  constructor
  · intro hon
    have hlower := root_strictAnti hc hra hgrid h₁ h₂ hon
    have hfirst : ra * (atGrid c vgk₁ vb ra).current vak₁ = vb - vak₁ := drop_of_root h₁
    have hsecond : ra * (atGrid c vgk₂ vb ra).current vak₂ = vb - vak₂ := drop_of_root h₂
    linarith
  · intro hrise
    have hnonneg := current_nonneg (atGrid_passive hc hra.le vgk₁ vb) vak₁
    exact hnonneg.trans_lt (lt_of_mul_lt_mul_left hrise hra.le)

end TwoGrids

/-- The load line meets the curve once at most. A higher grid never raises the anode and never lowers
the current, whatever supply the drop in the resistor is taken from, and it moves each of them exactly
if the tube then conducts. -/
theorem operating_point_inverts_grid (hc : c.Regular) {ra : K} (hra : 0 < ra) (vb : K) :
    (∀ vgk v w, (atGrid c vgk vb ra).residual v = 0 → (atGrid c vgk vb ra).residual w = 0 → v = w) ∧
      ∀ vgk₁ vgk₂ vak₁ vak₂ supply, vgk₁ < vgk₂ → (atGrid c vgk₁ vb ra).residual vak₁ = 0 →
        (atGrid c vgk₂ vb ra).residual vak₂ = 0 →
        let ia₁ := (atGrid c vgk₁ vb ra).current vak₁
        let ia₂ := (atGrid c vgk₂ vb ra).current vak₂
        (vak₂ ≤ vak₁ ∧ ia₁ ≤ ia₂ ∧ supply - ra * ia₂ ≤ supply - ra * ia₁) ∧
          (0 < ia₂ ↔ vak₂ < vak₁) ∧ (0 < ia₂ ↔ ia₁ < ia₂) ∧
          (0 < ia₂ ↔ supply - ra * ia₂ < supply - ra * ia₁) := by
  constructor
  · intro vgk v w hv hw
    exact root_unique (atGrid_passive hc hra.le vgk vb) hv hw
  · intro vgk₁ vgk₂ vak₁ vak₂ supply hgrid h₁ h₂ ia₁ ia₂
    have hfirst : ra * ia₁ = vb - vak₁ := drop_of_root h₁
    have hsecond : ra * ia₂ = vb - vak₂ := drop_of_root h₂
    have hanode : vak₂ ≤ vak₁ := root_antitone hc hra hgrid.le h₁ h₂
    have hdrop : ra * ia₁ ≤ ra * ia₂ := by linarith
    have hrises : 0 < ia₂ ↔ ra * ia₁ < ra * ia₂ := drop_rises_iff hc hra hgrid h₁ h₂
    refine ⟨⟨hanode, le_of_mul_le_mul_left hdrop hra, sub_le_sub_left hdrop supply⟩, ?_, ?_, ?_⟩
    · rw [hrises, hfirst, hsecond, sub_lt_sub_iff_left]
    · rw [hrises, mul_lt_mul_iff_right₀ hra]
    · rw [hrises, sub_lt_sub_iff_left]

/-- Two grid voltages on either side of the change of branch. -/
theorem operating_point_inverts_grid_branches :
    let c : Curve ℚ := ⟨2, 1, 1, 1⟩
    let ia₁ := (atGrid c (-1) 5 (1 / 6)).current 3
    let ia₂ := (atGrid c 1 5 (1 / 6)).current 1
    c.Regular ∧ (atGrid c (-1) 5 (1 / 6)).residual 3 = 0 ∧
      (atGrid c 1 5 (1 / 6)).residual 1 = 0 ∧ 0 < ia₂ ∧ (1 : ℚ) < 3 ∧ ia₁ < ia₂ ∧
      7 - 1 / 6 * ia₂ < 7 - 1 / 6 * ia₁ := by
  intro c ia₁ ia₂
  have hc : c.Regular := ⟨by norm_num [c], by norm_num [c], by norm_num [c], by norm_num [c]⟩
  have h₁ : (atGrid c (-1) 5 (1 / 6)).residual 3 = 0 := by decide +kernel
  have h₂ : (atGrid c 1 5 (1 / 6)).residual 1 = 0 := by decide +kernel
  have hon : 0 < ia₂ := by decide +kernel
  obtain ⟨-, hinverts⟩ := operating_point_inverts_grid hc (show (0 : ℚ) < 1 / 6 by norm_num) 5
  obtain ⟨-, hlower, hhigher, hanode⟩ := hinverts (-1) 1 3 1 7 (by norm_num) h₁ h₂
  exact ⟨hc, h₁, h₂, hon, hlower.mp hon, hhigher.mp hon, hanode.mp hon⟩

end LoadLine

end TubePreamp
