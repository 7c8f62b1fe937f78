import Mathlib.Data.List.Basic
import TubePreamp.Circuit

/-!
What changes make of a circuit. Automatic bias reads the curve, the cathode and supply voltages and
the anode resistor, and writes the two components of the cathode network. None of what it writes
decides what it writes next, so that a circuit that has been biased is biased for good until
something else changes.
-/

namespace TubePreamp.Circuit

variable {T : Type} [Sample T]

theorem usableBias_eq_true (c : Circuit T) (ia : T) :
    c.usableBias ia = true ↔ 0 < ia ∧ Sample.isFinite ia = true ∧ 0 < c.vk := by
  simp only [usableBias, Bool.and_eq_true, decide_eq_true_eq, and_assoc]

theorem rebias_frame (c : Circuit T) :
    c.rebias = { c with rk := c.rebias.rk, ck := c.rebias.ck } := by
  unfold rebias
  split <;> rfl

theorem rebias_biasCurrent (c : Circuit T) : c.rebias.biasCurrent = c.biasCurrent := by
  rw [rebias_frame]
  rfl

theorem rebias_vk (c : Circuit T) : c.rebias.vk = c.vk := by rw [rebias_frame]

theorem rebias_vb (c : Circuit T) : c.rebias.vb = c.vb := by rw [rebias_frame]

theorem rebias_autoBias (c : Circuit T) : c.rebias.autoBias = c.autoBias := by rw [rebias_frame]

theorem rebias_usableBias (c : Circuit T) (ia : T) :
    c.rebias.usableBias ia = c.usableBias ia := by
  rw [rebias_frame]
  rfl

theorem rebias_rk {c : Circuit T} (hauto : c.autoBias = true) : c.rebias.rk = c.biasResistor := by
  rw [rebias, if_pos hauto]

theorem rebias_ck {c : Circuit T} (hauto : c.autoBias = true) :
    c.rebias.ck = bypassFor c.rebias.rk := by
  rw [rebias, if_pos hauto]

/-- What has been chosen is chosen again: without a usable current, that is the resistor in place,
which is by then the one chosen. -/
theorem rebias_biasResistor {c : Circuit T} (hauto : c.autoBias = true) :
    c.rebias.biasResistor = c.biasResistor := by
  rw [biasResistor, rebias_biasCurrent, rebias_usableBias, rebias_vk, rebias_rk hauto]
  by_cases husable : c.usableBias c.biasCurrent = true
  · rw [if_pos husable, biasResistor, if_pos husable]
  · rw [if_neg husable]

structure Biased (c : Circuit T) : Prop where
  resistor : c.autoBias = true → c.rk = c.biasResistor
  bypass : c.autoBias = true → c.ck = bypassFor c.rk

theorem Biased.rebias_eq {c : Circuit T} (h : c.Biased) : c.rebias = c := by
  unfold rebias
  split
  · next hauto => rw [← h.resistor hauto, ← h.bypass hauto]
  · rfl

theorem rebias_biased (c : Circuit T) : c.rebias.Biased := by
  constructor
  · intro hauto
    rw [rebias_autoBias] at hauto
    rw [rebias_biasResistor hauto, rebias_rk hauto]
  · intro hauto
    rw [rebias_autoBias] at hauto
    exact rebias_ck hauto

theorem Biased.edit_vk {c : Circuit T} (h : c.Biased) {v : T} (hv : c.vk = v) :
    c.edit (.set .vk v) = c := by
  subst hv
  exact h.rebias_eq

/-- Bias settles at once. A circuit biased twice is the circuit biased once, setting a cathode
voltage again changes nothing, and neither does setting that of the datasheet on the circuit built
from it. No law of arithmetic is needed, and it makes no difference whether a current can be used. -/
theorem bias_settles_at_once :
    (∀ c : Circuit T, c.rebias.rebias = c.rebias) ∧
      (∀ (c : Circuit T) (v : T),
        (c.edit (.set .vk v)).edit (.set .vk v) = c.edit (.set .vk v)) ∧
      ∀ p : Datasheet, (ofDatasheet p : Circuit T).edit (.set .vk (Sample.ofDouble p.vk)) =
        ofDatasheet p := by
  refine ⟨?_, ?_, ?_⟩
  · intro c
    exact c.rebias_biased.rebias_eq
  · intro c v
    exact (rebias_biased { c with vk := v }).edit_vk (rebias_vk _)
  · intro p
    exact (rebias_biased (unbiased p)).edit_vk (rebias_vk _)

end TubePreamp.Circuit

/-!
Sequences of changes. Each setting ends at the last value written to it, except for the cathode
network, which a new cathode voltage writes as well while automatic bias is on. That is also the
only reason for which the order of changes to different settings matters.
-/

namespace TubePreamp

/-- A setting that takes every value given to it, and that nothing else touches, ends at the last. -/
theorem foldl_eq_getLastD {σ ε α : Type} {step : σ → ε → σ} {f : σ → α} {given : ε → Option α}
    (hstep : ∀ s e, f (step s e) = (given e).getD (f s)) (s : σ) (history : List ε) :
    f (history.foldl step s) = (history.filterMap given).getLastD (f s) := by
  induction history generalizing s with
  | nil => rfl
  | cons e rest ih =>
    rw [List.foldl_cons, ih, hstep]
    cases hgiven : given e with
    | none => rw [List.filterMap_cons_none hgiven, Option.getD_none]
    | some v => rw [List.filterMap_cons_some hgiven, Option.getD_some, List.getLastD_cons]

namespace Circuit

variable {T : Type}

def Edit.target : Edit T → Option Component
  | .set k _ => some k
  | .autoBias _ => none

def biasSettings : List (Option Component) := [some .rk, some .ck, some .ra, some .vb, none]

/-- Settings for which the order of two changes can matter: a setting and itself, and the cathode
voltage and what automatic bias reads or writes. -/
def Clash (a b : Option Component) : Prop :=
  a = b ∨ (a = some .vk ∧ b ∈ biasSettings) ∨ (b = some .vk ∧ a ∈ biasSettings)

instance (a b : Option Component) : Decidable (Clash a b) :=
  inferInstanceAs (Decidable (_ ∨ _ ∨ _))

def Edit.value? (k : Component) : Edit T → Option T
  | .set l v => if l = k then some v else none
  | .autoBias _ => none

def Edit.switch? : Edit T → Option Bool
  | .set _ _ => none
  | .autoBias on => some on

def lastWritten (k : Component) (default : T) (es : List (Edit T)) : T :=
  (es.filterMap (Edit.value? k)).getLastD default

def lastSwitch (default : Bool) (es : List (Edit T)) : Bool :=
  (es.filterMap Edit.switch?).getLastD default

/-- No new cathode voltage comes while automatic bias is on. -/
def Quiet (on : Bool) (es : List (Edit T)) : Prop :=
  ∀ before v after, es = before ++ .set .vk v :: after → lastSwitch on before = false

theorem lastSwitch_cons (on : Bool) (e : Edit T) (es : List (Edit T)) :
    lastSwitch on (e :: es) = lastSwitch (e.switch?.getD on) es := by
  cases e with
  | set k v => rfl
  | autoBias on => exact List.getLastD_cons

theorem lastWritten_cons (k : Component) (default : T) (e : Edit T) (es : List (Edit T)) :
    lastWritten k default (e :: es) = lastWritten k ((e.value? k).getD default) es := by
  unfold lastWritten
  cases hgiven : e.value? k with
  | none => rw [List.filterMap_cons_none hgiven, Option.getD_none]
  | some v => rw [List.filterMap_cons_some hgiven, Option.getD_some, List.getLastD_cons]

theorem quiet_nil (on : Bool) : Quiet on ([] : List (Edit T)) := by
  intro before v after hes
  cases before <;> cases hes

theorem quiet_cons {on : Bool} {e : Edit T} {es : List (Edit T)} :
    Quiet on (e :: es) ↔ (e.target = some .vk → on = false) ∧ Quiet (e.switch?.getD on) es := by
  constructor
  · intro h
    constructor
    · intro hvk
      cases e with
      | set k v =>
        cases hvk
        exact h [] v es rfl
      | autoBias => cases hvk
    · intro before v after hes
      rw [← lastSwitch_cons]
      exact h (e :: before) v after (congrArg (List.cons e) hes)
  · rintro ⟨hhead, htail⟩ before v after hes
    cases before with
    | nil =>
      cases hes
      exact hhead rfl
    | cons first before =>
      cases hes
      rw [lastSwitch_cons]
      exact htail before v after rfl

instance Quiet.decidable (on : Bool) : (es : List (Edit T)) → Decidable (Quiet on es)
  | [] => .isTrue (quiet_nil on)
  | e :: es =>
    have := Quiet.decidable (e.switch?.getD on) es
    decidable_of_iff _ quiet_cons.symm

/-- Unless a history is quiet, there is a last time that a new cathode voltage finds automatic bias
on. -/
theorem quiet_or_last (on : Bool) (es : List (Edit T)) :
    Quiet on es ∨ ∃ before v after, es = before ++ .set .vk v :: after ∧
      lastSwitch on before = true ∧ Quiet true after := by
  induction es generalizing on with
  | nil => exact .inl (quiet_nil on)
  | cons e rest ih =>
    rcases ih (e.switch?.getD on) with hquiet | ⟨before, v, after, rfl, hon, hquiet⟩
    · by_cases hhead : e.target = some .vk → on = false
      · exact .inl (quiet_cons.mpr ⟨hhead, hquiet⟩)
      · -- nothing later counts, so this change is the last one
        push Not at hhead
        obtain ⟨hvk, hon⟩ := hhead
        obtain rfl : on = true := eq_true_of_ne_false hon
        cases e with
        | set k v =>
          cases hvk
          exact .inr ⟨[], v, rest, rfl, rfl, hquiet⟩
        | autoBias => cases hvk
    · refine .inr ⟨e :: before, v, after, rfl, ?_, hquiet⟩
      rw [lastSwitch_cons]
      exact hon

/-! Components of a circuit -/

theorem value_assign (c : Circuit T) (k l : Component) (v : T) :
    (c.assign k v).value l = if k = l then v else c.value l := by
  by_cases h : k = l
  · rw [if_pos h, ← h]
    cases k <;> rfl
  · rw [if_neg h]
    cases k <;> cases l <;> first | rfl | exact absurd rfl h

theorem assign_value? (c : Circuit T) (l : Component) (v : T) (k : Component) :
    (c.assign l v).value k = ((Edit.set l v).value? k).getD (c.value k) := by
  rw [value_assign, Edit.value?]
  split <;> rfl

theorem assign_frame (c : Circuit T) (k : Component) (v : T) :
    (c.assign k v).curve = c.curve ∧ (c.assign k v).autoBias = c.autoBias := by
  cases k <;> exact ⟨rfl, rfl⟩

theorem assign_comm (c : Circuit T) {k l : Component} (h : k ≠ l) (v w : T) :
    (c.assign k v).assign l w = (c.assign l w).assign k v := by
  cases k <;> cases l <;> first | rfl | exact absurd rfl h

variable [Sample T]

theorem rebias_curve (c : Circuit T) : c.rebias.curve = c.curve := by rw [rebias_frame]

/-- Automatic bias leaves everything as it is while it is off, and else all outside the cathode
network. -/
theorem rebias_value {c : Circuit T} {k : Component}
    (h : c.autoBias = false ∨ k ≠ .rk ∧ k ≠ .ck) : c.rebias.value k = c.value k := by
  rcases h with hoff | ⟨hrk, hck⟩
  · have hstays : ¬c.autoBias = true := by
      rw [hoff]
      exact Bool.false_ne_true
    rw [rebias, if_neg hstays]
  · rw [rebias_frame]
    cases k <;> first | rfl | contradiction

theorem edit_vk (c : Circuit T) (v : T) : c.edit (.set .vk v) = (c.assign .vk v).rebias := rfl

theorem edit_set {k : Component} (hk : k ≠ .vk) (c : Circuit T) (v : T) :
    c.edit (.set k v) = c.assign k v := by
  cases k <;> first | rfl | exact absurd rfl hk

theorem edit_curve (c : Circuit T) (e : Edit T) : (c.edit e).curve = c.curve := by
  cases e with
  | autoBias on => rfl
  | set k v =>
    by_cases hk : k = .vk
    · rw [hk, edit_vk, rebias_curve, (c.assign_frame .vk v).1]
    · rw [edit_set hk, (c.assign_frame k v).1]

theorem edit_autoBias (c : Circuit T) (e : Edit T) :
    (c.edit e).autoBias = e.switch?.getD c.autoBias := by
  cases e with
  | autoBias on => rfl
  | set k v =>
    by_cases hk : k = .vk
    · rw [hk, edit_vk, rebias_autoBias, (c.assign_frame .vk v).2]
      rfl
    · rw [edit_set hk, (c.assign_frame k v).2]
      rfl

/-- A change gives to a component what it says, if automatic bias does not write it as well. -/
theorem edit_value {c : Circuit T} {e : Edit T} {k : Component}
    (h : e.target = some .vk → c.autoBias = false ∨ k ≠ .rk ∧ k ≠ .ck) :
    (c.edit e).value k = (e.value? k).getD (c.value k) := by
  cases e with
  | autoBias on => cases k <;> rfl
  | set l v =>
    by_cases hl : l = .vk
    · subst hl
      have hkept := h rfl
      rw [← (c.assign_frame .vk v).2] at hkept
      rw [edit_vk, rebias_value hkept, assign_value?]
    · rw [edit_set hl, assign_value?]

/-! Sequences of changes -/

theorem edits_curve (c : Circuit T) (es : List (Edit T)) : (c.edits es).curve = c.curve := by
  induction es generalizing c with
  | nil => rfl
  | cons e rest ih => exact (ih (c.edit e)).trans (c.edit_curve e)

theorem edits_autoBias (c : Circuit T) (es : List (Edit T)) :
    (c.edits es).autoBias = lastSwitch c.autoBias es :=
  foldl_eq_getLastD edit_autoBias c es

theorem edits_value {k : Component} (hrk : k ≠ .rk) (hck : k ≠ .ck) (c : Circuit T)
    (es : List (Edit T)) : (c.edits es).value k = lastWritten k (c.value k) es := by
  have hstep (d : Circuit T) (e : Edit T) : (d.edit e).value k = (e.value? k).getD (d.value k) :=
    edit_value fun _ => .inr ⟨hrk, hck⟩
  exact foldl_eq_getLastD (f := (value · k)) hstep c es

theorem edits_value_quiet {c : Circuit T} {es : List (Edit T)} (h : Quiet c.autoBias es)
    (k : Component) : (c.edits es).value k = lastWritten k (c.value k) es := by
  induction es generalizing c with
  | nil => rfl
  | cons e rest ih =>
    obtain ⟨hhead, htail⟩ := quiet_cons.mp h
    have hfirst : (c.edit e).value k = (e.value? k).getD (c.value k) :=
      edit_value fun hvk => .inl (hhead hvk)
    have hrest : Quiet (c.edit e).autoBias rest := by rwa [edit_autoBias]
    rw [lastWritten_cons, ← hfirst]
    exact ih hrest

theorem edits_append (c : Circuit T) (es fs : List (Edit T)) :
    c.edits (es ++ fs) = (c.edits es).edits fs := List.foldl_append

def currentAt (curve : Curve T) (vk vb ra : T) : T :=
  let line := LoadLine.atGrid curve (-vk) (vb - vk) ra
  line.current (line.solve line.vb)

theorem biasCurrent_eq (c : Circuit T) : c.biasCurrent = currentAt c.curve c.vk c.vb c.ra := rfl

/-- What a new cathode voltage makes of the cathode network, in terms of what was in force. -/
theorem edit_vk_network {c : Circuit T} (hauto : c.autoBias = true) (v : T) :
    let ia := currentAt c.curve v c.vb c.ra
    let rk := if 0 < ia ∧ Sample.isFinite ia = true ∧ 0 < v then v / ia else c.rk
    (c.edit (.set .vk v)).rk = rk ∧ (c.edit (.set .vk v)).ck = bypassFor rk := by
  intro ia rk
  have hmoved : (c.assign .vk v).autoBias = true := hauto
  have hrk : (c.edit (.set .vk v)).rk = rk := by
    rw [edit_vk, rebias_rk hmoved, biasResistor]
    simp only [usableBias_eq_true, biasCurrent_eq]
    rfl
  refine ⟨hrk, ?_⟩
  rw [← hrk, edit_vk, rebias_ck hmoved]

/-- The cathode network is chosen by the last new cathode voltage that finds automatic bias on, and
from there on written as any other setting. -/
theorem edits_network {c : Circuit T} {before after : List (Edit T)}
    (hon : lastSwitch c.autoBias before = true) (hquiet : Quiet true after) (v : T) :
    let ia := currentAt c.curve v (lastWritten .vb c.vb before) (lastWritten .ra c.ra before)
    let rk := if 0 < ia ∧ Sample.isFinite ia = true ∧ 0 < v then v / ia else (c.edits before).rk
    let d := c.edits (before ++ .set .vk v :: after)
    d.rk = lastWritten .rk rk after ∧ d.ck = lastWritten .ck (bypassFor rk) after := by
  intro ia rk d
  have hauto : (c.edits before).autoBias = true := by rw [edits_autoBias, hon]
  have hvb := edits_value (k := .vb) (by decide) (by decide) c before
  have hra := edits_value (k := .ra) (by decide) (by decide) c before
  simp only [value] at hvb hra
  have hnetwork := edit_vk_network hauto v
  rw [edits_curve, hvb, hra] at hnetwork
  obtain ⟨hrk, hck⟩ := hnetwork
  have hstill : ((c.edits before).edit (.set .vk v)).autoBias = true := by
    rw [edit_autoBias]
    exact hauto
  have hlater : d = ((c.edits before).edit (.set .vk v)).edits after :=
    c.edits_append before (.set .vk v :: after)
  rw [← hstill] at hquiet
  have hlast := edits_value_quiet hquiet
  rw [← hlater] at hlast
  exact ⟨(hlast .rk).trans (congrArg (lastWritten .rk · after) hrk),
    (hlast .ck).trans (congrArg (lastWritten .ck · after) hck)⟩

/-! Order of changes -/

theorem rebias_assign {l : Component} (hvk : l ≠ .vk) (hfree : some l ∉ biasSettings)
    (c : Circuit T) (w : T) : c.rebias.assign l w = (c.assign l w).rebias := by
  rw [rebias, rebias, (c.assign_frame l w).2]
  split
  · cases l <;> first | rfl | exact absurd rfl hvk | exact absurd (by decide) hfree
  · rfl

theorem edit_vk_comm {f : Edit T} (hvk : f.target ≠ some .vk) (hfree : f.target ∉ biasSettings)
    (c : Circuit T) (v : T) :
    (c.edit (.set .vk v)).edit f = (c.edit f).edit (.set .vk v) := by
  cases f with
  | autoBias on => exact absurd (by decide : (none : Option Component) ∈ biasSettings) hfree
  | set l w =>
    have hl : l ≠ .vk := fun h => hvk (congrArg some h)
    rw [edit_set hl, edit_set hl, edit_vk, edit_vk, rebias_assign hl hfree,
      c.assign_comm hl.symm]

theorem edit_comm {e f : Edit T} (h : ¬Clash e.target f.target) (c : Circuit T) :
    (c.edit e).edit f = (c.edit f).edit e := by
  cases e with
  | autoBias on =>
    cases f with
    | autoBias => exact absurd (.inl rfl) h
    | set l w =>
      have hswitch : (none : Option Component) ∈ biasSettings := by decide
      have hl : l ≠ .vk := fun hf => h (.inr (.inr ⟨congrArg some hf, hswitch⟩))
      rw [edit_set hl, edit_set hl]
      cases l <;> rfl
  | set k v =>
    by_cases hk : k = .vk
    · subst hk
      exact edit_vk_comm (fun hf => h (.inl hf.symm)) (fun hf => h (.inr (.inl ⟨rfl, hf⟩))) c v
    · cases f with
      | autoBias =>
        rw [edit_set hk, edit_set hk]
        cases k <;> rfl
      | set l w =>
        by_cases hl : l = .vk
        · subst hl
          have hfree : some k ∉ biasSettings := fun hf => h (.inr (.inr ⟨rfl, hf⟩))
          have hself : (Edit.set k v).target ≠ some .vk := fun hf => h (.inl hf)
          exact (edit_vk_comm hself hfree c w).symm
        · have hkl : k ≠ l := fun hf => h (.inl (congrArg some hf))
          rw [edit_set hk, edit_set hl, edit_set hl, edit_set hk, c.assign_comm hkl]

theorem edits_swap {e f : Edit T} (h : ¬Clash e.target f.target) (c : Circuit T)
    (before after : List (Edit T)) :
    c.edits (before ++ e :: f :: after) = c.edits (before ++ f :: e :: after) := by
  rw [edits_append, edits_append]
  exact congrArg (edits · after) (edit_comm h (c.edits before))

/-- A new cathode voltage comes out differently before and after a change of anything that automatic
bias reads or writes. -/
theorem edit_vk_not_comm {b : Option Component} (hb : b ∈ biasSettings) :
    ∃ f : Edit Float, f.target = b ∧
      (ofTube .ecc83).edits [.set .vk 2, f] ≠ (ofTube .ecc83).edits [f, .set .vk 2] := by
  have hdiffer (k : Component) (f : Edit Float)
      (h : ((ofTube .ecc83).edits [.set .vk 2, f]).value k ≠
        ((ofTube .ecc83).edits [f, .set .vk 2]).value k) :
      (ofTube .ecc83).edits [.set .vk 2, f] ≠ (ofTube .ecc83).edits [f, .set .vk 2] :=
    fun heq => h (congrArg (value · k) heq)
  simp only [biasSettings, List.mem_cons, List.not_mem_nil, or_false] at hb
  obtain rfl | rfl | rfl | rfl | rfl := hb
  · exact ⟨.set .rk 1, rfl, hdiffer .rk _ (by decide +kernel)⟩
  · exact ⟨.set .ck 1, rfl, hdiffer .ck _ (by decide +kernel)⟩
  · exact ⟨.set .ra 1, rfl, hdiffer .rk _ (by decide +kernel)⟩
  · exact ⟨.set .vb 300, rfl, hdiffer .rk _ (by decide +kernel)⟩
  · exact ⟨.autoBias false, rfl, hdiffer .rk _ (by decide +kernel)⟩

/-- No clash is listed in vain. -/
theorem Clash.not_comm {a b : Option Component} (h : Clash a b) :
    ∃ (c : Circuit Float) (e f : Edit Float), e.target = a ∧ f.target = b ∧
      c.edits [e, f] ≠ c.edits [f, e] := by
  rcases h with rfl | ⟨rfl, hb⟩ | ⟨rfl, ha⟩
  · cases a with
    | none =>
      refine ⟨ofTube .ecc83, .autoBias true, .autoBias false, rfl, rfl, fun heq => ?_⟩
      exact absurd (congrArg Circuit.autoBias heq) (by decide)
    | some k =>
      let c : Circuit Float := { ofTube .ecc83 with autoBias := false }
      refine ⟨c, .set k 1, .set k 2, rfl, rfl, fun heq => ?_⟩
      have hquiet (v w : Float) : Quiet c.autoBias [.set k v, .set k w] := by
        simp only [quiet_cons, quiet_nil, and_true]
        exact ⟨fun _ => rfl, fun _ => rfl⟩
      have hlast (v w : Float) : (c.edits [.set k v, .set k w]).value k = w := by
        rw [edits_value_quiet (hquiet v w), lastWritten_cons, lastWritten_cons, Edit.value?,
          if_pos rfl]
        rfl
      have hvalue := congrArg (Circuit.value · k) heq
      rw [hlast, hlast] at hvalue
      exact absurd hvalue (by decide +kernel)
  · obtain ⟨f, hf, hdiffer⟩ := edit_vk_not_comm hb
    exact ⟨_, _, f, rfl, hf, hdiffer⟩
  · obtain ⟨e, he, hdiffer⟩ := edit_vk_not_comm ha
    exact ⟨_, e, _, he, rfl, hdiffer.symm⟩

/-- The settings of a circuit after any sequence of changes. Those outside the cathode network, and
the switch of automatic bias, have the value written last, and the curve is what it was. So has the
cathode network if no new cathode voltage has found automatic bias on. Otherwise the last one that
has done so has chosen it, from the curve, that voltage, and the supply and the anode resistor then
in force, and, where these give no usable current, from the cathode resistor in force just before;
what is written later counts over that. Two changes next to each other can be swapped, unless they
write one setting, or one is a new cathode voltage and the other writes the cathode network, the
anode resistor, the supply or the switch. -/
theorem last_write_wins (c : Circuit T) (es : List (Edit T)) :
    let d := c.edits es
    d.curve = c.curve ∧ d.autoBias = lastSwitch c.autoBias es ∧
      (∀ k, k ≠ .rk → k ≠ .ck → d.value k = lastWritten k (c.value k) es) ∧
      (Quiet c.autoBias es →
        d.rk = lastWritten .rk c.rk es ∧ d.ck = lastWritten .ck c.ck es) ∧
      (∀ before v after, es = before ++ .set .vk v :: after →
        lastSwitch c.autoBias before = true → Quiet true after →
          let vb := lastWritten .vb c.vb before
          let ra := lastWritten .ra c.ra before
          let ia := currentAt c.curve v vb ra
          let rk := if 0 < ia ∧ Sample.isFinite ia = true ∧ 0 < v then v / ia
            else (c.edits before).rk
          d.rk = lastWritten .rk rk after ∧ d.ck = lastWritten .ck (bypassFor rk) after) ∧
      (Quiet c.autoBias es ∨ ∃ before v after, es = before ++ .set .vk v :: after ∧
        lastSwitch c.autoBias before = true ∧ Quiet true after) ∧
      ∀ before e f after, es = before ++ e :: f :: after → ¬Clash e.target f.target →
        d = c.edits (before ++ f :: e :: after) := by
  intro d
  refine ⟨c.edits_curve es, c.edits_autoBias es, ?_, ?_, ?_, quiet_or_last c.autoBias es, ?_⟩
  · intro k hrk hck
    exact edits_value hrk hck c es
  · intro hquiet
    exact ⟨edits_value_quiet hquiet .rk, edits_value_quiet hquiet .ck⟩
  · rintro before v after rfl hon hquiet
    exact edits_network hon hquiet v
  · rintro before e f after rfl hfree
    exact edits_swap hfree c before after

/-- A resistor set by hand once automatic bias is off again, a cathode voltage at which no current
flows, and a network that automatic bias has not touched. -/
theorem last_write_wins_manual_network :
    let c : Circuit Float := .ofTube .ecc83
    let after : List (Edit Float) := [.autoBias false, .set .rk 1200, .set .vk 3]
    let moved := c.edits (.set .rk 1500 :: .set .vb 300 :: .set .vk 2 :: after)
    let starved := c.edits [.set .rk 1500, .set .vk 400]
    let manual := c.edits [.autoBias false, .set .rk 1500, .set .ck 22e-6, .set .vk 2.5]
    moved.vk = 3 ∧ moved.rk = 1200 ∧ moved.ck = bypassFor (2 / currentAt c.curve 2 300 c.ra) ∧
      moved = c.edits (.set .vb 300 :: .set .rk 1500 :: .set .vk 2 :: after) ∧
      starved.rk = 1500 ∧ starved.ck = bypassFor 1500 ∧
      manual.rk = 1500 ∧ manual.ck = 22e-6 ∧ manual.autoBias = false := by
  intro c after moved starved manual
  have husable : 0 < currentAt c.curve 2 300 c.ra ∧
      Sample.isFinite (currentAt c.curve 2 300 c.ra) = true ∧ (0 : Float) < 2 := by decide +kernel
  have hstarved : ¬(0 < currentAt c.curve 400 c.vb c.ra ∧
      Sample.isFinite (currentAt c.curve 400 c.vb c.ra) = true ∧ (0 : Float) < 400) := by
    decide +kernel
  have hlater : Quiet true after := by decide
  obtain ⟨-, -, hmoved, -, hnetwork, -, hswap⟩ :=
    last_write_wins c (.set .rk 1500 :: .set .vb 300 :: .set .vk 2 :: after)
  obtain ⟨hrk, hck⟩ := hnetwork [.set .rk 1500, .set .vb 300] 2 after rfl rfl hlater
  obtain ⟨-, -, -, -, hnone, -, -⟩ := last_write_wins c [.set .rk 1500, .set .vk 400]
  obtain ⟨hrk', hck'⟩ := hnone [.set .rk 1500] 400 [] rfl rfl (quiet_nil true)
  obtain ⟨-, hoff, -, hquiet, -, -, -⟩ :=
    last_write_wins c [.autoBias false, .set .rk 1500, .set .ck 22e-6, .set .vk 2.5]
  obtain ⟨hmanual, hmanual'⟩ := hquiet (by decide)
  refine ⟨hmoved .vk (by decide) (by decide), hrk, hck.trans ?_,
    hswap [] (.set .rk 1500) (.set .vb 300) _ rfl (by decide), hrk'.trans ?_, hck'.trans ?_,
    hmanual, hmanual', hoff⟩
  · exact congrArg bypassFor (if_pos husable)
  · exact if_neg hstarved
  · exact congrArg bypassFor (if_neg hstarved)

end Circuit

end TubePreamp
