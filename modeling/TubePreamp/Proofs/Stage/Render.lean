import Mathlib.Data.List.Basic
import TubePreamp.Stage

/-!
What a stage makes of a signal, apart from the buffers that carry it. A rendered feed can be cut
anywhere, and processing buffers of equal length is rendering what they hold, whatever the outputs
held before.
-/

namespace TubePreamp

def Output.handed {T : Type} [Sample T] (o : Output T) : T × T := (o.va, o.ri)

namespace OperatingPoint

variable {T : Type}

@[simp] theorem seed_nil (p : OperatingPoint T) : p.seed [] = p := by
  unfold seed
  cases p.armed <;> rfl

theorem seed_disarmed {p : OperatingPoint T} (h : p.armed = false) (input : List T) :
    p.seed input = p := by
  simp only [seed, h]

theorem seed_cons_armed (p : OperatingPoint T) (x : T) (input : List T) :
    (p.seed (x :: input)).armed = false := by
  unfold seed
  cases h : p.armed <;> simp [h]

theorem seed_eq_of_head (p : OperatingPoint T) {a b : List T} (h : a.head? = b.head?) :
    p.seed a = p.seed b := by
  cases a with
  | nil =>
    have hb : b = [] := List.head?_eq_none_iff.mp h.symm
    rw [hb]
  | cons x a =>
    obtain ⟨b, rfl⟩ := List.head?_eq_some_iff.mp h.symm
    unfold seed
    cases p.armed <;> rfl

variable [Sample T]

@[simp] theorem step_armed (p : OperatingPoint T) (c : Circuit T) (tap : Tap) (vi ri : T) :
    (p.step c tap vi ri).2.armed = p.armed := rfl

@[simp] theorem run_nil (c : Circuit T) (tap : Tap) (p : OperatingPoint T) :
    run c tap p [] = ([], p) := rfl

theorem run_cons (c : Circuit T) (tap : Tap) (p : OperatingPoint T) (x : T × T)
    (feed : List (T × T)) :
    run c tap p (x :: feed) = ((p.step c tap x.1 x.2).1 :: (run c tap (p.step c tap x.1 x.2).2 feed).1,
      (run c tap (p.step c tap x.1 x.2).2 feed).2) := rfl

theorem run_append (c : Circuit T) (tap : Tap) (p : OperatingPoint T) (a b : List (T × T)) :
    run c tap p (a ++ b) = ((run c tap p a).1 ++ (run c tap (run c tap p a).2 b).1,
      (run c tap (run c tap p a).2 b).2) := by
  induction a generalizing p with
  | nil => rfl
  | cons x a ih => simp only [List.cons_append, run_cons, ih]

@[simp] theorem run_length (c : Circuit T) (tap : Tap) (p : OperatingPoint T)
    (feed : List (T × T)) : (run c tap p feed).1.length = feed.length := by
  induction feed generalizing p with
  | nil => rfl
  | cons x feed ih => simp only [run_cons, List.length_cons, ih]

@[simp] theorem run_armed (c : Circuit T) (tap : Tap) (p : OperatingPoint T)
    (feed : List (T × T)) : (run c tap p feed).2.armed = p.armed := by
  induction feed generalizing p with
  | nil => rfl
  | cons x feed ih => rw [run_cons, ih, step_armed]

end OperatingPoint

namespace Stage

variable {T : Type}

@[simp] theorem seeded_circuit (s : Stage T) (inputs : List (List T)) :
    (s.seeded inputs).circuit = s.circuit := by
  unfold seeded
  split <;> rfl

@[simp] theorem seeded_placement (s : Stage T) (inputs : List (List T)) :
    (s.seeded inputs).placement = s.placement := by
  unfold seeded
  split <;> rfl

theorem seeded_eq_of_head (s : Stage T) {a b : List (List T)}
    (h : s.placement.driven = true → (a.headD []).head? = (b.headD []).head?) :
    s.seeded a = s.seeded b := by
  unfold seeded
  split
  · next hd => rw [s.point.seed_eq_of_head (h hd)]
  · rfl

@[simp] theorem seeded_tap (s : Stage T) (inputs : List (List T)) :
    (s.seeded inputs).tap = s.tap := by
  rw [tap, seeded_placement, tap]

theorem feed_head {s : Stage T} {inputs : List (List T)} {feed : List (T × T)}
    (h : s.feed? inputs = some feed) (hd : s.placement.driven = true) (hne : feed ≠ []) :
    (inputs.headD []).head? = (feed.map Prod.fst).head? := by
  unfold feed? at h
  split at h
  · simp_all
  · cases h
    next va ri _ _ => cases va <;> cases ri <;> simp_all
  · cases h

theorem seeded_take {s : Stage T} {inputs : List (List T)} {feed : List (T × T)} {n : Nat}
    (hfeed : s.feed? inputs = some feed) (hpos : 0 < n) (hne : feed ≠ []) :
    s.seeded inputs = s.seeded [(feed.take n).map Prod.fst] := by
  apply s.seeded_eq_of_head
  intro hd
  rw [feed_head hfeed hd hne, List.headD_cons, List.map_take, List.head?_take, if_neg (by omega)]

theorem room_whole {s : Stage T} {outputs : List (List T)} {size : Nat}
    (hcount : outputs.length = s.placement.outputCount) (hlen : ∀ o ∈ outputs, o.length = size) :
    s.room? outputs = some size := by
  cases hd : s.placement.drives with
  | false =>
    obtain ⟨vo, rfl⟩ := List.length_eq_one_iff.mp (by simpa [Placement.outputCount, hd] using hcount)
    simp [room?, hd, hlen vo (by simp)]
  | true =>
    obtain ⟨va, ri, rfl⟩ := List.length_eq_two.mp (by simpa [Placement.outputCount, hd] using hcount)
    simp [room?, hd, hlen va (by simp), hlen ri (by simp)]

variable [Sample T]

/-- What a stage makes of a feed: a driven one seeds itself, then every sample is solved. -/
def render (s : Stage T) (feed : List (T × T)) : List (Output T) × Stage T :=
  let s := s.seeded [feed.map Prod.fst]
  let (results, point) := s.point.run s.circuit s.tap feed
  (results, { s with point })

theorem render_eq (s : Stage T) (feed : List (T × T)) :
    s.render feed = (((s.seeded [feed.map Prod.fst]).point.run s.circuit s.tap feed).1,
      { s.seeded [feed.map Prod.fst] with
        point := ((s.seeded [feed.map Prod.fst]).point.run s.circuit s.tap feed).2 }) := by
  rw [render]
  simp only [seeded_circuit, seeded_tap]

@[simp] theorem render_nil (s : Stage T) : s.render [] = ([], s) := by
  rw [render_eq]
  simp only [List.map_nil, seeded, List.headD_cons, OperatingPoint.seed_nil, ite_self,
    OperatingPoint.run_nil]

@[simp] theorem render_length (s : Stage T) (feed : List (T × T)) :
    (s.render feed).1.length = feed.length := by
  rw [render_eq, OperatingPoint.run_length]

@[simp] theorem render_circuit (s : Stage T) (feed : List (T × T)) :
    (s.render feed).2.circuit = s.circuit := by
  rw [render_eq]
  exact s.seeded_circuit _

@[simp] theorem render_placement (s : Stage T) (feed : List (T × T)) :
    (s.render feed).2.placement = s.placement := by
  rw [render_eq]
  exact s.seeded_placement _

/-- A stage that has rendered samples is not seeded again. -/
theorem render_seeded (s : Stage T) (x : T × T) (feed : List (T × T)) (inputs : List (List T)) :
    (s.render (x :: feed)).2.seeded inputs = (s.render (x :: feed)).2 := by
  by_cases hd : s.placement.driven = true
  · have harmed : (s.render (x :: feed)).2.point.armed = false := by
      rw [render_eq]
      simp only [OperatingPoint.run_armed, seeded, hd, if_true, List.headD_cons, List.map_cons,
        OperatingPoint.seed_cons_armed]
    rw [seeded, OperatingPoint.seed_disarmed harmed, ite_self]
  · rw [seeded, render_placement, if_neg hd]

theorem render_append (s : Stage T) (a b : List (T × T)) :
    s.render (a ++ b) = ((s.render a).1 ++ ((s.render a).2.render b).1,
      ((s.render a).2.render b).2) := by
  cases a with
  | nil => rw [render_nil, List.nil_append, List.nil_append]
  | cons x a =>
    have hhead : s.seeded [(x :: a ++ b).map Prod.fst] = s.seeded [(x :: a).map Prod.fst] :=
      s.seeded_eq_of_head fun _ => rfl
    have hsecond : (s.render (x :: a)).2.render b =
        ((s.render (x :: a)).2.point.run s.circuit s.tap b |>.1,
          { (s.render (x :: a)).2 with
            point := (s.render (x :: a)).2.point.run s.circuit s.tap b |>.2 }) := by
      rw [render_eq, render_seeded, render_circuit, tap, render_placement, ← tap]
    rw [hsecond, render_eq, hhead, OperatingPoint.run_append, render_eq]

theorem seeded_store (s : Stage T) (inputs outputs : List (List T)) (results : List (Output T)) :
    (s.seeded inputs).store results outputs = s.store results outputs := by
  unfold store
  rw [seeded_placement]

/-- Rendering is what processing does to the feed, as long as there is anything to process. -/
theorem process_eq_render {s : Stage T} {inputs outputs : List (List T)} {feed : List (T × T)}
    {room size : Nat} (hfeed : s.feed? inputs = some feed) (hroom : s.room? outputs = some room)
    (hpos : 0 < min size room) (hne : feed ≠ []) :
    s.process inputs outputs size =
      (s.store (s.render (feed.take (min size room))).1 outputs,
        (s.render (feed.take (min size room))).2) := by
  have hhead := seeded_take hfeed hpos hne
  have hsize : size ≠ 0 := by omega
  simp only [process, if_neg hsize, hfeed, hroom]
  rw [hhead, render_eq]
  simp only [seeded_circuit, seeded_tap, seeded_store]

theorem store_nil (s : Stage T) (outputs : List (List T)) : s.store [] outputs = outputs := by
  unfold store
  split <;> rfl

theorem process_whole {s : Stage T} {inputs outputs : List (List T)} {feed : List (T × T)}
    (hfeed : s.feed? inputs = some feed) (hroom : s.room? outputs = some feed.length) :
    s.process inputs outputs feed.length =
      (s.store (s.render feed).1 outputs, (s.render feed).2) := by
  by_cases hne : feed = []
  · subst hne
    rw [render_nil, store_nil]
    rfl
  · have hpos := List.length_pos_iff.mpr hne
    rw [process_eq_render hfeed hroom (by omega) hne, Nat.min_self, List.take_length]

def written (s : Stage T) (results : List (Output T)) : List (List T) :=
  if s.placement.drives then [results.map Output.va, results.map Output.ri]
  else [results.map Output.vo]

theorem store_whole {s : Stage T} {results : List (Output T)} {outputs : List (List T)}
    (hcount : outputs.length = s.placement.outputCount)
    (hlen : ∀ o ∈ outputs, o.length = results.length) :
    s.store results outputs = s.written results := by
  cases hd : s.placement.drives with
  | false =>
    obtain ⟨vo, rfl⟩ := List.length_eq_one_iff.mp (by simpa [Placement.outputCount, hd] using hcount)
    have hvo := hlen vo (by simp)
    simp only [store, written, hd, Bool.false_eq_true, if_false]
    rw [overlay_eq_left (by simp [hvo])]
  | true =>
    obtain ⟨va, ri, rfl⟩ := List.length_eq_two.mp (by simpa [Placement.outputCount, hd] using hcount)
    have hva := hlen va (by simp)
    have hri := hlen ri (by simp)
    simp only [store, written, hd, if_true]
    rw [overlay_eq_left (by simp [hva]), overlay_eq_left (by simp [hri])]

/-- Processing full buffers: the outputs are the results, and nothing of what they held is left. -/
theorem process_full {s : Stage T} {inputs outputs : List (List T)} {feed : List (T × T)}
    {size : Nat} (hfeed : s.feed? inputs = some feed) (hsize : feed.length = size)
    (hcount : outputs.length = s.placement.outputCount)
    (hlen : ∀ o ∈ outputs, o.length = size) :
    s.process inputs outputs size = (s.written (s.render feed).1, (s.render feed).2) := by
  subst hsize
  rw [process_whole hfeed (room_whole hcount hlen), store_whole hcount]
  intro o ho
  rw [hlen o ho, render_length]

theorem store_lengths {s : Stage T} {results : List (Output T)} {outputs : List (List T)}
    {room : Nat} (hroom : s.room? outputs = some room) (hlen : results.length ≤ room) :
    (s.store results outputs).map List.length = outputs.map List.length := by
  unfold room? at hroom
  unfold store
  split at hroom
  · cases hroom
    simp only [List.map_cons]
    rw [length_overlay (by simpa using hlen)]
  · cases hroom
    simp only [List.map_cons]
    rw [length_overlay (by simp; omega), length_overlay (by simp; omega)]
  · cases hroom

theorem process_lengths (s : Stage T) (inputs outputs : List (List T)) (size : Nat) :
    (s.process inputs outputs size).1.map List.length = outputs.map List.length := by
  unfold process
  split
  · rfl
  · split
    · next feed room _ hroom =>
      simp only [seeded_store]
      apply store_lengths hroom
      rw [OperatingPoint.run_length, List.length_take]
      omega
    · rfl

end Stage

/-!
A record of every sample that a stage solves: what it was solved from, and so what came of it. The
record takes nothing from the run that it goes with; its results are the results of the run.
-/

structure Moment (T : Type) where
  circuit : Circuit T
  point : OperatingPoint T
  tap : Tap
  vi : T
  ri : T

namespace Moment

variable {T : Type} [Sample T]

def output (m : Moment T) : Output T := (m.point.step m.circuit m.tap m.vi m.ri).1

def after (m : Moment T) : OperatingPoint T := (m.point.step m.circuit m.tap m.vi m.ri).2

def read (m : Moment T) : T × T := (m.vi, m.ri)

end Moment

namespace OperatingPoint

variable {T : Type} [Sample T]

def moments (c : Circuit T) (tap : Tap) : OperatingPoint T → List (T × T) → List (Moment T)
  | _, [] => []
  | p, (vi, ri) :: rest => ⟨c, p, tap, vi, ri⟩ :: moments c tap (p.step c tap vi ri).2 rest

theorem moments_output (c : Circuit T) (tap : Tap) (p : OperatingPoint T) (feed : List (T × T)) :
    (moments c tap p feed).map Moment.output = (run c tap p feed).1 := by
  induction feed generalizing p with
  | nil => rfl
  | cons x feed ih =>
    rw [run_cons, ← ih]
    rfl

theorem moments_read (c : Circuit T) (tap : Tap) (p : OperatingPoint T) (feed : List (T × T)) :
    (moments c tap p feed).map Moment.read = feed := by
  induction feed generalizing p with
  | nil => rfl
  | cons x feed ih =>
    have hrest := ih (p.step c tap x.1 x.2).2
    simp only [moments, List.map_cons, hrest, Moment.read]

theorem moments_place {c : Circuit T} {tap : Tap} {p : OperatingPoint T} {feed : List (T × T)} :
    ∀ m ∈ moments c tap p feed, m.circuit = c ∧ m.tap = tap := by
  induction feed generalizing p with
  | nil => simp [moments]
  | cons x feed ih =>
    intro m hm
    rcases List.mem_cons.mp hm with rfl | hm
    · exact ⟨rfl, rfl⟩
    · exact ih m hm

end OperatingPoint

namespace Stage

variable {T : Type} [Sample T]

def moments (s : Stage T) (inputs outputs : List (List T)) (size : Nat) : List (Moment T) :=
  if size = 0 then []
  else
    match s.feed? inputs, s.room? outputs with
    | some feed, some room =>
      (s.seeded inputs).point.moments s.circuit s.tap (feed.take (min size room))
    | _, _ => []

def feedMoments (s : Stage T) (feed : List (T × T)) : List (Moment T) :=
  (s.seeded [feed.map Prod.fst]).point.moments s.circuit s.tap feed

theorem feedMoments_output (s : Stage T) (feed : List (T × T)) :
    (s.feedMoments feed).map Moment.output = (s.render feed).1 := by
  rw [feedMoments, OperatingPoint.moments_output, render_eq]

theorem feedMoments_read (s : Stage T) (feed : List (T × T)) :
    (s.feedMoments feed).map Moment.read = feed :=
  OperatingPoint.moments_read _ _ _ _

theorem moments_full {s : Stage T} {inputs outputs : List (List T)} {feed : List (T × T)}
    {size : Nat} (hfeed : s.feed? inputs = some feed) (hsize : feed.length = size)
    (hcount : outputs.length = s.placement.outputCount)
    (hlen : ∀ o ∈ outputs, o.length = size) :
    s.moments inputs outputs size = s.feedMoments feed := by
  subst hsize
  by_cases hne : feed = []
  · subst hne
    rfl
  · have hpos := List.length_pos_iff.mpr hne
    have hhead := seeded_take hfeed hpos hne
    rw [List.take_length] at hhead
    have hsome : feed.length ≠ 0 := by omega
    simp only [moments, if_neg hsome, hfeed, room_whole hcount hlen, Nat.min_self,
      List.take_length, hhead, feedMoments]

end Stage

end TubePreamp
