/-!
Numbers and buffers. Every voltage, current and component value of a stage is a number of one type
with the four operations, comparison and conversions to and from the two widths of binary floating
point. No law is assumed: a statement over an arbitrary `Sample` type holds bit for bit in single and
in double precision. Widening keeps a number as it is. Narrowing rounds to the nearest number, half
to even; what is too large for single precision becomes infinite.
-/

namespace TubePreamp

open Float.Model

def fitted (format : Format) : UnpackedFloat → UnpackedFloat
  | .finite sign mantissa exponent _ => .round format sign mantissa exponent
  | other => other

def widen (x : Float32) : Float :=
  .ofBits ⟨(fitted .binary64 (.unpack .binary32 x.toBits.toBitVec)).pack .binary64⟩

def narrow (x : Float) : Float32 :=
  .ofBits ⟨(fitted .binary32 (.unpack .binary64 x.toBits.toBitVec)).pack .binary32⟩

end TubePreamp

namespace TubePreamp

class Sample (T : Type) extends Add T, Sub T, Mul T, Div T, Neg T, Zero T, One T, LE T, LT T where
  decideLE : DecidableLE T
  decideLT : DecidableLT T
  pi : T
  isFinite : T → Bool
  ofDouble : Float → T
  ofSingle : Float32 → T
  toDouble : T → Float
  toSingle : T → Float32

instance decidableLE {T : Type} [Sample T] : DecidableLE T := Sample.decideLE

instance decidableLT {T : Type} [Sample T] : DecidableLT T := Sample.decideLT

instance : Sample Float where
  decideLE := inferInstance
  decideLT := inferInstance
  pi := 3.14159265358979323846
  isFinite := Float.isFinite
  ofDouble x := x
  ofSingle := widen
  toDouble x := x
  toSingle := narrow

instance : Sample Float32 where
  decideLE := inferInstance
  decideLT := inferInstance
  pi := Float32.ofBits 0x40490fdb
  isFinite := Float32.isFinite
  ofDouble := narrow
  ofSingle x := x
  toDouble := widen
  toSingle x := x

/-!
Buffers as lists: overwriting the front of one, changing its length, cutting a signal into blocks.
-/

def overlay {α : Type} (new old : List α) : List α := new ++ old.drop new.length

def resized {α : Type} (n : Nat) (fill : α) (l : List α) : List α :=
  l.take n ++ List.replicate (n - l.length) fill

def blocks {α : Type} (size : Nat) (l : List α) : List (List α) :=
  if 0 < size ∧ l ≠ [] then l.take size :: blocks size (l.drop size) else []
termination_by l.length
decreasing_by
  rename_i h
  have := List.length_pos_iff.mpr h.2
  simp only [List.length_drop]
  omega

variable {α : Type}

@[simp] theorem overlay_nil (old : List α) : overlay [] old = old := rfl

theorem length_overlay {new old : List α} (h : new.length ≤ old.length) :
    (overlay new old).length = old.length := by
  simp only [overlay, List.length_append, List.length_drop]
  omega

theorem take_overlay (new old : List α) : (overlay new old).take new.length = new := by
  simp [overlay]

/-- Of what is asked for, as much comes from `new` as the old buffer has room for. -/
theorem take_overlay_of_room {new old : List α} {n : Nat} (h : new.length = min n old.length) :
    (overlay new old).take n = new := by
  rcases Nat.le_total n old.length with hroom | hroom
  · have hn : new.length = n := by omega
    rw [← hn, take_overlay]
  · rw [overlay, List.drop_eq_nil_of_le (by omega), List.append_nil,
      List.take_of_length_le (by omega)]

theorem drop_overlay (new old : List α) :
    (overlay new old).drop new.length = old.drop new.length := by
  simp [overlay]

theorem overlay_eq_left {new old : List α} (h : old.length ≤ new.length) :
    overlay new old = new := by
  rw [overlay, List.drop_eq_nil_of_le h, List.append_nil]

@[simp] theorem length_resized (n : Nat) (fill : α) (l : List α) :
    (resized n fill l).length = n := by
  simp only [resized, List.length_append, List.length_take, List.length_replicate]
  omega

theorem length_le_of_mem_blocks {size : Nat} {l b : List α} (h : b ∈ blocks size l) :
    b.length ≤ size := by
  fun_induction blocks size l with
  | case1 l hl ih =>
    rcases List.mem_cons.mp h with rfl | h
    · exact List.length_take_le _ _
    · exact ih h
  | case2 l hl => cases h

end TubePreamp
