import Mathlib
import TubePreamp.Proofs.Pcm.Accounting
import TubePreamp.Proofs.Precision

/-!
There and back. What is written block by block is the encoding of all samples, whatever the staging
buffer has held before, and what is read of it, in blocks and pieces of any other length, are the
samples again. Bytes that are decoded and encoded come back too, unless they are no number.
-/

namespace TubePreamp.Pcm

section Codec

variable {T : Type} [Sample T]

theorem encode_cons (x : T) (xs : List T) : encode (x :: xs) = encodeSample x ++ encode xs := rfl

/-- What is encoded comes back as narrowing and widening leave it. -/
theorem decode_encode (xs : List T) :
    (decode (encode xs) : List T) = xs.map fun x => Sample.ofSingle (Sample.toSingle x) := by
  induction xs with
  | nil => rfl
  | cons x xs ih =>
    rw [encode_cons, decode_append ⟨1, rfl⟩, ih, List.map_cons]
    simp only [encodeSample, wordBytes, decode, wordOf_wordBytes, Float32.ofBits_toBits,
      List.singleton_append]

theorem wordBytes_wordOf (a b c d : UInt8) : wordBytes (wordOf a b c d) = [a, b, c, d] := by
  have ha := a.toNat_lt
  have hb := b.toNat_lt
  have hc := c.toNat_lt
  have hd := d.toNat_lt
  simp only [wordBytes, wordOf, UInt32.toNat_ofNat', List.cons.injEq, and_true, ← UInt8.toNat_inj,
    UInt8.toNat_ofNat']
  omega

def group (bytes : List UInt8) (i : Nat) : List UInt8 :=
  (bytes.drop (bytesPerSample * i)).take bytesPerSample

theorem group_zero {first : List UInt8} (h : first.length = bytesPerSample) (rest : List UInt8) :
    group (first ++ rest) 0 = first := by
  rw [group, Nat.mul_zero, List.drop_zero, ← h, List.take_left]

theorem group_succ {first : List UInt8} (h : first.length = bytesPerSample) (rest : List UInt8)
    (i : Nat) : group (first ++ rest) (i + 1) = group rest i := by
  rw [group, group, Nat.mul_succ, Nat.add_comm, ← List.drop_drop, ← h, List.drop_left]

/-- The induction is on the groups before the one in question. -/
theorem group_encode_decode (hexact : ∀ x, Sample.toSingle (Sample.ofSingle x : T) = x)
    {bytes : List UInt8} {i : Nat} (hi : i < bytes.length / bytesPerSample)
    (hnumber : ∀ x ∈ (decode (group bytes i) : List Float32), x.isNaN = false) :
    group (encode (decode bytes : List T)) i = group bytes i := by
  fun_induction decode (T := T) bytes generalizing i with
  | case1 a b c d rest ih =>
    have hbytes : a :: b :: c :: d :: rest = [a, b, c, d] ++ rest := rfl
    rw [hbytes] at hnumber ⊢
    rw [encode_cons]
    cases i with
    | zero =>
      rw [group_zero rfl] at hnumber
      have hword := toBits_ofBits (hnumber (.ofBits (wordOf a b c d)) (List.mem_singleton_self _))
      rw [group_zero rfl, group_zero rfl, encodeSample, hexact, hword, wordBytes_wordOf]
    | succ i =>
      rw [group_succ rfl] at hnumber
      rw [group_succ rfl, group_succ rfl]
      apply ih _ hnumber
      simp only [bytesPerSample, List.length_cons] at hi ⊢
      omega
  | case2 bytes hshort =>
    rw [Nat.div_eq_of_lt (length_lt_of_no_group hshort)] at hi
    exact absurd hi (Nat.not_lt_zero i)

end Codec

namespace Writer

variable {T : Type} [Sample T] {w : Writer}

def writeEach (w : Writer) : List (List T) → List (Option Fault) × Writer
  | [] => ([], w)
  | block :: rest =>
    let (fault, w) := w.write block
    let (later, w) := w.writeEach rest
    (fault :: later, w)

theorem writeEach_cons (w : Writer) (block : List T) (rest : List (List T)) :
    w.writeEach (block :: rest) =
      ((w.write block).1 :: ((w.write block).2.writeEach rest).1,
        ((w.write block).2.writeEach rest).2) := rfl

theorem writeEach_written {blocks : List (List T)}
    (h : ∀ fault ∈ (w.writeEach blocks).1, fault = none) :
    (w.writeEach blocks).2.sink.written = w.sink.written ++ encode blocks.flatten := by
  induction blocks generalizing w with
  | nil => exact (List.append_nil _).symm
  | cons block rest ih =>
    rcases hwrite : w.write block with ⟨fault, v⟩
    obtain ⟨accepted, -, hsink, hall, -⟩ := write_front hwrite
    rw [writeEach_cons, hwrite, List.forall_mem_cons] at h
    rw [writeEach_cons, hwrite, ih h.2, hsink, hall h.1, List.flatten_cons, encode_append,
      List.append_assoc]

theorem writeEach_accepting {blocks : List (List T)}
    (h : w.sink.Accepting (bytesPerSample * blocks.flatten.length)) :
    ∀ fault ∈ (w.writeEach blocks).1, fault = none := by
  induction blocks generalizing w with
  | nil => exact List.forall_mem_nil _
  | cons block rest ih =>
    rw [List.flatten_cons, List.length_append, Nat.mul_add] at h
    have hfirst : bytesPerSample * block.length ≤
        bytesPerSample * block.length + bytesPerSample * rest.flatten.length :=
      Nat.le_add_right _ _
    obtain ⟨staging, hwrite⟩ := write_accepting h hfirst
    rw [writeEach_cons, hwrite, List.forall_mem_cons]
    refine ⟨rfl, ih (h.later ?_)⟩
    rw [length_encode]

end Writer

namespace Reader

variable {T : Type} [Sample T] {r : Reader} {size : Nat}

def received (calls : List (Reading T × List T)) : List T :=
  calls.flatMap fun call => call.2.take call.1.samples.length

theorem readEach_cons (r : Reader) (block : List T) (rest : List (List T)) :
    r.readEach (block :: rest) =
      (((r.readInto block).1, (r.readInto block).2.1) ::
          ((r.readInto block).2.2.readEach rest).1,
        ((r.readInto block).2.2.readEach rest).2) := rfl

omit [Sample T] in
theorem delivered_cons (call : Reading T × List T) (rest : List (Reading T × List T)) :
    delivered (call :: rest) = call.1.samples ++ delivered rest := List.flatMap_cons

theorem received_readEach (r : Reader) (blocks : List (List T)) :
    received (r.readEach blocks).1 = delivered (r.readEach blocks).1 := by
  induction blocks generalizing r with
  | nil => rfl
  | cons block rest ih =>
    have hfront : (r.readInto block).2.1.take (r.readInto block).1.samples.length =
        (r.readInto block).1.samples := take_overlay _ _
    rw [readEach_cons, received, List.flatMap_cons, hfront, delivered_cons, ← ih]
    rfl

theorem length_readEach (r : Reader) (blocks : List (List T)) :
    (r.readEach blocks).1.length = blocks.length := by
  induction blocks generalizing r with
  | nil => rfl
  | cons block rest ih => rw [readEach_cons, List.length_cons, List.length_cons, ih]

omit [Sample T] in
theorem length_le_delivered {calls : List (Reading T × List T)}
    (h : ∀ call ∈ calls, 0 < call.1.samples.length) : calls.length ≤ (delivered calls).length := by
  induction calls with
  | nil => exact Nat.le_refl _
  | cons call rest ih =>
    rw [List.forall_mem_cons] at h
    have hrest := ih h.2
    rw [delivered_cons, List.length_cons, List.length_append]
    omega

structure Whole (size : Nat) (r : Reader) : Prop where
  aligned : r.Aligned size
  steady : r.source.Steady
  whole : bytesPerSample ∣ r.stream.length

theorem Whole.readInto (h : r.Whole size) {block : List T} (hblock : block ≠ []) :
    let next := r.readInto block
    next.2.2.Whole size ∧
      (decode r.stream : List T) = next.1.samples ++ decode next.2.2.stream ∧
      (0 < next.1.samples.length ∨
        next.1 = .ended 0 ∧ (decode next.2.2.stream : List T) = []) := by
  intro next
  have halign : next.2.2.Aligned size := h.aligned.readInto block
  have hcount := List.length_pos_iff.mpr hblock
  rcases hread : (r.read block.length : Reading T × Reader) with ⟨reading, q⟩
  have hnext : next = (reading, overlay reading.samples block, q) := by
    simp only [next, Reader.readInto, hread]
  rw [hnext] at halign ⊢
  obtain ⟨f, hgathers, rfl⟩ := read_gathers h.aligned.held h.aligned.room hcount hread
  cases hgathers with
  | got hlater =>
    obtain ⟨-, -, hpos, -, front, hlen, hdecode, hstream⟩ :=
      read_delivered h.aligned.held h.aligned.room hcount hread
    refine ⟨⟨halign, hlater.steady h.steady, ?_⟩, ?_, .inl hpos⟩
    · have hwhole := h.whole
      rw [hstream, List.length_append] at hwhole
      exact (Nat.dvd_add_right ⟨_, hlen⟩).mp hwhole
    · rw [hstream, decode_append ⟨_, hlen⟩, hdecode]
      rfl
  | @ended lost _ hlater hlost hstream hheld hend =>
    have hrest : q.source.rest = [] := by
      rcases hend with hrest | ⟨k, hempty⟩
      · exact hrest
      · exact absurd hempty (h.steady.never_empty k)
    have hdone : q.stream = [] := by rw [stream, hheld, hrest, List.append_nil]
    -- the samples are whole, so no byte of one can have been lost
    have hwhole := h.whole
    rw [← hstream, hrest, List.append_nil] at hwhole
    obtain rfl := List.eq_nil_of_length_eq_zero (Nat.eq_zero_of_dvd_of_lt hwhole hlost)
    have hnone : (decode q.stream : List T) = [] := by
      rw [hdone]
      rfl
    refine ⟨⟨halign, hlater.steady h.steady, ?_⟩, ?_, .inr ⟨rfl, hnone⟩⟩
    · rw [hdone]
      exact Nat.dvd_zero _
    · rw [← hstream, hrest, hnone]
      rfl
  | failed _ _ _ hfail =>
    obtain ⟨k, -, -, hplan⟩ := hfail
    exact absurd hplan (h.steady.never_fails k _)

/-- All calls: until nothing is left, each of them delivers something. -/
theorem Whole.readEach (h : r.Whole size) {blocks : List (List T)}
    (hblocks : ∀ block ∈ blocks, block ≠ []) :
    let calls := (r.readEach blocks).1
    (∀ call ∈ calls, 0 < call.1.samples.length ∨ call.1 = .ended 0) ∧
      ∃ left, (decode r.stream : List T) = delivered calls ++ left ∧
        ((∀ call ∈ calls, 0 < call.1.samples.length) ∨ left = []) := by
  induction blocks generalizing r with
  | nil => exact ⟨List.forall_mem_nil _, decode r.stream, rfl, .inl (List.forall_mem_nil _)⟩
  | cons block rest ih =>
    rw [List.forall_mem_cons] at hblocks
    obtain ⟨hnext, hstream, hcase⟩ := h.readInto hblocks.1
    obtain ⟨hcalls, left, hleft, hprogress⟩ := ih hnext hblocks.2
    have hall : (decode r.stream : List T) = delivered (r.readEach (block :: rest)).1 ++ left := by
      rw [hstream, hleft, readEach_cons, delivered_cons, List.append_assoc]
    simp only [readEach_cons, List.forall_mem_cons] at hall ⊢
    refine ⟨⟨hcase.imp_right And.left, hcalls⟩, left, hall, ?_⟩
    rcases hcase with hsome | ⟨hended, hnone⟩
    · exact hprogress.imp_left fun hmore => ⟨hsome, hmore⟩
    · rw [hnone] at hleft
      exact .inr (List.append_eq_nil_iff.mp hleft.symm).2

theorem Whole.receives (h : r.Whole size) {blocks : List (List T)}
    (hblocks : ∀ block ∈ blocks, block ≠ []) :
    let calls := (r.readEach blocks).1
    received calls <+: decode r.stream ∧
      ((∃ call ∈ calls, call.1 = .ended 0) → received calls = decode r.stream) ∧
      ((decode r.stream : List T).length ≤ blocks.length → received calls = decode r.stream) := by
  intro calls
  obtain ⟨-, left, hleft, hprogress⟩ := h.readEach hblocks
  rw [received_readEach, hleft]
  have hdone : left = [] → delivered calls = delivered calls ++ left := by
    rintro rfl
    exact (List.append_nil _).symm
  refine ⟨List.prefix_append _ _, ?_, ?_⟩
  · rintro ⟨call, hcall, hended⟩
    rcases hprogress with hsome | hnone
    · have hpos := hsome call hcall
      rw [hended] at hpos
      exact absurd hpos (Nat.lt_irrefl 0)
    · exact hdone hnone
  · intro henough
    rcases hprogress with hsome | hnone
    · have hcount := length_le_delivered hsome
      rw [length_readEach] at hcount
      rw [List.length_append] at henough
      exact hdone (List.eq_nil_of_length_eq_zero (by omega))
    · exact hdone hnone

end Reader

variable {T : Type} [Sample T]

/-- Blocks reach a sink that takes them as the bytes of all their samples, whatever the staging buffer
held before. From a source of these bytes the samples come back in order, some at every call, as
narrowing and widening leave them; no length of a buffer, a block or a read shows. In single precision
they are the same samples. Bytes that were decoded come back too, in either precision, group by group,
unless a group is no number. -/
theorem written_blocks_read_back (blocks : List (List T)) (sink : Sink) (size : Nat)
    {source : Source} (hsteady : source.Steady)
    (hsource : source.rest = blocks.flatten.flatMap encodeSample) (capacity : Nat)
    {requests : List (List T)} (hrequests : ∀ request ∈ requests, request ≠ []) :
    let writing := (Writer.ofSink sink size).writeEach blocks
    let calls := ((Reader.ofSource source capacity).readEach requests).1
    let expected : List T := blocks.flatten.map fun x => Sample.ofSingle (Sample.toSingle x)
    (sink.Accepting (4 * blocks.flatten.length) → ∀ fault ∈ writing.1, fault = none) ∧
      ((∀ fault ∈ writing.1, fault = none) →
        writing.2.sink.written = sink.written ++ blocks.flatten.flatMap encodeSample) ∧
      (∃ t, (Intake.ofSource source capacity).readEach? requests =
        some (calls.map fun call => (call.1.count, call.2), t)) ∧
      (∀ call ∈ calls, 0 < call.1.samples.length ∨ call.1 = .ended 0) ∧
      Reader.received calls <+: expected ∧
      ((∃ call ∈ calls, call.1 = .ended 0) → Reader.received calls = expected) ∧
      (expected.length ≤ requests.length → Reader.received calls = expected) ∧
      (∀ xs : List Float32, (xs.map fun x => Sample.ofSingle (Sample.toSingle x)) = xs) ∧
      ∀ bytes i, i < bytes.length / 4 →
        (∀ x ∈ (decode (group bytes i) : List Float32), x.isNaN = false) →
        group (encode (decode bytes : List Float32)) i = group bytes i ∧
          group (encode (decode bytes : List Float)) i = group bytes i := by
  intro writing calls expected
  have halign := Reader.Aligned.ofSource source capacity
  have hstream : (Reader.ofSource source capacity).stream = encode blocks.flatten := hsource
  have hwhole : (Reader.ofSource source capacity).Whole capacity := by
    refine ⟨halign, hsteady, ?_⟩
    rw [hstream, length_encode]
    exact Nat.dvd_mul_right _ _
  have hdecode : (decode (Reader.ofSource source capacity).stream : List T) = expected := by
    rw [hstream, decode_encode]
  obtain ⟨hfront, hended, henough⟩ := hwhole.receives hrequests
  rw [hdecode] at hfront hended henough
  refine ⟨?_, ?_, ?_, (hwhole.readEach hrequests).1, hfront, hended, henough, List.map_id, ?_⟩
  · intro haccepting
    exact Writer.writeEach_accepting (w := .ofSink sink size) haccepting
  · intro hnone
    exact Writer.writeEach_written hnone
  · obtain ⟨t, hread, -⟩ := Intake.readEach?_holds (.ofSource source capacity) halign requests
    exact ⟨t, hread⟩
  · intro bytes i hi hnumber
    constructor
    · exact group_encode_decode (fun x => rfl) hi hnumber
    · exact group_encode_decode narrow_widen hi hnumber

/-- Blocks of two samples, none and one, asked for one by one from reads that split them, and bytes
one of which is too many. -/
theorem written_blocks_read_back_split :
    let blocks : List (List Float) := [[0.5, -0.25], [], [1]]
    let source := Source.planned [0, 0, 0, 63, 0, 0, 128, 190, 0, 0, 128, 63] [.upTo 3, .upTo 2]
    let sink : Sink := { perWrite := some 3, limit := some 12 }
    let calls := ((Reader.ofSource source 0).readEach [[7, 7], [7], [(7 : Float)]]).1
    ((Writer.ofSink sink 0).writeEach blocks).2.sink.written = source.rest ∧
      Reader.received calls = (blocks.flatten.map fun x => Sample.ofSingle (Sample.toSingle x)) ∧
      group (encode (decode [1, 2, 3, 4, 5, 6, 7, 8, 9] : List Float)) 1 = [5, 6, 7, 8] := by
  intro blocks source sink calls
  have hsteady : source.Steady := Source.planned_steady (by simp)
  have hsource : source.rest = blocks.flatten.flatMap encodeSample := by decide +kernel
  have hrequests : ∀ request ∈ [[7, 7], [7], [(7 : Float)]], request ≠ [] := by
    simp
  have hsink : sink.Accepting (4 * blocks.flatten.length) :=
    .of_limit (by decide) rfl (by decide) rfl
  have hnumber : ∀ x ∈ (decode (group [1, 2, 3, 4, 5, 6, 7, 8, 9] 1) : List Float32),
      x.isNaN = false := by
    decide +kernel
  obtain ⟨haccepts, hwritten, -, -, -, -, hreceived, -, hgroups⟩ :=
    written_blocks_read_back blocks sink 0 hsteady hsource 0 hrequests
  refine ⟨?_, hreceived ?_, (hgroups _ 1 ?_ hnumber).2⟩
  · rw [hwritten (haccepts hsink), hsource]
    rfl
  · exact Nat.le_refl _
  · decide

end TubePreamp.Pcm
