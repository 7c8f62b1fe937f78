import TubePreamp.Proofs.Pcm.Delivery

/-!
Calls of a reader, one after the other, each with a block of its own. Whatever the source grants,
every byte that has left it is part of a delivered sample or waits for the rest of its sample, and a
block is overwritten by what is delivered and by nothing else.
-/

namespace TubePreamp.Pcm

/-!
A reader with one buffer. The bytes of a split sample wait at the front of the buffer that the next
read goes into, behind them, and every slice of the buffer is checked. No slice is ever out of
range, and the answers are those of a reader that holds such bytes apart.
-/

section Buffers

variable {α : Type}

def slice? (i j : Nat) (l : List α) : Option (List α) :=
  if i ≤ j ∧ j ≤ l.length then some ((l.take j).drop i) else none

def writeAt (i : Nat) (new old : List α) : List α := old.take i ++ overlay new (old.drop i)

theorem slice?_eq {i j : Nat} {l : List α} (hij : i ≤ j) (hj : j ≤ l.length) :
    slice? i j l = some ((l.take j).drop i) :=
  if_pos ⟨hij, hj⟩

theorem length_writeAt {i : Nat} {new old : List α} (h : i + new.length ≤ old.length) :
    (writeAt i new old).length = old.length := by
  have hdrop : new.length ≤ (old.drop i).length := by
    rw [List.length_drop]
    omega
  rw [writeAt, List.length_append, length_overlay hdrop, List.length_take, List.length_drop]
  omega

theorem take_writeAt {i : Nat} {new old : List α} (h : i ≤ old.length) :
    (writeAt i new old).take (i + new.length) = old.take i ++ new := by
  have hfront : (old.take i).length = i := List.length_take_of_le h
  have hcut : (writeAt i new old).take ((old.take i).length + new.length) =
      old.take i ++ (overlay new (old.drop i)).take new.length := List.take_length_add_append _
  rwa [hfront, take_overlay] at hcut

end Buffers

/-- The number that a call returns; an end counts as nothing read. -/
def Reading.count {T : Type} : Reading T → Except String Nat
  | delivered samples => .ok samples.length
  | ended _ => .ok 0
  | failed reason => .error reason

structure Intake where
  source : Source
  buffer : List UInt8
  pending : Nat

namespace Intake

def ofSource (source : Source) (size : Nat) : Intake :=
  ⟨source, List.replicate (bytesPerSample * max size 1) 0, 0⟩

/-- Reads into the buffer up to position `wanted`, until it starts with a whole sample. Gives the
number of bytes then there, or zero at an end. -/
def gather? (t : Intake) (wanted : Nat) : Option (Except String Nat × Intake) :=
  match slice? t.pending wanted t.buffer with
  | none => none
  | some window =>
    match t.source.read window.length with
    | (.error reason, source) => some (.error reason, { t with source })
    | (.ok [], source) => some (.ok 0, { t with source, pending := 0 })
    | (.ok (b :: bs), source) =>
      let buffer := writeAt t.pending (b :: bs) t.buffer
      let available := t.pending + (b :: bs).length
      if available / bytesPerSample = 0 then
        gather? { source, buffer, pending := available } wanted
      else some (.ok available, { t with source, buffer })
termination_by bytesPerSample - t.pending
decreasing_by
  rename_i h
  simp only [available, List.length_cons, bytesPerSample] at h ⊢
  omega

/-- Takes the whole samples out of the first `available` bytes and moves the others to the front. -/
def unpack? {T : Type} [Sample T] (t : Intake) (available : Nat) (block : List T) :
    Option (Except String Nat × List T × Intake) :=
  let count := available / bytesPerSample
  let whole := count * bytesPerSample
  match slice? 0 whole t.buffer, slice? whole available t.buffer with
  | some front, some split =>
    some (.ok count, overlay ((decode front).take block.length) block,
      { t with buffer := overlay split t.buffer, pending := available - whole })
  | _, _ => none

def readInto? {T : Type} [Sample T] (t : Intake) (block : List T) :
    Option (Except String Nat × List T × Intake) :=
  if block = [] then some (.ok 0, block, t)
  else
    match t.gather? (min (block.length * bytesPerSample) t.buffer.length) with
    | none => none
    | some (.error reason, t) => some (.error reason, block, t)
    | some (.ok available, t) =>
      if available = 0 then some (.ok 0, block, t) else t.unpack? available block

structure Holds (t : Intake) (r : Reader) : Prop where
  source : t.source = r.source
  size : t.buffer.length = bytesPerSample * r.capacity
  pending : t.pending = r.held.length
  front : t.buffer.take t.pending = r.held

theorem Holds.ofSource (source : Source) (size : Nat) :
    Holds (.ofSource source size) (.ofSource source size) where
  source := rfl
  size := List.length_replicate
  pending := rfl
  front := rfl

variable {t u : Intake} {r q : Reader} {wanted : Nat}

inductive Gathered (wanted : Nat) (u : Intake) (q : Reader) : Fetch → Except String Nat → Prop where
  | got {bytes : List UInt8} : u.source = q.source →
      u.buffer.length = bytesPerSample * q.capacity → bytesPerSample ≤ bytes.length →
      bytes.length ≤ wanted → u.buffer.take bytes.length = bytes →
      q.held = bytes.drop (bytes.length / bytesPerSample * bytesPerSample) →
      Gathered wanted u q (.got bytes) (.ok bytes.length)
  | ended {dropped : Nat} : Holds u q → Gathered wanted u q (.ended dropped) (.ok 0)
  | failed {reason : String} : Holds u q → Gathered wanted u q (.failed reason) (.error reason)

theorem Holds.gather?_eq (h : t.Holds r) (hheld : r.held.length ≤ wanted)
    (hroom : wanted ≤ t.buffer.length) :
    t.gather? wanted =
      match r.source.read (wanted - r.held.length) with
      | (.error reason, source) => some (.error reason, { t with source })
      | (.ok [], source) => some (.ok 0, { t with source, pending := 0 })
      | (.ok (b :: bs), source) =>
        let buffer := writeAt t.pending (b :: bs) t.buffer
        let available := t.pending + (b :: bs).length
        if available / bytesPerSample = 0 then
          Intake.gather? { source, buffer, pending := available } wanted
        else some (.ok available, { t with source, buffer }) := by
  have hpending : t.pending ≤ wanted := by rw [h.pending]; exact hheld
  -- the window begins behind the bytes that wait and ends inside the buffer
  have hwindow : ((t.buffer.take wanted).drop t.pending).length = wanted - r.held.length := by
    rw [List.length_drop, List.length_take_of_le hroom, h.pending]
  rw [gather?, slice?_eq hpending hroom]
  simp only [hwindow, h.source]

theorem Holds.filled (h : t.Holds r) (bytes : List UInt8)
    (hfits : r.held.length + bytes.length ≤ t.buffer.length) :
    (writeAt t.pending bytes t.buffer).length = bytesPerSample * r.capacity ∧
      (writeAt t.pending bytes t.buffer).take (r.held ++ bytes).length = r.held ++ bytes := by
  have hpending : t.pending + bytes.length ≤ t.buffer.length := by rw [h.pending]; exact hfits
  constructor
  · rw [length_writeAt hpending, h.size]
  · rw [List.length_append, ← h.pending, take_writeAt (by omega), h.front]

theorem gather?_gathers (hheld : r.held.length < bytesPerSample)
    (hwanted : bytesPerSample ≤ wanted) :
    ∀ {t : Intake}, t.Holds r → wanted ≤ t.buffer.length →
      ∃ answer u, t.gather? wanted = some (answer, u) ∧
        Gathered wanted u (r.fetch wanted).2 (r.fetch wanted).1 answer := by
  fun_induction Reader.fetch r wanted with
  | case1 r reason source hread =>
    intro t h hroom
    rw [h.gather?_eq (by omega) hroom, hread]
    exact ⟨_, _, rfl, .failed ⟨rfl, h.size, h.pending, h.front⟩⟩
  | case2 r source hread =>
    intro t h hroom
    rw [h.gather?_eq (by omega) hroom, hread]
    exact ⟨_, _, rfl, .ended ⟨rfl, h.size, rfl, rfl⟩⟩
  | case3 r b bs source hread available hshort ih =>
    intro t h hroom
    have hmost := Source.read_fits hread
    obtain ⟨hsize, hfront⟩ := h.filled (b :: bs) (by omega)
    have hlen : t.pending + (b :: bs).length = available.length := by
      rw [h.pending, List.length_append]
    rw [h.gather?_eq (by omega) hroom, hread]
    simp only [hlen, Nat.div_eq_of_lt hshort, if_true]
    apply ih hshort ⟨rfl, hsize, rfl, hfront⟩
    rw [hsize, ← h.size]
    exact hroom
  | case4 r b bs source hread available henough =>
    intro t h hroom
    have hmost := Source.read_fits hread
    obtain ⟨hsize, hfront⟩ := h.filled (b :: bs) (by omega)
    have hlen : t.pending + (b :: bs).length = available.length := by
      rw [h.pending, List.length_append]
    have hwhole : available.length / bytesPerSample ≠ 0 :=
      Nat.ne_of_gt (Nat.div_pos (Nat.le_of_not_lt henough) (by decide))
    rw [h.gather?_eq (by omega) hroom, hread]
    simp only [hlen, if_neg hwhole]
    refine ⟨_, _, rfl, .got rfl hsize (Nat.le_of_not_lt henough) ?_ hfront rfl⟩
    rw [List.length_append]
    omega

section Read

variable {T : Type} [Sample T]

theorem unpack?_holds {bytes : List UInt8} (hsource : u.source = q.source)
    (hsize : u.buffer.length = bytesPerSample * q.capacity)
    (hfront : u.buffer.take bytes.length = bytes)
    (hheld : q.held = bytes.drop (bytes.length / bytesPerSample * bytesPerSample))
    {block : List T} (hblock : bytes.length / bytesPerSample ≤ block.length) :
    ∃ v, u.unpack? bytes.length block =
      some (.ok (decode bytes : List T).length, overlay (decode bytes) block, v) ∧ v.Holds q := by
  have hroom : bytes.length ≤ u.buffer.length := by
    rw [← hfront, List.length_take]
    exact Nat.min_le_right _ _
  have hwhole := Nat.div_mul_le_self bytes.length bytesPerSample
  have hsamples : slice? 0 (bytes.length / bytesPerSample * bytesPerSample) u.buffer =
      some (bytes.take (bytes.length / bytesPerSample * bytesPerSample)) := by
    have hcut := congrArg (List.take (bytes.length / bytesPerSample * bytesPerSample)) hfront
    rw [List.take_take, Nat.min_eq_left hwhole] at hcut
    rw [slice?_eq (Nat.zero_le _) (Nat.le_trans hwhole hroom), List.drop_zero, hcut]
  have hsplit : slice? (bytes.length / bytesPerSample * bytesPerSample) bytes.length u.buffer =
      some q.held := by
    rw [slice?_eq hwhole hroom, hfront, hheld]
  have hcount : (decode bytes : List T).length = bytes.length / bytesPerSample := length_decode bytes
  have hall : (decode bytes : List T).length ≤ block.length := by rw [hcount]; exact hblock
  have hlen : q.held.length =
      bytes.length - bytes.length / bytesPerSample * bytesPerSample := by
    rw [hheld, List.length_drop]
  refine ⟨{ u with
    buffer := overlay q.held u.buffer
    pending := bytes.length - bytes.length / bytesPerSample * bytesPerSample }, ?_, ?_⟩
  · simp only [unpack?, hsamples, hsplit, decode_whole, hcount,
      List.take_of_length_le hall]
  · constructor
    · exact hsource
    · exact (length_overlay (by omega)).trans hsize
    · exact hlen.symm
    · rw [← hlen, take_overlay]

/-- Every answer is that of the reader, and no slice was out of range. -/
theorem readInto?_holds (h : t.Holds r) (hheld : r.held.length < bytesPerSample)
    (hcapacity : 0 < r.capacity) (block : List T) :
    ∃ u, t.readInto? block =
      some ((r.readInto block).1.count, (r.readInto block).2.1, u) ∧
        u.Holds (r.readInto block).2.2 := by
  by_cases hblock : block = []
  · subst hblock
    exact ⟨t, rfl, h⟩
  · have hcount : 0 < block.length := List.length_pos_iff.mpr hblock
    have hwanted : min (block.length * bytesPerSample) t.buffer.length =
        bytesPerSample * min block.length r.capacity := by
      rw [h.size, Nat.mul_comm, Nat.mul_min_mul_left]
    have henough : bytesPerSample ≤ bytesPerSample * min block.length r.capacity :=
      Nat.le_mul_of_pos_right _ (by omega)
    have hroom : bytesPerSample * min block.length r.capacity ≤ t.buffer.length := by
      rw [h.size]
      exact Nat.mul_le_mul_left _ (Nat.min_le_right _ _)
    obtain ⟨answer, u, hgather, hgathered⟩ := gather?_gathers hheld henough h hroom
    rw [readInto?, if_neg hblock, hwanted, hgather, Reader.readInto, r.read_eq hcount]
    generalize r.fetch (bytesPerSample * min block.length r.capacity) = fetched at hgathered ⊢
    obtain ⟨f, q⟩ := fetched
    cases hgathered with
    | failed hu => exact ⟨u, rfl, hu⟩
    | ended hu => exact ⟨u, rfl, hu⟩
    | @got bytes hsource hsize hsome hmost hfront hq =>
      have hne : bytes.length ≠ 0 := Nat.ne_of_gt (Nat.lt_of_lt_of_le (by decide) hsome)
      have hblock : bytes.length / bytesPerSample ≤ block.length := by
        simp only [bytesPerSample] at hmost ⊢
        omega
      obtain ⟨v, hunpack, hv⟩ := unpack?_holds hsource hsize hfront hq hblock
      exact ⟨v, by simp only [if_neg hne, hunpack]; rfl, hv⟩

end Read

end Intake

namespace Reader

variable {T : Type} [Sample T] {r q start : Reader} {size : Nat}

def readEach (r : Reader) : List (List T) → List (Reading T × List T) × Reader
  | [] => ([], r)
  | block :: rest =>
    let (reading, block, r) := r.readInto block
    let (later, r) := r.readEach rest
    ((reading, block) :: later, r)

def delivered (calls : List (Reading T × List T)) : List T :=
  calls.flatMap fun call => call.1.samples

structure Aligned (size : Nat) (r : Reader) : Prop where
  held : r.held.length < bytesPerSample
  capacity : r.capacity = max size 1

theorem Aligned.ofSource (source : Source) (size : Nat) :
    (Reader.ofSource source size).Aligned size where
  held := Nat.succ_pos _
  capacity := rfl

theorem Aligned.room (h : r.Aligned size) : 0 < r.capacity := by
  rw [h.capacity]
  exact Nat.le_max_right _ _

theorem Aligned.gathers (h : r.Aligned size) {wanted : Nat} {f : Fetch}
    (hf : Gathers r wanted f q) : q.Aligned size := by
  cases hf with
  | got hlater hsome hmost hstream hq =>
    refine ⟨?_, hlater.capacity.trans h.capacity⟩
    rw [hq, List.length_drop]
    simp only [bytesPerSample]
    omega
  | ended hlater hlost hstream hq =>
    refine ⟨?_, hlater.capacity.trans h.capacity⟩
    rw [hq]
    exact Nat.succ_pos _
  | failed hlater hheld => exact ⟨hheld, hlater.capacity.trans h.capacity⟩

theorem fetch_ended {wanted dropped : Nat} (hheld : r.held.length < bytesPerSample)
    (hwanted : bytesPerSample ≤ wanted) (h : r.fetch wanted = (.ended dropped, q)) :
    q.source.rest = [] ∨ ∃ k, q.source.reads = k + 1 ∧ q.source.plan k = .upTo 0 := by
  fun_induction fetch r wanted with
  | case1 => cases h
  | case2 r source hread =>
    obtain ⟨-, rfl⟩ := Prod.mk.inj h
    obtain ⟨n, -, hzero, htake, rfl⟩ := Source.read_granted (by omega) hread
    rcases List.take_eq_nil_iff.mp htake.symm with hn | hnone
    · exact .inr ⟨r.source.reads, rfl, hzero hn⟩
    · left
      simp only [Source.take, hnone, List.drop_nil]
  | case3 r b bs source hread available hshort ih => exact ih hshort h
  | case4 => cases h

theorem fetch_reads {wanted : Nat} (hheld : r.held.length < bytesPerSample) :
    (r.fetch wanted).2.source.reads + r.held.length ≤ r.source.reads + bytesPerSample := by
  fun_induction fetch r wanted with
  | case1 r reason source hread =>
    have hone := Source.reads_read hread
    dsimp only
    omega
  | case2 r source hread =>
    have hone := Source.reads_read hread
    dsimp only
    omega
  | case3 r b bs source hread available hshort ih =>
    have hbound := ih hshort
    have hone := Source.reads_read hread
    -- every read but the last one of a call brings a byte of one and the same sample
    have hmore : r.held.length < available.length := by
      simp only [available, List.length_append, List.length_cons]
      omega
    dsimp only at hbound
    omega
  | case4 r b bs source hread =>
    have hone := Source.reads_read hread
    dsimp only
    omega

/-- How a call with `block` can end where `size` samples fit, the reader then being `q`. -/
inductive Answered (size : Nat) (r : Reader) (block : List T) :
    Reading T → List T → Reader → Prop where
  | idle : block = [] → Answered size r block (.delivered []) [] r
  | delivered {xs : List T} {q : Reader} : 1 ≤ xs.length →
      xs.length ≤ min block.length (max size 1) →
      Answered size r block (.delivered xs) (xs ++ block.drop xs.length) q
  | ended {dropped : Nat} {q : Reader} : block ≠ [] →
      (q.source.rest = [] ∨ ∃ k, q.source.reads = k + 1 ∧ q.source.plan k = .upTo 0) →
      Answered size r block (.ended dropped) block q
  | failed {reason : String} {q : Reader} : block ≠ [] →
      (∃ k, r.source.reads ≤ k ∧ k < q.source.reads ∧ r.source.plan k = .fail reason) →
      Answered size r block (.failed reason) block q

theorem readInto_answered (h : r.Aligned size) (block : List T) :
    Answered size r block (r.readInto block).1 (r.readInto block).2.1 (r.readInto block).2.2 := by
  by_cases hblock : block = []
  · subst hblock
    exact .idle rfl
  · have hcount : 0 < block.length := List.length_pos_iff.mpr hblock
    have henough : bytesPerSample ≤ bytesPerSample * min block.length r.capacity :=
      Nat.le_mul_of_pos_right _ (Nat.lt_min.mpr ⟨hcount, h.room⟩)
    have hgathers := fetch_gathers h.held henough
    rw [readInto, r.read_eq hcount]
    rcases hfetch : r.fetch (bytesPerSample * min block.length r.capacity) with ⟨f, q⟩
    rw [hfetch] at hgathers
    cases hgathers with
    | @got bytes _ hlater hsome hmost hstream hq =>
      have hlen : (decode bytes : List T).length = bytes.length / bytesPerSample :=
        length_decode bytes
      refine .delivered ?_ ?_
      · rw [hlen]
        exact Nat.div_pos hsome (by decide)
      · rw [hlen, ← h.capacity]
        exact Nat.div_le_of_le_mul hmost
    | ended => exact .ended hblock (fetch_ended h.held henough hfetch)
    | failed _ _ _ hfail => exact .failed hblock hfail

theorem readInto_reads (h : r.Aligned size) (block : List T) :
    (r.readInto block).2.2.source.reads ≤ r.source.reads + bytesPerSample := by
  by_cases hblock : block = []
  · subst hblock
    exact Nat.le_add_right _ _
  · rw [readInto, r.read_eq (List.length_pos_iff.mpr hblock)]
    exact Nat.le_trans (Nat.le_add_right _ _) (fetch_reads h.held)

theorem Aligned.readInto (h : r.Aligned size) (block : List T) :
    (r.readInto block).2.2.Aligned size := by
  by_cases hblock : block = []
  · subst hblock
    exact h
  · obtain ⟨f, hf, -⟩ := read_gathers (T := T) h.held h.room (List.length_pos_iff.mpr hblock) rfl
    exact h.gathers hf

/-- Since `start`, whole samples have left the stream and have been delivered. -/
structure Accounted (size : Nat) (start : Reader) (before : List T) (r : Reader) : Prop where
  aligned : r.Aligned size
  stream : ∃ front, start.stream = front ++ r.stream ∧
    front.length = bytesPerSample * before.length ∧ decode front = before

theorem Accounted.refl (h : start.Aligned size) : Accounted size start ([] : List T) start :=
  ⟨h, [], rfl, rfl, rfl⟩

theorem Accounted.readInto {before : List T} (h : Accounted size start before r) (block : List T)
    (hlive : ∀ dropped, (r.readInto block).1 ≠ .ended dropped) :
    Accounted size start (before ++ (r.readInto block).1.samples) (r.readInto block).2.2 := by
  by_cases hblock : block = []
  · subst hblock
    have hnone : (before ++ (r.readInto ([] : List T)).1.samples) = before := List.append_nil _
    rw [hnone]
    exact h
  · have hcount := List.length_pos_iff.mpr hblock
    rcases hread : (r.read block.length : Reading T × Reader) with ⟨reading, q⟩
    have halign := h.aligned.readInto block
    rw [Reader.readInto, hread] at halign hlive ⊢
    obtain ⟨front, hfront, hlen, hdecode⟩ := h.stream
    cases reading with
    | delivered xs =>
      obtain ⟨-, -, -, -, next, hnext, hxs, hstream⟩ :=
        read_delivered h.aligned.held h.aligned.room hcount hread
      refine ⟨halign, front ++ next, ?_, ?_, ?_⟩
      · rw [hfront, hstream, List.append_assoc]
      · rw [List.length_append, hlen, hnext, ← Nat.mul_add, ← List.length_append]
        rfl
      · rw [decode_append ⟨_, hlen⟩, hdecode, hxs]
        rfl
    | ended dropped => exact absurd rfl (hlive dropped)
    | failed reason =>
      obtain ⟨f, hf, hdecoded⟩ := read_gathers h.aligned.held h.aligned.room hcount hread
      cases hf with
      | failed _ _ hkept =>
        refine ⟨halign, front, ?_, ?_, ?_⟩
        · rw [hfront, hkept]
        · exact hlen.trans (congrArg _ (congrArg _ (List.append_nil before).symm))
        · exact hdecode.trans (List.append_nil before).symm
      | _ => cases hdecoded

theorem Accounted.readEach {before : List T} (h : Accounted size start before r)
    (blocks : List (List T))
    (hlive : ∀ call ∈ (r.readEach blocks).1, ∀ dropped, call.1 ≠ .ended dropped) :
    Accounted size start (before ++ delivered (r.readEach blocks).1) (r.readEach blocks).2 := by
  induction blocks generalizing r before with
  | nil => rwa [Reader.readEach, delivered, List.flatMap_nil, List.append_nil]
  | cons block rest ih =>
    rw [Reader.readEach] at hlive ⊢
    rw [List.forall_mem_cons] at hlive
    have hrest := ih (h.readInto block hlive.1) hlive.2
    rwa [List.append_assoc] at hrest

theorem Aligned.readEach (h : r.Aligned size) (blocks : List (List T)) :
    (r.readEach blocks).2.Aligned size := by
  induction blocks generalizing r with
  | nil => exact h
  | cons block rest ih => exact ih (h.readInto block)

/-- Nothing but the bytes that wait is between the delivered samples and the source. -/
theorem Accounted.consumed {before : List T} (h : Accounted size start before r)
    (hstart : start.held = []) :
    ∃ consumed, start.source.rest = consumed ++ r.source.rest ∧
      consumed.length = bytesPerSample * before.length + r.held.length ∧ r.held <:+ consumed ∧
      before = (decode start.source.rest).take before.length := by
  obtain ⟨front, hfront, hlen, hdecode⟩ := h.stream
  have hwhole : bytesPerSample ∣ front.length := ⟨_, hlen⟩
  rw [Reader.stream, hstart, List.nil_append] at hfront
  refine ⟨front ++ r.held, ?_, ?_, List.suffix_append _ _, ?_⟩
  · rw [hfront, Reader.stream, List.append_assoc]
  · rw [List.length_append, hlen]
  · rw [hfront, decode_append hwhole, hdecode, List.take_left]

theorem Accounted.complete {before : List T} (h : Accounted size start before r)
    (hstart : start.held = []) {block : List T} {dropped : Nat}
    (hended : (r.readInto block).1 = .ended dropped)
    (hrest : (r.readInto block).2.2.source.rest = []) :
    before = decode start.source.rest ∧ dropped = start.source.rest.length % bytesPerSample := by
  have hblock : block ≠ [] := by
    rintro rfl
    cases hended
  have hcount := List.length_pos_iff.mpr hblock
  rcases hread : (r.read block.length : Reading T × Reader) with ⟨reading, q⟩
  rw [Reader.readInto, hread] at hended hrest
  obtain ⟨f, hf, rfl⟩ := read_gathers h.aligned.held h.aligned.room hcount hread
  obtain ⟨front, hfront, hlen, hdecode⟩ := h.stream
  rw [Reader.stream, hstart, List.nil_append] at hfront
  cases hf with
  | @ended lost _ hlater hlost hstream hheld =>
    obtain rfl : lost.length = dropped := Reading.ended.inj hended
    have hlast : lost = r.stream := by
      rw [← hstream]
      exact (List.append_nil lost).symm.trans (congrArg (lost ++ ·) hrest.symm)
    constructor
    · rw [hfront, ← hlast, decode_append ⟨_, hlen⟩, decode_short hlost, List.append_nil, hdecode]
    · rw [hfront, ← hlast, List.length_append, hlen, Nat.mul_add_mod, Nat.mod_eq_of_lt hlost]
  | got => cases hended
  | failed => cases hended

end Reader

namespace Intake

variable {T : Type} [Sample T] {t : Intake} {r : Reader} {size : Nat}

def readEach? (t : Intake) : List (List T) → Option (List (Except String Nat × List T) × Intake)
  | [] => some ([], t)
  | block :: rest => do
    let (answer, block, t) ← t.readInto? block
    let (later, t) ← t.readEach? rest
    return ((answer, block) :: later, t)

theorem readEach?_holds (h : t.Holds r) (halign : r.Aligned size) (blocks : List (List T)) :
    ∃ u, t.readEach? blocks =
      some ((r.readEach blocks).1.map fun call => (call.1.count, call.2), u) ∧
        u.Holds (r.readEach blocks).2 := by
  induction blocks generalizing t r with
  | nil => exact ⟨t, rfl, h⟩
  | cons block rest ih =>
    obtain ⟨u, hread, hu⟩ := readInto?_holds h halign.held halign.room block
    obtain ⟨v, hlater, hv⟩ := ih hu (halign.readInto block)
    refine ⟨v, ?_, hv⟩
    simp only [readEach?, hread, Option.bind_eq_bind, Option.bind_some, hlater, Reader.readEach,
      List.map_cons]
    rfl

end Intake

variable {T : Type} [Sample T]

/-- Calls of a new reader, and the call after them. One buffer is enough for them: all its slices are
in range, its front is what waits, and its answers are the same. Each call reads four times at most,
and overwrites the front of its block with the samples it delivers, or nothing. Until an end is
reported, what has left the source are the bytes of the delivered samples, four of each and the
lowest first, and then those that wait; an end that is one finds every whole sample delivered. -/
theorem reads_account_for_every_byte (source : Source) (size : Nat) (blocks : List (List T)) :
    let run := (Reader.ofSource source size).readEach blocks
    let taken := Reader.delivered run.1
    let byte k := (source.rest.getD k 0).toNat
    (∃ t, (Intake.ofSource source size).readEach? blocks =
        some (run.1.map fun call => (call.1.count, call.2), t) ∧ t.Holds run.2) ∧
      (∀ block : List T,
        let next := run.2.readInto block
        Reader.Answered size run.2 block next.1 next.2.1 next.2.2 ∧
          next.2.2.source.reads ≤ run.2.source.reads + 4) ∧
      ((∀ call ∈ run.1, ∀ dropped, call.1 ≠ .ended dropped) →
        (∃ consumed, source.rest = consumed ++ run.2.source.rest ∧
          consumed.length = 4 * taken.length + run.2.held.length ∧ run.2.held.length ≤ 3 ∧
          run.2.held <:+ consumed) ∧
        (∀ i < taken.length, ∃ w : UInt32,
          w.toNat = byte (4 * i) + 256 * byte (4 * i + 1) + 65536 * byte (4 * i + 2) +
            16777216 * byte (4 * i + 3) ∧
          taken[i]? = some (Sample.ofSingle (Float32.ofBits w))) ∧
        ∀ (block : List T) (dropped : Nat), (run.2.readInto block).1 = .ended dropped →
          (run.2.readInto block).2.2.source.rest = [] →
            taken.length = source.rest.length / 4 ∧ dropped = source.rest.length % 4) := by
  intro run taken byte
  have hstart := Reader.Aligned.ofSource source size
  have halign : run.2.Aligned size := hstart.readEach blocks
  refine ⟨Intake.readEach?_holds (.ofSource source size) hstart blocks, ?_, ?_⟩
  · intro block next
    exact ⟨Reader.readInto_answered halign block, Reader.readInto_reads halign block⟩
  · intro hlive
    have haccount : Reader.Accounted size (.ofSource source size) taken run.2 :=
      (Reader.Accounted.refl hstart).readEach blocks hlive
    obtain ⟨consumed, hrest, hlen, hlast, hfront⟩ := haccount.consumed rfl
    refine ⟨⟨consumed, hrest, hlen, Nat.le_of_lt_succ halign.held, hlast⟩, ?_, ?_⟩
    · intro i hi
      have hgroup : i < source.rest.length / bytesPerSample := by
        have htotal : source.rest.length = _ := congrArg List.length hrest
        rw [List.length_append, hlen] at htotal
        simp only [bytesPerSample] at htotal ⊢
        omega
      refine ⟨_, toNat_wordOf _ _ _ _, ?_⟩
      rw [hfront, List.getElem?_take_of_lt hi]
      exact getElem?_decode hgroup
    · intro block dropped hended hrest
      obtain ⟨hall, hdropped⟩ := haccount.complete rfl hended hrest
      refine ⟨?_, hdropped⟩
      rw [hall]
      exact length_decode source.rest

/-- A sample that comes in two parts, a failing read between them, a call without room and a byte too
many at the end. -/
theorem reads_account_for_every_byte_split :
    let source := Source.planned [1, 2, 3, 4, 5, 6, 7, 8, 9] [.upTo 3, .fail "busy"]
    let run := (Reader.ofSource source 1).readEach [[0, 0], [], [0, 0], [(0 : Float), 0]]
    let next := run.2.readInto [(0 : Float), 0]
    (∀ call ∈ run.1, ∀ dropped, call.1 ≠ .ended dropped) ∧
      next.1 = .ended 1 ∧ next.2.2.source.rest = [] ∧
      (Reader.delivered run.1)[1]? = some (Sample.ofSingle (Float32.ofBits 0x08070605)) ∧
      (Reader.delivered run.1).length = 2 := by
  intro source run next
  have hlive : ∀ call ∈ run.1, ∀ dropped, call.1 ≠ .ended dropped := by
    simp [run, source, Reader.readEach, Reader.readInto, Reader.ofSource, Reader.read, Reader.fetch,
      Source.read, Source.planned, Source.take, bytesPerSample]
  have hended : next.1 = .ended 1 ∧ next.2.2.source.rest = [] := by
    simp [next, run, source, Reader.readEach, Reader.readInto, Reader.ofSource, Reader.read,
      Reader.fetch, Source.read, Source.planned, Source.take, bytesPerSample]
  obtain ⟨-, -, haccount⟩ :=
    reads_account_for_every_byte source 1 [[0, 0], [], [0, 0], [(0 : Float), 0]]
  obtain ⟨-, hsamples, hcomplete⟩ := haccount hlive
  obtain ⟨hcount, -⟩ := hcomplete [0, 0] 1 hended.1 hended.2
  have hnine : source.rest.length = 9 := rfl
  rw [hnine] at hcount
  obtain ⟨w, hw, hsecond⟩ := hsamples 1 (by rw [hcount]; decide)
  simp only [source, Source.planned, List.getD_cons_succ, List.getD_cons_zero] at hw
  obtain rfl : w = 0x08070605 := UInt32.toNat_inj.mp hw
  exact ⟨hlive, hended.1, hended.2, hsecond, hcount⟩

end TubePreamp.Pcm
