import Mathlib.Data.List.Basic
import TubePreamp.Pcm

/-!
Bytes on their way in and out. Whatever a source grants, the whole samples of its bytes are
delivered in order, and a read that fails costs none of them. Whatever a sink takes of a block is
the front of the block, and all of it where there is room.
-/

namespace TubePreamp.Pcm

section Codec

variable {T : Type} [Sample T]

theorem encode_append (a b : List T) : encode (a ++ b) = encode a ++ encode b :=
  List.flatMap_append

theorem decode_short {bytes : List UInt8} (h : bytes.length < bytesPerSample) :
    (decode bytes : List T) = [] := by
  apply List.eq_nil_of_length_eq_zero
  rw [length_decode, Nat.div_eq_of_lt h]

theorem length_lt_of_no_group {bytes : List UInt8}
    (h : ∀ a b c d rest, bytes = a :: b :: c :: d :: rest → False) :
    bytes.length < bytesPerSample := by
  match bytes, h with
  | [], _ | [_], _ | [_, _], _ | [_, _, _], _ => simp [bytesPerSample]
  | a :: b :: c :: d :: rest, h => exact (h a b c d rest rfl).elim

theorem decode_append {a : List UInt8} (h : bytesPerSample ∣ a.length) (b : List UInt8) :
    (decode (a ++ b) : List T) = decode a ++ decode b := by
  fun_induction decode (T := T) a with
  | case1 w x y z rest ih =>
    have hrest : bytesPerSample ∣ rest.length := by
      simp only [bytesPerSample, List.length_cons] at h ⊢
      omega
    simp only [List.cons_append, decode, ih hrest]
  | case2 a hshort =>
    have hlen := length_lt_of_no_group hshort
    obtain rfl := List.eq_nil_of_length_eq_zero (Nat.eq_zero_of_dvd_of_lt h hlen)
    rfl

theorem decode_whole (bytes : List UInt8) :
    (decode (bytes.take (bytes.length / bytesPerSample * bytesPerSample)) : List T) =
      decode bytes := by
  have hdvd : bytesPerSample ∣
      (bytes.take (bytes.length / bytesPerSample * bytesPerSample)).length := by
    rw [List.length_take, Nat.min_eq_left (Nat.div_mul_le_self _ _)]
    exact Nat.dvd_mul_left _ _
  have hrest : (bytes.drop (bytes.length / bytesPerSample * bytesPerSample)).length <
      bytesPerSample := by
    simp only [bytesPerSample, List.length_drop]
    omega
  have hcut := decode_append (T := T) hdvd
    (bytes.drop (bytes.length / bytesPerSample * bytesPerSample))
  rw [List.take_append_drop, decode_short hrest, List.append_nil] at hcut
  exact hcut.symm

/-- Sample `i` is the one of the bytes `4 * i` to `4 * i + 3`; the induction is on the groups
before it. -/
theorem getElem?_decode {bytes : List UInt8} {i : Nat} (hi : i < bytes.length / bytesPerSample) :
    (decode bytes : List T)[i]? = some (Sample.ofSingle (.ofBits
      (wordOf (bytes.getD (4 * i) 0) (bytes.getD (4 * i + 1) 0) (bytes.getD (4 * i + 2) 0)
        (bytes.getD (4 * i + 3) 0)))) := by
  fun_induction decode (T := T) bytes generalizing i with
  | case1 a b c d rest ih =>
    cases i with
    | zero => rfl
    | succ i =>
      have hrest : i < rest.length / bytesPerSample := by
        simp only [bytesPerSample, List.length_cons] at hi ⊢
        omega
      rw [List.getElem?_cons_succ, ih hrest]
      simp only [Nat.mul_succ, Nat.add_right_comm _ 4, List.getD_cons_succ]
  | case2 bytes hshort =>
    rw [Nat.div_eq_of_lt (length_lt_of_no_group hshort)] at hi
    exact absurd hi (Nat.not_lt_zero i)

theorem decode_eq_map (bytes : List UInt8) :
    (decode bytes : List T) = (List.range (bytes.length / bytesPerSample)).map fun i =>
      Sample.ofSingle (.ofBits
        (wordOf (bytes.getD (4 * i) 0) (bytes.getD (4 * i + 1) 0) (bytes.getD (4 * i + 2) 0)
          (bytes.getD (4 * i + 3) 0))) := by
  apply List.ext_getElem?
  intro i
  rw [List.getElem?_map]
  by_cases hi : i < bytes.length / bytesPerSample
  · rw [getElem?_decode hi, List.getElem?_range hi, Option.map_some]
  · have hnone : (List.range (bytes.length / bytesPerSample))[i]? = none := by
      rw [List.getElem?_eq_none_iff, List.length_range]
      exact Nat.le_of_not_lt hi
    rw [hnone, Option.map_none, List.getElem?_eq_none_iff, length_decode]
    exact Nat.le_of_not_lt hi

theorem toNat_wordOf (a b c d : UInt8) :
    (wordOf a b c d).toNat =
      a.toNat + 0x100 * b.toNat + 0x10000 * c.toNat + 0x1000000 * d.toNat := by
  have ha := a.toNat_lt
  have hb := b.toNat_lt
  have hc := c.toNat_lt
  have hd := d.toNat_lt
  rw [wordOf, UInt32.toNat_ofNat']
  omega

end Codec

namespace Source

/-- No read fails, and a read gives nothing only at the end. -/
def Steady (s : Source) : Prop := ∀ k, s.plan k = .all ∨ ∃ n, 0 < n ∧ s.plan k = .upTo n

theorem planned_steady {bytes : List UInt8} {grants : List Grant}
    (h : ∀ grant ∈ grants, grant = .all ∨ ∃ n, 0 < n ∧ grant = .upTo n) :
    (planned bytes grants).Steady := by
  intro k
  rcases Nat.lt_or_ge k grants.length with hk | hk
  · have hgrant : (planned bytes grants).plan k = grants[k] := by simp [planned, hk]
    rw [hgrant]
    exact h _ (List.getElem_mem hk)
  · left
    simp [planned, hk]

theorem Steady.never_fails {s : Source} (hs : s.Steady) (k : Nat) (reason : String) :
    s.plan k ≠ .fail reason := by
  intro hfail
  rcases hs k with hall | ⟨n, -, hupto⟩
  · rw [hall] at hfail
    cases hfail
  · rw [hupto] at hfail
    cases hfail

theorem Steady.never_empty {s : Source} (hs : s.Steady) (k : Nat) : s.plan k ≠ .upTo 0 := by
  intro hempty
  rcases hs k with hall | ⟨n, hn, hupto⟩
  · rw [hall] at hempty
    cases hempty
  · rw [hupto] at hempty
    cases hempty
    exact Nat.lt_irrefl 0 hn

/-- A granted read hands out the front of the bytes, and asks for none only if the grant says so. -/
theorem read_granted {s t : Source} {room : Nat} {bytes : List UInt8} (hroom : 0 < room)
    (h : s.read room = (.ok bytes, t)) :
    ∃ n ≤ room, (n = 0 → s.plan s.reads = .upTo 0) ∧ bytes = s.rest.take n ∧
      t = (s.take n).2 := by
  unfold read at h
  split at h
  · obtain ⟨hbytes, rfl⟩ := Prod.mk.inj h
    exact ⟨room, Nat.le_refl _, by omega, (Except.ok.inj hbytes).symm, rfl⟩
  · rename_i count hplan
    obtain ⟨hbytes, rfl⟩ := Prod.mk.inj h
    refine ⟨min count room, Nat.min_le_right _ _, ?_, (Except.ok.inj hbytes).symm, rfl⟩
    intro hzero
    obtain rfl : count = 0 := by omega
    exact hplan
  · cases h

theorem read_failed {s t : Source} {room : Nat} {reason : String}
    (h : s.read room = (.error reason, t)) :
    s.plan s.reads = .fail reason ∧ t = { s with reads := s.reads + 1 } := by
  unfold read at h
  split at h
  · cases h
  · cases h
  · rename_i given hplan
    obtain ⟨hreason, rfl⟩ := Prod.mk.inj h
    obtain rfl := Except.error.inj hreason
    exact ⟨hplan, rfl⟩

theorem read_fits {s t : Source} {room : Nat} {bytes : List UInt8}
    (h : s.read room = (.ok bytes, t)) : bytes.length ≤ room := by
  unfold read at h
  split at h
  · obtain ⟨hbytes, -⟩ := Prod.mk.inj h
    obtain rfl := Except.ok.inj hbytes
    exact List.length_take_le _ _
  · obtain ⟨hbytes, -⟩ := Prod.mk.inj h
    obtain rfl := Except.ok.inj hbytes
    exact Nat.le_trans (List.length_take_le _ _) (Nat.min_le_right _ _)
  · cases h

theorem reads_read {s t : Source} {room : Nat} {given : Except String (List UInt8)}
    (h : s.read room = (given, t)) : t.reads = s.reads + 1 := by
  have hcount : (s.read room).2.reads = s.reads + 1 := by
    unfold read
    split <;> rfl
  rwa [h] at hcount

end Source

namespace Reader

def stream (r : Reader) : List UInt8 := r.held ++ r.source.rest

structure Later (r q : Reader) : Prop where
  plan : q.source.plan = r.source.plan
  reads : r.source.reads < q.source.reads
  capacity : q.capacity = r.capacity

theorem Later.read (r : Reader) (rest held : List UInt8) :
    Later r { r with source := { r.source with rest, reads := r.source.reads + 1 }, held } :=
  ⟨rfl, Nat.lt_succ_self _, rfl⟩

theorem Later.steady {r q : Reader} (h : Later r q) (hs : r.source.Steady) : q.source.Steady := by
  rw [Source.Steady, h.plan]
  exact hs

theorem Later.trans {r q p : Reader} (h : Later r q) (k : Later q p) : Later r p :=
  ⟨k.plan.trans h.plan, Nat.lt_trans h.reads k.reads, k.capacity.trans h.capacity⟩

/-- What gathering up to `wanted` bytes can give, and the reader it leaves. A failing read costs no
byte; an end costs the bytes of a partial sample. -/
inductive Gathers (r : Reader) (wanted : Nat) : Fetch → Reader → Prop where
  | got {bytes : List UInt8} {q : Reader} : Later r q → bytesPerSample ≤ bytes.length →
      bytes.length ≤ wanted → bytes ++ q.source.rest = r.stream →
      q.held = bytes.drop (bytes.length / bytesPerSample * bytesPerSample) →
      Gathers r wanted (.got bytes) q
  | ended {lost : List UInt8} {q : Reader} : Later r q → lost.length < bytesPerSample →
      lost ++ q.source.rest = r.stream → q.held = [] →
      (q.source.rest = [] ∨ ∃ k, r.source.plan k = .upTo 0) →
      Gathers r wanted (.ended lost.length) q
  | failed {reason : String} {q : Reader} : Later r q → q.held.length < bytesPerSample →
      q.stream = r.stream →
      (∃ k, r.source.reads ≤ k ∧ k < q.source.reads ∧ r.source.plan k = .fail reason) →
      Gathers r wanted (.failed reason) q

/-- Bytes moved from the source to the front of the reader change nothing for what follows. -/
theorem Gathers.of_later {r q p : Reader} {wanted : Nat} {f : Fetch} (hlater : Later r q)
    (hstream : q.stream = r.stream) (h : Gathers q wanted f p) : Gathers r wanted f p := by
  cases h with
  | got hp hsome hmost hbytes hheld =>
    exact .got (hlater.trans hp) hsome hmost (hbytes.trans hstream) hheld
  | ended hp hshort hlost hheld hend =>
    rw [hlater.plan] at hend
    exact .ended (hlater.trans hp) hshort (hlost.trans hstream) hheld hend
  | failed hp hheld hkept hfail =>
    obtain ⟨k, hfrom, hto, hplan⟩ := hfail
    rw [hlater.plan] at hplan
    exact .failed (hlater.trans hp) hheld (hkept.trans hstream)
      ⟨k, Nat.le_trans (Nat.le_of_lt hlater.reads) hfrom, hto, hplan⟩

theorem fetch_gathers {r : Reader} {wanted : Nat} (hheld : r.held.length < bytesPerSample)
    (hwanted : bytesPerSample ≤ wanted) :
    Gathers r wanted (r.fetch wanted).1 (r.fetch wanted).2 := by
  have hroom : ∀ held : List UInt8, held.length < bytesPerSample → 0 < wanted - held.length := by
    intro held hshort
    omega
  fun_induction fetch r wanted with
  | case1 r reason source hread =>
    obtain ⟨hplan, rfl⟩ := Source.read_failed hread
    exact .failed (.read r _ _) hheld rfl
      ⟨r.source.reads, Nat.le_refl _, Nat.lt_succ_self _, hplan⟩
  | case2 r source hread =>
    obtain ⟨n, -, hzero, htake, rfl⟩ := Source.read_granted (hroom _ hheld) hread
    have hrest : (r.source.take n).2.rest = r.source.rest := by
      have := List.take_append_drop n r.source.rest
      rwa [← htake, List.nil_append] at this
    refine .ended (.read r _ _) hheld ?_ rfl ?_
    · rw [stream, hrest]
    · rcases List.take_eq_nil_iff.mp htake.symm with hn | hnone
      · exact .inr ⟨_, hzero hn⟩
      · exact .inl (hrest.trans hnone)
  | case3 r b bs source hread available hshort ih =>
    obtain ⟨n, -, -, htake, rfl⟩ := Source.read_granted (hroom _ hheld) hread
    refine Gathers.of_later (.read r _ available) ?_ (ih hshort)
    simp only [stream, available, htake, List.append_assoc, List.take_append_drop]
  | case4 r b bs source hread available henough whole =>
    obtain ⟨n, hn, -, htake, rfl⟩ := Source.read_granted (hroom _ hheld) hread
    refine .got (.read r _ _) (Nat.le_of_not_lt henough) ?_ ?_ rfl
    · simp only [available, htake, List.length_append, List.length_take]
      omega
    · simp only [stream, available, htake, Source.take, List.append_assoc, List.take_append_drop]

def decoded {T : Type} [Sample T] : Fetch → Reading T
  | .got bytes => .delivered (decode bytes)
  | .ended dropped => .ended dropped
  | .failed reason => .failed reason

section Read

variable {T : Type} [Sample T] {r q : Reader} {count : Nat}

theorem read_eq (r : Reader) (hcount : 0 < count) :
    (r.read count : Reading T × Reader) =
      (decoded (r.fetch (bytesPerSample * min count r.capacity)).1,
        (r.fetch (bytesPerSample * min count r.capacity)).2) := by
  rw [read, if_neg (Nat.pos_iff_ne_zero.mp hcount)]
  rcases r.fetch (bytesPerSample * min count r.capacity) with ⟨bytes | dropped | reason, p⟩ <;> rfl

theorem read_gathers (hheld : r.held.length < bytesPerSample) (hcapacity : 0 < r.capacity)
    (hcount : 0 < count) {reading : Reading T} (h : r.read count = (reading, q)) :
    ∃ f, Gathers r (bytesPerSample * min count r.capacity) f q ∧ decoded f = reading := by
  obtain ⟨hdecoded, rfl⟩ := Prod.mk.inj ((r.read_eq hcount).symm.trans h)
  exact ⟨_, fetch_gathers hheld (Nat.le_mul_of_pos_right _ (by omega)), hdecoded⟩

/-- What is delivered was at the front of the stream, and its bytes have left it. -/
theorem read_delivered (hheld : r.held.length < bytesPerSample) (hcapacity : 0 < r.capacity)
    (hcount : 0 < count) {xs : List T} (h : r.read count = (.delivered xs, q)) :
    Later r q ∧ q.held.length < bytesPerSample ∧ 0 < xs.length ∧ xs.length ≤ count ∧
      ∃ front, front.length = bytesPerSample * xs.length ∧ decode front = xs ∧
        r.stream = front ++ q.stream := by
  obtain ⟨f, hgathers, hf⟩ := read_gathers hheld hcapacity hcount h
  cases hgathers with
  | ended => cases hf
  | failed => cases hf
  | @got bytes _ hlater hsome hmost hstream hq =>
    obtain rfl := Reading.delivered.inj hf
    have hlen : (decode bytes : List T).length = bytes.length / bytesPerSample :=
      length_decode bytes
    have hcut := Nat.div_mul_le_self bytes.length bytesPerSample
    simp only [bytesPerSample] at hsome hmost
    refine ⟨hlater, ?_, ?_, ?_, _, ?_, decode_whole bytes, ?_⟩
    · rw [hq, List.length_drop]
      simp only [bytesPerSample]
      omega
    · rw [hlen]
      simp only [bytesPerSample]
      omega
    · rw [hlen]
      simp only [bytesPerSample]
      omega
    · rw [List.length_take, Nat.min_eq_left hcut, hlen, Nat.mul_comm]
    · rw [← hstream, stream, hq, ← List.append_assoc, List.take_append_drop]

end Read

end Reader

namespace Sink

/-- Everything offered is accepted until `n` more bytes have been written, and a flush succeeds. -/
structure Accepting (s : Sink) (n : Nat) : Prop where
  progress : s.perWrite ≠ some 0
  room : ∀ limit, s.limit = some limit → s.written.length + n ≤ limit
  flush : s.flushFailure = none

theorem Accepting.of_limit {s : Sink} {n limit : Nat} (hprogress : s.perWrite ≠ some 0)
    (hlimit : s.limit = some limit) (hroom : s.written.length + n ≤ limit)
    (hflush : s.flushFailure = none) : s.Accepting n where
  progress := hprogress
  room := by
    intro l hl
    obtain rfl : limit = l := Option.some.inj (hlimit.symm.trans hl)
    exact hroom
  flush := hflush

theorem Accepting.later {s : Sink} {m n : Nat} (h : s.Accepting n) {bytes : List UInt8}
    (hlen : bytes.length + m ≤ n) : Accepting { s with written := s.written ++ bytes } m where
  progress := h.progress
  room := by
    intro limit hlimit
    have := h.room limit hlimit
    rw [List.length_append]
    omega
  flush := h.flush

theorem write_front {s t : Sink} {bytes : List UInt8} {given : Except String Nat}
    (h : s.write bytes = (given, t)) :
    ((∃ reason, given = .error reason) ∧ t = s) ∨
      ∃ n, given = .ok n ∧ t = { s with written := s.written ++ bytes.take n } := by
  unfold write at h
  split at h
  · obtain ⟨rfl, rfl⟩ := Prod.mk.inj h
    exact .inl ⟨⟨_, rfl⟩, rfl⟩
  · obtain ⟨rfl, rfl⟩ := Prod.mk.inj h
    exact .inr ⟨_, rfl, rfl⟩

theorem write_accepting {s : Sink} {bytes : List UInt8} (h : s.Accepting bytes.length)
    (hne : bytes ≠ []) : ∃ n, 0 < n ∧ n ≤ bytes.length ∧
      s.write bytes = (.ok n, { s with written := s.written ++ bytes.take n }) := by
  have hpos := List.length_pos_iff.mpr hne
  have hfull : s.isFull = false := by
    cases hlimit : s.limit with
    | none => simp [isFull, hlimit]
    | some limit =>
      have := h.room limit hlimit
      simp [isFull, hlimit]
      omega
  have haccepts : 0 < s.accepts bytes.length ∧ s.accepts bytes.length ≤ bytes.length := by
    have hprogress := h.progress
    cases hlimit : s.limit with
    | none => cases hper : s.perWrite <;> simp [accepts, capped, hlimit, hper] at hprogress ⊢ <;> omega
    | some limit =>
      have := h.room limit hlimit
      cases hper : s.perWrite <;> simp [accepts, capped, hlimit, hper] at hprogress ⊢ <;> omega
  refine ⟨s.accepts bytes.length, haccepts.1, haccepts.2, ?_⟩
  simp only [write, hfull]

theorem writeAll_accepting {s : Sink} {bytes : List UInt8} (h : s.Accepting bytes.length) :
    s.writeAll bytes = (none, { s with written := s.written ++ bytes }) := by
  fun_induction writeAll s bytes with
  | case1 s => simp
  | case2 s bytes hne reason t hwrite =>
    obtain ⟨n, -, -, hgiven⟩ := write_accepting h hne
    rw [hgiven] at hwrite
    cases hwrite
  | case3 s bytes hne t hwrite =>
    obtain ⟨n, hn, -, hgiven⟩ := write_accepting h hne
    rw [hgiven] at hwrite
    obtain ⟨hzero, -⟩ := Prod.mk.inj hwrite
    have := Except.ok.inj hzero
    omega
  | case4 s bytes hne n t hwrite ih =>
    obtain ⟨m, -, hle, hgiven⟩ := write_accepting h hne
    rw [hgiven] at hwrite
    obtain ⟨hm, rfl⟩ := Prod.mk.inj hwrite
    obtain rfl := Except.ok.inj hm
    have hlater := ih (h.later (by rw [List.length_take, List.length_drop]; omega))
    rw [hlater]
    simp only [List.append_assoc, List.take_append_drop]

/-- The induction is on the offers; each takes the front of what the one before has left over. -/
theorem writeAll_front (s : Sink) (bytes : List UInt8) :
    ∃ accepted, accepted <+: bytes ∧
      (s.writeAll bytes).2 = { s with written := s.written ++ accepted } ∧
      ((s.writeAll bytes).1 = none → accepted = bytes) := by
  fun_induction writeAll s bytes with
  | case1 s => exact ⟨[], List.nil_prefix, by rw [List.append_nil], fun _ => rfl⟩
  | case2 s bytes hne reason t hwrite =>
    rcases write_front hwrite with ⟨-, rfl⟩ | ⟨n, hn, -⟩
    · exact ⟨[], List.nil_prefix, by rw [List.append_nil], nofun⟩
    · cases hn
  | case3 s bytes hne t hwrite =>
    rcases write_front hwrite with ⟨⟨reason, hreason⟩, -⟩ | ⟨n, -, rfl⟩
    · cases hreason
    · exact ⟨_, List.take_prefix _ _, rfl, nofun⟩
  | case4 s bytes hne n t hwrite ih =>
    rcases write_front hwrite with ⟨⟨reason, hreason⟩, -⟩ | ⟨m, hm, rfl⟩
    · cases hreason
    · obtain rfl := Except.ok.inj hm
      obtain ⟨later, hlater, hsink, hall⟩ := ih
      refine ⟨bytes.take (n + 1) ++ later, ?_, ?_, ?_⟩
      · have := (List.prefix_append_right_inj (bytes.take (n + 1))).mpr hlater
        rwa [List.take_append_drop] at this
      · rw [hsink, List.append_assoc]
      · intro hnone
        rw [hall hnone, List.take_append_drop]

end Sink

/-- What a sink takes of a block is the front of its encoding, and all of it unless it fails. -/
theorem Writer.write_front {T : Type} [Sample T] {w v : Writer} {block : List T}
    {fault : Option Fault} (h : w.write block = (fault, v)) :
    ∃ accepted, accepted <+: encode block ∧
      v.sink = { w.sink with written := w.sink.written ++ accepted } ∧
      (fault = none → accepted = encode block) ∧
      ∀ f, fault = some f → ∃ reason, f = .output reason := by
  have hneeded := length_encode block
  have hfront := take_overlay (encode block) (w.grown (bytesPerSample * block.length))
  rw [hneeded] at hfront
  simp only [write, hfront] at h
  obtain ⟨rfl, rfl⟩ := Prod.mk.inj h
  obtain ⟨accepted, hprefix, hsink, hall⟩ := w.sink.writeAll_front (encode block)
  refine ⟨accepted, hprefix, hsink, ?_, ?_⟩
  · intro hnone
    exact hall (Option.map_eq_none_iff.mp hnone)
  · intro f hf
    obtain ⟨reason, -, hreason⟩ := Option.map_eq_some_iff.mp hf
    exact ⟨reason, hreason.symm⟩

/-- A block is delivered as it is encoded, whatever the staging buffer held before. -/
theorem Writer.write_accepting {T : Type} [Sample T] {w : Writer} {block : List T} {n : Nat}
    (h : w.sink.Accepting n) (hlen : bytesPerSample * block.length ≤ n) :
    ∃ staging, w.write block =
      (none, ⟨{ w.sink with written := w.sink.written ++ encode block }, staging⟩) := by
  have hneeded := length_encode block
  have hfront := take_overlay (encode block) (w.grown (bytesPerSample * block.length))
  rw [hneeded] at hfront
  have hblock : w.sink.Accepting (encode block).length :=
    ⟨h.progress, fun limit hlimit => by have := h.room limit hlimit; omega, h.flush⟩
  refine ⟨overlay (encode block) (w.grown (bytesPerSample * block.length)), ?_⟩
  simp only [write, hfront, Sink.writeAll_accepting hblock, Option.map_none]

end TubePreamp.Pcm
