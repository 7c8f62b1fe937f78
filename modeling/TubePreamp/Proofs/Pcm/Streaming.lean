import TubePreamp.Pcm
import TubePreamp.Proofs.Cascade.Wiring
import TubePreamp.Proofs.Pcm.Delivery

/-!
A stream through connected stages, end to end. Three cuts meet here, that of the source into reads,
that of the stream into blocks and that of a block into what the stages process at once. None of
them shows in the result. The bytes that leave the reader, the signal that the stages have seen and
the bytes that reach the sink are kept together over every block, and there are three ways for a
call to end.
-/

namespace TubePreamp.Pcm.Session

open Cascade

variable {T : Type} [Sample T] {s t u : Session T}

def image (s : Session T) (front : List UInt8) : List UInt8 :=
  encode (rendered s.cascade.stages (decode front)).1

theorem image_nil (s : Session T) : s.image [] = [] := by
  have hnone : (decode [] : List T) = [] := rfl
  rw [image, hnone, rendered_nil]
  rfl

structure Ready (s : Session T) : Prop where
  cascade : s.cascade.WellFormed
  row : Row false s.cascade.stages
  held : s.reader.held.length < bytesPerSample
  capacity : 0 < s.reader.capacity

/-- From `s` to `t`: `front` went through the stages, which may have cost `lost` behind it, and of
what they made of it the sink took `accepted`. -/
structure Passed (s t : Session T) (front lost accepted : List UInt8) : Prop where
  ready : t.Ready
  stream : s.reader.stream = front ++ (lost ++ t.reader.stream)
  whole : bytesPerSample ∣ front.length
  stages : t.cascade.stages = (rendered s.cascade.stages (decode front)).2
  sink : t.writer.sink = { s.writer.sink with written := s.writer.sink.written ++ accepted }
  accepted : accepted <+: s.image front
  plan : t.reader.source.plan = s.reader.source.plan
  reads : s.reader.source.reads ≤ t.reader.source.reads

theorem Passed.image_append {front lost accepted : List UInt8} (h : Passed s t front lost accepted)
    (later : List UInt8) : s.image (front ++ later) = s.image front ++ t.image later := by
  rw [image, decode_append h.whole, rendered_append, encode_append, ← h.stages]
  rfl

theorem Passed.trans {front later lost accepted : List UInt8}
    (h : Passed s t front [] (s.image front)) (k : Passed t u later lost accepted) :
    Passed s u (front ++ later) lost (s.image front ++ accepted) where
  ready := k.ready
  stream := by rw [h.stream, k.stream, List.nil_append, List.append_assoc]
  whole := by
    rw [List.length_append]
    exact Nat.dvd_add h.whole k.whole
  stages := by rw [k.stages, h.stages, decode_append h.whole, rendered_append]
  sink := by simp only [k.sink, h.sink, List.append_assoc]
  accepted := by
    rw [h.image_append]
    exact (List.prefix_append_right_inj _).mpr k.accepted
  plan := k.plan.trans h.plan
  reads := Nat.le_trans h.reads k.reads

/-- Nothing is left to be read but the bytes of a partial sample, and those are lost. -/
theorem Passed.completes {front lost : List UInt8} (h : Passed s t front lost (s.image front))
    (hlost : lost.length < bytesPerSample) (hrest : t.reader.stream = []) :
    t.writer.sink.written = s.writer.sink.written ++ s.image s.reader.stream ∧
      t.cascade.stages = (rendered s.cascade.stages (decode s.reader.stream)).2 := by
  have hdecode : (decode s.reader.stream : List T) = decode front := by
    rw [h.stream, hrest, List.append_nil, decode_append h.whole, decode_short hlost,
      List.append_nil]
  constructor
  · rw [h.sink, image, image, hdecode]
  · rw [h.stages, hdecode]

def Roomy (s : Session T) : Prop :=
  s.writer.sink.Accepting (bytesPerSample * (s.reader.stream.length / bytesPerSample))

theorem Passed.roomy {front : List UInt8} (h : Passed s t front [] (s.image front))
    (hroom : s.Roomy) : t.Roomy := by
  rw [Roomy, h.sink]
  apply Sink.Accepting.later hroom
  apply Nat.le_of_eq
  obtain ⟨n, hn⟩ := h.whole
  rw [image, length_encode, rendered_length, length_decode, h.stream, List.nil_append,
    List.length_append, hn, Nat.mul_add_div (by decide), Nat.mul_div_cancel_left _ (by decide),
    Nat.mul_add]

inductive Ended (s : Session T) : Outcome T → Prop where
  | finished {total : Nat} {t : Session T} {front lost : List UInt8} :
      Passed s t front lost (s.image front) → lost.length < bytesPerSample →
      t.reader.held = [] →
      (t.reader.source.rest = [] ∨ ∃ k, s.reader.source.plan k = .upTo 0) →
      Ended s ⟨.ok total, lost.length, t⟩
  | interrupted {reason : String} {t : Session T} {front : List UInt8} :
      Passed s t front [] (s.image front) →
      (∃ k, s.reader.source.reads ≤ k ∧ k < t.reader.source.reads ∧
        s.reader.source.plan k = .fail reason) →
      Ended s ⟨.error (.input reason), 0, t⟩
  | blocked {reason : String} {t : Session T} {front lost accepted : List UInt8} :
      Passed s t front lost accepted → lost.length < bytesPerSample → ¬ s.Roomy →
      Ended s ⟨.error (.output reason), lost.length, t⟩

theorem Passed.ended {front : List UInt8} {o : Outcome T}
    (h : Passed s t front [] (s.image front)) (k : Ended t o) : Ended s o := by
  cases k with
  | finished hpassed hlost hheld hend =>
    have hall := h.trans hpassed
    rw [← h.image_append] at hall
    rw [h.plan] at hend
    exact .finished hall hlost hheld hend
  | interrupted hpassed hfail =>
    have hall := h.trans hpassed
    rw [← h.image_append] at hall
    obtain ⟨k, hfrom, hto, hplan⟩ := hfail
    rw [h.plan] at hplan
    exact .interrupted hall ⟨k, Nat.le_trans h.reads hfrom, hto, hplan⟩
  | blocked hpassed hlost hfull =>
    exact .blocked (h.trans hpassed) hlost (fun hroom => hfull (h.roomy hroom))

theorem Ended.failing_grant {o : Outcome T} (h : Ended s o) {reason : String}
    (hresult : o.result = .error (.input reason)) :
    ∃ k, s.reader.source.reads ≤ k ∧ s.reader.source.plan k = .fail reason := by
  cases h with
  | finished => cases hresult
  | blocked => cases hresult
  | interrupted hpassed hfail =>
    cases hresult
    obtain ⟨k, hfrom, -, hplan⟩ := hfail
    exact ⟨k, hfrom, hplan⟩

/-- With room for everything, and unless a read looks like the end before it, a call that no read
interrupts has completed the signal. -/
theorem Ended.completes {o : Outcome T} (h : Ended s o) (hroom : s.Roomy)
    (hplan : ∀ k, s.reader.source.plan k ≠ .upTo 0) :
    (∃ reason, o.result = .error (.input reason)) ∨
      (∃ n, o.result = .ok n) ∧
        o.session.writer.sink.written = s.writer.sink.written ++ s.image s.reader.stream ∧
        o.session.cascade.stages =
          (rendered s.cascade.stages (decode s.reader.stream)).2 := by
  cases h with
  | interrupted => exact .inl ⟨_, rfl⟩
  | blocked hpassed hlost hfull => exact absurd hroom hfull
  | @finished total t front lost hpassed hlost hheld hend =>
    right
    have hdone : t.reader.stream = [] := by
      rcases hend with hrest | ⟨k, hempty⟩
      · rw [Reader.stream, hheld, hrest, List.append_nil]
      · exact absurd hempty (hplan k)
    exact ⟨⟨total, rfl⟩, hpassed.completes hlost hdone⟩

/-- A block goes through the stages and some of what they made of it into the sink. -/
theorem passed_block (h : s.Ready) {size : Nat} (hsize : 0 < size) {xs : List T} {q : Reader}
    (hread : s.reader.read size = (.delivered xs, q)) {output : List T}
    (hout : output.length = size) {block : List T} {cascade : Cascade T}
    (hprocess : s.cascade.process xs (output.take xs.length) = (block, cascade))
    {fault : Option Fault} {writer : Writer} (hwrite : s.writer.write block = (fault, writer)) :
    block.length = xs.length ∧ (overlay block output).length = size ∧ ∃ front accepted,
      front.length = bytesPerSample * xs.length ∧
      Passed s ⟨cascade, q, writer⟩ front [] accepted ∧
      (fault = none → accepted = s.image front) := by
  obtain ⟨hlater, hheld, -, hle, front, hfront, hdec, hstream⟩ :=
    Reader.read_delivered h.held h.capacity hsize hread
  have htake : (output.take xs.length).length = xs.length := by
    rw [List.length_take, hout]
    omega
  obtain ⟨hblock, hstages⟩ := process_same_length h.cascade h.row htake
  have hwell := h.cascade.process xs (output.take xs.length)
  have hrow := process_row h.cascade h.row xs (output.take xs.length)
  rw [hprocess] at hblock hstages hwell hrow
  obtain ⟨accepted, haccepted, hsink, hall, -⟩ := Writer.write_front hwrite
  have himage : encode block = s.image front := by rw [image, hdec, ← hblock]
  rw [himage] at haccepted hall
  have hcapacity : 0 < q.capacity := by
    rw [hlater.capacity]
    exact h.capacity
  have hlen : block.length = xs.length := by
    have := congrArg List.length hblock
    rwa [rendered_length] at this
  refine ⟨hlen, ?_, front, accepted, hfront, ?_, hall⟩
  · rw [length_overlay (by rw [hlen, hout]; exact hle), hout]
  · constructor
    · exact ⟨hwell, hrow, hheld, hcapacity⟩
    · exact hstream
    · exact ⟨_, hfront⟩
    · rw [hdec]
      exact hstages
    · exact hsink
    · exact haccepted
    · exact hlater.plan
    · exact Nat.le_of_lt hlater.reads

theorem write_blocked {front rest : List UInt8} (hstream : s.reader.stream = front ++ rest)
    {block : List T} (hlen : front.length = bytesPerSample * block.length) {fault : Fault}
    {writer : Writer} (hwrite : s.writer.write block = (some fault, writer)) :
    (∃ reason, fault = .output reason) ∧ ¬ s.Roomy := by
  constructor
  · obtain ⟨-, -, -, -, hfault⟩ := Writer.write_front hwrite
    exact hfault fault rfl
  · intro hroom
    have hfits : bytesPerSample * block.length ≤
        bytesPerSample * (s.reader.stream.length / bytesPerSample) := by
      rw [hstream, List.length_append, hlen, Nat.mul_add_div (by decide)]
      exact Nat.mul_le_mul_left _ (Nat.le_add_right _ _)
    obtain ⟨staging, hall⟩ := Writer.write_accepting hroom hfits
    rw [hall] at hwrite
    cases hwrite

theorem passed_read (h : s.Ready) {q : Reader} {lost : List UInt8} (hlater : s.reader.Later q)
    (hheld : q.held.length < bytesPerSample) (hstream : s.reader.stream = lost ++ q.stream) :
    Passed s { s with reader := q } [] lost (s.image []) where
  ready := ⟨h.cascade, h.row, hheld, hlater.capacity ▸ h.capacity⟩
  stream := hstream
  whole := Nat.dvd_zero _
  stages := (congrArg Prod.snd (rendered_nil s.cascade.stages)).symm
  sink := by rw [image_nil, List.append_nil]
  accepted := List.prefix_refl _
  plan := hlater.plan
  reads := Nat.le_of_lt hlater.reads

theorem finish_ends (h : s.Ready) {size dropped : Nat} (hsize : 0 < size) {q : Reader}
    (hread : (s.reader.read size : Reading T × Reader) = (.ended dropped, q)) (total : Nat) :
    Ended s ({ s with reader := q }.finish dropped total) := by
  obtain ⟨f, hgathers, hf⟩ := Reader.read_gathers h.held h.capacity hsize hread
  cases hgathers with
  | got => cases hf
  | failed => cases hf
  | @ended lost _ hlater hshort hlost hheld hend =>
    cases hf
    have hstream : s.reader.stream = lost ++ q.stream := by
      rw [← hlost, Reader.stream, hheld, List.nil_append]
    have hpassed := passed_read h hlater (by rw [hheld]; exact Nat.zero_lt_succ _) hstream
    cases hflush : s.writer.sink.flushFailure with
    | none =>
      simp only [finish, Writer.flush, hflush, Option.map_none]
      exact .finished hpassed hshort hheld hend
    | some reason =>
      simp only [finish, Writer.flush, hflush, Option.map_some]
      refine .blocked hpassed hshort ?_
      intro hroom
      rw [hroom.flush] at hflush
      cases hflush

omit [Sample T] in
theorem finish_counts {dropped total n : Nat} (hok : (s.finish dropped total).result = .ok n) :
    (s.finish dropped total).session.writer.sink.written.length + bytesPerSample * total =
      s.writer.sink.written.length + bytesPerSample * n := by
  unfold finish at hok ⊢
  split at hok
  · obtain rfl := Except.ok.inj hok
    rfl
  · cases hok

/-- The induction follows the loop: every block is a passage of its own, and the last read decides
how the call ends. -/
theorem pump_ends (h : s.Ready) {size : Nat} (hsize : 0 < size) {output : List T}
    (hout : output.length = size) (total : Nat) : Ended s (s.pump size output total) := by
  fun_induction pump s size output total with
  | case1 s output total reason q hread =>
    obtain ⟨f, hgathers, hf⟩ := Reader.read_gathers h.held h.capacity hsize hread
    cases hgathers with
    | got => cases hf
    | ended => cases hf
    | failed hlater hheld hstream hfail =>
      cases hf
      exact .interrupted (passed_read h hlater hheld hstream.symm) hfail
  | case2 s output total dropped q hread => exact finish_ends h hsize hread total
  | case3 s output total q hread =>
    obtain ⟨-, -, hpos, -⟩ := Reader.read_delivered h.held h.capacity hsize hread
    cases hpos
  | case4 s output total x xs q hread count block cascade hprocess fault writer hwrite =>
    obtain ⟨hlen, -, front, accepted, hfront, hpassed, -⟩ :=
      passed_block h hsize hread hout hprocess hwrite
    rw [← hlen] at hfront
    obtain ⟨⟨reason, rfl⟩, hfull⟩ := write_blocked hpassed.stream hfront hwrite
    exact .blocked hpassed (Nat.zero_lt_succ _) hfull
  | case5 s output total x xs q hread count block cascade hprocess writer hwrite ih =>
    obtain ⟨-, hroom, front, accepted, -, hpassed, hall⟩ :=
      passed_block h hsize hread hout hprocess hwrite
    rw [hall rfl] at hpassed
    exact hpassed.ended (ih hpassed.ready hroom)

theorem pump_counts (h : s.Ready) {size : Nat} (hsize : 0 < size) {output : List T}
    (hout : output.length = size) (total n : Nat)
    (hok : (s.pump size output total).result = .ok n) :
    (s.pump size output total).session.writer.sink.written.length + bytesPerSample * total =
      s.writer.sink.written.length + bytesPerSample * n := by
  fun_induction pump s size output total with
  | case1 => cases hok
  | case2 s output total dropped q hread => exact finish_counts hok
  | case3 s output total q hread => exact finish_counts hok
  | case4 => cases hok
  | case5 s output total x xs q hread count block cascade hprocess writer hwrite ih =>
    obtain ⟨-, hroom, front, accepted, hfront, hpassed, hall⟩ :=
      passed_block h hsize hread hout hprocess hwrite
    have hlater := ih hpassed.ready hroom hok
    have hblock : (s.image front).length = bytesPerSample * count := by
      rw [image, length_encode, rendered_length, length_decode, hfront,
        Nat.mul_div_cancel_left _ (by decide)]
    have hwritten : writer.sink.written = s.writer.sink.written ++ s.image front := by
      rw [← hall rfl]
      exact congrArg Sink.written hpassed.sink
    rw [hwritten, List.length_append, hblock, Nat.mul_add] at hlater
    omega

structure Flowing (s : Session T) : Prop where
  cascade : s.cascade.WellFormed
  row : Row false s.cascade.stages
  steady : s.reader.source.Steady
  held : s.reader.held.length < bytesPerSample
  capacity : 0 < s.reader.capacity
  sink : s.writer.sink.Accepting (bytesPerSample * (s.reader.stream.length / bytesPerSample))

omit [Sample T] in
theorem Flowing.ready {s : Session T} (h : s.Flowing) : s.Ready :=
  ⟨h.cascade, h.row, h.held, h.capacity⟩

/-- The whole loop, when none of its reads fails and the sink has room: what the stages make of all
the whole samples in the stream has been written. -/
theorem pump_flowing {s : Session T} (h : s.Flowing) {size : Nat} (hsize : 0 < size)
    {output : List T} (hout : output.length = size) (total : Nat) :
    (s.pump size output total).result =
        .ok (total + s.reader.stream.length / bytesPerSample) ∧
      (s.pump size output total).session.writer.sink.written =
        s.writer.sink.written ++ encode (rendered s.cascade.stages (decode s.reader.stream)).1 ∧
      (s.pump size output total).session.cascade.stages =
        (rendered s.cascade.stages (decode s.reader.stream)).2 := by
  have hends := pump_ends h.ready hsize hout total
  have hcounts := pump_counts h.ready hsize hout total
  rcases hends.completes h.sink h.steady.never_empty with hfail | ⟨⟨n, hok⟩, hwritten, hstages⟩
  · obtain ⟨reason, hfail⟩ := hfail
    obtain ⟨k, -, hplan⟩ := hends.failing_grant hfail
    exact absurd hplan (h.steady.never_fails k reason)
  · refine ⟨?_, hwritten, hstages⟩
    have hcount := hcounts n hok
    simp only [hwritten, List.length_append, image, length_encode, rendered_length,
      length_decode, bytesPerSample] at hcount
    rw [hok]
    simp only [bytesPerSample]
    congr 1
    omega

/-- Streaming is processing the whole signal at once, whatever the source hands out at a read, the
block size of the stream and the buffers of both ends. A sample is a word of four bytes on either
side, the lowest first; a partial word at the end of the source is left out. -/
theorem stream_eq_whole_signal {c : Cascade T} (hw : c.WellFormed) (hcon : c.Connected)
    {source : Source} (hs : source.Steady) (capacity size : Nat) {writer : Writer}
    (hsink : writer.sink.Accepting (4 * (source.rest.length / 4)))
    {buffer : List T} (hbuffer : buffer.length = source.rest.length / 4) :
    let byte k := (source.rest.getD k 0).toNat
    let word i := byte (4 * i) + 256 * byte (4 * i + 1) + 65536 * byte (4 * i + 2) +
      16777216 * byte (4 * i + 3)
    let signal : List T := (List.range (source.rest.length / 4)).map fun i =>
      Sample.ofSingle (.ofBits (.ofNat (word i)))
    let bytes (x : T) : List UInt8 :=
      let w := (Sample.toSingle x).toBits.toNat
      [.ofNat w, .ofNat (w / 256), .ofNat (w / 65536), .ofNat (w / 16777216)]
    let outcome := run ⟨c, .ofSource source capacity, writer⟩ size
    let whole := c.process signal buffer
    outcome.result = .ok (source.rest.length / 4) ∧
      outcome.session.writer.sink.written = writer.sink.written ++ whole.1.flatMap bytes ∧
      outcome.session.cascade.stages = whole.2.stages ∧
      (c.stages = [] → whole.1 = signal) := by
  intro byte word signal bytes outcome whole
  have hrow := (connected_iff_row c).mp hcon
  have hpos : ∀ n, 0 < max n 1 := fun n => by omega
  have hflow : Flowing ⟨c, .ofSource source capacity, writer⟩ :=
    ⟨hw, hrow, hs, Nat.zero_lt_succ _, hpos capacity, hsink⟩
  obtain ⟨hresult, hwritten, hstages⟩ :=
    pump_flowing hflow (hpos size) (List.length_replicate (a := (0 : T))) 0
  have hsignal : decode source.rest = signal := decode_eq_map source.rest
  have hstream : (Reader.ofSource source capacity).stream = source.rest := rfl
  rw [hstream, hsignal] at hwritten hstages
  have hroom : buffer.length = signal.length := by
    rw [hbuffer, List.length_map, List.length_range]
  obtain ⟨hwhole, hlast⟩ := process_same_length hw hrow hroom
  refine ⟨?_, ?_, ?_, ?_⟩
  · rw [Nat.zero_add] at hresult
    exact hresult
  · exact hwritten.trans (by rw [hwhole]; rfl)
  · exact hstages.trans hlast.symm
  · intro hnone
    rw [hwhole, hnone, rendered_no_stages]

/-- Two samples and two bytes more, read in pieces of three bytes and one, for a sink that takes two
bytes at a time and has room for no more than eight. -/
theorem stream_eq_whole_signal_two_tubes :
    let c : Cascade Float32 := ofStages [.ofTube .ecc83, .ofTube .ecc82]
    let source : Source := .planned [0, 0, 0, 63, 0, 0, 128, 191, 5, 6] [.upTo 3, .upTo 1, .upTo 3]
    let writer : Writer := .ofSink { perWrite := some 2, limit := some 8 } 0
    let outcome := run ⟨c, .ofSource source 1, writer⟩ 0
    let whole := c.process [.ofBits 0x3f000000, .ofBits 0xbf800000] [7, 7]
    outcome.result = .ok 2 ∧
      outcome.session.writer.sink.written = whole.1.flatMap (fun x =>
        let w := x.toBits.toNat
        [.ofNat w, .ofNat (w / 256), .ofNat (w / 65536), .ofNat (w / 16777216)]) ∧
      outcome.session.cascade.stages = whole.2.stages := by
  intro c source writer
  have hw : c.WellFormed := .ofStages _
  have hcon : c.Connected := ofStages_connected (by simp [Stage.ofTube, Stage.ofCircuit])
  -- which cascade this is does not matter any more, and nothing need evaluate it
  clear_value c
  have hsteady : source.Steady := Source.planned_steady (by simp)
  have hsink : writer.sink.Accepting (4 * (source.rest.length / 4)) :=
    .of_limit (by decide) rfl (by decide) rfl
  have hcount : source.rest.length / 4 = 2 := by simp [source, Source.planned]
  have hbuffer : ([7, 7] : List Float32).length = source.rest.length / 4 := hcount.symm
  obtain ⟨hresult, hwritten, hstages, -⟩ :=
    stream_eq_whole_signal hw hcon hsteady 1 0 hsink hbuffer
  rw [hcount] at hresult hwritten hstages
  exact ⟨hresult, hwritten.trans (List.nil_append _), hstages⟩

/-!
Streams that are interrupted. A sink that fails has been given the front of the right output; a read
that fails leaves stages, reader and sink at the same sample of the signal, so that calling again is
as good as never having been stopped.
-/

/-- Calls again where a read has failed, with the next block size, while there is one. -/
def persist (s : Session T) (size : Nat) : List Nat → Outcome T
  | [] => s.run size
  | next :: later =>
    match s.run size with
    | ⟨.error (.input _), _, t⟩ => t.persist next later
    | outcome => outcome

theorem run_ends (h : s.Ready) (size : Nat) : Ended s (s.run size) :=
  pump_ends h (show 0 < max size 1 by omega) (List.length_replicate (a := (0 : T))) 0

theorem run_counts (h : s.Ready) {size n : Nat} (hok : (s.run size).result = .ok n) :
    (s.run size).session.writer.sink.written.length =
      s.writer.sink.written.length + bytesPerSample * n :=
  pump_counts h (show 0 < max size 1 by omega) (List.length_replicate (a := (0 : T))) 0 n hok

/-- The induction is on the calls that are left; a call that a read interrupts is a passage like
those of its blocks. -/
theorem persist_ends (h : s.Ready) (size : Nat) (retries : List Nat) :
    Ended s (s.persist size retries) := by
  induction retries generalizing s size with
  | nil => exact run_ends h size
  | cons next later ih =>
    have hrun := run_ends h size
    rw [persist]
    generalize s.run size = o at hrun ⊢
    cases hrun with
    | finished hpassed hlost hheld hend => exact .finished hpassed hlost hheld hend
    | interrupted hpassed hfail => exact hpassed.ended (ih hpassed.ready next)
    | blocked hpassed hlost hfull => exact .blocked hpassed hlost hfull

/-- Every interrupted call has gone past a read that fails. -/
theorem persist_interrupted (h : s.Ready) {size : Nat} {retries : List Nat} {reason : String}
    (hresult : (s.persist size retries).result = .error (.input reason)) :
    ∃ k, s.reader.source.reads + retries.length ≤ k ∧
      ∃ reason, s.reader.source.plan k = .fail reason := by
  induction retries generalizing s size with
  | nil =>
    obtain ⟨k, hfrom, hplan⟩ := (run_ends h size).failing_grant hresult
    exact ⟨k, hfrom, reason, hplan⟩
  | cons next later ih =>
    have hrun := run_ends h size
    rw [persist] at hresult
    generalize s.run size = o at hrun hresult
    cases hrun with
    | finished => cases hresult
    | blocked => cases hresult
    | interrupted hpassed hfail =>
      obtain ⟨k, hfrom, hto, -⟩ := hfail
      obtain ⟨m, hm, reason, hplan⟩ := ih hpassed.ready hresult
      rw [hpassed.plan] at hplan
      refine ⟨m, ?_, reason, hplan⟩
      rw [List.length_cons]
      omega

/-- With room for everything, and unless a read looks like the end before it, calling again completes
the signal as soon as no read fails any more. -/
theorem persist_completes (h : s.Ready) (hroom : s.Roomy)
    (hplan : ∀ k, s.reader.source.plan k ≠ .upTo 0) (size : Nat) (retries : List Nat) :
    (∀ n, (s.persist size retries).result = .ok n →
      (s.persist size retries).session.writer.sink.written =
          s.writer.sink.written ++ s.image s.reader.stream ∧
        (s.persist size retries).session.cascade.stages =
          (rendered s.cascade.stages (decode s.reader.stream)).2) ∧
      ∀ bound ≤ s.reader.source.reads + retries.length,
        (∀ k, bound ≤ k → ∀ reason, s.reader.source.plan k ≠ .fail reason) →
          ∃ n, (s.persist size retries).result = .ok n := by
  rcases (persist_ends h size retries).completes hroom hplan with
    ⟨reason, hfail⟩ | ⟨hok, hwritten, hstages⟩
  · constructor
    · intro n hok
      rw [hok] at hfail
      cases hfail
    · intro bound hbound hsafe
      obtain ⟨k, hk, reason, hgrant⟩ := persist_interrupted h hfail
      exact absurd hgrant (hsafe k (Nat.le_trans hbound hk) reason)
  · exact ⟨fun _ _ => ⟨hwritten, hstages⟩, fun _ _ _ => hok⟩

/-- Whatever stops a stream, the sink has the front of what the stages make of everything. -/
theorem Passed.front {front lost accepted : List UInt8} (h : Passed s t front lost accepted) :
    accepted <+: s.image s.reader.stream := by
  rw [h.stream, h.image_append]
  exact h.accepted.trans (List.prefix_append _ _)

theorem Ended.written {o : Outcome T} (h : Ended s o) :
    ∃ accepted, o.session.writer.sink.written = s.writer.sink.written ++ accepted ∧
      accepted <+: s.image s.reader.stream := by
  cases h with
  | finished hpassed => exact ⟨_, congrArg Sink.written hpassed.sink, hpassed.front⟩
  | interrupted hpassed => exact ⟨_, congrArg Sink.written hpassed.sink, hpassed.front⟩
  | blocked hpassed => exact ⟨_, congrArg Sink.written hpassed.sink, hpassed.front⟩

/-- Where a read has failed, stages, sink and reader are at the same sample. -/
theorem Ended.interruption {o : Outcome T} (h : Ended s o) {reason : String}
    (hresult : o.result = .error (.input reason)) :
    ∃ n ≤ s.reader.stream.length / bytesPerSample,
      o.session.writer.sink.written = s.writer.sink.written ++
        encode (rendered s.cascade.stages ((decode s.reader.stream).take n)).1 ∧
      o.session.cascade.stages =
        (rendered s.cascade.stages ((decode s.reader.stream).take n)).2 ∧
      o.session.reader.stream = s.reader.stream.drop (bytesPerSample * n) := by
  cases h with
  | finished => cases hresult
  | blocked => cases hresult
  | @interrupted _ t front hpassed hfail =>
    obtain ⟨n, hn⟩ := hpassed.whole
    have hcount : (decode front : List T).length = n := by
      rw [length_decode, hn, Nat.mul_div_cancel_left _ (by decide)]
    have htake : ((decode s.reader.stream).take n : List T) = decode front := by
      rw [hpassed.stream, decode_append hpassed.whole, List.take_left' hcount]
    refine ⟨n, ?_, ?_, ?_, ?_⟩
    · rw [hpassed.stream, List.length_append, hn, Nat.mul_add_div (by decide)]
      exact Nat.le_add_right _ _
    · rw [htake]
      exact congrArg Sink.written hpassed.sink
    · rw [htake]
      exact hpassed.stages
    · rw [hpassed.stream, List.nil_append, List.drop_left' hn]

/-- Failure costs nothing that has not been asked for again. Whatever a source grants and a sink
takes, the sink ends up with the front of the whole output, and with four bytes for every sample
counted. A failing read leaves everything at one sample of the signal. A source that only ends at its
end and a sink with room are served completely by calling again, however often reads fail. -/
theorem interruptions_lose_nothing {c : Cascade T} (hw : c.WellFormed) (hcon : c.Connected)
    (source : Source) (capacity size : Nat) (writer : Writer) {buffer : List T}
    (hbuffer : buffer.length = source.rest.length / 4) :
    let byte k := (source.rest.getD k 0).toNat
    let word i := byte (4 * i) + 256 * byte (4 * i + 1) + 65536 * byte (4 * i + 2) +
      16777216 * byte (4 * i + 3)
    let signal : List T := (List.range (source.rest.length / 4)).map fun i =>
      Sample.ofSingle (.ofBits (.ofNat (word i)))
    let bytes (x : T) : List UInt8 :=
      let w := (Sample.toSingle x).toBits.toNat
      [.ofNat w, .ofNat (w / 256), .ofNat (w / 65536), .ofNat (w / 16777216)]
    let start : Session T := ⟨c, .ofSource source capacity, writer⟩
    let outcome := start.run size
    let whole := c.process signal buffer
    let calm := run ⟨c, .ofSource (.ofBytes source.rest) capacity, writer⟩ size
    (∃ accepted, outcome.session.writer.sink.written = writer.sink.written ++ accepted ∧
        accepted <+: whole.1.flatMap bytes ∧
        ∀ n, outcome.result = .ok n → accepted.length = 4 * n) ∧
      (∀ reason, outcome.result = .error (.input reason) →
        ∃ n ≤ signal.length,
          let part := c.process (signal.take n) (buffer.take n)
          outcome.session.writer.sink.written = writer.sink.written ++ part.1.flatMap bytes ∧
            outcome.session.cascade.stages = part.2.stages ∧
            outcome.session.reader.stream = source.rest.drop (4 * n)) ∧
      (writer.sink.Accepting (4 * (source.rest.length / 4)) →
        (∀ k, source.plan k ≠ .upTo 0) → ∀ retries : List Nat,
          let last := start.persist size retries
          (∀ n, last.result = .ok n →
            last.session.writer.sink.written = writer.sink.written ++ whole.1.flatMap bytes ∧
              last.session.cascade.stages = whole.2.stages ∧
              last.session.writer.sink.written = calm.session.writer.sink.written ∧
              last.session.cascade.stages = calm.session.cascade.stages) ∧
          ∀ bound ≤ source.reads + retries.length,
            (∀ k, bound ≤ k → ∀ reason, source.plan k ≠ .fail reason) →
              ∃ n, last.result = .ok n) := by
  intro byte word signal bytes start outcome whole calm
  have hrow := (connected_iff_row c).mp hcon
  have hstart : start.Ready := ⟨hw, hrow, Nat.zero_lt_succ _, by
    show 0 < max capacity 1
    omega⟩
  have hsignal : decode source.rest = signal := decode_eq_map source.rest
  have hstream : start.reader.stream = source.rest := rfl
  have hroom : buffer.length = signal.length := by
    rw [hbuffer, List.length_map, List.length_range]
  obtain ⟨hwhole, hlast⟩ := process_same_length hw hrow hroom
  have himage : start.image start.reader.stream = whole.1.flatMap bytes := by
    rw [image, hstream, hsignal, hwhole]
    rfl
  have hends := run_ends hstart size
  refine ⟨?_, ?_, ?_⟩
  · obtain ⟨accepted, hwritten, hfront⟩ := hends.written
    rw [himage] at hfront
    refine ⟨accepted, hwritten, hfront, ?_⟩
    intro n hok
    have hcount := run_counts hstart hok
    rw [hwritten, List.length_append] at hcount
    exact Nat.add_left_cancel hcount
  · intro reason hresult
    obtain ⟨n, hn, hwritten, hstages, hrest⟩ := hends.interruption hresult
    rw [hstream, hsignal] at hwritten hstages
    have hsame : (buffer.take n).length = (signal.take n).length := by
      rw [List.length_take, List.length_take, hroom]
    obtain ⟨hpart, hpartLast⟩ := process_same_length hw hrow hsame
    refine ⟨n, ?_, ?_, ?_, hrest⟩
    · rw [← hroom, hbuffer]
      exact hn
    · rw [hpart]
      exact hwritten
    · rw [hpartLast]
      exact hstages
  · intro haccepting hplan retries last
    have hflow : Flowing ⟨c, .ofSource (.ofBytes source.rest) capacity, writer⟩ :=
      ⟨hw, hrow, fun _ => .inl rfl, hstart.held, hstart.capacity, haccepting⟩
    obtain ⟨-, hcalm, hcalmLast⟩ := pump_flowing hflow (show 0 < max size 1 by omega)
      (List.length_replicate (a := (0 : T))) 0
    obtain ⟨hdone, hends⟩ := persist_completes hstart haccepting hplan size retries
    refine ⟨?_, hends⟩
    intro n hok
    obtain ⟨hwritten, hstages⟩ := hdone n hok
    refine ⟨?_, ?_, hwritten.trans hcalm.symm, hstages.trans hcalmLast.symm⟩
    · rw [hwritten, himage]
    · rw [hlast, hstages, hstream, hsignal]

/-- One read fails inside the first sample and another between the two samples. Calling again with
other block sizes delivers both. -/
theorem interruptions_lose_nothing_two_tubes :
    let c : Cascade Float32 := ofStages [.ofTube .ecc83, .ofTube .ecc82]
    let source : Source := .planned [0, 0, 0, 63, 0, 0, 128, 191, 5, 6]
      [.upTo 3, .fail "interrupted", .upTo 1, .fail "interrupted", .upTo 3]
    let writer : Writer := .ofSink { perWrite := some 2, limit := some 8 } 0
    let last := persist ⟨c, .ofSource source 1, writer⟩ 0 [2, 1, 1, 3]
    let whole := c.process [.ofBits 0x3f000000, .ofBits 0xbf800000] [7, 7]
    ∃ n, last.result = .ok n ∧
      last.session.writer.sink.written = whole.1.flatMap (fun x =>
        let w := x.toBits.toNat
        [.ofNat w, .ofNat (w / 256), .ofNat (w / 65536), .ofNat (w / 16777216)]) ∧
      last.session.cascade.stages = whole.2.stages := by
  intro c source writer last whole
  have hcon : c.Connected := ofStages_connected (by simp [Stage.ofTube, Stage.ofCircuit])
  have hcount : source.rest.length / 4 = 2 := by simp [source, Source.planned]
  have hbuffer : ([7, 7] : List Float32).length = source.rest.length / 4 := hcount.symm
  have hsink : writer.sink.Accepting (4 * (source.rest.length / 4)) :=
    .of_limit (by decide) rfl (by decide) rfl
  have hplan : ∀ k, source.plan k ≠ .upTo 0 := by
    intro k
    rcases k with _ | _ | _ | _ | _ | k <;>
      · intro hempty
        cases hempty
  have hsafe : ∀ k, 4 ≤ k → ∀ reason, source.plan k ≠ .fail reason := by
    intro k hk reason
    rcases k with _ | _ | _ | _ | _ | k
    · omega
    · omega
    · omega
    · omega
    · intro hfail
      cases hfail
    · intro hfail
      cases hfail
  have hw : c.WellFormed := .ofStages _
  -- from here on it does not matter which cascade this is, and nothing need evaluate it
  clear_value c
  obtain ⟨-, -, hresumed⟩ := interruptions_lose_nothing hw hcon source 1 0 writer hbuffer
  obtain ⟨hdone, hends⟩ := hresumed hsink hplan [2, 1, 1, 3]
  obtain ⟨n, hok⟩ := hends 4 (Nat.le_refl _) hsafe
  obtain ⟨hwritten, hstages, -⟩ := hdone n hok
  rw [hcount] at hwritten hstages
  exact ⟨n, hok, hwritten.trans (List.nil_append _), hstages⟩

end TubePreamp.Pcm.Session
