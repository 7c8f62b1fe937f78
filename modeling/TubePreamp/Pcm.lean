import TubePreamp.Cascade
import TubePreamp.Notice
import TubePreamp.Sample

/-!
Raw mono PCM: every sample is a single precision number in four bytes, the lowest first. A stream
moves blocks of samples from a source through a cascade to a sink until the input ends, and then the
sink is flushed.
-/

namespace TubePreamp.Pcm

def bytesPerSample : Nat := 4

def wordBytes (w : UInt32) : List UInt8 :=
  [.ofNat w.toNat, .ofNat (w.toNat / 0x100), .ofNat (w.toNat / 0x10000),
    .ofNat (w.toNat / 0x1000000)]

def wordOf (a b c d : UInt8) : UInt32 :=
  .ofNat (a.toNat + 0x100 * b.toNat + 0x10000 * c.toNat + 0x1000000 * d.toNat)

variable {T : Type} [Sample T]

def encodeSample (x : T) : List UInt8 := wordBytes (Sample.toSingle x).toBits

def encode (xs : List T) : List UInt8 := xs.flatMap encodeSample

/-- Samples of the whole groups of four bytes; a partial group at the end is left out. -/
def decode : List UInt8 → List T
  | a :: b :: c :: d :: rest => Sample.ofSingle (.ofBits (wordOf a b c d)) :: decode rest
  | _ => []

@[simp] theorem length_encodeSample (x : T) : (encodeSample x).length = bytesPerSample := rfl

theorem length_encode (xs : List T) : (encode xs).length = bytesPerSample * xs.length := by
  induction xs with
  | nil => rfl
  | cons x xs ih =>
    have : encode (x :: xs) = encodeSample x ++ encode xs := rfl
    rw [this, List.length_append, ih, length_encodeSample, List.length_cons, Nat.mul_succ,
      Nat.add_comm]

theorem length_decode (bytes : List UInt8) :
    (decode bytes : List T).length = bytes.length / bytesPerSample := by
  fun_induction decode (T := T) bytes with
  | case1 a b c d rest ih =>
    simp only [List.length_cons, ih, bytesPerSample]
    omega
  | case2 bytes hshort =>
    match bytes, hshort with
    | [], _ | [_], _ | [_, _], _ | [_, _, _], _ => simp [bytesPerSample]
    | a :: b :: c :: d :: rest, h => exact absurd rfl (h a b c d rest)

theorem wordOf_wordBytes (w : UInt32) :
    wordOf (.ofNat w.toNat) (.ofNat (w.toNat / 0x100)) (.ofNat (w.toNat / 0x10000))
      (.ofNat (w.toNat / 0x1000000)) = w := by
  have := w.toNat_lt
  apply UInt32.toNat_inj.mp
  simp only [wordOf, UInt32.toNat_ofNat', UInt8.toNat_ofNat']
  omega

end TubePreamp.Pcm

/-!
Where bytes come from. Every read is granted by a plan: it hands out bytes up to a number and to
the room of the caller, or it fails and consumes nothing. A grant of none looks like the end.
-/

namespace TubePreamp.Pcm

inductive Grant where
  | all
  | upTo (count : Nat)
  | fail (reason : String)

structure Source where
  rest : List UInt8
  plan : Nat → Grant
  reads : Nat := 0

namespace Source

def ofBytes (bytes : List UInt8) : Source := { rest := bytes, plan := fun _ => .all }

def planned (bytes : List UInt8) (grants : List Grant) : Source :=
  { rest := bytes, plan := fun k => grants.getD k .all }

def take (s : Source) (count : Nat) : List UInt8 × Source :=
  (s.rest.take count, { s with rest := s.rest.drop count, reads := s.reads + 1 })

def read (s : Source) (room : Nat) : Except String (List UInt8) × Source :=
  match s.plan s.reads with
  | .all =>
    let (bytes, s) := s.take room
    (.ok bytes, s)
  | .upTo count =>
    let (bytes, s) := s.take (min count room)
    (.ok bytes, s)
  | .fail reason => (.error reason, { s with reads := s.reads + 1 })

theorem length_read {s t : Source} {room : Nat} {bytes : List UInt8}
    (h : s.read room = (.ok bytes, t)) : t.rest.length + bytes.length = s.rest.length := by
  unfold read at h
  split at h
  · obtain ⟨h, rfl⟩ := Prod.mk.inj h
    cases h
    simp
    omega
  · obtain ⟨h, rfl⟩ := Prod.mk.inj h
    cases h
    simp
    omega
  · cases h

end Source

/-!
Where bytes go. A sink accepts at most so many bytes at a write and so many in total; once the total
is reached, a write fails or accepts nothing.
-/

structure Sink where
  written : List UInt8 := []
  perWrite : Option Nat := none
  limit : Option Nat := none
  failure : Option String := none
  flushFailure : Option String := none

namespace Sink

def capped (cap : Option Nat) (n : Nat) : Nat := (cap.map (min n)).getD n

def isFull (s : Sink) : Bool := s.limit.any fun limit => limit ≤ s.written.length

def accepts (s : Sink) (offered : Nat) : Nat :=
  capped (s.limit.map fun limit => limit - s.written.length) (capped s.perWrite offered)

def write (s : Sink) (bytes : List UInt8) : Except String Nat × Sink :=
  match s.isFull, s.failure with
  | true, some reason => (.error reason, s)
  | _, _ =>
    let n := s.accepts bytes.length
    (.ok n, { s with written := s.written ++ bytes.take n })

def writeAll (s : Sink) (bytes : List UInt8) : Option String × Sink :=
  if bytes = [] then (none, s)
  else
    match s.write bytes with
    | (.error reason, s) => (some reason, s)
    | (.ok 0, s) => (some "failed to write whole buffer", s)
    | (.ok (n + 1), s) => s.writeAll (bytes.drop (n + 1))
termination_by bytes.length
decreasing_by
  have : 0 < bytes.length := List.length_pos_iff.mpr (by assumption)
  simp only [List.length_drop]
  omega

end Sink

/-!
Reading samples from a source. Bytes of a sample that is split across two reads are held back for
the next call. A read that gives nothing ends the input, and held bytes are dropped; a failing read
keeps them.
-/

structure Reader where
  source : Source
  capacity : Nat
  held : List UInt8

inductive Reading (T : Type) where
  | delivered (samples : List T)
  | ended (dropped : Nat)
  | failed (reason : String)

def Reading.samples {T : Type} : Reading T → List T
  | delivered samples => samples
  | _ => []

def dropNotices (dropped : Nat) : List Notice :=
  if dropped = 0 then [] else [.bytesDropped dropped]

inductive Fetch where
  | got (bytes : List UInt8)
  | ended (dropped : Nat)
  | failed (reason : String)

namespace Reader

def ofSource (source : Source) (size : Nat) : Reader := ⟨source, max size 1, []⟩

def backlog (r : Reader) : Nat := r.source.rest.length + r.held.length

/-- Gathers up to `wanted` bytes, reading until a whole sample is there. -/
def fetch (r : Reader) (wanted : Nat) : Fetch × Reader :=
  match r.source.read (wanted - r.held.length) with
  | (.error reason, source) => (.failed reason, { r with source })
  | (.ok [], source) => (.ended r.held.length, { r with source, held := [] })
  | (.ok (b :: bs), source) =>
    let available := r.held ++ b :: bs
    if available.length < bytesPerSample then fetch { r with source, held := available } wanted
    else
      let whole := available.length / bytesPerSample * bytesPerSample
      (.got available, { r with source, held := available.drop whole })
termination_by bytesPerSample - r.held.length
decreasing_by
  rename_i h
  simp only [available, List.length_append, List.length_cons] at h ⊢
  omega

/-- Delivers at most `count` samples, at least one unless the input has ended or a read fails. -/
def read {T : Type} [Sample T] (r : Reader) (count : Nat) : Reading T × Reader :=
  if count = 0 then (.delivered [], r)
  else
    match r.fetch (bytesPerSample * min count r.capacity) with
    | (.got bytes, r) => (.delivered (decode bytes), r)
    | (.ended dropped, r) => (.ended dropped, r)
    | (.failed reason, r) => (.failed reason, r)

def readInto {T : Type} [Sample T] (r : Reader) (block : List T) : Reading T × List T × Reader :=
  let (reading, r) := r.read block.length
  (reading, overlay reading.samples block, r)

/-- What is gathered leaves the backlog in whole samples. -/
theorem backlog_fetch {r q : Reader} {wanted : Nat} {bytes : List UInt8}
    (h : r.fetch wanted = (.got bytes, q)) : q.backlog + 4 ≤ r.backlog := by
  fun_induction fetch r wanted with
  | case1 => cases h
  | case2 => cases h
  | case3 r b bs source hread available hshort ih =>
    have := ih h
    have := Source.length_read hread
    simp only [backlog, available, List.length_append, List.length_cons] at *
    omega
  | case4 r b bs source hread available hshort whole =>
    obtain ⟨_, rfl⟩ := Prod.mk.inj h
    have := Source.length_read hread
    simp only [backlog, available, whole, bytesPerSample, List.length_append, List.length_cons,
      List.length_drop] at *
    omega

theorem backlog_read {T : Type} [Sample T] {r q : Reader} {count : Nat} {x : T} {xs : List T}
    (h : r.read count = (.delivered (x :: xs), q)) : q.backlog < r.backlog := by
  unfold read at h
  split at h
  · cases h
  · split at h
    · rename_i hfetch
      obtain ⟨_, rfl⟩ := Prod.mk.inj h
      have := backlog_fetch hfetch
      omega
    · cases h
    · cases h

end Reader

/-!
Writing samples to a sink. A block is encoded into a staging buffer, which grows to the longest
block seen and is never cleared; only the bytes of the block leave it.
-/

structure Writer where
  sink : Sink
  staging : List UInt8

namespace Writer

def ofSink (sink : Sink) (size : Nat) : Writer :=
  ⟨sink, List.replicate (bytesPerSample * size) 0⟩

def grown (w : Writer) (needed : Nat) : List UInt8 :=
  resized (max needed w.staging.length) 0 w.staging

def write {T : Type} [Sample T] (w : Writer) (block : List T) : Option Fault × Writer :=
  let needed := bytesPerSample * block.length
  let staging := overlay (encode block) (w.grown needed)
  let (failure, sink) := w.sink.writeAll (staging.take needed)
  (failure.map Fault.output, { sink, staging })

def flush (w : Writer) : Option Fault := w.sink.flushFailure.map Fault.output

end Writer

structure Session (T : Type) where
  cascade : Cascade T
  reader : Reader
  writer : Writer

structure Outcome (T : Type) where
  result : Except Fault Nat
  dropped : Nat
  session : Session T

namespace Session

variable {T : Type} [Sample T]

def finish (s : Session T) (dropped total : Nat) : Outcome T :=
  match s.writer.flush with
  | none => ⟨.ok total, dropped, s⟩
  | some fault => ⟨.error fault, dropped, s⟩

/-- Moves blocks of at most `size` samples until the input ends or something fails. The output
buffer is used again for every block. -/
def pump (s : Session T) (size : Nat) (output : List T) (total : Nat) : Outcome T :=
  match _h : s.reader.read size with
  | (.failed reason, reader) => ⟨.error (.input reason), 0, { s with reader }⟩
  | (.ended dropped, reader) => { s with reader }.finish dropped total
  | (.delivered [], reader) => { s with reader }.finish 0 total
  | (.delivered (x :: xs), reader) =>
    let count := (x :: xs).length
    let (block, cascade) := s.cascade.process (x :: xs) (output.take count)
    match s.writer.write block with
    | (some fault, writer) => ⟨.error fault, 0, { cascade, reader, writer }⟩
    | (none, writer) => pump { cascade, reader, writer } size (overlay block output) (total + count)
termination_by s.reader.backlog
decreasing_by exact Reader.backlog_read (by assumption)

def run (s : Session T) (size : Nat) : Outcome T :=
  let size := max size 1
  s.pump size (List.replicate size 0) 0

end Session

def Outcome.notices {T : Type} (o : Outcome T) : List Notice := dropNotices o.dropped

end TubePreamp.Pcm
