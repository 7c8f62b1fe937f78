import Mathlib.Data.List.Basic
import TubePreamp.Cascade
import TubePreamp.Proofs.Stage.Render

/-!
What every operation on a cascade keeps: there is one link between each two stages, both buffers of
a link have the block size, and the block size is positive. Nothing is said of the placements here,
so a stage may be changed in any way.
-/

namespace TubePreamp

namespace Link

variable {T : Type}

def HasSize (n : Nat) (l : Link T) : Prop := l.va.length = n ∧ l.ri.length = n

theorem front_lengths {n size : Nat} {l : Link T} (h : l.HasSize n) (hs : size ≤ n) :
    ∀ b ∈ l.front size, b.length = size := by
  obtain ⟨hva, hri⟩ := h
  intro b hb
  simp only [front, List.mem_cons, List.not_mem_nil, or_false] at hb
  rcases hb with rfl | rfl <;> simp only [List.length_take] <;> omega

theorem store_size {n size : Nat} {l : Link T} {outputs : List (List T)} (h : l.HasSize n)
    (hlen : outputs.map List.length = (l.front size).map List.length) :
    (l.store outputs).HasSize n := by
  obtain ⟨hva, hri⟩ := h
  have hcount : outputs.length = 2 := by simpa [front] using congrArg List.length hlen
  obtain ⟨va, ri, rfl⟩ := List.length_eq_two.mp hcount
  simp only [front, List.map_cons, List.length_take, List.map_nil, List.cons.injEq,
    and_true] at hlen
  constructor
  · rw [store, length_overlay (by omega), hva]
  · rw [store, length_overlay (by omega), hri]

variable [Sample T]

theorem silent_size (n : Nat) : (silent n : Link T).HasSize n := by
  simp [HasSize, silent]

theorem resize_size (n : Nat) (l : Link T) : (l.resize n).HasSize n := by
  simp [HasSize, resize]

end Link

namespace Cascade

variable {T : Type}

structure WellFormed (c : Cascade T) : Prop where
  links_count : c.links.length = c.stages.length - 1
  links_size : ∀ l ∈ c.links, l.HasSize c.blockSize
  block_pos : 0 < c.blockSize

namespace WellFormed

theorem empty : (empty : Cascade T).WellFormed where
  links_count := rfl
  links_size := by simp [Cascade.empty]
  block_pos := Nat.zero_lt_succ _

theorem setRate {c : Cascade T} (h : c.WellFormed) (rate : Float) :
    (c.setRate rate).WellFormed where
  links_count := by
    simp only [Cascade.setRate, List.length_map]
    exact h.links_count
  links_size := h.links_size
  block_pos := h.block_pos

theorem setStage {c : Cascade T} (h : c.WellFormed) (i : Nat) (s : Stage T) :
    (c.setStage i s).WellFormed where
  links_count := by
    simp only [Cascade.setStage, List.length_set]
    exact h.links_count
  links_size := h.links_size
  block_pos := h.block_pos

end WellFormed

variable [Sample T]

theorem runStages_cons (size : Nat) (s t : Stage T) (rest : List (Stage T)) (link : Link T)
    (links : List (Link T)) (inputs : List (List T)) (output : List T) :
    runStages size (s :: t :: rest) (link :: links) inputs output =
      let linked := link.store (s.process inputs (link.front size) size).1
      let tail := runStages size (t :: rest) links (linked.front size) output
      (tail.1, (s.process inputs (link.front size) size).2 :: tail.2.1, linked :: tail.2.2) := rfl

theorem runStages_stages_length (size : Nat) (stages : List (Stage T)) (links : List (Link T))
    (inputs : List (List T)) (output : List T) :
    (runStages size stages links inputs output).2.1.length = stages.length := by
  induction stages generalizing links inputs with
  | nil => rfl
  | cons s rest ih =>
    cases rest with
    | nil => rfl
    | cons t rest =>
      cases links with
      | nil => rfl
      | cons link links =>
        rw [runStages_cons]
        exact congrArg Nat.succ (ih links _)

theorem runStages_links_length (size : Nat) (stages : List (Stage T)) (links : List (Link T))
    (inputs : List (List T)) (output : List T) (h : links.length = stages.length - 1) :
    (runStages size stages links inputs output).2.2.length = stages.length - 1 := by
  induction stages generalizing links inputs with
  | nil => exact h
  | cons s rest ih =>
    cases rest with
    | nil => exact h
    | cons t rest =>
      cases links with
      | nil => simp at h
      | cons link links =>
        rw [runStages_cons]
        exact congrArg Nat.succ (ih links _ (by simpa using h))

theorem runStages_links_size {n : Nat} (size : Nat) (stages : List (Stage T))
    (links : List (Link T)) (inputs : List (List T)) (output : List T)
    (h : ∀ l ∈ links, l.HasSize n) :
    ∀ l ∈ (runStages size stages links inputs output).2.2, l.HasSize n := by
  induction stages generalizing links inputs with
  | nil => exact h
  | cons s rest ih =>
    cases rest with
    | nil => exact h
    | cons t rest =>
      cases links with
      | nil => exact h
      | cons link links =>
        rw [List.forall_mem_cons] at h
        rw [runStages_cons]
        intro l hl
        rcases List.mem_cons.mp hl with rfl | hl
        · exact Link.store_size h.1 (s.process_lengths inputs (link.front size) size)
        · exact ih links _ h.2 l hl

namespace WellFormed

theorem runBlock {c : Cascade T} (h : c.WellFormed) (input output : List T) :
    (c.runBlock input output).2.WellFormed where
  links_count := by
    have hs := runStages_stages_length input.length c.stages c.links [input] output
    have hl := runStages_links_length input.length c.stages c.links [input] output h.links_count
    exact hl.trans (congrArg (· - 1) hs.symm)
  links_size := runStages_links_size _ _ _ _ _ h.links_size
  block_pos := h.block_pos

theorem runBlocks {c : Cascade T} (h : c.WellFormed) (parts : List (List T × List T)) :
    (c.runBlocks parts).2.WellFormed := by
  induction parts generalizing c with
  | nil => exact h
  | cons part rest ih => exact ih (h.runBlock part.1 part.2)

theorem process {c : Cascade T} (h : c.WellFormed) (input output : List T) :
    (c.process input output).2.WellFormed := by
  unfold Cascade.process
  split
  · exact h
  · exact h.runBlocks _

theorem push {c : Cascade T} (h : c.WellFormed) (s : Stage T) : (c.push s).WellFormed := by
  unfold Cascade.push
  split
  · next hlast =>
    have hnil : c.stages = [] := List.getLast?_eq_none_iff.mp hlast
    refine ⟨?_, h.links_size, h.block_pos⟩
    have := h.links_count
    rw [hnil] at this
    exact this
  · next last hlast =>
    have hpos : 0 < c.stages.length := by
      have hmem := List.mem_of_getLast? hlast
      exact List.length_pos_of_mem hmem
    have hcount := h.links_count
    refine ⟨?_, ?_, h.block_pos⟩
    · simp only [connect, List.length_append, List.length_dropLast, List.length_cons,
        List.length_nil]
      omega
    · intro l hl
      rcases List.mem_append.mp hl with hl | hl
      · exact h.links_size l hl
      · rw [List.mem_singleton.mp hl]
        exact Link.silent_size _

theorem setBlockSize {c : Cascade T} (h : c.WellFormed) (size : Nat) :
    (c.setBlockSize size).WellFormed where
  links_count := by
    simp only [Cascade.setBlockSize, List.length_map]
    exact h.links_count
  links_size := by
    intro l hl
    obtain ⟨k, _, rfl⟩ := List.mem_map.mp hl
    exact k.resize_size _
  block_pos := by
    simp only [Cascade.setBlockSize]
    omega

end WellFormed

theorem setupStages_length (stages : List (Stage T)) :
    (setupStages stages).2.length = stages.length := by
  induction stages with
  | nil => rfl
  | cons s rest ih =>
    unfold setupStages
    split
    · rfl
    · exact congrArg Nat.succ ih

namespace WellFormed

theorem setup {c : Cascade T} (h : c.WellFormed) : c.setup.2.WellFormed where
  links_count := by
    have hs := setupStages_length c.stages
    exact h.links_count.trans (congrArg (· - 1) hs.symm)
  links_size := h.links_size
  block_pos := h.block_pos

theorem perform {c : Cascade T} (h : c.WellFormed) (a : Action T) :
    (c.perform a).2.WellFormed := by
  cases a with
  | push s => exact h.push s
  | setBlockSize size => exact h.setBlockSize size
  | setRate rate => exact h.setRate rate
  | setup =>
    have hs := h.setup
    simp only [Cascade.perform]
    split
    · next c' heq => simpa only [heq] using hs
    · next fault c' heq => simpa only [heq] using hs
  | setStage i s => exact h.setStage i s
  | process input output => exact h.process input output

theorem after {c : Cascade T} (h : c.WellFormed) (history : List (Action T)) :
    (c.after history).WellFormed := by
  induction history generalizing c with
  | nil => exact h
  | cons a rest ih => exact ih (h.perform a)

theorem ofStages (stages : List (Stage T)) : (ofStages stages).WellFormed := by
  have h := empty.after (stages.map Action.push)
  rwa [Cascade.after, List.foldl_map] at h

end WellFormed

end Cascade

/-!
A cascade at work with every access checked. Stages find their links by position and cut buffers to
length, and a position or a length that is not there gives nothing.
-/

section Buffers

variable {α : Type}

def front? (n : Nat) (l : List α) : Option (List α) :=
  if n ≤ l.length then some (l.take n) else none

def splitAt? (i : Nat) (l : List α) : Option (List α × List α) :=
  if i ≤ l.length then some (l.take i, l.drop i) else none

def copy? (new old : List α) : Option (List α) :=
  if new.length = old.length then some new else none

def blocks? (size : Nat) (l : List α) : Option (List (List α)) :=
  if size = 0 then none else some (blocks size l)

theorem front?_eq {n : Nat} {l : List α} (h : n ≤ l.length) : front? n l = some (l.take n) :=
  if_pos h

theorem splitAt?_append (a b : List α) : splitAt? a.length (a ++ b) = some (a, b) := by
  simp [splitAt?]

end Buffers

def Link.front? {T : Type} (size : Nat) (l : Link T) : Option (List (List T)) := do
  let va ← TubePreamp.front? size l.va
  let ri ← TubePreamp.front? size l.ri
  return [va, ri]

theorem Link.front?_eq {T : Type} {n size : Nat} {l : Link T} (h : l.HasSize n) (hs : size ≤ n) :
    l.front? size = some (l.front size) := by
  have hva : size ≤ l.va.length := by rw [h.1]; exact hs
  have hri : size ≤ l.ri.length := by rw [h.2]; exact hs
  simp [Link.front?, Link.front, TubePreamp.front?_eq hva, TubePreamp.front?_eq hri]

namespace Cascade

variable {T : Type} [Sample T]

/-- The turn of the stage at position `i` in a block, `last` being the last position. A stage reads
the link before it and writes the one behind it; `input` and `output` are the two ends. -/
def turn? (input : List T) (last i : Nat) (s : Stage T) (links : List (Link T))
    (output : List T) : Option (List T × Stage T × List (Link T)) :=
  let size := input.length
  if i = 0 then
    if i = last then
      let (outputs, s) := s.process [input] [output] size
      some (outputs.headD output, s, links)
    else do
      let behind ← links[0]?
      let room ← behind.front? size
      let (outputs, s) := s.process [input] room size
      return (output, s, links.set 0 (behind.store outputs))
  else if i = last then do
    let before ← links[i - 1]?
    let inputs ← before.front? size
    let (outputs, s) := s.process inputs [output] size
    return (outputs.headD output, s, links)
  else do
    let (upper, lower) ← splitAt? i links
    let before ← upper[i - 1]?
    let behind ← lower[0]?
    let inputs ← before.front? size
    let room ← behind.front? size
    let (outputs, s) := s.process inputs room size
    return (output, s, upper ++ lower.set 0 (behind.store outputs))

def turns? (input : List T) (last : Nat) : Nat → List (Stage T) → List (Link T) → List T →
    Option (List T × List (Stage T) × List (Link T))
  | _, [], links, output => some (output, [], links)
  | i, s :: rest, links, output => do
    let (output, s, links) ← turn? input last i s links output
    let (output, stages, links) ← turns? input last (i + 1) rest links output
    return (output, s :: stages, links)

def runBlock? (c : Cascade T) (input output : List T) : Option (List T × Cascade T) :=
  match c.stages.length with
  | 0 => none
  | last + 1 => do
    let (output, stages, links) ← turns? input last 0 c.stages c.links output
    return (output, { c with stages, links })

def runBlocks? (c : Cascade T) : List (List T × List T) → Option (List T × Cascade T)
  | [] => some ([], c)
  | (input, output) :: rest => do
    let (front, c) ← c.runBlock? input output
    let (back, c) ← c.runBlocks? rest
    return (front ++ back, c)

def process? (c : Cascade T) (input output : List T) : Option (List T × Cascade T) := do
  let n := min input.length output.length
  let source ← front? n input
  let target ← front? n output
  if c.stages.isEmpty then
    let copied ← copy? source target
    return (overlay copied output, c)
  else
    let inputs ← blocks? c.blockSize source
    let outputs ← blocks? c.blockSize target
    let (front, c) ← c.runBlocks? (inputs.zip outputs)
    return (overlay front output, c)

theorem turns?_cons (input : List T) (last i : Nat) (s : Stage T) (rest : List (Stage T))
    (links : List (Link T)) (output : List T) :
    turns? input last i (s :: rest) links output =
      (turn? input last i s links output).bind fun r =>
        (turns? input last (i + 1) rest r.2.2 r.1).bind fun q =>
          some (q.1, r.2.1 :: q.2.1, q.2.2) := rfl

section Turns

variable {n last : Nat} {input : List T} {before link : Link T}

theorem turn?_first (hn : input.length ≤ n) (hlink : link.HasSize n) (hlast : 0 ≠ last)
    (s : Stage T) (links : List (Link T)) (output : List T) :
    turn? input last 0 s (link :: links) output =
      let r := s.process [input] (link.front input.length) input.length
      some (output, r.2, link.store r.1 :: links) := by
  have hroom := Link.front?_eq hlink hn
  simp [turn?, hlast, hroom]

theorem turn?_inner (hn : input.length ≤ n) (hbefore : before.HasSize n) (hlink : link.HasSize n)
    {done : List (Link T)} (hlast : done.length + 1 ≠ last) (s : Stage T)
    (links : List (Link T)) (output : List T) :
    turn? input last (done.length + 1) s (done ++ before :: link :: links) output =
      let r := s.process (before.front input.length) (link.front input.length) input.length
      some (output, r.2, done ++ before :: link.store r.1 :: links) := by
  have hinputs := Link.front?_eq hbefore hn
  have hroom := Link.front?_eq hlink hn
  have hcut : splitAt? (done.length + 1) (done ++ before :: link :: links) =
      some (done ++ [before], link :: links) := by
    have h := splitAt?_append (done ++ [before]) (link :: links)
    simpa using h
  rw [turn?, if_neg (Nat.succ_ne_zero _), if_neg hlast, hcut]
  simp [hinputs, hroom]

theorem turn?_last (hn : input.length ≤ n) (hbefore : before.HasSize n) (s : Stage T)
    (done links : List (Link T)) (output : List T) :
    turn? input (done.length + 1) (done.length + 1) s (done ++ before :: links) output =
      let r := s.process (before.front input.length) [output] input.length
      some (r.1.headD output, r.2, done ++ before :: links) := by
  have hinputs := Link.front?_eq hbefore hn
  simp [turn?, hinputs]

/-- From the second stage on. Its link is `before`, and no stage touches those in `done` any more.
The induction is on the stages. -/
theorem turns?_behind (hn : input.length ≤ n) {stages : List (Stage T)} {links : List (Link T)}
    (hcount : links.length = stages.length - 1) (hbefore : before.HasSize n)
    (hlinks : ∀ l ∈ links, l.HasSize n) (done : List (Link T)) (output : List T) :
    turns? input (done.length + stages.length) (done.length + 1) stages
        (done ++ before :: links) output =
      let r := runStages input.length stages links (before.front input.length) output
      some (r.1, r.2.1, done ++ before :: r.2.2) := by
  induction stages generalizing done links before with
  | nil => rfl
  | cons s rest ih =>
    cases rest with
    | nil =>
      have hturn := turn?_last hn hbefore s done links output
      rw [turns?_cons, List.length_singleton, hturn, Option.bind_some, turns?, Option.bind_some]
      rfl
    | cons t rest =>
      cases links with
      | nil => simp at hcount
      | cons link links =>
        rw [List.forall_mem_cons] at hlinks
        have hlast : done.length + 1 ≠ done.length + (s :: t :: rest).length := by simp
        have hstored := Link.store_size hlinks.1
          (s.process_lengths (before.front input.length) (link.front input.length) input.length)
        have htail := ih (by simpa using hcount) hstored hlinks.2 (done ++ [before])
        have hshift : (done ++ [before]).length + (t :: rest).length =
            done.length + (s :: t :: rest).length := by
          simp only [List.length_append, List.length_cons, List.length_nil]
          omega
        rw [hshift] at htail
        simp only [List.length_append, List.length_singleton, List.append_assoc,
          List.singleton_append] at htail
        rw [runStages_cons, turns?_cons, turn?_inner hn hbefore hlinks.1 hlast, Option.bind_some,
          htail, Option.bind_some]

theorem turns?_eq (hn : input.length ≤ n) {stages : List (Stage T)} (hne : stages ≠ [])
    {links : List (Link T)} (hcount : links.length = stages.length - 1)
    (hlinks : ∀ l ∈ links, l.HasSize n) (output : List T) :
    turns? input (stages.length - 1) 0 stages links output =
      some (runStages input.length stages links [input] output) := by
  cases stages with
  | nil => exact absurd rfl hne
  | cons s rest =>
    cases rest with
    | nil => rfl
    | cons t rest =>
      cases links with
      | nil => simp at hcount
      | cons link links =>
        rw [List.forall_mem_cons] at hlinks
        have hstored := Link.store_size hlinks.1
          (s.process_lengths [input] (link.front input.length) input.length)
        have hfirst := turn?_first hn hlinks.1 (Nat.succ_ne_zero rest.length).symm s links output
        have hrest : links.length = (t :: rest).length - 1 := by simpa using hcount
        have htail := turns?_behind hn hrest hstored hlinks.2 [] output
        simp only [List.length_nil, Nat.zero_add, List.nil_append, List.length_cons] at htail
        simp only [List.length_cons, Nat.add_sub_cancel]
        rw [turns?_cons, hfirst, Option.bind_some, htail, Option.bind_some]
        rfl

end Turns

theorem runBlock?_eq {c : Cascade T} (hw : c.WellFormed) (hne : c.stages ≠ []) {input : List T}
    (hn : input.length ≤ c.blockSize) (output : List T) :
    c.runBlock? input output = some (c.runBlock input output) := by
  have hturns := turns?_eq hn hne hw.links_count hw.links_size output
  have hpos := List.length_pos_iff.mpr hne
  unfold runBlock?
  split
  · omega
  · next last hlast =>
    rw [hlast, Nat.succ_sub_one] at hturns
    rw [hturns]
    rfl

theorem runBlocks?_eq {c : Cascade T} (hw : c.WellFormed) (hne : c.stages ≠ [])
    {parts : List (List T × List T)} (hparts : ∀ part ∈ parts, part.1.length ≤ c.blockSize) :
    c.runBlocks? parts = some (c.runBlocks parts) := by
  induction parts generalizing c with
  | nil => rfl
  | cons part rest ih =>
    rw [List.forall_mem_cons] at hparts
    have hblock := runBlock?_eq hw hne hparts.1 part.2
    have hsome : (c.runBlock part.1 part.2).2.stages ≠ [] := by
      have hlen := runStages_stages_length part.1.length c.stages c.links [part.1] part.2
      rw [← List.length_pos_iff] at hne ⊢
      exact hlen ▸ hne
    have hrest := ih (hw.runBlock part.1 part.2) hsome hparts.2
    simp only [runBlocks?, hblock, Option.bind_eq_bind, Option.bind_some, hrest]
    rfl

theorem process?_eq {c : Cascade T} (hw : c.WellFormed) (input output : List T) :
    c.process? input output = some (c.process input output) := by
  have hsource : min input.length output.length ≤ input.length := Nat.min_le_left _ _
  have htarget : min input.length output.length ≤ output.length := Nat.min_le_right _ _
  simp only [process?, process, front?_eq hsource, front?_eq htarget, Option.bind_eq_bind,
    Option.bind_some]
  split
  · have hsame : (input.take (min input.length output.length)).length =
        (output.take (min input.length output.length)).length := by
      simp only [List.length_take]
      omega
    simp only [copy?, if_pos hsame, Option.bind_some]
    rfl
  · next hstages =>
    have hne : c.stages ≠ [] := fun h => hstages (by rw [h]; rfl)
    have hsize : c.blockSize ≠ 0 := Nat.pos_iff_ne_zero.mp hw.block_pos
    have hparts : ∀ part ∈ (blocks c.blockSize (input.take (min input.length output.length))).zip
        (blocks c.blockSize (output.take (min input.length output.length))),
        part.1.length ≤ c.blockSize := by
      intro part hpart
      exact length_le_of_mem_blocks (List.of_mem_zip hpart).1
    simp only [blocks?, if_neg hsize, Option.bind_some, runBlocks?_eq hw hne hparts]
    rfl

theorem ofTubes_wellFormed {tubes : List Tube} {rate : Float} {c : Cascade T}
    (h : ofTubes tubes rate = .ok c) : c.WellFormed := by
  have hw := ((WellFormed.ofStages (tubes.map (Stage.ofTube (T := T)))).setRate rate).setup
  unfold ofTubes at h
  split at h
  · cases h
  · split at h
    · next heq =>
      cases h
      rw [heq] at hw
      exact hw
    · cases h

/-- Whatever is done to a cascade, its links fit its stages and its block size, and so every access
that processing makes is in range. -/
theorem history_keeps_accesses_in_range {c : Cascade T}
    (hc : c = empty ∨ ∃ tubes rate, ofTubes tubes rate = .ok c) (history : List (Action T)) :
    let d := c.after history
    d.links.length = d.stages.length - 1 ∧
      (∀ l ∈ d.links, l.va.length = d.blockSize ∧ l.ri.length = d.blockSize) ∧
      1 ≤ d.blockSize ∧
      ∀ input output, d.process? input output = some (d.process input output) := by
  intro d
  have hstart : c.WellFormed := by
    rcases hc with rfl | ⟨tubes, rate, hbuilt⟩
    · exact .empty
    · exact ofTubes_wellFormed hbuilt
  have hd : d.WellFormed := hstart.after history
  exact ⟨hd.links_count, hd.links_size, hd.block_pos, process?_eq hd⟩

/-- The second stage has lost its placement, the rate is refused, and block sizes come and go. -/
theorem history_keeps_accesses_in_range_misplaced :
    let history : List (Action Float32) :=
      [.push (.ofTube .ecc83), .setBlockSize 0, .push (.ofTube .ecc82), .process [1, 2, 3] [0, 0],
        .setStage 1 (.ofTube .ecc83), .setRate 0, .setup, .setBlockSize 7, .push (.ofTube .ecc82)]
    let d := (empty : Cascade Float32).after history
    d.links.length = d.stages.length - 1 ∧
      (∀ l ∈ d.links, l.va.length = d.blockSize ∧ l.ri.length = d.blockSize) ∧
      1 ≤ d.blockSize ∧
      ∀ input output, d.process? input output = some (d.process input output) := by
  intro history
  exact history_keeps_accesses_in_range (.inl rfl) history

end Cascade

end TubePreamp
