import Mathlib
import TubePreamp.FrontEnds

/-!
The grammar of tube lists. A list is cut at every comma; a segment is blank, or names a tube, or is
no name, and the first one that is no name decides the answer. Names are written in ASCII, in any
case and with white space around them. To read them, the small letters of ASCII do as well as those
of all Unicode.
-/

namespace TubePreamp

namespace Text

end Text

namespace Tube

theorem spelled {piece : List Char} {tube : Tube} (h : ofChars? piece = some tube) :
    String.ofList ((Text.trim piece).map Char.toLower) ∈ tube.spellings := by
  have := List.find?_some h
  exact List.contains_iff_mem.mp this

/-- What holds of the table's names: letters and digits, and at least one. -/
theorem spellings_plain (tube : Tube) :
    ∀ key ∈ tube.spellings, key.toList ≠ [] ∧ ',' ∉ key.toList := by
  cases tube <;> decide

theorem not_blank_of_name {piece : List Char} {tube : Tube} (h : ofChars? piece = some tube) :
    (Text.trim piece).isEmpty = false := by
  have hkey := (spellings_plain tube _ (spelled h)).1
  rw [String.toList_ofList] at hkey
  rw [List.isEmpty_eq_false_iff]
  intro hnone
  rw [hnone] at hkey
  exact hkey rfl

end Tube

namespace Text

def Blank (cs : List Char) : Prop := ∀ c ∈ cs, isBlank c = true

instance (cs : List Char) : Decidable (Blank cs) :=
  List.decidableBAll (fun c => isBlank c = true) cs

def InAnyCase (letters cs : List Char) : Prop :=
  List.Forall₂ (fun letter c => c = letter ∨ c = letter.toUpper) letters cs

theorem trim_cut (cs : List Char) :
    ∃ before after, cs = before ++ trim cs ++ after ∧ Blank before ∧ Blank after := by
  refine ⟨cs.takeWhile isBlank, ((cs.dropWhile isBlank).reverse.takeWhile isBlank).reverse,
    ?_, ?_, ?_⟩
  · rw [List.append_assoc, trim, ← List.reverse_append, List.takeWhile_append_dropWhile,
      List.reverse_reverse, List.takeWhile_append_dropWhile]
  · intro c hc
    exact List.mem_takeWhile_imp hc
  · intro c hc
    exact List.mem_takeWhile_imp (List.mem_reverse.mp hc)

theorem dropWhile_solid {word : List Char} (hne : word ≠ []) (hw : ∀ c ∈ word, isBlank c = false)
    (rest : List Char) : (word ++ rest).dropWhile isBlank = word ++ rest := by
  cases word with
  | nil => exact absurd rfl hne
  | cons c cs =>
    rw [List.forall_mem_cons] at hw
    apply List.dropWhile_cons_of_neg
    rw [hw.1]
    exact Bool.false_ne_true

theorem trim_padded {before word after : List Char} (hb : Blank before) (ha : Blank after)
    (hne : word ≠ []) (hw : ∀ c ∈ word, isBlank c = false) :
    trim (before ++ word ++ after) = word := by
  have hback : Blank after.reverse := by
    intro c hc
    exact ha c (List.mem_reverse.mp hc)
  have hsolid : ∀ c ∈ word.reverse, isBlank c = false := by
    intro c hc
    exact hw c (List.mem_reverse.mp hc)
  have hlast := dropWhile_solid (List.reverse_ne_nil_iff.mpr hne) hsolid []
  rw [List.append_nil] at hlast
  rw [trim, List.append_assoc, List.dropWhile_append_of_pos hb, dropWhile_solid hne hw,
    List.reverse_append, List.dropWhile_append_of_pos hback, hlast, List.reverse_reverse]

theorem trim_eq_nil_iff (cs : List Char) : trim cs = [] ↔ Blank cs := by
  constructor
  · intro hnone
    obtain ⟨before, after, hcut, hb, ha⟩ := trim_cut cs
    rw [hnone, List.append_nil] at hcut
    rw [hcut]
    intro c hc
    rcases List.mem_append.mp hc with hc | hc
    · exact hb c hc
    · exact ha c hc
  · intro hblank
    have hfront : cs.dropWhile isBlank = [] := List.dropWhile_eq_nil_iff.mpr hblank
    rw [trim, hfront]
    rfl

theorem inAnyCase_of_toLower (cs : List Char) : InAnyCase (cs.map Char.toLower) cs := by
  apply List.forall₂_map_left_iff.mpr
  apply List.forall₂_same.mpr
  intro c _
  by_cases hupper : c.isUpper
  · right
    rw [Char.toUpper_toLower_eq_toUpper,
      Char.toUpper_eq_of_not_isLower (Char.not_isLower_of_isUpper hupper)]
  · left
    exact (Char.toLower_eq_of_not_isUpper hupper).symm

theorem toLower_of_inAnyCase {letters cs : List Char} (h : InAnyCase letters cs)
    (hsmall : ∀ letter ∈ letters, letter.toLower = letter) : cs.map Char.toLower = letters := by
  induction h with
  | nil => rfl
  | cons hc _ ih =>
    rw [List.forall_mem_cons] at hsmall
    rw [List.map_cons, ih hsmall.2]
    rcases hc with rfl | rfl
    · rw [hsmall.1]
    · rw [Char.toLower_toUpper_eq_toLower, hsmall.1]

theorem InAnyCase.forall {P : Char → Prop} {letters cs : List Char} (h : InAnyCase letters cs)
    (hP : ∀ letter ∈ letters, P letter ∧ P letter.toUpper) : ∀ c ∈ cs, P c := by
  induction h with
  | nil => exact List.forall_mem_nil P
  | cons hc _ ih =>
    rw [List.forall_mem_cons] at hP ⊢
    refine ⟨?_, ih hP.2⟩
    rcases hc with rfl | rfl
    · exact hP.1.1
    · exact hP.1.2

end Text

namespace Tube

def Names (tube : Tube) (segment : List Char) : Prop :=
  ∃ name ∈ tube.spellings, ∃ before word after, segment = before ++ word ++ after ∧
    Text.Blank before ∧ Text.Blank after ∧ Text.InAnyCase name.toList word

/-- Segments that list tubes: a name of each in order, and blank ones anywhere. -/
inductive Listed : List (List Char) → List Tube → Prop where
  | nil : Listed [] []
  | blank {segment : List Char} {rest : List (List Char)} {tubes : List Tube} :
      Text.Blank segment → Listed rest tubes → Listed (segment :: rest) tubes
  | name {segment : List Char} {rest : List (List Char)} {tube : Tube} {tubes : List Tube} :
      tube.Names segment → Listed rest tubes → Listed (segment :: rest) (tube :: tubes)

structure NoName (segment : List Char) : Prop where
  whole : ',' ∉ segment
  solid : ¬Text.Blank segment
  nameless : ∀ tube : Tube, ¬tube.Names segment

def joined (segments : List (List Char)) : String := String.ofList ([','].intercalate segments)

structure Plain (letter : Char) : Prop where
  small : letter.toLower = letter
  solid : Text.isBlank letter = false ∧ Text.isBlank letter.toUpper = false
  ascii : letter.toNat < 0x80 ∧ letter.toUpper.toNat < 0x80
  distinct : letter ≠ 'k' ∧ letter ≠ 'i'

instance (letter : Char) : Decidable (Plain letter) :=
  decidable_of_iff
    (letter.toLower = letter ∧
      (Text.isBlank letter = false ∧ Text.isBlank letter.toUpper = false) ∧
      (letter.toNat < 0x80 ∧ letter.toUpper.toNat < 0x80) ∧ letter ≠ 'k' ∧ letter ≠ 'i')
    ⟨fun ⟨h, k, l, m⟩ => ⟨h, k, l, m⟩, fun ⟨h, k, l, m⟩ => ⟨h, k, l, m⟩⟩

theorem spellings_letters (tube : Tube) :
    ∀ name ∈ tube.spellings, ∀ letter ∈ name.toList, Plain letter := by
  have hall : ∀ name ∈ tube.spellings, (name.toList.all fun letter => decide (Plain letter)) := by
    cases tube <;> decide
  intro name hname letter hletter
  exact of_decide_eq_true (List.all_eq_true.mp (hall name hname) letter hletter)

theorem find_spelling (tube : Tube) : ∀ name ∈ tube.spellings,
    (all.find? fun other => other.spellings.contains name) = some tube := by
  cases tube <;> decide

theorem word_ne_nil {tube : Tube} {name : String} (hname : name ∈ tube.spellings)
    {word : List Char} (h : Text.InAnyCase name.toList word) : word ≠ [] := by
  rintro rfl
  exact (spellings_plain tube name hname).1 (List.forall₂_nil_right_iff.mp h)

theorem ofChars?_eq_some_iff {segment : List Char} {tube : Tube} :
    ofChars? segment = some tube ↔ tube.Names segment := by
  constructor
  · intro h
    obtain ⟨before, after, hcut, hb, ha⟩ := Text.trim_cut segment
    refine ⟨_, spelled h, before, Text.trim segment, after, hcut, hb, ha, ?_⟩
    rw [String.toList_ofList]
    exact Text.inAnyCase_of_toLower _
  · rintro ⟨name, hname, before, word, after, rfl, hb, ha, hword⟩
    have hsolid : ∀ c ∈ word, Text.isBlank c = false :=
      hword.forall (P := fun c => Text.isBlank c = false) fun letter hletter =>
        (spellings_letters tube name hname letter hletter).solid
    have htrim : Text.trim (before ++ word ++ after) = word :=
      Text.trim_padded hb ha (word_ne_nil hname hword) hsolid
    have hsmall : word.map Char.toLower = name.toList :=
      Text.toLower_of_inAnyCase hword fun letter hletter =>
        (spellings_letters tube name hname letter hletter).small
    rw [ofChars?, htrim, hsmall, String.ofList_toList]
    exact find_spelling tube name hname

section Segments

variable {segment : List Char}

theorem Names.solid {tube : Tube} (h : tube.Names segment) : ¬Text.Blank segment := by
  intro hblank
  have hfilled := not_blank_of_name (ofChars?_eq_some_iff.mpr h)
  rw [(Text.trim_eq_nil_iff segment).mpr hblank] at hfilled
  cases hfilled

end Segments

inductive Answer : String → Except Fault (List Tube) → Prop where
  | tubes {segments : List (List Char)} {tubes : List Tube} : tubes ≠ [] → Listed segments tubes →
      Answer (joined segments) (.ok tubes)
  | blank {segments : List (List Char)} : Listed segments [] →
      Answer (joined segments) (.error (.worklet ("no tube names in '" ++ joined segments ++ "'")))
  | noName {front rest : List (List Char)} {tubes : List Tube} {bad : List Char} :
      Listed front tubes → NoName bad →
      Answer (joined (front ++ bad :: rest)) (.error (.unknownTube (String.ofList bad)))

theorem Listed.letters {segments : List (List Char)} {tubes : List Tube}
    (h : Listed segments tubes) :
    ∀ segment ∈ segments, ∀ c ∈ segment, Text.isBlank c = true ∨ c.toNat < 0x80 := by
  induction h with
  | nil => exact List.forall_mem_nil _
  | blank hblank _ ih =>
    rw [List.forall_mem_cons]
    exact ⟨fun c hc => .inl (hblank c hc), ih⟩
  | @name segment rest tube tubes hname _ ih =>
    rw [List.forall_mem_cons]
    refine ⟨?_, ih⟩
    obtain ⟨name, hname, before, word, after, rfl, hb, ha, hword⟩ := hname
    have hascii : ∀ c ∈ word, c.toNat < 0x80 :=
      hword.forall (P := fun c => c.toNat < 0x80) fun letter hletter =>
        (spellings_letters tube name hname letter hletter).ascii
    intro c hc
    simp only [List.mem_append] at hc
    rcases hc with (hc | hc) | hc
    · exact .inl (hb c hc)
    · exact .inr (hascii c hc)
    · exact .inl (ha c hc)

end Tube

end TubePreamp
