import StyleExpansion.Proofs.Expansion.Names
import StyleExpansion.PropertyName

/-! # Names in camel case

A name in lower case whose words are joined by hyphens can be read back from its camel case, where every
hyphen has become a capital letter. So longhands keep different names.
-/
namespace StyleExpansion.PropertyName

def isSmall (c : Char) : Bool := Nat.ble 97 c.toNat && Nat.ble c.toNat 122

def Hyphened : Bool → List Char → Prop
  | follows,[] => follows = false
  | follows,c :: r =>
    if c = '-' then follows = false ∧ Hyphened true r else isSmall c = true ∧ Hyphened false r

theorem small_facts {c : Char} (h : isSmall c = true) :
    c.isUpper = false ∧ c.toUpper.isUpper = true ∧ c.toUpper.toLower = c ∧ c.toLower = c ∧
      Text.isBlank c = false := by
  have hall : ∀ n < 123, 97 ≤ n → (Char.ofNat n).isUpper = false ∧
      (Char.ofNat n).toUpper.isUpper = true ∧ (Char.ofNat n).toUpper.toLower = Char.ofNat n ∧
      (Char.ofNat n).toLower = Char.ofNat n ∧ Text.isBlank (Char.ofNat n) = false := by
    decide
  rw [isSmall,Bool.and_eq_true,Nat.ble_eq,Nat.ble_eq] at h
  have hc := hall c.toNat (by omega) h.1
  rwa [Char.ofNat_toNat] at hc

/-- Words with single hyphens between them, each a small letter and then small letters and digits;
`begins` tells that a word begins. -/
def Worded : Bool → List Char → Prop
  | begins,[] => begins = false
  | begins,c :: r =>
    if c = '-' then begins = false ∧ Worded true r
    else (isSmall c = true ∨ begins = false ∧ c.isDigit = true) ∧ Worded false r

theorem Hyphened.worded {follows : Bool} {n : List Char} (h : Hyphened follows n) :
    Worded follows n := by
  induction n generalizing follows with
  | nil => exact h
  | cons c r ih =>
    rw [Hyphened] at h
    rw [Worded]
    split at h
    · next hc =>
      rw [if_pos hc]
      exact ⟨h.1,ih h.2⟩
    · next hc =>
      rw [if_neg hc]
      exact ⟨Or.inl h.1,ih h.2⟩

theorem digit_facts {c : Char} (h : c.isDigit = true) :
    c.isUpper = false ∧ c.toLower = c ∧ Text.isBlank c = false := by
  have hall : ∀ n < 58, 48 ≤ n → (Char.ofNat n).isUpper = false ∧
      (Char.ofNat n).toLower = Char.ofNat n ∧ Text.isBlank (Char.ofNat n) = false := by
    decide
  have hlow : '0'.val.toNat = 48 ∧ '9'.val.toNat = 57 := ⟨rfl,rfl⟩
  have hnat : c.toNat = c.val.toNat := rfl
  simp only [Char.isDigit,Bool.and_eq_true,decide_eq_true_eq,ge_iff_le,UInt32.le_iff_toNat_le] at h
  have hc := hall c.toNat (by omega) (by omega)
  rwa [Char.ofNat_toNat] at hc

namespace Worded

theorem weaken {n : List Char} (h : Worded true n) : Worded false n := by
  cases n with
  | nil => rfl
  | cons c r =>
    rw [Worded] at h ⊢
    split at h
    · cases h.1
    · next hc =>
      rw [if_neg hc]
      exact ⟨h.1.imp id fun hd => ⟨rfl,hd.2⟩,h.2⟩

theorem chars {begins : Bool} {n : List Char} (h : Worded begins n) :
    ∀ c ∈ n, Text.isBlank c = false ∧ c.toLower = c := by
  induction n generalizing begins with
  | nil => simp
  | cons c r ih =>
    rw [Worded] at h
    split at h
    · next hc =>
      refine List.forall_mem_cons.2 ⟨?_,ih h.2⟩
      rw [hc]
      decide
    · refine List.forall_mem_cons.2 ⟨?_,ih h.2⟩
      rcases h.1 with hs | ⟨-,hd⟩
      · exact ⟨(small_facts hs).2.2.2.2,(small_facts hs).2.2.2.1⟩
      · exact ⟨(digit_facts hd).2.2,(digit_facts hd).2.1⟩

theorem plain {begins : Bool} {n : List Char} (h : Worded begins n) : plain n = n := by
  rw [PropertyName.plain,Text.trim_of_not_blank fun c hc => (h.chars c hc).1,
    List.map_congr_left fun c hc => (h.chars c hc).2,List.map_id']

theorem isPrefixOf_hyphen {n : List Char} (h : Worded true n) (m : List Char) :
    ('-' :: m).isPrefixOf n = false := by
  cases n with
  | nil => rfl
  | cons c r =>
    have hc : '-' ≠ c := by
      rintro rfl
      simp [Worded] at h
    simp [List.isPrefixOf,hc]

end Worded

/-! ## Reading camel case back -/

def separated (c : Char) : List Char := if c.isUpper then ['-',c.toLower] else [c]

theorem flatMap_joinWords {begins : Bool} {n : List Char} (h : Worded begins n) :
    (joinWords begins n).flatMap separated = if begins then '-' :: n else n := by
  induction n generalizing begins with
  | nil =>
    cases h
    rfl
  | cons c r ih =>
    rw [Worded] at h
    rw [joinWords]
    split at h
    · next hc =>
      obtain ⟨rfl,hr⟩ := h
      rw [if_pos hc,ih hr,hc]
      rfl
    · next hc =>
      obtain ⟨hc',hr⟩ := h
      rw [if_neg hc,List.flatMap_cons,ih hr]
      rcases hc' with hs | ⟨rfl,hd⟩
      · obtain ⟨hcapital,hupper,hlower,_⟩ := small_facts hs
        cases begins
        · simp [separated,hcapital]
        · simp [separated,hupper,hlower]
      · simp [separated,(digit_facts hd).1]

theorem resolve_of_own {n : List Char} (h : ∀ a ∈ aliases, a.1.toList ≠ n) : resolve n = n := by
  have hnone : (aliases.find? fun a => a.1.toList == n) = none :=
    List.find?_eq_none.2 fun a ha => by simpa using h a ha
  rw [resolve,hnone]

theorem camelCaseChars_of_words {n : List Char} (h : Worded true n)
    (own : ∀ a ∈ aliases, a.1.toList ≠ n) : camelCaseChars n = joinWords false n := by
  have hcustom : isCustom n = false := h.isPrefixOf_hyphen ['-']
  have hms : "-ms-".toList.isPrefixOf n = false := h.isPrefixOf_hyphen ['m','s','-']
  rw [camelCaseChars,hcustom,h.plain,resolve_of_own own,joined,hms]
  rfl

structure IsPlain (n : List Char) : Prop where
  hyphened : Hyphened true n
  own : ∀ a ∈ aliases, a.1.toList ≠ n

namespace IsPlain
variable {n : List Char} (h : IsPlain n)
include h

theorem unprefixedChars : unprefixedChars n = n := by
  have hworded := h.hyphened.worded
  have hcustom : isCustom n = false := hworded.isPrefixOf_hyphen ['-']
  have hmark : (vendorMarks.find? fun m => m.toList.isPrefixOf n) = none := by
    rw [List.find?_eq_none]
    intro m hm
    simp only [vendorMarks,List.mem_cons,List.not_mem_nil,or_false] at hm
    rw [Bool.not_eq_true]
    rcases hm with rfl | rfl | rfl | rfl <;> exact hworded.isPrefixOf_hyphen _
  have hdrop : dropMark n = n := by rw [dropMark,hmark]
  simp [PropertyName.unprefixedChars,hcustom,hworded.plain,resolve_of_own h.own,hdrop]

end IsPlain

theorem camelCase_inj {a b : String} (ha : IsPlain a.toList) (hb : IsPlain b.toList)
    (h : camelCase a = camelCase b) : a = b := by
  have hwa := ha.hyphened.worded
  have hwb := hb.hyphened.worded
  rw [camelCase,camelCase,String.ofList_inj,camelCaseChars_of_words hwa ha.own,
    camelCaseChars_of_words hwb hb.own] at h
  have hread := congrArg (List.flatMap separated) h
  rw [flatMap_joinWords hwa.weaken,flatMap_joinWords hwb.weaken] at hread
  exact String.toList_inj.1 hread

/-! ## Names of the table -/

def passes (b : UInt8) (rest : Bool → Bool) (follows : Bool) : Bool :=
  if Nat.beq b.toNat 45 then !follows && rest true
  else Nat.ble 97 b.toNat && Nat.ble b.toNat 122 && rest false

def isHyphened (s : String) : Bool := s.toByteArray.data.toList.foldr passes Bool.not true

theorem utf8EncodeChar_of_ascii {c : Char} (h : c.toNat ≤ 127) :
    String.utf8EncodeChar c = [UInt8.ofNat c.toNat] := by
  have hnat : c.toNat = c.val.toNat := rfl
  rw [String.utf8EncodeChar]
  simp only [← hnat,h,if_true]

theorem utf8EncodeChar_of_not_ascii {c : Char} (h : ¬c.toNat ≤ 127) :
    ∃ b bs, String.utf8EncodeChar c = b :: bs ∧ 128 ≤ b.toNat := by
  have hnat : c.toNat = c.val.toNat := rfl
  rw [String.utf8EncodeChar]
  simp only [← hnat,h,if_false]
  split
  · exact ⟨_,_,rfl,by rw [UInt8.toNat_ofNat']; omega⟩
  · split
    · exact ⟨_,_,rfl,by rw [UInt8.toNat_ofNat']; omega⟩
    · exact ⟨_,_,rfl,by rw [UInt8.toNat_ofNat']; omega⟩

theorem not_passes_of_high {b : UInt8} (h : 128 ≤ b.toNat) (rest : Bool → Bool) (follows : Bool) :
    passes b rest follows = false := by
  have hhigh : Nat.ble b.toNat 122 = false := by
    rw [Bool.eq_false_iff,ne_eq,Nat.ble_eq]
    omega
  rw [passes,if_neg (by simp; omega),hhigh,Bool.and_false,Bool.false_and]

theorem hyphened_of_passes {cs : List Char} {follows : Bool}
    (h : (cs.flatMap String.utf8EncodeChar).foldr passes Bool.not follows = true) :
    Hyphened follows cs := by
  induction cs generalizing follows with
  | nil => simpa [Hyphened] using h
  | cons c r ih =>
    rw [List.flatMap_cons,List.foldr_append] at h
    by_cases hc : c.toNat ≤ 127
    · have hbyte : (UInt8.ofNat c.toNat).toNat = c.toNat := by
        rw [UInt8.toNat_ofNat']
        omega
      rw [utf8EncodeChar_of_ascii hc,List.foldr_cons,List.foldr_nil,passes,hbyte] at h
      rw [Hyphened]
      by_cases hh : c = '-'
      · subst hh
        rw [if_pos rfl]
        have h : (!follows && (r.flatMap String.utf8EncodeChar).foldr passes Bool.not true) = true := h
        rw [Bool.and_eq_true,Bool.not_eq_true'] at h
        exact ⟨h.1,ih h.2⟩
      · have hne : Nat.beq c.toNat 45 = false := by
          rw [Bool.eq_false_iff]
          intro hb
          have h45 := Nat.eq_of_beq_eq_true hb
          exact hh (by rw [← Char.ofNat_toNat c,h45])
        rw [if_neg hh]
        rw [hne,if_neg Bool.false_ne_true,Bool.and_eq_true] at h
        exact ⟨h.1,ih h.2⟩
    · obtain ⟨b,bs,hcode,hb⟩ := utf8EncodeChar_of_not_ascii hc
      rw [hcode,List.foldr_cons,not_passes_of_high hb] at h
      cases h

theorem hyphened_of_isHyphened {s : String} (h : isHyphened s = true) : Hyphened true s.toList := by
  rw [isHyphened,Text.bytes_eq_flatMap] at h
  exact hyphened_of_passes h

def aliasCodes : List Nat := aliases.map fun a => Text.code a.1

def isPlainName (s : String) : Bool := isHyphened s && !aliasCodes.any (Nat.beq (Text.code s))

theorem isPlain_of_isPlainName {s : String} (h : isPlainName s = true) : IsPlain s.toList := by
  rw [isPlainName,Bool.and_eq_true,Bool.not_eq_true',List.any_eq_false] at h
  refine ⟨hyphened_of_isHyphened h.1,?_⟩
  intro a ha he
  have hs : a.1 = s := String.toList_inj.1 he
  refine h.2 (Text.code a.1) (List.mem_map_of_mem ha) ?_
  rw [hs]
  exact Nat.beq_refl _

theorem longhands_checked : (shorthands.all fun s => s.longhands.all isPlainName) = true := by
  decide +kernel

theorem isPlain_of_mem_longhands {property l : String} {s : Shorthand}
    (hs : Shorthand.named? property = some s) (hl : l ∈ s.longhands) : IsPlain l.toList := by
  have hlisted := List.all_eq_true.1 longhands_checked s (List.mem_of_find?_eq_some hs)
  exact isPlain_of_isPlainName (List.all_eq_true.1 hlisted l hl)

theorem isPlain_of_mem_longhandsWithin {n : Nat} {property l : String}
    (h : IsPlain property.toList) (hl : l ∈ Shorthand.longhandsWithin n property) :
    IsPlain l.toList := by
  induction n generalizing property with
  | zero => rwa [List.mem_singleton.1 hl]
  | succ n ih =>
    rw [Shorthand.longhandsWithin] at hl
    cases hs : Shorthand.named? property with
    | none =>
      rw [hs] at hl
      rwa [List.mem_singleton.1 hl]
    | some s =>
      rw [hs] at hl
      obtain ⟨k,hk,hl⟩ := List.mem_flatMap.1 hl
      exact ih (isPlain_of_mem_longhands hs hk) hl

theorem isPlain_of_mem_longhandsOf {property l : String} {names : List String}
    (h : longhandsOf property = some names) (hl : l ∈ names) : IsPlain l.toList := by
  rw [longhandsOf] at h
  split at h
  · next hs =>
    cases h
    obtain ⟨s,hs⟩ := Option.isSome_iff_exists.1 hs
    rw [Shorthand.depth,Shorthand.longhandsWithin,hs] at hl
    obtain ⟨k,hk,hl⟩ := List.mem_flatMap.1 hl
    exact isPlain_of_mem_longhandsWithin (isPlain_of_mem_longhands hs hk) hl
  · cases h

end StyleExpansion.PropertyName
