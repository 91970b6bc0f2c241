import StyleExpansion.Proofs.Value.Written

/-! # Integers are read back

The text of a numeral without fraction and exponent is a sign, if one was written, and the digits of an
integer within the limit of its sign. Reading it gives the same integer and the same sign, so all such
texts are faithful, in percentages and with units too.
-/
namespace StyleExpansion
open Decimal

theorem Decimal.Numeral.percentText_of_isInteger {x : Numeral} (h : x.isInteger = true) :
    x.percentText = x.text := by
  rw [Numeral.percentText,Numeral.text,if_pos h,if_pos h]

namespace Token

theorem ne_of_isDigit {c d : Char} (h : c.isDigit = true) (hd : d.isDigit = false) : c ≠ d := by
  rintro rfl
  rw [h] at hd
  cases hd

theorem startsDigit_of_forall {s : List Char} (hs : ∀ c ∈ s, c.isDigit = true) (hne : s ≠ []) :
    startsDigit s = true := by
  obtain ⟨c,r,rfl⟩ := List.exists_cons_of_ne_nil hne
  exact hs c (by simp)

section Sign
variable {s : List Char} (hs : startsDigit s = true) (signed negative : Bool)
include hs

theorem ne_sign_of_startsDigit : dropSign s = s ∧ startsPlus s = false ∧ startsMinus s = false := by
  cases s with
  | nil => cases hs
  | cons c r =>
    have hplus : c ≠ '+' := ne_of_isDigit hs (by decide)
    have hminus : c ≠ '-' := ne_of_isDigit hs (by decide)
    simp [dropSign,startsPlus,startsMinus,hplus,hminus]

theorem dropSign_signText : dropSign (Numeral.signText signed negative ++ s) = s := by
  cases negative <;> cases signed <;> first | rfl | exact (ne_sign_of_startsDigit hs).1

theorem startsPlus_signText :
    startsPlus (Numeral.signText signed negative ++ s) = (signed && !negative) := by
  cases negative <;> cases signed <;> first | rfl | exact (ne_sign_of_startsDigit hs).2.1

theorem startsMinus_signText : startsMinus (Numeral.signText signed negative ++ s) = negative := by
  cases negative <;> cases signed <;> first | rfl | exact (ne_sign_of_startsDigit hs).2.2

theorem startsNumber_signText : startsNumber (Numeral.signText signed negative ++ s) = true := by
  rw [startsNumber,dropSign_signText hs,hs,Bool.true_or]

theorem readNumeral_signText : readNumeral (Numeral.signText signed negative ++ s) =
    (⟨signed || negative,negative,digitsOf s,(readFraction (s.dropWhile Char.isDigit)).1,
      (readExponent (readFraction (s.dropWhile Char.isDigit)).2).1⟩,
      (readExponent (readFraction (s.dropWhile Char.isDigit)).2).2) := by
  simp only [readNumeral,dropSign_signText hs,startsPlus_signText hs,startsMinus_signText hs]
  cases negative <;> cases signed <;> rfl

end Sign

section Digits
variable {s : List Char} (hs : ∀ c ∈ s, c.isDigit = true) (hne : s ≠ []) (signed negative : Bool)
include hs hne

/-- Digits after a sign are an integer of that sign, to their end. -/
theorem readNumeral_digits : readNumeral (Numeral.signText signed negative ++ s) =
    (⟨signed || negative,negative,s.map digitValue,[],none⟩,[]) := by
  have htake : s.takeWhile Char.isDigit = s := List.takeWhile_eq_self_iff.2 hs
  have hrest : s.dropWhile Char.isDigit = [] := List.dropWhile_eq_nil_iff.2 hs
  rw [readNumeral_signText (startsDigit_of_forall hs hne),digitsOf,htake,hrest]
  rfl

theorem isNumeral_digits : IsNumeral (Numeral.signText signed negative ++ s) :=
  ⟨startsNumber_signText (startsDigit_of_forall hs hne) signed negative,
    by rw [readNumeral_digits hs hne]⟩

end Digits

theorem isDigit_of_mem_toDigits {n : Nat} : ∀ c ∈ Nat.toDigits 10 n, c.isDigit = true :=
  fun _ hc => Nat.isDigit_of_mem_toDigits (by decide) (by decide) hc

theorem ofDigits_toDigits (n : Nat) : Numeral.ofDigits ((Nat.toDigits 10 n).map digitValue) = n := by
  rw [Numeral.ofDigits,List.foldl_map]
  exact Nat.ofDigitChars_toDigits (by decide) (by decide)

end Token

namespace Value
open Token

/-- The digits of a number within the limit of its sign, after the sign, are read back. -/
theorem isNumberText_digits {n : Nat} {signed negative : Bool} {text : String}
    (htext : text.toList = Numeral.signText signed negative ++ Nat.toDigits 10 n)
    (hn : n ≤ Numeral.integerLimit negative) (hzero : negative = true → n ≠ 0) :
    IsNumberText text ∧ IsPercentText text := by
  have hsign : (negative && n != 0) = negative := by
    cases negative with
    | false => rfl
    | true => simpa using hzero rfl
  have hread : (readNumeral text.toList).1.integerText = text.toList := by
    rw [htext,readNumeral_digits isDigit_of_mem_toDigits Nat.toDigits_ne_nil,Numeral.integerText]
    simp only [ofDigits_toDigits,Nat.min_eq_left hn,hsign]
    cases negative <;> cases signed <;> rfl
  have hinteger : (readNumeral text.toList).1.isInteger = true := by
    rw [htext,readNumeral_digits isDigit_of_mem_toDigits Nat.toDigits_ne_nil]
    rfl
  have hnumeral : IsNumeral text.toList := by
    rw [htext]
    exact isNumeral_digits isDigit_of_mem_toDigits Nat.toDigits_ne_nil signed negative
  have hkept : (readNumeral text.toList).1.text = text := by
    rw [Numeral.text,if_pos hinteger,hread,String.ofList_toList]
  exact ⟨⟨hnumeral,hkept⟩,⟨hnumeral,(Numeral.percentText_of_isInteger hinteger).trans hkept⟩⟩

/-- The text of every integer is read back, also as a percentage. -/
theorem isNumberText_of_isInteger {x : Numeral} (h : x.isInteger = true) :
    IsNumberText x.text ∧ IsPercentText x.text := by
  let n := min (Numeral.ofDigits x.whole) (Numeral.integerLimit x.negative)
  have htext : x.text.toList =
      Numeral.signText x.signed (x.negative && n != 0) ++ Nat.toDigits 10 n := by
    rw [Numeral.text,if_pos h]
    exact String.toList_ofList
  have hmin : n ≤ Numeral.integerLimit x.negative := Nat.min_le_right _ _
  apply isNumberText_digits htext
  · by_cases hzero : n = 0
    · rw [hzero]
      exact Nat.zero_le _
    · have hsign : (x.negative && n != 0) = x.negative := by
        rw [bne_iff_ne.2 hzero,Bool.and_true]
      rwa [hsign]
  · intro hneg
    exact bne_iff_ne.1 ((Bool.and_eq_true _ _).mp hneg).2

end Value

end StyleExpansion
