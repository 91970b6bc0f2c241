import StyleExpansion.Decimal.Numeral

/-! # Reading numerals

A numeral is an optional sign, digits with an optional fraction, and an optional exponent. A point
belongs to it only before a digit, an exponent mark only before digits.
-/
namespace StyleExpansion.Token
open Decimal

def digitValue (c : Char) : Nat := c.toNat - 48

def digitsOf (s : List Char) : List Nat := (s.takeWhile Char.isDigit).map digitValue

def startsDigit : List Char → Bool
  | [] => false
  | c :: _ => c.isDigit

def dropSign : List Char → List Char
  | c :: r => if c = '+' || c = '-' then r else c :: r
  | [] => []

def startsFraction : List Char → Bool
  | c :: r => c = '.' && startsDigit r
  | [] => false

def startsNumber (s : List Char) : Bool := startsDigit (dropSign s) || startsFraction (dropSign s)

def startsExponent : List Char → Bool
  | c :: r => (c = 'e' || c = 'E') && startsDigit (dropSign r)
  | [] => false

def startsMinus : List Char → Bool
  | c :: _ => c = '-'
  | [] => false

def startsPlus : List Char → Bool
  | c :: _ => c = '+'
  | [] => false

def readFraction (s : List Char) : List Nat × List Char :=
  if startsFraction s then (digitsOf (s.drop 1),(s.drop 1).dropWhile Char.isDigit) else ([],s)

def readExponent (s : List Char) : Option Int × List Char :=
  if startsExponent s then
    let r := s.drop 1
    let n := Numeral.ofDigits (digitsOf (dropSign r))
    (some (if startsMinus r then -(n : Int) else n),(dropSign r).dropWhile Char.isDigit)
  else (none,s)

def readNumeral (s : List Char) : Numeral × List Char :=
  let t := dropSign s
  let fraction := readFraction (t.dropWhile Char.isDigit)
  let exponent := readExponent fraction.2
  (⟨startsPlus s || startsMinus s,startsMinus s,digitsOf t,fraction.1,exponent.1⟩,exponent.2)

theorem dropSign_suffix (s : List Char) : dropSign s <:+ s := by
  unfold dropSign
  split
  · split
    · exact List.suffix_cons _ _
    · exact List.suffix_refl _
  · exact List.suffix_refl _

theorem readFraction_suffix (s : List Char) : (readFraction s).2 <:+ s := by
  unfold readFraction
  split
  · exact (List.dropWhile_suffix _).trans (List.drop_suffix _ _)
  · exact List.suffix_refl _

theorem readExponent_suffix (s : List Char) : (readExponent s).2 <:+ s := by
  unfold readExponent
  split
  · exact ((List.dropWhile_suffix _).trans (dropSign_suffix _)).trans (List.drop_suffix _ _)
  · exact List.suffix_refl _

theorem readNumeral_suffix (s : List Char) : (readNumeral s).2 <:+ s :=
  (readExponent_suffix _).trans ((readFraction_suffix _).trans
    ((List.dropWhile_suffix _).trans (dropSign_suffix s)))

/-- Reading a numeral takes at least one character from a text that begins with one. -/
theorem readNumeral_shorter {c : Char} {r : List Char} (h : startsNumber (c :: r) = true) :
    (readNumeral (c :: r)).2 <:+ r := by
  have tail : ∀ {s : List Char} {d : Char} {t : List Char},
      s <:+ d :: t → s.length ≤ t.length → s <:+ t := by
    intro s d t hs hl
    exact List.suffix_of_suffix_length_le hs (List.suffix_cons _ _) hl
  refine tail (readNumeral_suffix _) ?_
  have hexp := (readExponent_suffix (readFraction ((dropSign (c :: r)).dropWhile Char.isDigit)).2).length_le
  have hfrac := (readFraction_suffix ((dropSign (c :: r)).dropWhile Char.isDigit)).length_le
  have hdrop := (List.dropWhile_suffix Char.isDigit (l := dropSign (c :: r))).length_le
  change (readExponent (readFraction ((dropSign (c :: r)).dropWhile Char.isDigit)).2).2.length ≤ _
  by_cases hs : c = '+' ∨ c = '-'
  · have : dropSign (c :: r) = r := by simp [dropSign,hs]
    rw [this] at hexp hfrac hdrop ⊢
    omega
  · have hd : dropSign (c :: r) = c :: r := by simp [dropSign,hs]
    rw [startsNumber,hd,Bool.or_eq_true] at h
    rw [hd] at hexp hfrac hdrop ⊢
    rcases h with hdig | hpoint
    · have hc : c.isDigit = true := by simpa [startsDigit] using hdig
      have hr := (List.dropWhile_suffix Char.isDigit (l := r)).length_le
      have : (c :: r).dropWhile Char.isDigit = r.dropWhile Char.isDigit := by
        simp [List.dropWhile,hc]
      rw [this] at hexp hfrac ⊢
      omega
    · have hc : c = '.' := by
        simp [startsFraction] at hpoint
        exact hpoint.1
      have hnd : (c :: r).dropWhile Char.isDigit = c :: r := by
        subst hc
        rfl
      rw [hnd] at hexp hfrac ⊢
      have : (readFraction (c :: r)).2.length ≤ r.length := by
        simp only [readFraction,hpoint,if_true,List.drop_one,List.tail_cons]
        exact (List.dropWhile_suffix _).length_le
      omega

end StyleExpansion.Token
