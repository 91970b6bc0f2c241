import StyleExpansion.Proofs.Decimal.Percent
import StyleExpansion.Proofs.Value.Integers

/-! # Fractions are read back

The text of a numeral with a fraction or an exponent is a decimal of six places, or an integer. Reading the
decimal gives a double that is near enough to it for the same six places, so the text is faithful as long
as its size is that of an integer. The text of a percentage is faithful as well in the ranges where the
hundredth of it does no harm.
-/
namespace StyleExpansion
open Decimal

/-! ## Positional decimals -/

theorem Decimal.toDigits_mul_tenPow {n : Nat} (hn : 0 < n) (k : Nat) :
    Nat.toDigits 10 n ++ List.replicate k '0' = Nat.toDigits 10 (n * 10 ^ k) := by
  induction k with
  | zero => simp
  | succ k ih =>
    have hzero : Nat.toDigits 10 0 = ['0'] := rfl
    rw [List.replicate_succ',← List.append_assoc,ih,← hzero,
      Nat.toDigits_append_toDigits (by decide) (by positivity) (by decide)]
    congr 1
    ring

namespace Token

structure IsDecimal (whole fraction : List Char) : Prop where
  before : ∀ c ∈ whole, c.isDigit = true
  before_ne_nil : whole ≠ []
  after : ∀ c ∈ fraction, c.isDigit = true
  after_ne_nil : fraction ≠ []

def numeralOf (signed negative : Bool) (whole fraction : List Char) : Numeral :=
  ⟨signed || negative,negative,whole.map digitValue,fraction.map digitValue,none⟩

theorem size_numeralOf (signed negative : Bool) (whole fraction : List Char) :
    (numeralOf signed negative whole fraction).size =
      Numeral.ofDigits ((whole ++ fraction).map digitValue) / 10 ^ fraction.length := by
  rw [List.map_append,Numeral.ofDigits_append,Numeral.size]
  simp only [numeralOf,List.length_map]
  push_cast
  field_simp

section Decimal
variable {whole fraction : List Char} (h : IsDecimal whole fraction) (signed negative : Bool)
include h

theorem readNumeral_decimal :
    readNumeral (Numeral.signText signed negative ++ (whole ++ '.' :: fraction)) =
      (numeralOf signed negative whole fraction,[]) := by
  have hstart := startsDigit_mono (startsDigit_of_forall h.before h.before_ne_nil) ('.' :: fraction)
  have hpoint : startsFraction ('.' :: fraction) = true :=
    startsDigit_of_forall h.after h.after_ne_nil
  have hwhole : (whole ++ '.' :: fraction).takeWhile Char.isDigit = whole := by
    rw [List.takeWhile_append_of_pos h.before]
    simp
  have hrest : (whole ++ '.' :: fraction).dropWhile Char.isDigit = '.' :: fraction := by
    rw [List.dropWhile_append_of_pos h.before]
    rfl
  have hdigits : digitsOf fraction = fraction.map digitValue := by
    rw [digitsOf,List.takeWhile_eq_self_iff.2 h.after]
  have hend : fraction.dropWhile Char.isDigit = [] := List.dropWhile_eq_nil_iff.2 h.after
  rw [readNumeral_signText hstart,digitsOf,hwhole,hrest,readFraction,if_pos hpoint]
  simp only [List.drop_one,List.tail_cons,hdigits,hend]
  rfl

theorem isNumeral_decimal :
    IsNumeral (Numeral.signText signed negative ++ (whole ++ '.' :: fraction)) := by
  have hstart := startsDigit_mono (startsDigit_of_forall h.before h.before_ne_nil) ('.' :: fraction)
  exact ⟨startsNumber_signText hstart signed negative,by rw [readNumeral_decimal h]⟩

end Decimal

theorem digitValue_le {c : Char} (h : c.isDigit = true) : digitValue c ≤ 9 := by
  simp only [Char.isDigit,Bool.and_eq_true,decide_eq_true_eq] at h
  have hc := UInt32.le_iff_toNat_le.1 h.2
  change c.toNat ≤ 57 at hc
  rw [digitValue]
  omega

end Token

namespace Decimal.Scaled
open Token
variable {d : Scaled}

theorem positional_integer (hd : 0 < d.digits) (he : 0 ≤ d.exponent) {n : Nat}
    (hn : d.ratio.value = n) : d.positional = Nat.toDigits 10 n := by
  obtain ⟨k,hk⟩ := Int.eq_ofNat_of_zero_le he
  rw [value_ratio,hk,zpow_natCast] at hn
  have hvalue : d.digits * 10 ^ k = n := by exact_mod_cast hn
  rw [positional,hk,← hvalue]
  exact toDigits_mul_tenPow hd k

/-- The digits of a decimal with places on both sides of the point, with zeros in front if there are too
few of them. -/
theorem positional_parts {k : Nat} (he : d.exponent = .negSucc k) :
    ∃ whole fraction zeros, d.positional = whole ++ '.' :: fraction ∧
      whole ++ fraction = List.replicate zeros '0' ++ Nat.toDigits 10 d.digits ∧ whole ≠ [] ∧
      fraction.length = k + 1 := by
  simp only [positional,he]
  split
  · next hlt =>
    refine ⟨_,_,0,rfl,List.take_append_drop _ _,?_,?_⟩
    · intro hnil
      have := congrArg List.length hnil
      rw [List.length_take,List.length_nil] at this
      omega
    · rw [List.length_drop]
      omega
  · next hle =>
    let padded := List.replicate (k + 1 - (Nat.toDigits 10 d.digits).length) '0' ++
      Nat.toDigits 10 d.digits
    have hlength : padded.length = k + 1 := by
      rw [List.length_append,List.length_replicate]
      omega
    exact ⟨['0'],padded,_ + 1,rfl,rfl,List.cons_ne_nil _ _,hlength⟩

/-- A decimal with places has as many digits after the point. -/
theorem positional_fraction {p : Nat} (he : d.exponent = -(p : Int)) (hp : 0 < p) :
    ∃ whole fraction, d.positional = whole ++ '.' :: fraction ∧ IsDecimal whole fraction ∧
      fraction.length = p ∧ ∀ signed negative,
        (numeralOf signed negative whole fraction).size = d.ratio.value := by
  obtain ⟨k,rfl⟩ := Nat.exists_eq_add_one.2 hp
  obtain ⟨whole,fraction,zeros,htext,hparts,hwhole,hlength⟩ := positional_parts (k := k) he
  have hall : ∀ c ∈ whole ++ fraction, c.isDigit = true := by
    intro c hc
    rw [hparts] at hc
    rcases List.mem_append.1 hc with hc | hc
    · rw [List.eq_of_mem_replicate hc]
      rfl
    · exact isDigit_of_mem_toDigits c hc
  refine ⟨whole,fraction,htext,⟨?_,hwhole,?_,?_⟩,hlength,?_⟩
  · exact fun c hc => hall c (List.mem_append_left _ hc)
  · exact fun c hc => hall c (List.mem_append_right _ hc)
  · rintro rfl
    cases hlength
  · intro signed negative
    have hdigits : (whole ++ fraction).map digitValue =
        List.replicate zeros 0 ++ (Nat.toDigits 10 d.digits).map digitValue := by
      rw [hparts,List.map_append,List.map_replicate]
      rfl
    have hvalue : d.ratio.value = d.digits / 10 ^ (k + 1) := by
      rw [value_ratio,he,zpow_neg,div_eq_mul_inv]
      norm_cast
    rw [size_numeralOf,hlength,hdigits,Numeral.ofDigits_replicate_zero_append,ofDigits_toDigits,hvalue]

/-- A decimal of six places without zeros at its end is an integer, or has at most six places. -/
theorem exponent_cases {n : Nat} (hd : d.digits % 10 ≠ 0) (hn : d.ratio.value = n / 1000000) :
    (0 ≤ d.exponent ∧ ∃ m, n = m * 1000000 ∧ d.ratio.value = m) ∨
      ∃ p : Nat, d.exponent = -(p : Int) ∧ 0 < p ∧ p ≤ 6 ∧ ¬ 1000000 ∣ n := by
  cases he : d.exponent with
  | ofNat k =>
    rw [value_ratio,he,Int.ofNat_eq_natCast,zpow_natCast] at hn
    refine Or.inl ⟨Int.natCast_nonneg k,d.digits * 10 ^ k,?_,?_⟩
    · have hvalue : (n : Rat) = (d.digits * 10 ^ k) * 1000000 := by
        rw [hn]
        ring
      exact_mod_cast hvalue
    · rw [value_ratio,he,Int.ofNat_eq_natCast,zpow_natCast]
      push_cast
      rfl
  | negSucc k =>
    rw [value_ratio,he,zpow_negSucc] at hn
    have hvalue : d.digits * 1000000 = n * 10 ^ (k + 1) := by
      have hrat : (d.digits : Rat) * 1000000 = n * 10 ^ (k + 1) := by
        field_simp at hn
        linarith
      exact_mod_cast hrat
    refine Or.inr ⟨k + 1,rfl,Nat.succ_pos k,?_,?_⟩
    · by_contra hlt
      obtain ⟨j,rfl⟩ : ∃ j, k = 6 + j := ⟨k - 6,by omega⟩
      have hten : 10 ^ (6 + j + 1) = 1000000 * (10 * 10 ^ j) := by ring
      rw [hten] at hvalue
      have hdigits : d.digits = 10 * (n * 10 ^ j) := by
        apply Nat.eq_of_mul_eq_mul_right (by decide : 0 < 1000000)
        rw [hvalue]
        ring
      omega
    · rintro ⟨q,rfl⟩
      have hdigits : d.digits = 10 * (q * 10 ^ k) := by
        apply Nat.eq_of_mul_eq_mul_right (by decide : 0 < 1000000)
        rw [hvalue]
        ring
      omega

end Decimal.Scaled

namespace Value
open Token Numeral

structure IsMillionths (n : Nat) (whole fraction : List Char) : Prop where
  decimal : IsDecimal whole fraction
  few : fraction.length ≤ 6
  size : ∀ signed negative, (numeralOf signed negative whole fraction).size = n / 1000000
  shortest : ∃ r, IsPlaces n r ∧ (Scaled.shortest .double r).positional = whole ++ '.' :: fraction

namespace IsMillionths
variable {n : Nat} {whole fraction : List Char} (h : IsMillionths n whole fraction)
include h

theorem magnitude (hn : n < 2 ^ 23 * 1000000) (signed negative : Bool) :
    ∃ m, (numeralOf signed negative whole fraction).magnitude = .finite m ∧ 0 < m.den ∧
      |m.value - n / 1000000| ≤ 1 / 2 ^ 29 := by
  have hsize := h.size signed negative
  have hwhole : ofDigits (whole.map digitValue) < 2 ^ 23 := by
    have hle : (ofDigits (whole.map digitValue) : Rat) ≤ n / 1000000 := by
      rw [← hsize,Numeral.size]
      exact le_add_of_nonneg_right (by positivity)
    have hn' : (n : Rat) < 2 ^ 23 * 1000000 := by exact_mod_cast hn
    have hlt : (ofDigits (whole.map digitValue) : Rat) < 2 ^ 23 := by linarith
    exact_mod_cast hlt
  rw [← hsize]
  refine magnitude_near rfl hwhole ?_ ?_
  · intro d hd
    obtain ⟨c,hc,rfl⟩ := List.mem_map.1 hd
    exact digitValue_le (h.decimal.after c hc)
  · exact (List.length_map digitValue).trans_le h.few

theorem fractionalText {a : Ratio} (ha : 0 < a.den) (hs : IsSingle a) (hle : a.value ≤ 2147483648)
    (hn : IsNearest n a) (signed negative : Bool) :
    Numeral.fractionalText signed negative (.finite a) =
      signText signed negative ++ (whole ++ '.' :: fraction) := by
  obtain ⟨r,hr,htext⟩ := h.shortest
  rw [fractionalText_places ha hs hle hn hr,htext]

theorem isInteger_eq_false (signed negative : Bool) :
    (numeralOf signed negative whole fraction).isInteger = false := by
  have hfraction := h.decimal.after_ne_nil
  simp [numeralOf,Numeral.isInteger,hfraction]

end IsMillionths

theorem integerLimit_le {negative : Bool} {a : Ratio} (h : a.value ≤ integerLimit negative) :
    a.value ≤ 2147483648 := by
  have hlimit : integerLimit negative ≤ 2147483648 := by cases negative <;> decide
  exact h.trans (by exact_mod_cast hlimit)

theorem signText_or (signed negative : Bool) :
    signText (signed || negative) negative = signText signed negative := by
  cases negative
  · rw [Bool.or_false]
  · rfl

/-- The text of a single is that of an integer of its size, or a decimal of six places. -/
theorem fractionalText_cases {a : Ratio} (ha : 0 < a.den) (hs : IsSingle a) {negative : Bool}
    (hle : a.value ≤ integerLimit negative) (signed : Bool) :
    (∃ signed' negative' n, Numeral.fractionalText signed negative (.finite a) =
      signText signed' negative' ++ Nat.toDigits 10 n ∧ n ≤ integerLimit negative' ∧
        (negative' = true → n ≠ 0)) ∨
    ∃ n whole fraction, IsMillionths n whole fraction ∧ IsNearest n a ∧ ¬ 1000000 ∣ n := by
  have hlimit : integerLimit negative ≤ 2147483648 := by cases negative <;> decide
  have hle' := integerLimit_le hle
  obtain ⟨n,hn⟩ := exists_isNearest a
  rcases Nat.eq_zero_or_pos n with rfl | hpos
  · refine Or.inl ⟨if negative && !a.isZero then false else signed,false,0,?_,by decide,nofun⟩
    rw [fractionalText_zero ha hs hle' hn]
    split <;> rfl
  have hsmall : n ≤ integerLimit negative * 1000000 := by
    have hlt : (n : Rat) < integerLimit negative * 1000000 + 1 := by
      have := hn.1
      linarith
    exact Nat.lt_succ_iff.1 (by exact_mod_cast hlt)
  obtain ⟨r,hr⟩ := exists_isPlaces hpos (by omega)
  obtain ⟨hdigits,hvalue⟩ := hr.shortest
  rcases Scaled.exponent_cases hdigits hvalue with ⟨he,m,rfl,hm⟩ | ⟨p,he,hp,hp6,hfraction⟩
  · refine Or.inl ⟨signed,negative,m,?_,by omega,by omega⟩
    rw [fractionalText_places ha hs hle' hn hr,
      Scaled.positional_integer (Nat.pos_of_ne_zero (by omega)) he hm]
  · obtain ⟨whole,fraction,htext,hdecimal,hlength,hsize⟩ := Scaled.positional_fraction he hp
    refine Or.inr ⟨n,whole,fraction,⟨hdecimal,by omega,?_,r,hr,htext⟩,hn,hfraction⟩
    intro signed negative
    rw [hsize,hvalue]

/-! ## Faithful texts -/

theorem toList_text {x : Numeral} (h : x.isInteger = false) : x.text.toList =
    Numeral.fractionalText x.signed x.negative (Format.single.renew x.magnitude) := by
  rw [Numeral.text,h,String.toList_ofList]
  rfl

theorem toList_percentText {x : Numeral} (h : x.isInteger = false) : x.percentText.toList =
    Numeral.fractionalText x.signed x.negative x.percentMagnitude := by
  rw [Numeral.percentText,h,String.toList_ofList]
  rfl

/-- The text of a number of the size of an integer is read back. -/
theorem isNumberText_of_single {x : Numeral} (hx : x.isInteger = false) {a : Ratio}
    (ha : Format.single.renew x.magnitude = .finite a) (hle : a.value ≤ integerLimit x.negative) :
    IsNumberText x.text := by
  obtain ⟨hden,hs⟩ := isSingle_of_renew (magnitude_proper x) ha
  have hle' := integerLimit_le hle
  have htext := toList_text hx
  rw [ha] at htext
  rcases fractionalText_cases hden hs hle x.signed with
    ⟨signed,negative,n,hdigits,hn,hzero⟩ | ⟨n,whole,fraction,h,hn,hfraction⟩
  · exact (isNumberText_digits (htext.trans hdigits) hn hzero).1
  · rw [h.fractionalText hden hs hle' hn] at htext
    obtain ⟨m,hm,hmden,hnear⟩ := h.magnitude (hs.whole_lt hn hfraction) x.signed x.negative
    obtain ⟨r,hr,hrden,hrn,hrle⟩ := exists_isNearest_of_near hs hle' hn hfraction hmden hnear
    refine ⟨by rw [htext]; exact isNumeral_decimal h.decimal _ _,?_⟩
    apply String.toList_inj.1
    rw [htext,readNumeral_decimal h.decimal,toList_text (h.isInteger_eq_false _ _),hm,Format.renew,hr,
      h.fractionalText hrden (isSingle_of_round hmden hr) hrle hrn]
    exact congrArg (· ++ _) (signText_or _ _)

/-- A percentage comes from a hundredth in single precision. -/
theorem exists_of_percentMagnitude {x : Numeral} {a : Ratio} (h : x.percentMagnitude = .finite a) :
    ∃ s, 0 < s.den ∧ IsSingle s ∧ Format.single.round (s.mul (.ofNat 100)) = .finite a := by
  have hproper : (Format.double.divNat x.magnitude 100).IsProper :=
    Format.divNat_proper (magnitude_proper x) (by decide)
  rw [percentMagnitude] at h
  cases hm : Format.single.renew (Format.double.divNat x.magnitude 100) with
  | undefined =>
    rw [hm] at h
    cases h
  | infinite =>
    rw [hm] at h
    cases h
  | finite s =>
    rw [hm] at h
    obtain ⟨hden,hs⟩ := isSingle_of_renew hproper hm
    exact ⟨s,hden,hs,h⟩

theorem isSingle_of_percentMagnitude {x : Numeral} {a : Ratio} (h : x.percentMagnitude = .finite a) :
    0 < a.den ∧ IsSingle a := by
  obtain ⟨s,hden,-,hround⟩ := exists_of_percentMagnitude h
  have hden : 0 < (s.mul (.ofNat 100)).den := Nat.mul_pos hden Nat.one_pos
  exact ⟨Format.round_proper hden a hround,isSingle_of_round hden hround⟩

/-- The text of a percentage is read back, if what is near to its millionths is read as that many again.
-/
theorem isPercentText_of_again {x : Numeral} (hx : x.isInteger = false) {a : Ratio}
    (ha : x.percentMagnitude = .finite a) (hle : a.value ≤ integerLimit x.negative)
    (hagain : ∀ {n : Nat} {b : Ratio}, IsNearest n a → ¬ 1000000 ∣ n → 0 < b.den →
      |b.value - n / 1000000| ≤ 1 / 2 ^ 29 →
      ∃ r, Format.single.mul (Format.single.renew (Format.double.divNat (.finite b) 100))
        (.finite (.ofNat 100)) = .finite r ∧ 0 < r.den ∧ IsNearest n r ∧ r.value ≤ 2147483648) :
    IsPercentText x.percentText := by
  obtain ⟨hden,hs⟩ := isSingle_of_percentMagnitude ha
  have htext := toList_percentText hx
  rw [ha] at htext
  rcases fractionalText_cases hden hs hle x.signed with
    ⟨signed,negative,n,hdigits,hn,hzero⟩ | ⟨n,whole,fraction,h,hn,hfraction⟩
  · exact (isNumberText_digits (htext.trans hdigits) hn hzero).2
  · rw [h.fractionalText hden hs (integerLimit_le hle) hn] at htext
    obtain ⟨m,hm,hmden,hnear⟩ := h.magnitude (hs.whole_lt hn hfraction) x.signed x.negative
    obtain ⟨r,hr,hrden,hrn,hrle⟩ := hagain hn hfraction hmden hnear
    have hpercent : (numeralOf x.signed x.negative whole fraction).percentMagnitude = .finite r := by
      rw [percentMagnitude,hm,hr]
    have hrs := (isSingle_of_percentMagnitude hpercent).2
    refine ⟨by rw [htext]; exact isNumeral_decimal h.decimal _ _,?_⟩
    apply String.toList_inj.1
    rw [htext,readNumeral_decimal h.decimal,toList_percentText (h.isInteger_eq_false _ _),hpercent,
      h.fractionalText hrden hrs hrle hrn]
    exact congrArg (· ++ _) (signText_or _ _)

theorem isPercentText_of_small {x : Numeral} (hx : x.isInteger = false) {a : Ratio}
    (ha : x.percentMagnitude = .finite a) (hle : a.value ≤ 6) : IsPercentText x.percentText := by
  have hlimit : (6 : Rat) ≤ integerLimit x.negative := by
    cases x.negative <;> norm_num [integerLimit]
  refine isPercentText_of_again hx ha (hle.trans hlimit) ?_
  intro n b hn _ hb hnear
  have hsmall : n ≤ 6000000 := by
    have hlt : (n : Rat) < 6000000 + 1 := by
      have := hn.1
      linarith
    exact Nat.lt_succ_iff.1 (by exact_mod_cast hlt)
  obtain ⟨r,hr,hden,hrn,hrle⟩ := percent_near hb hsmall hnear
  exact ⟨r,hr,hden,hrn,hrle.trans (by norm_num)⟩

theorem isPercentText_of_range {x : Numeral} (hx : x.isInteger = false) {a : Ratio}
    (ha : x.percentMagnitude = .finite a) (hle : a.value ≤ integerLimit x.negative)
    (hrange : 25 ≤ a.value ∧ a.value ≤ 32 ∨ 50 ≤ a.value) : IsPercentText x.percentText := by
  refine isPercentText_of_again hx ha hle ?_
  intro n b hn hfraction hb hnear
  obtain ⟨s,hden,hs,hround⟩ := exists_of_percentMagnitude ha
  have hle := integerLimit_le hle
  obtain ⟨r,hr,hrden,hvalue⟩ := percent_again hs hden hround hle hn hfraction hrange hb hnear
  refine ⟨r,hr,hrden,?_,by rwa [hvalue]⟩
  rw [IsNearest,hvalue]
  exact hn

/-! ## Sizes -/

end Value

namespace Decimal

def Magnitude.isWithin (low high : Nat) : Magnitude → Bool
  | .finite a => (Ratio.ofNat low).le a && a.le (.ofNat high)
  | _ => false

theorem Magnitude.IsProper.exists_of_isWithin {m : Magnitude} (hm : m.IsProper) {low high : Nat}
    (h : m.isWithin low high = true) : ∃ a, m = .finite a ∧ low ≤ a.value ∧ a.value ≤ high := by
  cases m with
  | undefined => cases h
  | infinite => cases h
  | finite a =>
    obtain ⟨hlow,hhigh⟩ := Bool.and_eq_true_iff.1 h
    have hlow := (Ratio.le_iff Nat.one_pos (hm a rfl)).1 hlow
    have hhigh := (Ratio.le_iff (hm a rfl) Nat.one_pos).1 hhigh
    rw [Ratio.value_ofNat] at hlow hhigh
    exact ⟨a,rfl,hlow,hhigh⟩

def Numeral.isBounded (x : Numeral) : Bool :=
  x.isInteger || (Format.single.renew x.magnitude).isWithin 0 (integerLimit x.negative)

def Numeral.isSteadyPercent (x : Numeral) : Bool :=
  x.isInteger || x.percentMagnitude.isWithin 0 6 || x.percentMagnitude.isWithin 25 32 ||
    x.percentMagnitude.isWithin 50 (integerLimit x.negative)

end Decimal

namespace Value
open Numeral

/-- The text of a number is read back, if the number has the size of an integer. -/
theorem isNumberText_of_isBounded {x : Numeral} (h : x.isBounded = true) : IsNumberText x.text := by
  cases hx : x.isInteger with
  | true => exact (isNumberText_of_isInteger hx).1
  | false =>
    rw [isBounded,hx,Bool.false_or] at h
    obtain ⟨a,ha,-,hle⟩ := (Format.renew_proper (magnitude_proper x)).exists_of_isWithin h
    exact isNumberText_of_single hx ha hle

/-- The text of a percentage is read back, if it is an integer or in one of the ranges. -/
theorem isPercentText_of_isSteadyPercent {x : Numeral} (h : x.isSteadyPercent = true) :
    IsPercentText x.percentText := by
  cases hx : x.isInteger with
  | true =>
    rw [percentText_of_isInteger hx]
    exact (isNumberText_of_isInteger hx).2
  | false =>
    have hproper : x.percentMagnitude.IsProper := fun a ha => (isSingle_of_percentMagnitude ha).1
    have hlimit : (32 : Rat) ≤ integerLimit x.negative := by
      cases x.negative <;> norm_num [integerLimit]
    simp only [isSteadyPercent,hx,Bool.false_or,Bool.or_eq_true] at h
    rcases h with (h | h) | h
    · obtain ⟨a,ha,-,hle⟩ := hproper.exists_of_isWithin h
      exact isPercentText_of_small hx ha (by exact_mod_cast hle)
    · obtain ⟨a,ha,hlow,hhigh⟩ := hproper.exists_of_isWithin h
      norm_num at hlow hhigh
      exact isPercentText_of_range hx ha (hhigh.trans hlimit) (Or.inl ⟨hlow,hhigh⟩)
    · obtain ⟨a,ha,hlow,hhigh⟩ := hproper.exists_of_isWithin h
      norm_num at hlow
      exact isPercentText_of_range hx ha hhigh (Or.inr hlow)

end Value

end StyleExpansion
