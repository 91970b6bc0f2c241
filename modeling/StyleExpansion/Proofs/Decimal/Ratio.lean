import Mathlib
import StyleExpansion.Decimal.Shortest

/-! # Ratios as rational numbers

A ratio with a positive denominator is a rational number. The operations of ratios are those of the
numbers; the powers of two and of ten that a ratio lies between, and the natural numbers next to it,
are what their names say.
-/
namespace StyleExpansion.Decimal

namespace Ratio
variable {a b : Ratio}

def value (a : Ratio) : ℚ := a.num / a.den

theorem value_nonneg (a : Ratio) : 0 ≤ a.value := by
  unfold value
  positivity

@[simp] theorem value_ofNat (n : ℕ) : (ofNat n).value = n := by simp [value,ofNat]

theorem value_mul (a b : Ratio) : (a.mul b).value = a.value * b.value := by
  simp only [value,mul]
  push_cast
  exact (div_mul_div_comm _ _ _ _).symm

theorem value_div (a b : Ratio) : (a.div b).value = a.value / b.value := by
  simp only [value,div]
  push_cast
  exact (div_div_div_eq _ _ _ _).symm

theorem value_add (ha : 0 < a.den) (hb : 0 < b.den) : (a.add b).value = a.value + b.value := by
  have ha' : (a.den : ℚ) ≠ 0 := by positivity
  have hb' : (b.den : ℚ) ≠ 0 := by positivity
  simp only [value,add]
  push_cast
  field_simp

theorem value_twoPow (k : ℤ) : (twoPow k).value = 2 ^ k := by
  cases k with
  | ofNat k => simp [value,twoPow]
  | negSucc k => simp [value,twoPow,zpow_negSucc]

theorem value_tenPow (k : ℤ) : (tenPow k).value = 10 ^ k := by
  cases k with
  | ofNat k => simp [value,tenPow]
  | negSucc k => simp [value,tenPow,zpow_negSucc]

theorem den_twoPow_pos (k : ℤ) : 0 < (twoPow k).den := by
  cases k <;> simp [twoPow]

theorem num_twoPow_pos (k : ℤ) : 0 < (twoPow k).num := by
  cases k <;> simp [twoPow]

theorem den_tenPow_pos (k : ℤ) : 0 < (tenPow k).den := by
  cases k <;> simp [tenPow]

theorem num_tenPow_pos (k : ℤ) : 0 < (tenPow k).num := by
  cases k <;> simp [tenPow]

theorem isZero_iff (ha : 0 < a.den) : a.isZero = true ↔ a.value = 0 := by
  have ha' : (a.den : ℚ) ≠ 0 := by positivity
  simp [isZero,value,ha']

theorem le_iff (ha : 0 < a.den) (hb : 0 < b.den) : a.le b = true ↔ a.value ≤ b.value := by
  have ha' : (0 : ℚ) < a.den := by positivity
  have hb' : (0 : ℚ) < b.den := by positivity
  rw [le,decide_eq_true_eq,value,value,div_le_div_iff₀ ha' hb']
  exact_mod_cast Iff.rfl

theorem same_iff (ha : 0 < a.den) (hb : 0 < b.den) : a.same b = true ↔ a.value = b.value := by
  have ha' : (a.den : ℚ) ≠ 0 := by positivity
  have hb' : (b.den : ℚ) ≠ 0 := by positivity
  rw [same,beq_iff_eq,value,value,div_eq_div_iff ha' hb']
  exact_mod_cast Iff.rfl

/-! ## Neighbours -/

theorem floor_le (ha : 0 < a.den) :
    ((a.num / a.den : ℕ) : ℚ) ≤ a.value ∧ a.value < ((a.num / a.den : ℕ) : ℚ) + 1 := by
  have ha' : (0 : ℚ) < a.den := by positivity
  have hlow : a.num / a.den * a.den ≤ a.num := Nat.div_mul_le_self _ _
  have hhigh : a.num < (a.num / a.den + 1) * a.den := Nat.lt_mul_of_div_lt (Nat.lt_succ_self _) ha
  rw [value,le_div_iff₀ ha',div_lt_iff₀ ha']
  exact ⟨by exact_mod_cast hlow,by exact_mod_cast hhigh⟩

theorem nearestEven_near (ha : 0 < a.den) : |(a.nearestEven : ℚ) - a.value| ≤ 1 / 2 := by
  have ha' : (0 : ℚ) < a.den := by positivity
  have hdiv : (a.den : ℚ) * (a.num / a.den : ℕ) + (a.num % a.den : ℕ) = a.num := by
    exact_mod_cast Nat.div_add_mod a.num a.den
  have hvalue : a.value = (a.num / a.den : ℕ) + (a.num % a.den : ℕ) / (a.den : ℚ) := by
    rw [value,← hdiv]
    field_simp
  have hlow : 2 * (a.num % a.den) ≤ a.den → |((a.num / a.den : ℕ) : ℚ) - a.value| ≤ 1 / 2 := by
    intro h
    have hrest : ((a.num % a.den : ℕ) : ℚ) / a.den ≤ 1 / 2 := by
      rw [div_le_div_iff₀ ha' (by norm_num)]
      exact_mod_cast by omega
    have hpos : (0 : ℚ) ≤ ((a.num % a.den : ℕ) : ℚ) / a.den := by positivity
    rw [hvalue,abs_le]
    constructor <;> linarith
  have hhigh : a.den ≤ 2 * (a.num % a.den) →
      |((a.num / a.den + 1 : ℕ) : ℚ) - a.value| ≤ 1 / 2 := by
    intro h
    have hlt := Nat.mod_lt a.num ha
    have hrest : 1 / 2 ≤ ((a.num % a.den : ℕ) : ℚ) / a.den := by
      rw [div_le_div_iff₀ (by norm_num) ha']
      exact_mod_cast by omega
    have hone : ((a.num % a.den : ℕ) : ℚ) / a.den ≤ 1 := by
      rw [div_le_one ha']
      exact_mod_cast hlt.le
    rw [hvalue,abs_le]
    push_cast
    constructor <;> linarith
  unfold nearestEven
  simp only
  split
  · exact hlow (by omega)
  · split
    · exact hhigh (by omega)
    · split
      · exact hlow (by omega)
      · exact hhigh (by omega)

/-- The nearest natural number depends on the number only. -/
theorem nearestEven_congr (ha : 0 < a.den) (hb : 0 < b.den) (h : a.value = b.value) :
    a.nearestEven = b.nearestEven := by
  have hfloor : ∀ {c : Ratio}, c.num / c.den = ⌊c.value⌋₊ := fun {c} =>
    (Nat.floor_div_eq_div c.num c.den).symm
  have hrest : ∀ {c : Ratio}, 0 < c.den →
      ((c.num % c.den : ℕ) : ℚ) = (c.value - ⌊c.value⌋₊) * c.den := by
    intro c hc
    have hc' : (c.den : ℚ) ≠ 0 := by positivity
    have hdiv : (c.den : ℚ) * (c.num / c.den : ℕ) + (c.num % c.den : ℕ) = c.num := by
      exact_mod_cast Nat.div_add_mod c.num c.den
    rw [← hfloor,value,sub_mul,div_mul_cancel₀ _ hc',← hdiv]
    ring
  have hlow : ∀ {c : Ratio}, 0 < c.den →
      (2 * (c.num % c.den) < c.den ↔ 2 * (c.value - ⌊c.value⌋₊) < 1) := by
    intro c hc
    have hc' : (0 : ℚ) < c.den := by positivity
    rw [← Nat.cast_lt (α := ℚ)]
    push_cast
    rw [hrest hc,← mul_assoc,mul_lt_iff_lt_one_left hc']
  have hhigh : ∀ {c : Ratio}, 0 < c.den →
      (c.den < 2 * (c.num % c.den) ↔ 1 < 2 * (c.value - ⌊c.value⌋₊)) := by
    intro c hc
    have hc' : (0 : ℚ) < c.den := by positivity
    rw [← Nat.cast_lt (α := ℚ)]
    push_cast
    rw [hrest hc,← mul_assoc,lt_mul_iff_one_lt_left hc']
  simp only [nearestEven,hlow ha,hlow hb,hhigh ha,hhigh hb,hfloor,h]

/-- A natural number that is nearer than a half is the nearest one. -/
theorem nearestEven_eq (ha : 0 < a.den) {n : ℕ} (h : |a.value - n| < 1 / 2) : a.nearestEven = n := by
  have hnear := nearestEven_near ha
  have hdist : |((a.nearestEven : ℤ) - (n : ℤ) : ℤ)| < 1 := by
    have hq : |(a.nearestEven : ℚ) - n| < 1 := by
      calc |(a.nearestEven : ℚ) - n|
          = |((a.nearestEven : ℚ) - a.value) + (a.value - n)| := by ring_nf
        _ ≤ |(a.nearestEven : ℚ) - a.value| + |a.value - n| := abs_add_le _ _
        _ < 1 := by linarith
    exact_mod_cast hq
  have hzero := Int.abs_lt_one_iff.1 hdist
  omega

theorem nearestUp_iff (ha : 0 < a.den) {n : ℕ} :
    a.nearestUp = n ↔ (n : ℚ) ≤ a.value + 1 / 2 ∧ a.value + 1 / 2 < n + 1 := by
  have ha' : (0 : ℚ) < a.den := by positivity
  have hvalue : a.value + 1 / 2 = (⟨2 * a.num + a.den,2 * a.den⟩ : Ratio).value := by
    simp only [value]
    push_cast
    field_simp
  have hden : 0 < (⟨2 * a.num + a.den,2 * a.den⟩ : Ratio).den := by
    simp only
    omega
  obtain ⟨hlow,hhigh⟩ := floor_le hden
  rw [hvalue]
  change (2 * a.num + a.den) / (2 * a.den) = n ↔ _
  constructor
  · rintro rfl
    exact ⟨hlow,hhigh⟩
  · rintro ⟨hl,hh⟩
    have h1 : ((2 * a.num + a.den) / (2 * a.den) : ℕ) < n + 1 := by
      exact_mod_cast lt_of_le_of_lt hlow hh
    have h2 : n < (2 * a.num + a.den) / (2 * a.den) + 1 := by
      exact_mod_cast lt_of_le_of_lt hl hhigh
    omega

/-! ## Powers next to a ratio -/

theorem between_powers {base : ℚ} (hbase : 0 < base) {p q : ℤ} (ha : 0 < a.den)
    (hn : base ^ p ≤ a.num ∧ (a.num : ℚ) < base ^ (p + 1))
    (hd : base ^ q ≤ a.den ∧ (a.den : ℚ) < base ^ (q + 1)) :
    base ^ (p - q - 1) ≤ a.value ∧ a.value < base ^ (p - q + 1) := by
  have ha' : (0 : ℚ) < a.den := by positivity
  rw [value,le_div_iff₀ ha',div_lt_iff₀ ha']
  constructor
  · calc base ^ (p - q - 1) * a.den ≤ base ^ (p - q - 1) * base ^ (q + 1) := by
          gcongr
          exact hd.2.le
      _ = base ^ p := by
          rw [← zpow_add₀ hbase.ne']
          congr 1
          ring
      _ ≤ a.num := hn.1
  · calc (a.num : ℚ) < base ^ (p + 1) := hn.2
      _ = base ^ (p - q + 1) * base ^ q := by
          rw [← zpow_add₀ hbase.ne']
          congr 1
          ring
      _ ≤ base ^ (p - q + 1) * a.den := by
          gcongr
          exact hd.1

theorem num_ne_zero (h : 0 < a.value) : a.num ≠ 0 := by
  intro hnum
  simp [value,hnum] at h

theorem log2_between {n : ℕ} (h : n ≠ 0) :
    (2 : ℚ) ^ (n.log2 : ℤ) ≤ n ∧ (n : ℚ) < 2 ^ ((n.log2 : ℤ) + 1) := by
  constructor
  · rw [zpow_natCast]
    exact_mod_cast Nat.log2_self_le h
  · have hlt : n < 2 ^ (n.log2 + 1) := Nat.lt_log2_self
    exact_mod_cast hlt

theorem exponent_spec (ha : 0 < a.den) (hpos : 0 < a.value) :
    (2 : ℚ) ^ a.exponent ≤ a.value ∧ a.value < 2 ^ (a.exponent + 1) := by
  obtain ⟨hlow,hhigh⟩ := between_powers (by norm_num) ha (log2_between (num_ne_zero hpos))
    (log2_between ha.ne')
  have hle := le_iff (den_twoPow_pos ((a.num.log2 : ℤ) - a.den.log2)) ha
  rw [value_twoPow] at hle
  unfold exponent
  simp only
  split
  · next h => exact ⟨hle.1 h,hhigh⟩
  · next h =>
    rw [sub_add_cancel]
    exact ⟨hlow,lt_of_not_ge fun hge => h (hle.2 hge)⟩

theorem exponent_congr (ha : 0 < a.den) (hb : 0 < b.den) (hpos : 0 < a.value) (h : a.value = b.value) :
    a.exponent = b.exponent := by
  obtain ⟨ha1,ha2⟩ := exponent_spec ha hpos
  obtain ⟨hb1,hb2⟩ := exponent_spec hb (h ▸ hpos)
  rw [← h] at hb1 hb2
  have h1 := (zpow_lt_zpow_iff_right₀ (by norm_num : (1 : ℚ) < 2)).1 (lt_of_le_of_lt ha1 hb2)
  have h2 := (zpow_lt_zpow_iff_right₀ (by norm_num : (1 : ℚ) < 2)).1 (lt_of_le_of_lt hb1 ha2)
  omega

end Ratio

/-- A natural number lies between the powers of ten that its digits give. -/
theorem length_toDigits {n : ℕ} (h : n ≠ 0) :
    (10 : ℚ) ^ (((Nat.toDigits 10 n).length : ℤ) - 1) ≤ n ∧
      (n : ℚ) < 10 ^ (((Nat.toDigits 10 n).length : ℤ) - 1 + 1) := by
  have hpos : 0 < (Nat.toDigits 10 n).length := Nat.length_toDigits_pos
  constructor
  · have hle : 10 ^ ((Nat.toDigits 10 n).length - 1) ≤ n := by
      by_cases hone : (Nat.toDigits 10 n).length = 1
      · rw [hone]
        omega
      · by_contra hlt
        have := (Nat.length_toDigits_le_iff (by decide) (by omega)).2 (Nat.lt_of_not_le hlt)
        omega
    have hcast : ((Nat.toDigits 10 n).length : ℤ) - 1 = ((Nat.toDigits 10 n).length - 1 : ℕ) := by
      omega
    rw [hcast,zpow_natCast]
    exact_mod_cast hle
  · have hlt := (Nat.length_toDigits_le_iff (by decide) hpos).1 (le_refl (Nat.toDigits 10 n).length)
    rw [sub_add_cancel,zpow_natCast]
    exact_mod_cast hlt

theorem Scaled.width_spec {a : Ratio} (ha : 0 < a.den) (hpos : 0 < a.value) :
    (10 : ℚ) ^ (width a - 1) ≤ a.value ∧ a.value < 10 ^ width a := by
  obtain ⟨hlow,hhigh⟩ := Ratio.between_powers (by norm_num) ha
    (length_toDigits (Ratio.num_ne_zero hpos)) (length_toDigits ha.ne')
  rw [sub_sub_sub_cancel_right] at hlow hhigh
  have hle := Ratio.le_iff
    (Ratio.den_tenPow_pos ((Nat.toDigits 10 a.num).length - (Nat.toDigits 10 a.den).length)) ha
  rw [Ratio.value_tenPow] at hle
  unfold width
  simp only
  split
  · next h =>
    rw [add_sub_cancel_right]
    exact ⟨hle.1 h,hhigh⟩
  · next h => exact ⟨hlow,lt_of_not_ge fun hge => h (hle.2 hge)⟩

end StyleExpansion.Decimal
