import StyleExpansion.Proofs.Decimal.Numeral
import StyleExpansion.Proofs.Decimal.Shortest

/-! # Ratios to six places

A ratio of single precision times a million is exact in double precision, so its text is the decimal of
six places that is nearest to it. All ratios near to that decimal have the same text.
-/
namespace StyleExpansion.Decimal

def IsSingle (a : Ratio) : Prop :=
  ∃ (n : ℕ) (k : ℤ), a.value = n * 2 ^ k ∧ n < 2 ^ 24 ∧ -149 ≤ k ∧ (2 ^ 23 ≤ n ∨ k = -149)

theorem isSingle_of_round {a r : Ratio} (ha : 0 < a.den) (h : Format.single.round a = .finite r) :
    IsSingle r := by
  rcases (Ratio.value_nonneg a).eq_or_lt with hzero | hpos
  · rw [Format.round_of_zero ha hzero.symm] at h
    cases h
    exact ⟨0,-149,by simp,by decide,le_rfl,Or.inr rfl⟩
  · exact Format.round_representable ha (by decide) hpos h

theorem isSingle_of_renew {m : Magnitude} (hm : m.IsProper) {r : Ratio}
    (h : Format.single.renew m = .finite r) : 0 < r.den ∧ IsSingle r := by
  cases m with
  | undefined => cases h
  | infinite => cases h
  | finite a => exact ⟨Format.round_proper (hm a rfl) r h,isSingle_of_round (hm a rfl) h⟩

theorem below_limit {x : ℚ} (h : x ≤ 2147483648) : x < 2 ^ Format.single.limit :=
  calc x ≤ 2147483648 := h
    _ < 2 ^ 32 := by norm_num
    _ ≤ 2 ^ Format.single.limit := pow_le_pow_right₀ (by norm_num) (by decide)

def IsNearest (n : ℕ) (a : Ratio) : Prop :=
  (n : ℚ) ≤ a.value * 1000000 + 1 / 2 ∧ a.value * 1000000 + 1 / 2 < n + 1

theorem exists_isNearest (a : Ratio) : ∃ n, IsNearest n a := by
  have hpos : (0 : ℚ) ≤ a.value * 1000000 + 1 / 2 := by
    have := Ratio.value_nonneg a
    positivity
  exact ⟨_,Nat.floor_le hpos,Nat.lt_floor_add_one _⟩

theorem isNearest_of_near {n : ℕ} {a : Ratio} (h : |a.value - n / 1000000| < 1 / 2000000) :
    IsNearest n a := by
  obtain ⟨h1,h2⟩ := abs_lt.1 h
  exact ⟨by linarith,by linarith⟩

theorem IsNearest.near {n : ℕ} {a : Ratio} (h : IsNearest n a) :
    |a.value - n / 1000000| ≤ 1 / 2000000 := by
  obtain ⟨h1,h2⟩ := h
  exact abs_le.2 ⟨by linarith,by linarith⟩

section Single
variable {a : Ratio} {n : ℕ} (ha : 0 < a.den) (hs : IsSingle a) (hle : a.value ≤ 2147483648)
  (hn : IsNearest n a)
include ha hs hle hn

/-- The million times the ratio has less bits than a double, so nothing is rounded before the places. -/
theorem toPlaces_eq : Numeral.toPlaces a = Format.double.round ⟨n,1000000⟩ := by
  obtain ⟨m,k,hvalue,hm,hk,-⟩ := hs
  have hvalue' : (a.mul (.ofNat 1000000)).value = (m * 15625 : ℕ) * 2 ^ (k + 6) := by
    rw [Ratio.value_mul,Ratio.value_ofNat,hvalue,zpow_add₀ (by norm_num)]
    push_cast
    ring
  have hlimit : (a.mul (.ofNat 1000000)).value < 2 ^ Format.double.limit := by
    rw [Ratio.value_mul,Ratio.value_ofNat]
    calc a.value * (1000000 : ℕ) ≤ 2147483648 * (1000000 : ℕ) := by gcongr
      _ < 2 ^ 64 := by norm_num
      _ ≤ 2 ^ Format.double.limit := pow_le_pow_right₀ (by norm_num) (by decide)
  obtain ⟨b,hb,hden,hbvalue⟩ := Format.round_exact (f := .double) (Nat.mul_pos ha Nat.one_pos) hvalue'
    (lt_trans (by omega) (by decide : 2 ^ 38 < 2 ^ Format.double.bits))
    (le_trans (by decide : -(Format.double.least : ℤ) ≤ -143) (by omega)) hlimit
  have hup : b.nearestUp = n := by
    rw [Ratio.nearestUp_iff hden,hbvalue,Ratio.value_mul,Ratio.value_ofNat]
    exact hn
  rw [Numeral.toPlaces,hb,Numeral.millionths,hup]

/-- A ratio that is not nearest to zero has the text of the shortest decimal of its millionths. -/
theorem fractionalText_places {r : Ratio} (h : IsPlaces n r) (signed negative : Bool) :
    Numeral.fractionalText signed negative (.finite a) =
      Numeral.signText signed negative ++ (Scaled.shortest .double r).positional := by
  have hzero : ¬ r.isZero = true := fun hr => h.value_pos.ne' ((Ratio.isZero_iff h.near.1).1 hr)
  rw [Numeral.fractionalText,toPlaces_eq ha hs hle hn,h.round,Numeral.placesText,if_neg hzero]

end Single

theorem fractionalText_zero {a : Ratio} (ha : 0 < a.den) (hs : IsSingle a) (hle : a.value ≤ 2147483648)
    (hn : IsNearest 0 a) (signed negative : Bool) :
    Numeral.fractionalText signed negative (.finite a) =
      (if negative && !a.isZero then [] else Numeral.plusText signed) ++ ['0'] := by
  rw [Numeral.fractionalText,toPlaces_eq ha hs hle hn]
  rfl

theorem exists_isPlaces {n : ℕ} (hpos : 0 < n) (hn : n ≤ 2147483648000000) : ∃ r, IsPlaces n r := by
  have hn' : (n : ℚ) ≤ 2147483648000000 := by exact_mod_cast hn
  obtain ⟨r,hr,-⟩ := Format.double_below (a := ⟨n,1000000⟩) (k := 32) (by simp)
    (by simp only [Ratio.value]; norm_num; linarith) (by decide)
  exact ⟨r,hpos,hn,hr⟩

/-! ## Reading once more -/

/-- A natural number is nearest to its own millionths. -/
theorem IsNearest.dvd {n m : ℕ} {a : Ratio} (h : IsNearest n a) (ha : a.value = m) : 1000000 ∣ n := by
  obtain ⟨h1,h2⟩ := h
  rw [ha] at h1 h2
  have hlow : 2 * n ≤ 2 * (m * 1000000) + 1 := by
    exact_mod_cast (by linarith : 2 * (n : ℚ) ≤ 2 * (m * 1000000) + 1)
  have hhigh : 2 * (m * 1000000) + 1 < 2 * (n + 1) := by
    exact_mod_cast (by linarith : 2 * ((m : ℚ) * 1000000) + 1 < 2 * (n + 1))
  exact ⟨m,by omega⟩

/-- A single from sixteen on, with a fraction, is what each ratio near to its millionths is rounded to. -/
theorem single_of_near {a b : Ratio} {n : ℕ} (hs : IsSingle a) (hle : a.value ≤ 2147483648)
    (hn : IsNearest n a) (hfraction : ¬ 1000000 ∣ n) (hlarge : 16 ≤ a.value) (hb : 0 < b.den)
    (hnear : |b.value - n / 1000000| ≤ 1 / 2 ^ 29) :
    ∃ r, Format.single.round b = .finite r ∧ 0 < r.den ∧ r.value = a.value := by
  obtain ⟨m,k,hvalue,hm,hk,hbits⟩ := hs
  have hplace : -19 ≤ k := by
    by_contra hlt
    have hm' : (m : ℚ) < 2 ^ 24 := by exact_mod_cast hm
    have hunit : (2 : ℚ) ^ k ≤ 2 ^ (-20 : ℤ) := zpow_le_zpow_right₀ (by norm_num) (by omega)
    have hsmall : a.value < 16 := by
      calc a.value = m * 2 ^ k := hvalue
        _ < 2 ^ 24 * 2 ^ k := by gcongr
        _ ≤ 2 ^ 24 * 2 ^ (-20 : ℤ) := by gcongr
        _ = 16 := by norm_num
    linarith
  have hunit : (2 : ℚ) ^ (-19 : ℤ) ≤ 2 ^ k := zpow_le_zpow_right₀ (by norm_num) hplace
  have hm23 : 2 ^ 23 < m := by
    refine lt_of_le_of_ne (hbits.resolve_right (by omega)) ?_
    rintro rfl
    refine hfraction (hn.dvd (m := 2 ^ (23 + k).toNat) ?_)
    have hexp : ((23 + k).toNat : ℤ) = 23 + k := by omega
    rw [hvalue]
    push_cast
    rw [← zpow_natCast _ (23 + k).toNat,hexp,zpow_add₀ (by norm_num)]
    norm_num
  have hclose : |b.value - m * 2 ^ k| < 2 ^ k / 2 := by
    rw [← hvalue]
    calc |b.value - a.value|
        = |(b.value - n / 1000000) - (a.value - n / 1000000)| := by
          congr 1
          ring
      _ ≤ |b.value - n / 1000000| + |a.value - n / 1000000| := abs_sub _ _
      _ ≤ 1 / 2 ^ 29 + 1 / 2000000 := add_le_add hnear hn.near
      _ < 2 ^ (-19 : ℤ) / 2 := by norm_num
      _ ≤ 2 ^ k / 2 := by gcongr
  have hlimit : (m : ℚ) * 2 ^ k < 2 ^ Format.single.limit := by
    rw [← hvalue]
    exact below_limit hle
  rw [hvalue]
  exact Format.round_near hb (by decide) hm23 hm (le_trans (by decide) hk) hclose hlimit

/-- What is near enough to a decimal of six places has this decimal as its text, if it is below sixteen or
the decimal is that of a single. -/
theorem exists_isNearest_of_near {a b : Ratio} {n : ℕ} (hs : IsSingle a) (hle : a.value ≤ 2147483648)
    (hn : IsNearest n a) (hfraction : ¬ 1000000 ∣ n) (hb : 0 < b.den)
    (hnear : |b.value - n / 1000000| ≤ 1 / 2 ^ 29) :
    ∃ r, Format.single.round b = .finite r ∧ 0 < r.den ∧ IsNearest n r ∧ r.value ≤ 2147483648 := by
  rcases le_or_gt 16 a.value with hlarge | hsmall
  · obtain ⟨r,hr,hden,hvalue⟩ := single_of_near hs hle hn hfraction hlarge hb hnear
    refine ⟨r,hr,hden,?_,by rwa [hvalue]⟩
    rw [IsNearest,hvalue]
    exact hn
  · have hn16 : n ≤ 16000000 := by
      have hlt : (n : ℚ) < 16000001 := by
        have := hn.1
        linarith
      exact Nat.lt_succ_iff.1 (by exact_mod_cast hlt)
    have hbelow : n ≤ 15999999 := by
      by_contra hgt
      exact hfraction (by omega)
    have hbelow' : (n : ℚ) ≤ 15999999 := by exact_mod_cast hbelow
    obtain ⟨h1,h2⟩ := abs_le.1 hnear
    obtain ⟨r,hr,hden,hclose⟩ := Format.single_below (k := 4) hb (by norm_num; linarith) (by decide)
    have hclose : |r.value - b.value| ≤ 1 / 2 ^ 21 := hclose.trans (by norm_num)
    obtain ⟨h3,h4⟩ := abs_le.1 hclose
    refine ⟨r,hr,hden,isNearest_of_near (abs_lt.2 ⟨?_,?_⟩),?_⟩
    · linarith
    · linarith
    · linarith

/-- A single with a fraction has less than a bit for each place before the point. -/
theorem IsSingle.whole_lt {a : Ratio} {n : ℕ} (hs : IsSingle a) (hn : IsNearest n a)
    (hfraction : ¬ 1000000 ∣ n) : n < 2 ^ 23 * 1000000 := by
  obtain ⟨m,k,hvalue,hm,-,-⟩ := hs
  have hk : k ≤ -1 := by
    by_contra hlt
    refine hfraction (hn.dvd (m := m * 2 ^ k.toNat) ?_)
    have hexp : (k.toNat : ℤ) = k := by omega
    rw [hvalue]
    push_cast
    rw [← zpow_natCast _ k.toNat,hexp]
  have hm' : (m : ℚ) ≤ 2 ^ 24 - 1 := by
    rw [le_sub_iff_add_le]
    exact_mod_cast hm
  have hhalf : a.value ≤ (2 ^ 24 - 1) * 2 ^ (-1 : ℤ) := by
    rw [hvalue]
    gcongr
    norm_num
  have hlow := hn.1
  norm_num at hhalf
  have hlt : (n : ℚ) < 2 ^ 23 * 1000000 := by linarith
  exact_mod_cast hlt

end StyleExpansion.Decimal
