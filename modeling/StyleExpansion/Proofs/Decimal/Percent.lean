import StyleExpansion.Proofs.Decimal.Places

/-! # Percentages are read back

A percentage is a hundredth in single precision, times a hundred. Its decimal of six places is read as the
same percentage where the two roundings cannot leave its place: a small percentage is near enough to the
decimal whatever they do. Of a greater one, either the hundredth lies on a coarser grid, and is found
again, or the percentage does, and is found again from any hundredth that is near enough.
-/
namespace StyleExpansion.Decimal

theorem value_hundred (s : Ratio) : (s.mul (.ofNat 100)).value = 100 * s.value := by
  rw [Ratio.value_mul,Ratio.value_ofNat,mul_comm]
  norm_num

theorem exists_hundredth {b : Ratio} (hb : 0 < b.den) (hle : b.value < 2 ^ 23) :
    ∃ q, Format.double.divNat (.finite b) 100 = .finite q ∧ 0 < q.den ∧
      |100 * q.value - b.value| ≤ 1 / 2 ^ 30 := by
  have hvalue : (b.div (.ofNat 100)).value = b.value / 100 := by
    rw [Ratio.value_div,Ratio.value_ofNat]
    norm_num
  obtain ⟨q,hq,hden,hnear⟩ := Format.double_below (a := b.div (.ofNat 100)) (k := 17)
    (Nat.mul_pos hb (by decide)) (by rw [hvalue]; norm_num at hle ⊢; linarith) (by decide)
  rw [hvalue] at hnear
  have hnear : |q.value - b.value / 100| ≤ 1 / 2 ^ 37 := hnear.trans (by norm_num)
  obtain ⟨h1,h2⟩ := abs_le.1 hnear
  exact ⟨q,hq,hden,abs_le.2 ⟨by linarith,by linarith⟩⟩

/-- A hundredth in single precision, times a hundred, is still near enough to a small decimal. -/
theorem percent_near {b : Ratio} {n : ℕ} (hb : 0 < b.den) (hn : n ≤ 6000000)
    (hnear : |b.value - n / 1000000| ≤ 1 / 2 ^ 29) :
    ∃ r, Format.single.mul (Format.single.renew (Format.double.divNat (.finite b) 100))
      (.finite (.ofNat 100)) = .finite r ∧ 0 < r.den ∧ IsNearest n r ∧ r.value ≤ 7 := by
  have hn' : (n : ℚ) ≤ 6000000 := by exact_mod_cast hn
  obtain ⟨h1,h2⟩ := abs_le.1 hnear
  obtain ⟨q,hq,hqden,hqnear⟩ := exists_hundredth hb (by norm_num; linarith)
  obtain ⟨h3,h4⟩ := abs_le.1 hqnear
  obtain ⟨s,hs,hsden,hsnear⟩ := Format.single_below (k := -4) hqden (by norm_num; linarith) (by decide)
  have hsnear : |s.value - q.value| ≤ 1 / 2 ^ 29 := hsnear.trans (by norm_num)
  obtain ⟨h5,h6⟩ := abs_le.1 hsnear
  obtain ⟨r,hr,hrden,hrnear⟩ := Format.single_below (a := s.mul (.ofNat 100)) (k := 3)
    (Nat.mul_pos hsden Nat.one_pos) (by rw [value_hundred]; norm_num; linarith) (by decide)
  rw [value_hundred] at hrnear
  have hrnear : |r.value - 100 * s.value| ≤ 1 / 2 ^ 22 := hrnear.trans (by norm_num)
  obtain ⟨h7,h8⟩ := abs_le.1 hrnear
  refine ⟨r,?_,hrden,isNearest_of_near (abs_lt.2 ⟨?_,?_⟩),?_⟩
  · rw [hq,Format.renew,hs,Format.mul,hr]
  · linarith
  · linarith
  · linarith

/-! ## Great percentages -/

/-- A percentage that has a fraction, and the hundredth it comes from, both with all bits in use. -/
structure IsHundredfold (s r : Ratio) (m p : ℕ) (j k : ℤ) : Prop where
  part : s.value = m * 2 ^ j
  whole : r.value = p * 2 ^ k
  part_bits : 2 ^ 23 ≤ m ∧ m < 2 ^ 24
  whole_bits : 2 ^ 23 < p ∧ p < 2 ^ 24
  near : |r.value - 100 * s.value| ≤ 2 ^ k / 2
  grids : k = j + 6 ∨ k = j + 7
  place : -19 ≤ k

theorem IsNearest.ne_multiple {r : Ratio} {n : ℕ} (hn : IsNearest n r) (hfraction : ¬ 1000000 ∣ n) {p : ℕ}
    {k : ℤ} (hk : 0 ≤ k) : r.value ≠ p * 2 ^ k := by
  intro hvalue
  obtain ⟨i,rfl⟩ := Int.eq_ofNat_of_zero_le hk
  refine hfraction (hn.dvd (m := p * 2 ^ i) ?_)
  rw [hvalue]
  push_cast
  rw [zpow_natCast]

/-- A single from twenty-five on is a multiple of the last place of the ratio it is rounded from. -/
theorem exists_multiple {a r : Ratio} (ha : 0 < a.den) (hr : Format.single.round a = .finite r)
    (hlarge : 25 ≤ r.value) : ∃ (p : ℕ) (k : ℤ), r.value = p * 2 ^ k ∧ -19 ≤ k ∧
      |r.value - a.value| ≤ 2 ^ k / 2 ∧ (2 : ℚ) ^ (23 + k) ≤ a.value ∧ a.value < 2 ^ (24 + k) := by
  have hpos : 0 < a.value := by
    refine lt_of_le_of_ne (Ratio.value_nonneg a) fun hzero => ?_
    rw [Format.round_of_zero ha hzero.symm] at hr
    cases hr
    norm_num [Ratio.value_ofNat] at hlarge
  have hnear := Format.multiple_near (f := .single) ha
  have hplace : Format.single.place a = max (a.exponent - 23) (-149) := rfl
  obtain ⟨hlow,hhigh⟩ := Ratio.exponent_spec ha hpos
  rcases Format.round_of_pos (f := .single) ha hpos with ⟨-,hinf⟩ | ⟨-,r',hr',-,hvalue⟩
  · rw [hinf] at hr
    cases hr
  rw [hr'] at hr
  cases hr
  generalize Format.single.multiple a = p at hnear hvalue
  generalize Format.single.place a = k at hnear hvalue hplace
  rw [← hvalue] at hnear
  have he : 4 ≤ a.exponent := by
    obtain ⟨-,hdown⟩ := abs_le.1 hnear
    by_contra hlt
    have hpower : (2 : ℚ) ^ (a.exponent + 1) ≤ 2 ^ (4 : ℤ) :=
      zpow_le_zpow_right₀ (by norm_num) (by omega)
    have hunit : (2 : ℚ) ^ k ≤ 2 ^ (0 : ℤ) := zpow_le_zpow_right₀ (by norm_num) (by omega)
    rw [zpow_zero] at hunit
    norm_num at hpower
    linarith
  rw [show a.exponent = 23 + k by omega] at hlow
  rw [show a.exponent + 1 = 24 + k by omega] at hhigh
  exact ⟨p,k,hvalue,by omega,hnear,hlow,hhigh⟩

/-- With a fraction it has all bits in use, and is no power of two. -/
theorem exists_grid {a r : Ratio} {n : ℕ} (hn : IsNearest n r) (hfraction : ¬ 1000000 ∣ n) (ha : 0 < a.den)
    (hr : Format.single.round a = .finite r) (hlarge : 25 ≤ r.value) :
    ∃ (p : ℕ) (k : ℤ), r.value = p * 2 ^ k ∧ (2 ^ 23 < p ∧ p < 2 ^ 24) ∧ -19 ≤ k ∧
      |r.value - a.value| ≤ 2 ^ k / 2 ∧ (2 : ℚ) ^ (23 + k) ≤ a.value ∧ a.value < 2 ^ (24 + k) := by
  obtain ⟨p,k,hvalue,hk,hnear,hlow,hhigh⟩ := exists_multiple ha hr hlarge
  have hpower (i : ℕ) (hi : 19 ≤ i) : p ≠ 2 ^ i := by
    rintro rfl
    refine hn.ne_multiple hfraction (p := 1) (k := i + k) (by omega) ?_
    rw [hvalue,zpow_add₀ (by norm_num)]
    push_cast
    rw [one_mul,zpow_natCast]
  have h23 := hpower 23 (by decide)
  have h24 := hpower 24 (by decide)
  have hunit : (0 : ℚ) < 2 ^ k := by positivity
  obtain ⟨h1,h2⟩ := abs_le.1 hnear
  have hbottom : (2 : ℚ) ^ 23 * 2 ^ k ≤ a.value := by
    rwa [zpow_add₀ (by norm_num)] at hlow
  have htop : a.value < (2 : ℚ) ^ 24 * 2 ^ k := by
    rwa [zpow_add₀ (by norm_num)] at hhigh
  have hp1 : (2 : ℚ) ^ 23 < p + 1 := by nlinarith
  have hp2 : (p : ℚ) < 2 ^ 24 + 1 := by nlinarith
  have hp1 : 2 ^ 23 < p + 1 := by exact_mod_cast hp1
  have hp2 : p < 2 ^ 24 + 1 := by exact_mod_cast hp2
  exact ⟨p,k,hvalue,⟨by omega,by omega⟩,hk,hnear,hlow,hhigh⟩

theorem exists_isHundredfold {s r : Ratio} {n : ℕ} (hn : IsNearest n r) (hfraction : ¬ 1000000 ∣ n)
    (hs : IsSingle s) (hden : 0 < s.den)
    (hr : Format.single.round (s.mul (.ofNat 100)) = .finite r) (hlarge : 25 ≤ r.value) :
    ∃ m p j k, IsHundredfold s r m p j k := by
  obtain ⟨p,k,hwhole,hp,hk,hnear,hlow,hhigh⟩ :=
    exists_grid hn hfraction (Nat.mul_pos hden Nat.one_pos) hr hlarge
  rw [value_hundred] at hnear hlow hhigh
  obtain ⟨m,j,hpart,hm,-,hbits⟩ := hs
  have hm' : (m : ℚ) < 2 ^ 24 := by exact_mod_cast hm
  have hunit : (0 : ℚ) < 2 ^ j := by positivity
  have hup : 100 * s.value < 2 ^ (31 + j) := by
    rw [hpart,zpow_add₀ (by norm_num)]
    calc 100 * ((m : ℚ) * 2 ^ j) < 100 * (2 ^ 24 * 2 ^ j) := by gcongr
      _ = (100 * 2 ^ 24) * 2 ^ j := by ring
      _ ≤ 2 ^ (31 : ℤ) * 2 ^ j := by gcongr; norm_num
  have h1 : 23 + k < 31 + j := by
    rw [← zpow_lt_zpow_iff_right₀ (by norm_num : (1 : ℚ) < 2)]
    exact lt_of_le_of_lt hlow hup
  have hm23 : 2 ^ 23 ≤ m := hbits.resolve_right (by omega)
  have hm23' : (2 : ℚ) ^ 23 ≤ m := by exact_mod_cast hm23
  have hdown : (2 : ℚ) ^ (29 + j) ≤ 100 * s.value := by
    rw [hpart,zpow_add₀ (by norm_num)]
    calc (2 : ℚ) ^ (29 : ℤ) * 2 ^ j ≤ (100 * 2 ^ 23) * 2 ^ j := by gcongr; norm_num
      _ = 100 * (2 ^ 23 * 2 ^ j) := by ring
      _ ≤ 100 * (m * 2 ^ j) := by gcongr
  have h2 : 29 + j < 24 + k := by
    rw [← zpow_lt_zpow_iff_right₀ (by norm_num : (1 : ℚ) < 2)]
    exact lt_of_le_of_lt hdown hhigh
  exact ⟨m,p,j,k,hpart,hwhole,⟨hm23,hm⟩,hp,hnear,by omega,hk⟩

/-- In these ranges the finer grid is not too fine for six places. -/
theorem IsHundredfold.place_of_range {s r : Ratio} {m p : ℕ} {j k : ℤ} (h : IsHundredfold s r m p j k)
    (hj : k = j + 7) (hrange : 25 ≤ r.value ∧ r.value ≤ 32 ∨ 50 ≤ r.value) : -17 ≤ k := by
  by_contra hlt
  have hplace := h.place
  have hm : (m : ℚ) ≤ 2 ^ 24 - 1 := by
    rw [le_sub_iff_add_le]
    exact_mod_cast h.part_bits.2
  have hp : (2 : ℚ) ^ 23 < p := by exact_mod_cast h.whole_bits.1
  have hpart : s.value ≤ (2 ^ 24 - 1) * 2 ^ j := by
    rw [h.part]
    gcongr
  have hwhole : (2 : ℚ) ^ 23 * 2 ^ k < r.value := by
    rw [h.whole]
    gcongr
  obtain ⟨-,hnear⟩ := abs_le.1 h.near
  have hk : k = -19 ∨ k = -18 := by omega
  rcases hk with rfl | rfl
  · obtain rfl : j = -26 := by omega
    norm_num at hpart hnear
    rcases hrange with ⟨hlow,-⟩ | hlow
    · linarith
    · linarith
  · obtain rfl : j = -25 := by omega
    norm_num at hpart hnear hwhole
    rcases hrange with ⟨-,hhigh⟩ | hlow
    · linarith
    · linarith

/-- On the coarser grid the hundredth is no power of two either: a hundred of them have no fraction. -/
theorem IsHundredfold.part_lt {s r : Ratio} {m p n : ℕ} {j k : ℤ} (h : IsHundredfold s r m p j k)
    (hn : IsNearest n r) (hfraction : ¬ 1000000 ∣ n) (hj : k = j + 6) : 2 ^ 23 < m := by
  refine lt_of_le_of_ne h.part_bits.1 ?_
  rintro rfl
  have hunit : (0 : ℚ) < 2 ^ k := by positivity
  obtain ⟨h1,h2⟩ := abs_le.1 h.near
  have hpart : 100 * s.value = 13107200 * 2 ^ k := by
    rw [h.part,hj,zpow_add₀ (by norm_num)]
    push_cast
    ring
  rw [hpart,h.whole] at h1 h2
  have hp1 : (13107200 : ℚ) < p + 1 := by nlinarith
  have hp2 : (p : ℚ) < 13107200 + 1 := by nlinarith
  have hp1 : 13107200 < p + 1 := by exact_mod_cast hp1
  have hp2 : p < 13107200 + 1 := by exact_mod_cast hp2
  have hp : p = 25 * 2 ^ 19 := by omega
  have hk := h.place
  refine hn.ne_multiple hfraction (p := 25) (k := 19 + k) (by omega) ?_
  rw [h.whole,hp,zpow_add₀ (by norm_num)]
  push_cast
  ring

namespace IsHundredfold
variable {s r q : Ratio} {m p n : ℕ} {j k : ℤ} (h : IsHundredfold s r m p j k) (hq : 0 < q.den)
  (hclose : |100 * q.value - r.value| < 1 / 1950000)
include h hq hclose

/-- On the coarser grid the hundredth is found again. -/
theorem same_part (hn : IsNearest n r) (hfraction : ¬ 1000000 ∣ n) (hle : r.value ≤ 2147483648)
    (hj : k = j + 6) :
    ∃ t, Format.single.round q = .finite t ∧ 0 < t.den ∧ t.value = s.value := by
  have hk := h.place
  have hm := h.part_lt hn hfraction hj
  have hgrid : (2 : ℚ) ^ k = 64 * 2 ^ j := by
    rw [hj,zpow_add₀ (by norm_num)]
    norm_num
    ring
  have hplace : (2 : ℚ) ^ (-25 : ℤ) ≤ 2 ^ j := zpow_le_zpow_right₀ (by norm_num) (by omega)
  have hunit : (0 : ℚ) < 2 ^ j := by positivity
  obtain ⟨h1,h2⟩ := abs_le.1 h.near
  obtain ⟨h3,h4⟩ := abs_lt.1 hclose
  rw [hgrid] at h1 h2
  norm_num at hplace
  have hnear : |q.value - m * 2 ^ j| < 2 ^ j / 2 := by
    rw [← h.part]
    exact abs_lt.2 ⟨by linarith,by linarith⟩
  have hlimit : (m : ℚ) * 2 ^ j < 2 ^ Format.single.limit := by
    have hpart : (2 : ℚ) ^ 23 * 2 ^ j ≤ s.value := by
      rw [h.part]
      gcongr
      exact_mod_cast hm.le
    rw [← h.part]
    norm_num at hpart
    exact below_limit (by linarith)
  obtain ⟨t,ht,hden,hvalue⟩ := Format.round_near (f := .single) hq (by decide) hm h.part_bits.2
    (by change -(149 : ℤ) ≤ j; omega) hnear hlimit
  exact ⟨t,ht,hden,hvalue.trans h.part.symm⟩

/-- On the finer grid each hundredth that is near enough gives the percentage again. -/
theorem same_whole (hle : r.value ≤ 2147483648) (hj : k = j + 7) (hk : -17 ≤ k) :
    ∃ t, Format.single.round q = .finite t ∧ 0 < t.den ∧
      ∃ r', Format.single.round (t.mul (.ofNat 100)) = .finite r' ∧ 0 < r'.den ∧
        r'.value = r.value := by
  have hgrid : (2 : ℚ) ^ k = 128 * 2 ^ j := by
    rw [hj,zpow_add₀ (by norm_num)]
    norm_num
    ring
  have hplace : (2 : ℚ) ^ (-24 : ℤ) ≤ 2 ^ j := zpow_le_zpow_right₀ (by norm_num) (by omega)
  norm_num at hplace
  obtain ⟨h1,h2⟩ := abs_le.1 h.near
  obtain ⟨h3,h4⟩ := abs_lt.1 hclose
  rw [hgrid] at h1 h2
  have hm : s.value ≤ (2 ^ 24 - 1) * 2 ^ j := by
    have hm : (m : ℚ) + 1 ≤ 2 ^ 24 := by exact_mod_cast h.part_bits.2
    rw [h.part]
    gcongr
    linarith
  have hq' : q.value < 2 ^ (24 + j) := by
    rw [zpow_add₀ (by norm_num)]
    norm_num at hm ⊢
    linarith
  have hbits : k ≤ 31 := by
    rw [← zpow_le_zpow_iff_right₀ (by norm_num : (1 : ℚ) < 2)]
    have hp : (1 : ℚ) ≤ p := by exact_mod_cast (Nat.zero_lt_of_lt h.whole_bits.1)
    calc (2 : ℚ) ^ k ≤ p * 2 ^ k := le_mul_of_one_le_left (by positivity) hp
      _ ≤ 2147483648 := by rwa [← h.whole]
      _ = 2 ^ (31 : ℤ) := by norm_num
  obtain ⟨t,ht,hden,hnear⟩ := Format.single_below hq hq' ⟨by omega,by omega⟩
  have hhalf : (2 : ℚ) ^ (24 + j - 25) = 2 ^ j / 2 := by
    rw [show 24 + j - 25 = j - 1 by ring,zpow_sub_one₀ (by norm_num)]
    ring
  rw [hhalf] at hnear
  obtain ⟨h5,h6⟩ := abs_le.1 hnear
  have hagain : |(t.mul (.ofNat 100)).value - p * 2 ^ k| < 2 ^ k / 2 := by
    rw [value_hundred,← h.whole,hgrid]
    exact abs_lt.2 ⟨by linarith,by linarith⟩
  have hlimit : (p : ℚ) * 2 ^ k < 2 ^ Format.single.limit := by
    rw [← h.whole]
    exact below_limit hle
  obtain ⟨r',hr',hden',hvalue⟩ := Format.round_near (f := .single) (Nat.mul_pos hden Nat.one_pos)
    (by decide) h.whole_bits.1 h.whole_bits.2 (by change -(149 : ℤ) ≤ k; omega) hagain hlimit
  exact ⟨t,ht,hden,r',hr',hden',hvalue.trans h.whole.symm⟩

end IsHundredfold

/-- A percentage with a fraction that is large enough is read again from its decimal. -/
theorem percent_again {s a b : Ratio} {n : ℕ} (hs : IsSingle s) (hden : 0 < s.den)
    (hr : Format.single.round (s.mul (.ofNat 100)) = .finite a) (hle : a.value ≤ 2147483648)
    (hn : IsNearest n a) (hfraction : ¬ 1000000 ∣ n)
    (hrange : 25 ≤ a.value ∧ a.value ≤ 32 ∨ 50 ≤ a.value) (hb : 0 < b.den)
    (hnear : |b.value - n / 1000000| ≤ 1 / 2 ^ 29) :
    ∃ r, Format.single.mul (Format.single.renew (Format.double.divNat (.finite b) 100))
      (.finite (.ofNat 100)) = .finite r ∧ 0 < r.den ∧ r.value = a.value := by
  have hden' : 0 < (s.mul (.ofNat 100)).den := Nat.mul_pos hden Nat.one_pos
  obtain ⟨m,p,j,k,h⟩ := exists_isHundredfold hn hfraction hs hden hr (by
    rcases hrange with ⟨hlow,-⟩ | hlow
    · exact hlow
    · linarith)
  obtain ⟨h1,h2⟩ := abs_le.1 hnear
  obtain ⟨h3,h4⟩ := abs_le.1 hn.near
  have hbelow : b.value < 2 ^ 23 := by
    have hlt := (isSingle_of_round hden' hr).whole_lt hn hfraction
    have hlt : (n : ℚ) + 1 ≤ 2 ^ 23 * 1000000 := by exact_mod_cast hlt
    norm_num at hlt h2 ⊢
    linarith
  obtain ⟨q,hq,hqden,hqnear⟩ := exists_hundredth hb hbelow
  obtain ⟨h5,h6⟩ := abs_le.1 hqnear
  have hclose : |100 * q.value - a.value| < 1 / 1950000 := by
    norm_num at h1 h2 h3 h4 h5 h6 ⊢
    exact abs_lt.2 ⟨by linarith,by linarith⟩
  rcases h.grids with hj | hj
  · obtain ⟨t,ht,htden,hvalue⟩ := h.same_part hqden hclose hn hfraction hle hj
    obtain ⟨r,hr',hrvalue⟩ := Format.round_congr (f := .single) hden' (b := t.mul (.ofNat 100))
      (Nat.mul_pos htden Nat.one_pos) (by rw [value_hundred,value_hundred,hvalue]) hr
    refine ⟨r,?_,Format.round_proper (Nat.mul_pos htden Nat.one_pos) r hr',hrvalue⟩
    rw [hq,Format.renew,ht,Format.mul,hr']
  · obtain ⟨t,ht,-,r,hr',hrden,hvalue⟩ := h.same_whole hqden hclose hle hj (h.place_of_range hj hrange)
    refine ⟨r,?_,hrden,hvalue⟩
    rw [hq,Format.renew,ht,Format.mul,hr']

end StyleExpansion.Decimal
