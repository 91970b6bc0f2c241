import StyleExpansion.Proofs.Decimal.Ratio

/-! # Rounding

Rounding to a format gives a multiple of a power of two, the last place that the format keeps, and is off
by half of that place at most. A ratio that is such a multiple itself is kept; one that is nearer than half
a place to a multiple with all bits in use becomes that multiple.
-/
namespace StyleExpansion.Decimal

def Magnitude.IsProper (m : Magnitude) : Prop := ∀ a, m = .finite a → 0 < a.den

theorem Magnitude.isProper_finite {a : Ratio} (h : 0 < a.den) : (finite a).IsProper := by
  rintro _ ⟨⟩
  exact h

namespace Format
variable {f : Format} {a b r : Ratio}

def place (f : Format) (a : Ratio) : ℤ := max (a.exponent - (f.bits - 1 : ℕ)) (-(f.least : ℤ))

def multiple (f : Format) (a : Ratio) : ℕ := (a.div (.twoPow (f.place a))).nearestEven

/-! ## The last place -/

theorem div_twoPow (ha : 0 < a.den) (k : ℤ) :
    0 < (a.div (.twoPow k)).den ∧ (a.div (.twoPow k)).value = a.value / 2 ^ k :=
  ⟨Nat.mul_pos ha (Ratio.num_twoPow_pos k),by rw [Ratio.value_div,Ratio.value_twoPow]⟩

theorem multiple_near (ha : 0 < a.den) :
    |(f.multiple a : ℚ) * 2 ^ f.place a - a.value| ≤ 2 ^ f.place a / 2 := by
  obtain ⟨hden,hvalue⟩ := div_twoPow ha (f.place a)
  have hunit : (0 : ℚ) < 2 ^ f.place a := by positivity
  have hnear := Ratio.nearestEven_near hden
  rw [hvalue] at hnear
  calc |(f.multiple a : ℚ) * 2 ^ f.place a - a.value|
      = |((f.multiple a : ℚ) - a.value / 2 ^ f.place a) * 2 ^ f.place a| := by
        congr 1
        field_simp
    _ = |(f.multiple a : ℚ) - a.value / 2 ^ f.place a| * 2 ^ f.place a := by
        rw [abs_mul,abs_of_pos hunit]
    _ ≤ 1 / 2 * 2 ^ f.place a := by
        gcongr
        exact hnear
    _ = 2 ^ f.place a / 2 := by ring

theorem place_le (ha : 0 < a.den) (hpos : 0 < a.value) (hbits : 0 < f.bits) {k : ℤ}
    (h : a.value < 2 ^ k) (hk : -(f.least : ℤ) ≤ k - f.bits) : f.place a ≤ k - f.bits := by
  have hexp : a.exponent < k := by
    rw [← zpow_lt_zpow_iff_right₀ (by norm_num : (1 : ℚ) < 2)]
    exact lt_of_le_of_lt (Ratio.exponent_spec ha hpos).1 h
  rw [place]
  omega

/-! ## What rounding gives -/

theorem round_of_zero (ha : 0 < a.den) (h : a.value = 0) : f.round a = .finite (.ofNat 0) := by
  rw [round,if_pos ((Ratio.isZero_iff ha).2 h)]

theorem round_of_pos (ha : 0 < a.den) (hpos : 0 < a.value) :
    (2 : ℚ) ^ f.limit ≤ f.multiple a * 2 ^ f.place a ∧ f.round a = .infinite ∨
    (f.multiple a : ℚ) * 2 ^ f.place a < 2 ^ f.limit ∧ ∃ r, f.round a = .finite r ∧ 0 < r.den ∧
      r.value = f.multiple a * 2 ^ f.place a := by
  have hzero : a.isZero ≠ true := fun h => hpos.ne' ((Ratio.isZero_iff ha).1 h)
  let r := (Ratio.ofNat (f.multiple a)).mul (.twoPow (f.place a))
  have hden : 0 < r.den := Nat.mul_pos Nat.one_pos (Ratio.den_twoPow_pos _)
  have hvalue : r.value = f.multiple a * 2 ^ f.place a := by
    rw [Ratio.value_mul,Ratio.value_ofNat,Ratio.value_twoPow]
  have hlimit : (Ratio.ofNat (Nat.pow 2 f.limit)).le r = true ↔
      (2 : ℚ) ^ f.limit ≤ f.multiple a * 2 ^ f.place a := by
    rw [Ratio.le_iff Nat.one_pos hden,Ratio.value_ofNat,hvalue]
    norm_cast
  have hround : f.round a = if (Ratio.ofNat (Nat.pow 2 f.limit)).le r then .infinite
      else .finite r := by
    rw [round,if_neg hzero]
    rfl
  rw [hround]
  by_cases h : (Ratio.ofNat (Nat.pow 2 f.limit)).le r = true
  · exact Or.inl ⟨hlimit.1 h,if_pos h⟩
  · exact Or.inr ⟨lt_of_not_ge fun hge => h (hlimit.2 hge),r,if_neg h,hden,hvalue⟩

theorem round_proper (ha : 0 < a.den) : (f.round a).IsProper := by
  intro r hr
  rcases (Ratio.value_nonneg a).eq_or_lt with h | h
  · rw [round_of_zero ha h.symm] at hr
    cases hr
    exact Nat.one_pos
  · rcases round_of_pos (f := f) ha h with ⟨-,hinf⟩ | ⟨-,s,hs,hden,-⟩
    · rw [hinf] at hr
      cases hr
    · rw [hs] at hr
      cases hr
      exact hden

theorem renew_proper {m : Magnitude} (hm : m.IsProper) : (f.renew m).IsProper := by
  cases m with
  | undefined => nofun
  | infinite => nofun
  | finite a => exact round_proper (hm a rfl)

theorem add_proper {m n : Magnitude} (hm : m.IsProper) (hn : n.IsProper) : (f.add m n).IsProper := by
  unfold add
  split
  · exact round_proper (Nat.mul_pos (hm _ rfl) (hn _ rfl))
  all_goals nofun

theorem mul_proper {m n : Magnitude} (hm : m.IsProper) (hn : n.IsProper) : (f.mul m n).IsProper := by
  unfold mul
  split
  · exact round_proper (Nat.mul_pos (hm _ rfl) (hn _ rfl))
  · split <;> nofun
  · split <;> nofun
  all_goals nofun

theorem divNat_proper {m : Magnitude} (hm : m.IsProper) {n : ℕ} (hn : 0 < n) :
    (f.divNat m n).IsProper := by
  cases m with
  | undefined => nofun
  | infinite => nofun
  | finite a => exact round_proper (Nat.mul_pos (hm a rfl) hn)

theorem tenPow_proper (e : ℤ) : (f.tenPow e).IsProper := by
  unfold tenPow
  split
  · nofun
  · split
    · exact Magnitude.isProper_finite Nat.one_pos
    · exact round_proper (Ratio.den_tenPow_pos e)

theorem round_congr (ha : 0 < a.den) (hb : 0 < b.den) (h : a.value = b.value)
    (hr : f.round a = .finite r) : ∃ s, f.round b = .finite s ∧ s.value = r.value := by
  rcases (Ratio.value_nonneg a).eq_or_lt with hzero | hpos
  · rw [round_of_zero ha hzero.symm] at hr
    cases hr
    exact ⟨_,round_of_zero hb (h ▸ hzero.symm),rfl⟩
  · have hplace : f.place a = f.place b := by rw [place,place,Ratio.exponent_congr ha hb hpos h]
    have hmultiple : f.multiple a = f.multiple b := by
      obtain ⟨hda,hva⟩ := div_twoPow ha (f.place a)
      obtain ⟨hdb,hvb⟩ := div_twoPow hb (f.place b)
      exact Ratio.nearestEven_congr hda hdb (by rw [hva,hvb,h,hplace])
    rcases round_of_pos (f := f) ha hpos with ⟨-,hinf⟩ | ⟨hlimit,s,hs,-,hvalue⟩
    · rw [hinf] at hr
      cases hr
    rw [hs] at hr
    cases hr
    rcases round_of_pos (f := f) hb (h ▸ hpos) with ⟨hbig,-⟩ | ⟨-,t,ht,-,htv⟩
    · rw [← hmultiple,← hplace] at hbig
      exact absurd hbig (not_le.2 hlimit)
    · exact ⟨t,ht,by rw [htv,hvalue,hmultiple,hplace]⟩

/-- A ratio below a power of two within the limit is rounded to one that is off by half of the last place
below that power at most. -/
theorem round_below (ha : 0 < a.den) (hbits : 0 < f.bits) {k : ℤ} (h : a.value < 2 ^ k)
    (hk : -(f.least : ℤ) ≤ k - f.bits) (hlimit : k < f.limit) :
    ∃ r, f.round a = .finite r ∧ 0 < r.den ∧ |r.value - a.value| ≤ 2 ^ (k - f.bits) / 2 := by
  rcases (Ratio.value_nonneg a).eq_or_lt with hzero | hpos
  · refine ⟨_,round_of_zero ha hzero.symm,Nat.one_pos,?_⟩
    rw [Ratio.value_ofNat,← hzero]
    simp
    positivity
  · have hnear := multiple_near (f := f) ha
    have hplace : (2 : ℚ) ^ f.place a ≤ 2 ^ (k - f.bits) :=
      zpow_le_zpow_right₀ (by norm_num) (place_le ha hpos hbits h hk)
    rcases round_of_pos (f := f) ha hpos with ⟨hbig,-⟩ | ⟨-,r,hr,hden,hvalue⟩
    · have hsmall : (2 : ℚ) ^ (k - f.bits) ≤ 2 ^ k := zpow_le_zpow_right₀ (by norm_num) (by omega)
      have htwice : (2 : ℚ) ^ k * 2 ≤ 2 ^ f.limit := by
        rw [← zpow_add_one₀ (by norm_num),← zpow_natCast]
        exact zpow_le_zpow_right₀ (by norm_num) (by omega)
      have := (abs_le.1 hnear).2
      linarith
    · refine ⟨r,hr,hden,?_⟩
      rw [hvalue]
      linarith

/-- What rounding gives has few enough bits, and all of them are in use unless it is tiny. -/
theorem round_representable (ha : 0 < a.den) (hbits : 0 < f.bits) (hpos : 0 < a.value)
    (hr : f.round a = .finite r) : ∃ (n : ℕ) (k : ℤ), r.value = n * 2 ^ k ∧ n < 2 ^ f.bits ∧
      -(f.least : ℤ) ≤ k ∧ (2 ^ (f.bits - 1) ≤ n ∨ k = -(f.least : ℤ)) := by
  rcases round_of_pos (f := f) ha hpos with ⟨-,hinf⟩ | ⟨-,s,hs,-,hvalue⟩
  · rw [hinf] at hr
    cases hr
  rw [hs] at hr
  cases hr
  obtain ⟨hlow,hhigh⟩ := Ratio.exponent_spec ha hpos
  have hunit : (0 : ℚ) < 2 ^ f.place a := by positivity
  obtain ⟨hdown,hup⟩ := abs_le.1 (multiple_near (f := f) ha)
  have htop : f.multiple a ≤ 2 ^ f.bits := by
    have hexp : a.exponent + 1 ≤ f.bits + f.place a := by
      rw [place]
      omega
    have hval : a.value < 2 ^ f.bits * 2 ^ f.place a := by
      refine lt_of_lt_of_le hhigh ?_
      rw [← zpow_natCast,← zpow_add₀ (by norm_num)]
      exact zpow_le_zpow_right₀ (by norm_num) hexp
    have hlt : (f.multiple a : ℚ) < 2 ^ f.bits + 1 := by nlinarith
    exact Nat.lt_succ_iff.1 (by exact_mod_cast hlt)
  have hbottom : 2 ^ (f.bits - 1) ≤ f.multiple a ∨ f.place a = -(f.least : ℤ) := by
    by_cases htiny : f.place a = -(f.least : ℤ)
    · exact Or.inr htiny
    · have hplace : a.exponent = (f.bits - 1 : ℕ) + f.place a := by
        rw [place] at htiny ⊢
        omega
      rw [hplace,zpow_add₀ (by norm_num),zpow_natCast] at hlow
      have hlt : (2 : ℚ) ^ (f.bits - 1) < f.multiple a + 1 := by nlinarith
      exact Or.inl (Nat.lt_succ_iff.1 (by exact_mod_cast hlt))
  have hleast : -(f.least : ℤ) ≤ f.place a := le_max_right _ _
  rcases htop.eq_or_lt with htop | htop
  · have hhalf : 2 ^ f.bits = 2 ^ (f.bits - 1) * 2 := by
      rw [← pow_succ,Nat.sub_add_cancel hbits]
    refine ⟨2 ^ (f.bits - 1),f.place a + 1,?_,?_,by omega,Or.inl le_rfl⟩
    · rw [hvalue,htop,hhalf,zpow_add_one₀ (by norm_num)]
      push_cast
      ring
    · have : 0 < 2 ^ (f.bits - 1) := by positivity
      omega
  · exact ⟨f.multiple a,f.place a,hvalue,htop,hleast,hbottom⟩

/-! ## What is kept -/

/-- What is nearer than half a place to a multiple of the last place is that multiple of it. -/
theorem multiple_eq (ha : 0 < a.den) {n : ℕ} (h : |a.value - n * 2 ^ f.place a| < 2 ^ f.place a / 2) :
    f.multiple a = n := by
  obtain ⟨hden,hvalue⟩ := div_twoPow ha (f.place a)
  have hunit : (0 : ℚ) < 2 ^ f.place a := by positivity
  refine Ratio.nearestEven_eq hden ?_
  rw [hvalue]
  have hscale : a.value / 2 ^ f.place a - n = (a.value - n * 2 ^ f.place a) / 2 ^ f.place a := by
    field_simp
  rw [hscale,abs_div,abs_of_pos hunit,div_lt_iff₀ hunit]
  linarith

theorem round_exact (ha : 0 < a.den) {n : ℕ} {k : ℤ} (hvalue : a.value = n * 2 ^ k)
    (hn : n < 2 ^ f.bits) (hk : -(f.least : ℤ) ≤ k) (hlimit : a.value < 2 ^ f.limit) :
    ∃ r, f.round a = .finite r ∧ 0 < r.den ∧ r.value = a.value := by
  rcases (Ratio.value_nonneg a).eq_or_lt with h | h
  · refine ⟨_,round_of_zero ha h.symm,Nat.one_pos,?_⟩
    rw [Ratio.value_ofNat,← h]
    rfl
  · obtain ⟨hlow,-⟩ := Ratio.exponent_spec ha h
    have hexp : a.exponent < f.bits + k := by
      rw [← zpow_lt_zpow_iff_right₀ (by norm_num : (1 : ℚ) < 2)]
      refine lt_of_le_of_lt hlow ?_
      rw [hvalue,zpow_add₀ (by norm_num),zpow_natCast]
      gcongr
      exact_mod_cast hn
    have hplace : f.place a ≤ k := by
      rw [place]
      omega
    obtain ⟨d,hd⟩ : ∃ d : ℕ, k = f.place a + d := ⟨(k - f.place a).toNat,by omega⟩
    have hmul : a.value = ((n * 2 ^ d : ℕ) : ℚ) * 2 ^ f.place a := by
      rw [hvalue,hd,zpow_add₀ (by norm_num)]
      push_cast
      rw [zpow_natCast]
      ring
    have hm : f.multiple a = n * 2 ^ d := by
      refine multiple_eq ha ?_
      rw [← hmul,sub_self,abs_zero]
      positivity
    rcases round_of_pos (f := f) ha h with ⟨hbig,-⟩ | ⟨-,r,hr,hden,hrv⟩
    · rw [hm,← hmul] at hbig
      exact absurd hbig (not_le.2 hlimit)
    · exact ⟨r,hr,hden,by rw [hrv,hm,← hmul]⟩

/-- What is nearer than half a place to a ratio with all bits in use, and no power of two, is rounded to
that ratio. -/
theorem round_near (ha : 0 < a.den) {n : ℕ} {k : ℤ} (hbits : 0 < f.bits) (hn : 2 ^ (f.bits - 1) < n)
    (hn' : n < 2 ^ f.bits) (hk : -(f.least : ℤ) ≤ k) (hnear : |a.value - n * 2 ^ k| < 2 ^ k / 2)
    (hlimit : (n : ℚ) * 2 ^ k < 2 ^ f.limit) :
    ∃ r, f.round a = .finite r ∧ 0 < r.den ∧ r.value = n * 2 ^ k := by
  have hunit : (0 : ℚ) < 2 ^ k := by positivity
  obtain ⟨hclose,hclose'⟩ := abs_lt.1 hnear
  have hn1 : (2 : ℚ) ^ (f.bits - 1 : ℕ) + 1 ≤ n := by exact_mod_cast hn
  have hn2 : (n : ℚ) + 1 ≤ 2 ^ f.bits := by exact_mod_cast hn'
  have hlow : (2 : ℚ) ^ ((f.bits - 1 : ℕ) + k) ≤ a.value := by
    rw [zpow_add₀ (by norm_num),zpow_natCast]
    nlinarith
  have hhigh : a.value < (2 : ℚ) ^ ((f.bits : ℤ) + k) := by
    rw [zpow_add₀ (by norm_num),zpow_natCast]
    nlinarith
  have hpos : 0 < a.value := lt_of_lt_of_le (by positivity) hlow
  obtain ⟨he,he'⟩ := Ratio.exponent_spec ha hpos
  have h1 : ((f.bits - 1 : ℕ) : ℤ) + k < a.exponent + 1 := by
    rw [← zpow_lt_zpow_iff_right₀ (by norm_num : (1 : ℚ) < 2)]
    exact lt_of_le_of_lt hlow he'
  have h2 : a.exponent < f.bits + k := by
    rw [← zpow_lt_zpow_iff_right₀ (by norm_num : (1 : ℚ) < 2)]
    exact lt_of_le_of_lt he hhigh
  have hplace : f.place a = k := by
    rw [place]
    omega
  have hm : f.multiple a = n := by
    refine multiple_eq ha ?_
    rwa [hplace]
  rcases round_of_pos (f := f) ha hpos with ⟨hbig,-⟩ | ⟨-,r,hr,hden,hrv⟩
  · rw [hm,hplace] at hbig
    exact absurd hbig (not_le.2 hlimit)
  · exact ⟨r,hr,hden,by rw [hrv,hm,hplace]⟩

/-! ## The two formats -/

theorem double_below (ha : 0 < a.den) {k : ℤ} (h : a.value < 2 ^ k) (hk : -1021 ≤ k ∧ k < 1024) :
    ∃ r, double.round a = .finite r ∧ 0 < r.den ∧ |r.value - a.value| ≤ 2 ^ (k - 54) := by
  have hhalf : (2 : ℚ) ^ (k - (double.bits : ℤ)) / 2 = 2 ^ (k - 54) := by
    rw [div_eq_iff (by norm_num),← zpow_add_one₀ (by norm_num)]
    congr 1
    change k - 53 = k - 54 + 1
    ring
  rw [← hhalf]
  refine round_below ha (by decide) h ?_ ?_
  · change -1074 ≤ k - 53
    omega
  · change k < 1024
    omega

theorem single_below (ha : 0 < a.den) {k : ℤ} (h : a.value < 2 ^ k) (hk : -125 ≤ k ∧ k < 128) :
    ∃ r, single.round a = .finite r ∧ 0 < r.den ∧ |r.value - a.value| ≤ 2 ^ (k - 25) := by
  have hhalf : (2 : ℚ) ^ (k - (single.bits : ℤ)) / 2 = 2 ^ (k - 25) := by
    rw [div_eq_iff (by norm_num),← zpow_add_one₀ (by norm_num)]
    congr 1
    change k - 24 = k - 25 + 1
    ring
  rw [← hhalf]
  refine round_below ha (by decide) h ?_ ?_
  · change -149 ≤ k - 24
    omega
  · change k < 128
    omega

theorem double_natural (ha : 0 < a.den) {n : ℕ} (h : a.value = n) (hn : n < 2 ^ 53) :
    ∃ r, double.round a = .finite r ∧ 0 < r.den ∧ r.value = n := by
  obtain ⟨r,hr,hden,hvalue⟩ := round_exact (f := double) ha (n := n) (k := 0) (by simpa using h) hn
    (by decide) (by
      rw [h]
      calc (n : ℚ) < 2 ^ 53 := by exact_mod_cast hn
        _ ≤ 2 ^ double.limit := pow_le_pow_right₀ (by norm_num) (by decide))
  exact ⟨r,hr,hden,hvalue.trans h⟩

end Format

end StyleExpansion.Decimal
