import StyleExpansion.Proofs.Decimal.Rounding

/-! # Shortest decimals of six places

A decimal of six places that is not too large is told from every other one by its double: the doubles
next to it are nearer than the next decimal. So the shortest decimal that reads back as its double is the
decimal itself, without zeros at its end.
-/
namespace StyleExpansion.Decimal

namespace Scaled

theorem den_ratio_pos (d : Scaled) : 0 < d.ratio.den := Nat.mul_pos Nat.one_pos (Ratio.den_tenPow_pos _)

theorem value_ratio (d : Scaled) : d.ratio.value = d.digits * 10 ^ d.exponent := by
  rw [ratio,Ratio.value_mul,Ratio.value_ofNat,Ratio.value_tenPow]

theorem value_ofMultiple (n : ℕ) (e : ℤ) : (ofMultiple n e).ratio.value = n * 10 ^ e := by
  rw [value_ratio,ofMultiple]
  split
  · next h =>
    obtain ⟨m,rfl⟩ := Nat.dvd_of_mod_eq_zero h
    rw [Nat.mul_div_cancel_left m (by decide),zpow_add_one₀ (by norm_num)]
    push_cast
    ring
  · rfl

def ReadsBack (f : Format) (a : Ratio) (d : Scaled) : Prop :=
  ∃ r, f.round d.ratio = .finite r ∧ r.same a = true

theorem mem_readBack {f : Format} {a : Ratio} {e : ℤ} {d : Scaled} : d ∈ readBack f a e ↔
    (d = ofMultiple ((a.div (.tenPow e)).num / (a.div (.tenPow e)).den) e ∨
      d = ofMultiple ((a.div (.tenPow e)).num / (a.div (.tenPow e)).den + 1) e) ∧
      ReadsBack f a d := by
  rw [readBack,List.mem_filter]
  refine and_congr ?_ ?_
  · split
    · simp
    · simp [or_comm]
  · rw [ReadsBack]
    cases f.round d.ratio <;> simp

theorem digitCounts_increasing : digitCounts.Pairwise (· < ·) := by decide

theorem mem_digitCounts {c : ℕ} : c ∈ digitCounts ↔ 1 ≤ c ∧ c ≤ 17 := by
  simp only [digitCounts,List.mem_cons,List.not_mem_nil,or_false]
  omega

/-- The shortest decimal is found with the least number of digits with which there is one. -/
theorem shortest_mem {f : Format} {a : Ratio} {most : ℕ} (h1 : 1 ≤ most) (h17 : most ≤ 17)
    (hne : readBack f a (width a - most) ≠ []) : ∃ c : ℕ, 1 ≤ c ∧ c ≤ most ∧
      shortest f a ∈ readBack f a (width a - c) ∧
      ∀ b : ℕ, 1 ≤ b → b < c → readBack f a (width a - b) = [] := by
  have hmost : most ∈ digitCounts := mem_digitCounts.2 ⟨h1,h17⟩
  cases hsome : digitCounts.findSome? fun c : ℕ => (readBack f a (width a - c)).head? with
  | none =>
    rw [List.findSome?_eq_none_iff] at hsome
    exact absurd (List.head?_eq_none_iff.1 (hsome most hmost)) hne
  | some d =>
    have hshortest : shortest f a = d := by
      rw [shortest]
      simp only [hsome]
    obtain ⟨before,c,after,hcounts,hc,hnone⟩ := List.findSome?_eq_some_iff.1 hsome
    have hincreasing := digitCounts_increasing
    have hcmem : c ∈ digitCounts := by
      rw [hcounts]
      exact List.mem_append_right _ List.mem_cons_self
    obtain ⟨hc1,hc17⟩ := mem_digitCounts.1 hcmem
    rw [hcounts] at hmost hincreasing
    obtain ⟨-,hafter,-⟩ := List.pairwise_append.1 hincreasing
    have hlater : ∀ b ∈ after, c < b := (List.pairwise_cons.1 hafter).1
    refine ⟨c,hc1,?_,hshortest ▸ List.mem_of_head? hc,?_⟩
    · rcases List.mem_append.1 hmost with hin | hin
      · exact absurd (List.head?_eq_none_iff.1 (hnone most hin)) hne
      · rcases List.mem_cons.1 hin with rfl | hin
        · exact le_rfl
        · exact (hlater most hin).le
    · intro b hb hbc
      have hall : b ∈ before ++ c :: after := by
        rw [← hcounts]
        exact mem_digitCounts.2 ⟨hb,by omega⟩
      rcases List.mem_append.1 hall with hin | hin
      · exact List.head?_eq_none_iff.1 (hnone b hin)
      · rcases List.mem_cons.1 hin with rfl | hin
        · omega
        · have := hlater b hin
          omega

end Scaled

/-! ## Decimals of six places -/

open Scaled

structure IsPlaces (n : ℕ) (r : Ratio) : Prop where
  pos : 0 < n
  small : n ≤ 2147483648000000
  round : Format.double.round ⟨n,1000000⟩ = .finite r

namespace IsPlaces
variable {n : ℕ} {r : Ratio} (h : IsPlaces n r)
include h

theorem near : 0 < r.den ∧ |r.value - n / 1000000| ≤ 1 / 4000000 := by
  have hvalue : (⟨n,1000000⟩ : Ratio).value = n / 1000000 := by simp [Ratio.value]
  have hsmall : (n : ℚ) ≤ 2147483648000000 := by exact_mod_cast h.small
  have hbound : (⟨n,1000000⟩ : Ratio).value < 2 ^ (32 : ℤ) := by
    rw [hvalue]
    norm_num
    linarith
  obtain ⟨s,hs,hden,hnear⟩ := Format.double_below (by simp) hbound (by decide)
  rw [h.round] at hs
  cases hs
  rw [hvalue] at hnear
  refine ⟨hden,hnear.trans ?_⟩
  norm_num

theorem value_pos : 0 < r.value := by
  obtain ⟨-,hnear⟩ := h.near
  have hn : (1 : ℚ) ≤ n := by exact_mod_cast h.pos
  have := (abs_le.1 hnear).1
  linarith

/-- No other decimal of six places reads back as the same double. -/
theorem unique {d : Scaled} (hd : ReadsBack .double r d) {m : ℕ}
    (hm : d.ratio.value = m / 1000000) (hle : d.ratio.value ≤ 2 * r.value) : m = n := by
  obtain ⟨hden,hnear⟩ := h.near
  have hsmall : (n : ℚ) ≤ 2147483648000000 := by exact_mod_cast h.small
  have hbound : d.ratio.value < 2 ^ (33 : ℤ) := by
    have := (abs_le.1 hnear).2
    norm_num
    linarith
  obtain ⟨s,hs,hsden,hsnear⟩ := Format.double_below d.den_ratio_pos hbound (by decide)
  obtain ⟨t,ht,hsame⟩ := hd
  rw [ht] at hs
  cases hs
  rw [(Ratio.same_iff hsden hden).1 hsame,hm] at hsnear
  have hsnear : |r.value - m / 1000000| ≤ 1 / 2000000 := by
    refine hsnear.trans ?_
    norm_num
  have hdist : |((m : ℤ) - (n : ℤ) : ℤ)| < 1 := by
    have hq : |(m : ℚ) - n| < 1 := by
      rw [abs_le] at hnear hsnear
      rw [abs_lt]
      constructor <;> linarith
    exact_mod_cast hq
  have := Int.abs_lt_one_iff.1 hdist
  omega

/-- A multiple of a power of ten that is the decimal itself is found. -/
theorem mem_readBack_of_multiple {m : ℕ} {e : ℤ} (he : -6 ≤ e) (hm : (m : ℚ) * 10 ^ e = n / 1000000) :
    ofMultiple m e ∈ readBack .double r e := by
  obtain ⟨hden,hnear⟩ := h.near
  have hscale : (0 : ℚ) < 10 ^ e := by positivity
  have hpower : (1 : ℚ) / 1000000 ≤ 10 ^ e := by
    calc (1 : ℚ) / 1000000 = 10 ^ (-6 : ℤ) := by norm_num
      _ ≤ 10 ^ e := zpow_le_zpow_right₀ (by norm_num) he
  have hsden : 0 < (r.div (.tenPow e)).den := Nat.mul_pos hden (Ratio.num_tenPow_pos e)
  have hvalue : (r.div (.tenPow e)).value = r.value / 10 ^ e := by
    rw [Ratio.value_div,Ratio.value_tenPow]
  have hdist : |(r.div (.tenPow e)).value - m| < 1 := by
    have hsub : (r.div (.tenPow e)).value - m = (r.value - n / 1000000) / 10 ^ e := by
      rw [hvalue,← hm]
      field_simp
    rw [hsub,abs_div,abs_of_pos hscale,div_lt_one hscale]
    linarith
  obtain ⟨hlow,hhigh⟩ := Ratio.floor_le hsden
  rw [abs_lt] at hdist
  refine mem_readBack.2 ⟨?_,?_⟩
  · have h1 : ((r.div (.tenPow e)).num / (r.div (.tenPow e)).den : ℕ) < m + 1 := by
      exact_mod_cast (by linarith : (((r.div (.tenPow e)).num / (r.div (.tenPow e)).den : ℕ) : ℚ) < m + 1)
    have h2 : m < (r.div (.tenPow e)).num / (r.div (.tenPow e)).den + 2 := by
      exact_mod_cast
        (by linarith : (m : ℚ) < ((r.div (.tenPow e)).num / (r.div (.tenPow e)).den : ℕ) + 2)
    have hcases : m = (r.div (.tenPow e)).num / (r.div (.tenPow e)).den ∨
        m = (r.div (.tenPow e)).num / (r.div (.tenPow e)).den + 1 := by omega
    rcases hcases with hm | hm
    · exact Or.inl (by rw [← hm])
    · exact Or.inr (by rw [← hm])
  · have hsame : (⟨n,1000000⟩ : Ratio).value = (ofMultiple m e).ratio.value := by
      rw [value_ofMultiple,hm]
      simp [Ratio.value]
    obtain ⟨s,hs,hsv⟩ :=
      Format.round_congr (by simp) (den_ratio_pos _) hsame h.round
    exact ⟨s,hs,(Ratio.same_iff (Format.round_proper (den_ratio_pos _) s hs) hden).2 hsv⟩

/-- What is found among the multiples of a power of ten is the decimal itself. -/
theorem of_mem_readBack {d : Scaled} {e : ℤ} (he : -6 ≤ e) (hle : (10 : ℚ) ^ e ≤ r.value)
    (hd : d ∈ readBack .double r e) : ∃ m : ℕ, d = ofMultiple m e ∧ (m : ℚ) * 10 ^ e = n / 1000000 ∧
      (m : ℚ) * 10 ^ e ≤ r.value + 10 ^ e := by
  obtain ⟨hden,-⟩ := h.near
  have hscale : (0 : ℚ) < 10 ^ e := by positivity
  have hsden : 0 < (r.div (.tenPow e)).den := Nat.mul_pos hden (Ratio.num_tenPow_pos e)
  have hlow := (Ratio.floor_le hsden).1
  rw [Ratio.value_div,Ratio.value_tenPow,le_div_iff₀ hscale] at hlow
  obtain ⟨hm,hback⟩ := mem_readBack.1 hd
  obtain ⟨m,rfl,hbound⟩ : ∃ m : ℕ, d = ofMultiple m e ∧ (m : ℚ) * 10 ^ e ≤ r.value + 10 ^ e := by
    rcases hm with hm | hm
    · exact ⟨_,hm,by linarith⟩
    · refine ⟨_,hm,?_⟩
      push_cast
      linarith
  obtain ⟨z,rfl⟩ : ∃ z : ℕ, e = z - 6 := ⟨(e + 6).toNat,by omega⟩
  have hplaces : (m : ℚ) * 10 ^ ((z : ℤ) - 6) = (m * 10 ^ z : ℕ) / 1000000 := by
    rw [zpow_sub₀ (by norm_num),zpow_natCast]
    push_cast
    ring
  have hn : m * 10 ^ z = n :=
    h.unique hback ((value_ofMultiple m _).trans hplaces) (by rw [value_ofMultiple]; linarith)
  exact ⟨m,rfl,by rw [hplaces,hn],hbound⟩

/-- From two millionths on the double has a digit before its seventh place. -/
theorem width_bounds (hn : n ≠ 1) : -6 < width r ∧ width r ≤ 10 := by
  obtain ⟨hden,hnear⟩ := h.near
  obtain ⟨hwlow,hwhigh⟩ := width_spec hden h.value_pos
  rw [abs_le] at hnear
  have hn2 : (2 : ℚ) ≤ n := by
    have := h.pos
    exact_mod_cast (by omega : 2 ≤ n)
  have hsmall : (n : ℚ) ≤ 2147483648000000 := by exact_mod_cast h.small
  have hlow : -6 < width r := by
    rw [← zpow_lt_zpow_iff_right₀ (by norm_num : (1 : ℚ) < 10)]
    refine lt_of_le_of_lt ?_ hwhigh
    norm_num
    linarith
  have hhigh : width r - 1 < 10 := by
    rw [← zpow_lt_zpow_iff_right₀ (by norm_num : (1 : ℚ) < 10)]
    refine lt_of_le_of_lt hwlow ?_
    norm_num
    linarith
  exact ⟨hlow,by omega⟩

end IsPlaces

theorem round_millionth :
    Format.double.round ⟨1,1000000⟩ = .finite ⟨4722366482869645,4722366482869645213696⟩ ∧
    shortest .double ⟨4722366482869645,4722366482869645213696⟩ = ⟨1,-6⟩ := by decide +kernel

/-- With one digit the decimal ends with a zero only if it is ten. -/
theorem eq_one_of_single_digit {q : ℕ} {x u : ℚ} (hu : 0 < u) (hq : q ≠ 0)
    (hbound : ((10 * q : ℕ) : ℚ) * u ≤ x + u) (hten : x < 10 * u) : q = 1 := by
  have hlt : (q : ℚ) < 2 := by
    push_cast at hbound
    nlinarith
  have hlt : q < 2 := by exact_mod_cast hlt
  omega

/-- The shortest decimal of a double nearest to a decimal of six places is that decimal. -/
theorem IsPlaces.shortest {n : ℕ} {r : Ratio} (h : IsPlaces n r) :
    (shortest .double r).digits % 10 ≠ 0 ∧ (shortest .double r).ratio.value = n / 1000000 := by
  by_cases hn : n = 1
  · subst hn
    have hround := h.round
    rw [round_millionth.1] at hround
    cases hround
    rw [round_millionth.2,value_ratio]
    norm_num
  obtain ⟨hlow,hhigh⟩ := h.width_bounds hn
  obtain ⟨hwlow,hwhigh⟩ := width_spec h.near.1 h.value_pos
  obtain ⟨six,hsix⟩ : ∃ six : ℕ, (six : ℤ) = width r + 6 := ⟨(width r + 6).toNat,by omega⟩
  have hplaces : ofMultiple n (width r - six) ∈ readBack .double r (width r - six) := by
    refine h.mem_readBack_of_multiple (by omega) ?_
    rw [hsix,sub_add_cancel_left]
    norm_num
    ring
  obtain ⟨c,hc1,hcsix,hfound,hearlier⟩ :=
    shortest_mem (by omega) (by omega) (List.ne_nil_of_mem hplaces)
  have hle : (10 : ℚ) ^ (width r - c) ≤ r.value :=
    (zpow_le_zpow_right₀ (by norm_num) (by omega)).trans hwlow
  obtain ⟨m,hd,hm,hbound⟩ := h.of_mem_readBack (by omega) hle hfound
  rw [hd]
  refine ⟨?_,(value_ofMultiple m _).trans hm⟩
  rw [ofMultiple]
  split
  · next hzero =>
    obtain ⟨q,rfl⟩ := Nat.dvd_of_mod_eq_zero hzero
    rw [Nat.mul_div_cancel_left q (by decide)]
    have hq : (q : ℚ) * 10 ^ (width r - c + 1) = n / 1000000 := by
      rw [← hm,zpow_add_one₀ (by norm_num)]
      push_cast
      ring
    rcases hc1.eq_or_lt with rfl | hc1
    · have hten : r.value < 10 * 10 ^ (width r - (1 : ℕ)) := by
        have hnext : (10 : ℚ) ^ width r = 10 * 10 ^ (width r - (1 : ℕ)) := by
          rw [← zpow_one_add₀ (by norm_num)]
          congr 1
          push_cast
          ring
        rwa [← hnext]
      have hpos : q ≠ 0 := by
        rintro rfl
        have := h.pos
        have hzero : (n : ℚ) ≠ 0 := by exact_mod_cast this.ne'
        simp only [Nat.cast_zero,zero_mul] at hq
        exact hzero (by linarith)
      simp [eq_one_of_single_digit (by positivity) hpos hbound hten]
    · -- a multiple of the next power of ten would have been found before
      have hprevious : width r - (c - 1 : ℕ) = width r - c + 1 := by omega
      have hin := h.mem_readBack_of_multiple (m := q) (e := width r - (c - 1 : ℕ)) (by omega)
        (by rw [hprevious,hq])
      rw [hearlier (c - 1) (by omega) (by omega)] at hin
      cases hin
  · next hzero => exact hzero

end StyleExpansion.Decimal
