import StyleExpansion.Decimal.Numeral
import StyleExpansion.Proofs.Decimal.Rounding

/-! # Magnitudes of numerals

The digits before the point are taken in exactly while they fit the format; those after it with an error
that is far below the sixth place.
-/
namespace StyleExpansion.Decimal.Numeral

theorem ofDigits_concat (ds : List ℕ) (d : ℕ) : ofDigits (ds ++ [d]) = 10 * ofDigits ds + d := by
  rw [ofDigits,List.foldl_append]
  rfl

theorem ofDigits_append (ds es : List ℕ) :
    ofDigits (ds ++ es) = ofDigits ds * 10 ^ es.length + ofDigits es := by
  induction es using List.reverseRecOn with
  | nil => simp [ofDigits]
  | append_singleton es d ih =>
    rw [← List.append_assoc,ofDigits_concat,ih,ofDigits_concat,List.length_append,
      List.length_singleton,pow_succ]
    ring

theorem ofDigits_replicate_zero_append (k : ℕ) (ds : List ℕ) :
    ofDigits (List.replicate k 0 ++ ds) = ofDigits ds := by
  induction k with
  | zero => rfl
  | succ k ih => exact ih

theorem ofDigits_lt {ds : List ℕ} (h : ∀ d ∈ ds, d ≤ 9) : ofDigits ds < 10 ^ ds.length := by
  induction ds using List.reverseRecOn with
  | nil => decide
  | append_singleton ds d ih =>
    have hd := h d (by simp)
    have hds := ih fun c hc => h c (by simp [hc])
    rw [ofDigits_concat,List.length_append,List.length_singleton,pow_succ]
    omega

theorem wholePart_append (ds : List ℕ) (d : ℕ) : wholePart (ds ++ [d]) =
    Format.double.add (Format.double.mul (wholePart ds) (.finite (.ofNat 10))) (.finite (.ofNat d)) := by
  rw [wholePart,List.foldl_append]
  rfl

theorem wholePart_exact {ds : List ℕ} (h : ofDigits ds < 2 ^ 53) :
    ∃ m, wholePart ds = .finite m ∧ 0 < m.den ∧ m.value = ofDigits ds := by
  induction ds using List.reverseRecOn with
  | nil => exact ⟨_,rfl,Nat.one_pos,by rw [Ratio.value_ofNat]; rfl⟩
  | append_singleton ds d ih =>
    rw [ofDigits_concat] at h ⊢
    obtain ⟨m,hm,hden,hvalue⟩ := ih (by omega)
    obtain ⟨p,hp,hpden,hpvalue⟩ := Format.double_natural (a := m.mul (.ofNat 10))
      (n := 10 * ofDigits ds) (Nat.mul_pos hden Nat.one_pos)
      (by rw [Ratio.value_mul,hvalue,Ratio.value_ofNat]; push_cast; ring) (by omega)
    obtain ⟨s,hs,hsden,hsvalue⟩ := Format.double_natural (a := p.add (.ofNat d))
      (n := 10 * ofDigits ds + d) (Nat.mul_pos hpden Nat.one_pos)
      (by rw [Ratio.value_add hpden Nat.one_pos,hpvalue,Ratio.value_ofNat]; push_cast; ring) h
    refine ⟨s,?_,hsden,hsvalue⟩
    rw [wholePart_append,hm,Format.mul,hp,Format.add,hs]

def fractionSteps (ds : List ℕ) : Magnitude × Magnitude :=
  ds.foldl (fun p d => (Format.double.add p.1 (Format.double.mul (.finite (.ofNat d)) p.2),
    Format.double.mul p.2 (Format.double.round ⟨1,10⟩))) (.finite (.ofNat 0),Format.double.round ⟨1,10⟩)

theorem fractionPart_eq (ds : List ℕ) : fractionPart ds = (fractionSteps ds).1 := rfl

theorem fractionSteps_nil :
    fractionSteps [] = (.finite (.ofNat 0),Format.double.round ⟨1,10⟩) := rfl

theorem fractionSteps_append (ds : List ℕ) (d : ℕ) : fractionSteps (ds ++ [d]) =
    (Format.double.add (fractionSteps ds).1
      (Format.double.mul (.finite (.ofNat d)) (fractionSteps ds).2),
      Format.double.mul (fractionSteps ds).2 (Format.double.round ⟨1,10⟩)) := by
  rw [fractionSteps,List.foldl_append]
  rfl

theorem exists_tenth :
    ∃ t, Format.double.round ⟨1,10⟩ = .finite t ∧ 0 < t.den ∧ |t.value - 1 / 10| ≤ 1 / 2 ^ 57 := by
  have hvalue : (⟨1,10⟩ : Ratio).value = 1 / 10 := by simp [Ratio.value]
  have hbound : (⟨1,10⟩ : Ratio).value < 2 ^ (-3 : ℤ) := by
    rw [hvalue]
    norm_num
  obtain ⟨t,ht,hden,hnear⟩ := Format.double_below (by simp) hbound (by decide)
  rw [hvalue] at hnear
  refine ⟨t,ht,hden,hnear.trans ?_⟩
  norm_num

theorem next_tenth {t w : Ratio} {u : ℚ} {n : ℕ} (htden : 0 < t.den) (hwden : 0 < w.den) (hu : 0 ≤ u)
    (hu' : u ≤ 1 / 10) (hn : n ≤ 6) (ht : |t.value - u| ≤ n / 2 ^ 50)
    (hw : |w.value - 1 / 10| ≤ 1 / 2 ^ 57) : ∃ r, Format.double.mul (.finite t) (.finite w) = .finite r ∧
      0 < r.den ∧ |r.value - u / 10| ≤ (n + 1) / 2 ^ 50 := by
  have hn' : (n : ℚ) ≤ 6 := by exact_mod_cast hn
  obtain ⟨ht1,ht2⟩ := abs_le.1 ht
  obtain ⟨hw1,hw2⟩ := abs_le.1 hw
  have hw0 := Ratio.value_nonneg w
  have hw5 : w.value ≤ 1 / 5 := by linarith
  have hproduct : |t.value * w.value - u / 10| ≤ n / 2 ^ 50 * (1 / 5) + 1 / 10 * (1 / 2 ^ 57) := by
    calc |t.value * w.value - u / 10|
        = |(t.value - u) * w.value + u * (w.value - 1 / 10)| := by
          congr 1
          ring
      _ ≤ |(t.value - u) * w.value| + |u * (w.value - 1 / 10)| := abs_add_le _ _
      _ = |t.value - u| * w.value + u * |w.value - 1 / 10| := by
          rw [abs_mul,abs_mul,abs_of_nonneg hw0,abs_of_nonneg hu]
      _ ≤ n / 2 ^ 50 * (1 / 5) + 1 / 10 * (1 / 2 ^ 57) := by gcongr
  obtain ⟨h1,h2⟩ := abs_le.1 hproduct
  have hbound : (t.mul w).value < 2 ^ (-3 : ℤ) := by
    rw [Ratio.value_mul]
    norm_num
    linarith
  obtain ⟨r,hr,hden,hnear⟩ := Format.double_below (Nat.mul_pos htden hwden) hbound (by decide)
  rw [Ratio.value_mul] at hnear
  have hnear : |r.value - t.value * w.value| ≤ 1 / 2 ^ 57 := hnear.trans (by norm_num)
  obtain ⟨h3,h4⟩ := abs_le.1 hnear
  refine ⟨r,hr,hden,abs_le.2 ⟨?_,?_⟩⟩
  · linarith
  · linarith

theorem add_digit {s t : Ratio} {q u : ℚ} {d n : ℕ} (hsden : 0 < s.den) (htden : 0 < t.den) (hu : 0 ≤ u)
    (hu' : u ≤ 1 / 10) (hd : d ≤ 9) (hn : n ≤ 5) (hq : q + d * u < 1)
    (hs : |s.value - q| ≤ n / 2 ^ 43) (ht : |t.value - u| ≤ (n + 1) / 2 ^ 50) :
    ∃ r, Format.double.add (.finite s) (Format.double.mul (.finite (.ofNat d)) (.finite t)) = .finite r ∧
      0 < r.den ∧ |r.value - (q + d * u)| ≤ (n + 1) / 2 ^ 43 := by
  have hd' : (d : ℚ) ≤ 9 := by exact_mod_cast hd
  have hn' : (n : ℚ) ≤ 5 := by exact_mod_cast hn
  have hproduct : |d * t.value - d * u| ≤ 54 / 2 ^ 50 := by
    calc |d * t.value - d * u| = d * |t.value - u| := by
          rw [← mul_sub,abs_mul,Nat.abs_cast]
      _ ≤ 9 * ((n + 1) / 2 ^ 50) := by gcongr
      _ ≤ 54 / 2 ^ 50 := by linarith
  have hdu : d * u ≤ 9 * (1 / 10) := by gcongr
  have hvalue : (Ratio.mul (.ofNat d) t).value = d * t.value := by
    rw [Ratio.value_mul,Ratio.value_ofNat]
  obtain ⟨h1,h2⟩ := abs_le.1 hproduct
  obtain ⟨p,hp,hpden,hpnear⟩ := Format.double_below (a := Ratio.mul (.ofNat d) t) (k := 0)
    (Nat.mul_pos Nat.one_pos htden) (by rw [hvalue]; norm_num; linarith) (by decide)
  rw [hvalue] at hpnear
  have hpnear : |p.value - d * t.value| ≤ 1 / 2 ^ 54 := hpnear.trans (by norm_num)
  obtain ⟨h3,h4⟩ := abs_le.1 hpnear
  obtain ⟨h5,h6⟩ := abs_le.1 hs
  obtain ⟨r,hr,hden,hnear⟩ := Format.double_below (a := s.add p) (k := 1) (Nat.mul_pos hsden hpden)
    (by rw [Ratio.value_add hsden hpden]; norm_num; linarith) (by decide)
  rw [Ratio.value_add hsden hpden] at hnear
  have hnear : |r.value - (s.value + p.value)| ≤ 1 / 2 ^ 53 := hnear.trans (by norm_num)
  obtain ⟨h7,h8⟩ := abs_le.1 hnear
  refine ⟨r,?_,hden,abs_le.2 ⟨?_,?_⟩⟩
  · rw [Format.mul,hp,Format.add,hr]
  · linarith
  · linarith

/-- Each digit after the point adds a little more to the error. -/
theorem fractionSteps_near {ds : List ℕ} (h : ∀ d ∈ ds, d ≤ 9) (hlen : ds.length ≤ 6) :
    ∃ s t, fractionSteps ds = (.finite s,.finite t) ∧ 0 < s.den ∧ 0 < t.den ∧
      |s.value - ofDigits ds / 10 ^ ds.length| ≤ ds.length / 2 ^ 43 ∧
      |t.value - 1 / 10 ^ (ds.length + 1)| ≤ (ds.length + 1) / 2 ^ 50 := by
  obtain ⟨w,hw,hwden,hwnear⟩ := exists_tenth
  induction ds using List.reverseRecOn with
  | nil =>
    refine ⟨.ofNat 0,w,by rw [fractionSteps_nil,hw],Nat.one_pos,hwden,?_,?_⟩
    · simp [ofDigits]
    · refine le_trans (by simpa using hwnear) ?_
      norm_num
  | append_singleton ds d ih =>
    have hbelow := ofDigits_lt h
    rw [ofDigits_concat] at hbelow ⊢
    rw [List.length_append,List.length_singleton] at hlen hbelow ⊢
    obtain ⟨s,t,hst,hsden,htden,hs,ht⟩ := ih (fun c hc => h c (by simp [hc])) (by omega)
    have hu : (1 : ℚ) / 10 ^ (ds.length + 1) ≤ 1 / 10 :=
      one_div_le_one_div_of_le (by norm_num) (le_self_pow₀ (by norm_num) (by omega))
    have hsum : ((10 * ofDigits ds + d : ℕ) : ℚ) / 10 ^ (ds.length + 1) =
        ofDigits ds / 10 ^ ds.length + d * (1 / 10 ^ (ds.length + 1)) := by
      rw [pow_succ]
      push_cast
      field_simp
    have hone : ((10 * ofDigits ds + d : ℕ) : ℚ) / 10 ^ (ds.length + 1) < 1 := by
      rw [div_lt_one (by positivity)]
      exact_mod_cast hbelow
    obtain ⟨r,hr,hrden,hrnear⟩ := add_digit hsden htden (by positivity) hu (h d (by simp)) (by omega)
      (hsum ▸ hone) hs ht
    obtain ⟨v,hv,hvden,hvnear⟩ := next_tenth (n := ds.length + 1) htden hwden (by positivity) hu
      (by omega) (by exact_mod_cast ht) hwnear
    refine ⟨r,v,?_,hrden,hvden,?_,?_⟩
    · rw [fractionSteps_append,hst,hr,hw,hv]
    · rw [hsum]
      exact_mod_cast hrnear
    · have hnext : (1 : ℚ) / 10 ^ (ds.length + 1 + 1) = 1 / 10 ^ (ds.length + 1) / 10 := by
        rw [pow_succ _ (ds.length + 1),div_div]
      rw [hnext]
      exact_mod_cast hvnear

/-- The number that the digits before and after the point denote. -/
def size (x : Numeral) : ℚ := ofDigits x.whole + ofDigits x.fraction / 10 ^ x.fraction.length

/-- The double of a numeral with few digits is off by far less than the sixth place. -/
theorem magnitude_near {x : Numeral} (he : x.exponent = none) (hwhole : ofDigits x.whole < 2 ^ 23)
    (hdigits : ∀ d ∈ x.fraction, d ≤ 9) (hlen : x.fraction.length ≤ 6) :
    ∃ m, x.magnitude = .finite m ∧ 0 < m.den ∧ |m.value - x.size| ≤ 1 / 2 ^ 29 := by
  obtain ⟨w,hw,hwden,hwvalue⟩ := wholePart_exact (lt_trans hwhole (by norm_num : 2 ^ 23 < 2 ^ 53))
  obtain ⟨s,t,hst,hsden,-,hs,-⟩ := fractionSteps_near hdigits hlen
  have hlen' : (x.fraction.length : ℚ) ≤ 6 := by exact_mod_cast hlen
  have hwhole' : (ofDigits x.whole : ℚ) < 2 ^ 23 := by exact_mod_cast hwhole
  have hfraction : (ofDigits x.fraction : ℚ) / 10 ^ x.fraction.length < 1 := by
    rw [div_lt_one (by positivity)]
    exact_mod_cast ofDigits_lt hdigits
  obtain ⟨h1,h2⟩ := abs_le.1 hs
  obtain ⟨m,hm,hden,hnear⟩ := Format.double_below (a := w.add s) (k := 24) (Nat.mul_pos hwden hsden)
    (by rw [Ratio.value_add hwden hsden,hwvalue]; norm_num; linarith) (by decide)
  rw [Ratio.value_add hwden hsden,hwvalue] at hnear
  have hnear : |m.value - (ofDigits x.whole + s.value)| ≤ 1 / 2 ^ 30 := hnear.trans (by norm_num)
  obtain ⟨h3,h4⟩ := abs_le.1 hnear
  refine ⟨m,?_,hden,abs_le.2 ⟨?_,?_⟩⟩
  · rw [magnitude,he,hw,fractionPart_eq,hst]
    exact hm
  · rw [size]
    linarith
  · rw [size]
    linarith

/-! ## Denominators -/

theorem isProper_ofNat (n : ℕ) : (Magnitude.finite (.ofNat n)).IsProper :=
  Magnitude.isProper_finite Nat.one_pos

theorem wholePart_proper (ds : List ℕ) : (wholePart ds).IsProper := by
  induction ds using List.reverseRecOn with
  | nil => exact isProper_ofNat 0
  | append_singleton ds d ih =>
    rw [wholePart_append]
    exact Format.add_proper (Format.mul_proper ih (isProper_ofNat 10)) (isProper_ofNat d)

theorem fractionSteps_proper (ds : List ℕ) :
    (fractionSteps ds).1.IsProper ∧ (fractionSteps ds).2.IsProper := by
  have htenth : (Format.double.round ⟨1,10⟩).IsProper := Format.round_proper (by simp)
  induction ds using List.reverseRecOn with
  | nil =>
    simp only [fractionSteps_nil]
    exact ⟨isProper_ofNat 0,htenth⟩
  | append_singleton ds d ih =>
    rw [fractionSteps_append]
    exact ⟨Format.add_proper ih.1 (Format.mul_proper (isProper_ofNat d) ih.2),
      Format.mul_proper ih.2 htenth⟩

theorem magnitude_proper (x : Numeral) : x.magnitude.IsProper := by
  have hsum := Format.add_proper (f := .double) (wholePart_proper x.whole)
    (fractionSteps_proper x.fraction).1
  rw [magnitude,fractionPart_eq]
  cases x.exponent with
  | none => exact hsum
  | some e => exact Format.mul_proper hsum (Format.tenPow_proper e)

end StyleExpansion.Decimal.Numeral
