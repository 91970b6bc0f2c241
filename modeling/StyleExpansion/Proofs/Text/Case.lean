import StyleExpansion.Text.Case

/-! # Lower case

A text without a capital letter among its bytes is its own lower case. The bytes are what there is to
look at where names are written out, since reading their letters takes much longer. A text and its lower
case are the same name.
-/
namespace StyleExpansion.Text

def code (s : String) : Nat :=
  s.toByteArray.data.toList.foldl (fun n b => 256 * n + b.toNat) 0

def isLower (s : String) : Bool :=
  s.toByteArray.data.toList.all fun b => b.toNat < 65 || 90 < b.toNat

theorem bytes_eq_flatMap (s : String) :
    s.toByteArray.data.toList = s.toList.flatMap String.utf8EncodeChar := by
  rw [← String.utf8Encode_toList,List.utf8Encode,List.data_toByteArray]

theorem toList_toLower (s : String) : s.toLower.toList = s.toList.map Char.toLower := by
  have hmap : s.toLower = s.map Char.toLower := rfl
  rw [hmap,String.toList_map]

theorem toLower_of_not_capital {c : Char} (h : c.toNat < 65 ∨ 90 < c.toNat) : c.toLower = c := by
  unfold Char.toLower
  rw [dif_neg]
  intro hc
  have h1 := UInt32.le_iff_toNat_le.1 hc.1
  have h2 := UInt32.le_iff_toNat_le.1 hc.2
  simp at h1 h2
  omega

theorem not_capital_of_isLower {s : String} (h : isLower s = true) {c : Char} (hc : c ∈ s.toList) :
    c.toNat < 65 ∨ 90 < c.toNat := by
  by_cases hs : c.utf8Size = 1
  · have hb : c.val.toUInt8 ∈ s.toByteArray.data.toList := by
      rw [bytes_eq_flatMap,List.mem_flatMap]
      exact ⟨c,hc,by rw [String.utf8EncodeChar_eq_singleton hs]; exact List.mem_singleton_self _⟩
    have hb := List.all_eq_true.1 h _ hb
    rw [Char.utf8Size_eq_one_iff,UInt32.le_iff_toNat_le] at hs
    have hs : c.toNat ≤ 127 := hs
    rw [Bool.or_eq_true,decide_eq_true_eq,decide_eq_true_eq,UInt32.toNat_toUInt8] at hb
    have hb : c.toNat % 256 < 65 ∨ 90 < c.toNat % 256 := hb
    omega
  · rw [Char.utf8Size_eq_one_iff,UInt32.le_iff_toNat_le] at hs
    have hs : ¬c.toNat ≤ 127 := hs
    omega

theorem toLower_of_isLower {s : String} (h : isLower s = true) : s.toLower = s := by
  apply String.toList_inj.1
  rw [toList_toLower]
  have hc : s.toList.map Char.toLower = s.toList.map id := by
    apply List.map_congr_left
    intro c hc
    exact toLower_of_not_capital (not_capital_of_isLower h hc)
  rw [hc,List.map_id]

/-- A letter from A to Z and its small letter have the same bytes but for the case. -/
theorem capital_facts {c : Char} (h : ¬(c.toNat < 65 ∨ 90 < c.toNat)) :
    c.toLower.toLower = c.toLower ∧ c.toLower ≠ '-' ∧
    (String.utf8EncodeChar c.toLower).map (fun b => if 65 ≤ b && b ≤ 90 then b + 32 else b) =
      (String.utf8EncodeChar c).map fun b => if 65 ≤ b && b ≤ 90 then b + 32 else b := by
  have hall : ∀ n < 91, 65 ≤ n → (Char.ofNat n).toLower.toLower = (Char.ofNat n).toLower ∧
      (Char.ofNat n).toLower ≠ '-' ∧ (String.utf8EncodeChar (Char.ofNat n).toLower).map
          (fun b => if 65 ≤ b && b ≤ 90 then b + 32 else b) =
        (String.utf8EncodeChar (Char.ofNat n)).map
          fun b => if 65 ≤ b && b ≤ 90 then b + 32 else b := by
    decide
  have hc := hall c.toNat (by omega) (by omega)
  rwa [Char.ofNat_toNat] at hc

theorem toLower_toLower (s : String) : s.toLower.toLower = s.toLower := by
  apply String.toList_inj.1
  rw [toList_toLower,toList_toLower,List.map_map]
  refine List.map_congr_left fun c _ => ?_
  by_cases h : c.toNat < 65 ∨ 90 < c.toNat
  · rw [Function.comp,toLower_of_not_capital h,toLower_of_not_capital h]
  · exact (capital_facts h).1

theorem toLower_beq_hyphen (c : Char) : ('-' == c.toLower) = ('-' == c) := by
  by_cases h : c.toNat < 65 ∨ 90 < c.toNat
  · rw [toLower_of_not_capital h]
  · have hlower := (capital_facts h).2.1
    have hc : c ≠ '-' := by
      rintro rfl
      exact h (by decide)
    rw [beq_false_of_ne hlower.symm,beq_false_of_ne hc.symm]

theorem sameName_toLower (s : String) : sameName s.toLower s = true := by
  rw [sameName,beq_iff_eq,lowerBytes,lowerBytes,bytes_eq_flatMap,bytes_eq_flatMap,toList_toLower,
    List.flatMap_map,List.map_flatMap,List.map_flatMap]
  congr 1
  funext c
  by_cases h : c.toNat < 65 ∨ 90 < c.toNat
  · rw [toLower_of_not_capital h]
  · exact (capital_facts h).2.2

theorem sameName_congr {a b : String} (h : sameName a b = true) (c : String) :
    sameName a c = sameName b c := by
  unfold sameName at h ⊢
  rw [eq_of_beq h]

theorem isOneOf_congr {a b : String} (h : sameName a b = true) (names : List String) :
    isOneOf names a = isOneOf names b := by
  unfold isOneOf
  congr 1
  funext c
  exact sameName_congr h c

end StyleExpansion.Text
