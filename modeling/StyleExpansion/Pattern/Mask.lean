/-! # Masks of used items

Which items of a group are used is kept in 64 bits, a bit for each place in the group. The places of a
group of more than 64 items share bits: the bit of a place is that of its remainder by 64.
-/
namespace StyleExpansion

abbrev Mask := BitVec 64

namespace Mask

def has (used : Mask) (place : Nat) : Bool := used.getLsbD (place % 64)

def put (used : Mask) (place : Nat) : Mask := used ||| BitVec.twoPow 64 (place % 64)

/-- The number of bits that are set. -/
def size (used : Mask) : Nat := used.cpop.toNat

def ofPlaces (places : List Nat) : Mask := places.foldr (fun place used => used.put place) 0

theorem has_put {used : Mask} {a b : Nat} :
    (used.put a).has b = (used.has b || a % 64 == b % 64) := by
  have hlt : a % 64 < 64 := Nat.mod_lt a (by decide)
  rw [has,put,BitVec.getLsbD_or,BitVec.getLsbD_twoPow,decide_eq_true hlt,Bool.true_and]
  rfl

@[simp] theorem has_ofPlaces {places : List Nat} {b : Nat} :
    (ofPlaces places).has b = true ↔ b % 64 ∈ places.map (· % 64) := by
  induction places with
  | nil => simp [ofPlaces,has]
  | cons a places ih =>
    rw [ofPlaces,List.foldr_cons,← ofPlaces,has_put,Bool.or_eq_true,ih,beq_iff_eq,List.map_cons,
      List.mem_cons,or_comm,eq_comm]

theorem cpopNatRec_or_twoPow {used : Mask} {i : Nat} (hi : i < 64) (h : used.getLsbD i = false)
    (k : Nat) : (used ||| BitVec.twoPow 64 i).cpopNatRec k 0 =
      used.cpopNatRec k 0 + if i < k then 1 else 0 := by
  induction k with
  | zero => rfl
  | succ k ih =>
    rw [BitVec.cpopNatRec_succ,BitVec.cpopNatRec_succ,BitVec.cpopNatRec_add,
      BitVec.cpopNatRec_add (x := used),ih,BitVec.getLsbD_or,BitVec.getLsbD_twoPow]
    by_cases hk : i = k
    · subst hk
      rw [h]
      simp [hi]
    · have hlt : i < k + 1 ↔ i < k := by omega
      simp only [hk,hlt,decide_false,Bool.and_false,Bool.or_false]
      omega

theorem size_put {used : Mask} {place : Nat} (h : used.has place = false) :
    (used.put place).size = used.size + 1 := by
  have hlt : place % 64 < 64 := Nat.mod_lt place (by decide)
  rw [size,size,BitVec.toNat_cpop,BitVec.toNat_cpop,put,cpopNatRec_or_twoPow hlt h,if_pos hlt]

theorem size_le (used : Mask) : used.size ≤ 64 := BitVec.toNat_cpop_le used

/-- Places whose bits differ are all counted. -/
theorem size_ofPlaces {places : List Nat} (h : (places.map (· % 64)).Nodup) :
    (ofPlaces places).size = places.length := by
  induction places with
  | nil => decide
  | cons a places ih =>
    obtain ⟨hnew,hrest⟩ := List.nodup_cons.1 h
    rw [ofPlaces,List.foldr_cons,← ofPlaces,size_put,ih hrest,List.length_cons]
    exact Bool.eq_false_iff.2 fun hused => hnew (has_ofPlaces.1 hused)

theorem ofPlaces_ne_zero {places : List Nat} : ofPlaces places ≠ 0 ↔ places ≠ [] := by
  cases places with
  | nil => simp [ofPlaces]
  | cons a places =>
    refine iff_of_true (fun h => ?_) (by simp)
    have hused : (ofPlaces (a :: places)).has a = true := has_ofPlaces.2 List.mem_cons_self
    rw [h] at hused
    simp [has] at hused

end Mask

end StyleExpansion
