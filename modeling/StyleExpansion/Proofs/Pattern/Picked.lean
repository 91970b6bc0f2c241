import Mathlib.Data.List.Nodup
import Mathlib.Data.List.Perm.Subperm
import StyleExpansion.Pattern.Spans

/-! # Items picked from a group

Items of a group that were picked one after the other, each with its place, and the mask of their places.
No two of them have one bit of the mask, so the mask counts them all and tells each of them from what is
left. In a group of no more items than the mask has bits, any items may be picked.
-/
namespace StyleExpansion.Pattern
variable {items : List Pattern} {picked later : List (Pattern × Nat)} {x : Pattern × Nat}

structure Picked (items : List Pattern) (picked : List (Pattern × Nat)) : Prop where
  placed : picked ⊆ items.zipIdx
  apart : (picked.map (·.2 % 64)).Nodup

def maskOf (picked : List (Pattern × Nat)) : Mask := Mask.ofPlaces (picked.map Prod.snd)

theorem maskOf_cons : maskOf (x :: picked) = (maskOf picked).put x.2 := rfl

theorem has_maskOf {place : Nat} :
    (maskOf picked).has place = true ↔ place % 64 ∈ picked.map (·.2 % 64) := by
  rw [maskOf,Mask.has_ofPlaces,List.map_map]
  rfl

namespace Picked

theorem nil : Picked items [] := ⟨by simp,by simp⟩

theorem cons (h : Picked items picked) (hx : x ∈ items.zipIdx)
    (hnew : (maskOf picked).has x.2 = false) : Picked items (x :: picked) where
  placed := List.cons_subset.2 ⟨hx,h.placed⟩
  apart := List.nodup_cons.2 ⟨fun hm => by simp [has_maskOf.2 hm] at hnew,h.apart⟩

theorem perm (h : Picked items picked) (hp : picked.Perm later) : Picked items later where
  placed := fun _ hx => h.placed (hp.symm.subset hx)
  apart := (hp.map _).nodup_iff.1 h.apart

theorem size_eq (h : Picked items picked) : (maskOf picked).size = picked.length := by
  have hapart : ((picked.map Prod.snd).map (· % 64)).Nodup := by
    rw [List.map_map]
    exact h.apart
  rw [maskOf,Mask.size_ofPlaces hapart,List.length_map]

theorem subperm (h : Picked items picked) : (picked.map Prod.fst).Subperm items := by
  obtain ⟨kept,hperm,hsub⟩ := List.subperm_of_subset (List.Nodup.of_map _ h.apart) h.placed
  refine ⟨kept.map Prod.fst,hperm.map _,?_⟩
  simpa using hsub.map Prod.fst

theorem length_le (h : Picked items picked) : picked.length ≤ items.length := by
  simpa using h.subperm.length_le

theorem enough_iff (h : Picked items picked) {all : Bool} : enough all items (maskOf picked) = true ↔
    if all then picked.length = items.length else picked ≠ [] := by
  cases all with
  | true => simp [enough,h.size_eq]
  | false =>
    have hused : maskOf picked ≠ 0 ↔ picked.map Prod.snd ≠ [] := Mask.ofPlaces_ne_zero
    simpa [enough] using hused

theorem of_append (h : Picked items (later ++ picked)) : Picked items picked where
  placed := fun _ hx => h.placed (List.mem_append_right later hx)
  apart := ((List.sublist_append_right later picked).map _).nodup h.apart

theorem has_eq_false (h : Picked items (x :: later ++ picked)) : (maskOf picked).has x.2 = false := by
  have hnew : x.2 % 64 ∉ (later ++ picked).map (·.2 % 64) := (List.nodup_cons.1 h.apart).1
  rw [List.map_append,List.mem_append,not_or] at hnew
  exact Bool.eq_false_iff.2 fun hm => hnew.2 (has_maskOf.1 hm)

theorem size_ne (h : Picked items (x :: later ++ picked)) : (maskOf picked).size ≠ items.length := by
  have hle := h.length_le
  rw [h.of_append.size_eq]
  rw [List.length_append,List.length_cons] at hle
  omega

end Picked

/-- Items in any order are those of some places, each of a bit of its own in a group that is not too
large. -/
theorem exists_picked {ps : List Pattern} (hps : ps.Subperm items) (hfew : items.length ≤ 64) :
    ∃ picked, picked.map Prod.fst = ps ∧ Picked items picked := by
  obtain ⟨chosen,hperm,hsub⟩ := hps
  rw [← List.zipIdx_map_fst 0 items,List.sublist_map_iff] at hsub
  obtain ⟨kept,hkept,rfl⟩ := hsub
  obtain ⟨picked,rfl,hpicked⟩ :
      Relation.Comp (· = List.map Prod.fst ·) List.Perm ps kept := by
    rw [List.eq_map_comp_perm]
    exact hperm.symm
  have hlow : ∀ y ∈ kept, y.2 % 64 = y.2 := by
    intro y hy
    have hlt := List.snd_lt_of_mem_zipIdx (hkept.subset hy)
    exact Nat.mod_eq_of_lt (by omega)
  have hplaces : (kept.map Prod.snd).Nodup := by
    refine (hkept.map Prod.snd).nodup ?_
    rw [List.zipIdx_map_snd]
    exact List.nodup_range'
  have hkeeps : Picked items kept := by
    refine ⟨hkept.subset,?_⟩
    rwa [List.map_congr_left hlow]
  exact ⟨picked,rfl,hkeeps.perm hpicked.symm⟩

end StyleExpansion.Pattern
