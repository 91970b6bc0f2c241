import StyleExpansion.Matching
import StyleExpansion.Proofs.Pattern.Fits

/-! # What shares are

A share is a span of the nodes that its alternative takes. This holds before anything is handed out,
and handing out one more share keeps it.
-/
namespace StyleExpansion
open Value (ofNodes)

/-- The last number of an increasing list is its greatest. -/
theorem getLast?_eq_some_iff_greatest {ks : List Nat} (h : ks.Pairwise (· < ·)) {k : Nat} :
    ks.getLast? = some k ↔ k ∈ ks ∧ ∀ m ∈ ks, m ≤ k := by
  constructor
  · intro hk
    obtain ⟨before,rfl⟩ := List.getLast?_eq_some_iff.1 hk
    refine ⟨by simp,fun m hm => ?_⟩
    rcases List.mem_append.1 hm with hm | hm
    · exact Nat.le_of_lt ((List.pairwise_append.1 h).2.2 m hm k (List.mem_singleton_self k))
    · exact Nat.le_of_eq (List.mem_singleton.1 hm)
  · rintro ⟨hk,hmax⟩
    cases hl : ks.getLast? with
    | none =>
      rw [List.getLast?_eq_none_iff.1 hl] at hk
      cases hk
    | some m =>
      have hm := List.mem_of_getLast? hl
      obtain ⟨before,rfl⟩ := List.getLast?_eq_some_iff.1 hl
      rcases List.mem_append.1 hk with hk | hk
      · have hlt := (List.pairwise_append.1 h).2.2 k hk m (List.mem_singleton_self m)
        have := hmax m hm
        omega
      · rw [List.mem_singleton.1 hk]

theorem mem_spanLengths {test : List Value → Bool} {vs : List Value} {k : Nat} :
    k ∈ ((List.range vs.length).map (· + 1)).filter (fun k => test (vs.take k)) ↔
      test (vs.take k) = true ∧ 0 < k ∧ k ≤ vs.length := by
  rw [List.mem_filter,List.mem_map]
  constructor
  · rintro ⟨⟨m,hm,rfl⟩,ht⟩
    rw [List.mem_range] at hm
    exact ⟨ht,by omega,by omega⟩
  · rintro ⟨ht,h0,hl⟩
    exact ⟨⟨k - 1,List.mem_range.2 (by omega),by omega⟩,ht⟩

theorem longestSpan_eq_some_iff {test : List Value → Bool} {vs : List Value} {k : Nat} :
    longestSpan test vs = some k ↔ (test (vs.take k) = true ∧ 0 < k ∧ k ≤ vs.length) ∧
      ∀ m, test (vs.take m) = true ∧ 0 < m ∧ m ≤ vs.length → m ≤ k := by
  have hsorted : (((List.range vs.length).map (· + 1)).filter fun k => test (vs.take k)).Pairwise
      (· < ·) := by
    refine (List.pairwise_map.2 (List.pairwise_lt_range.imp ?_)).filter _
    omega
  rw [longestSpan,getLast?_eq_some_iff_greatest hsorted]
  simp only [mem_spanLengths]

theorem longestSpan_eq_none_iff {test : List Value → Bool} {vs : List Value} :
    longestSpan test vs = none ↔ ∀ k, 0 < k → k ≤ vs.length → test (vs.take k) = false := by
  rw [longestSpan,List.getLast?_eq_none_iff,List.eq_nil_iff_forall_not_mem]
  simp only [mem_spanLengths]
  exact ⟨fun h k h0 hl => Bool.eq_false_iff.2 fun ht => h k ⟨ht,h0,hl⟩,
    fun h k hk => by simp [h k hk.2.1 hk.2.2] at hk⟩

theorem longestSpan_spec {test : List Value → Bool} {vs : List Value} {k : Nat}
    (h : longestSpan test vs = some k) : test (vs.take k) = true ∧ 0 < k ∧ k ≤ vs.length :=
  (longestSpan_eq_some_iff.1 h).1

namespace Shares
variable {tests : List (List Value → Bool)} {vs : List Value}

/-- Every share is a span of the given nodes that passes its test, and what is left is among them. -/
structure Spans (tests : List (List Value → Bool)) (vs : List Value) (s : Shares) : Prop where
  left : s.left ⊆ vs
  found : ∀ i w, s.get? i = some w → ∃ test span, tests[i]? = some test ∧ test span = true ∧
    span ≠ [] ∧ span ⊆ vs ∧ w = ofNodes span

theorem nextShare_spec {s : Shares} {i k : Nat} (h : s.nextShare tests = some (i,k)) :
    ∃ test, tests[i]? = some test ∧ longestSpan test s.left = some k := by
  obtain ⟨x,hm,hx⟩ := List.exists_of_findSome?_eq_some h
  split at hx
  · cases hx
  · obtain ⟨m,hk,he⟩ := Option.map_eq_some_iff.1 hx
    cases he
    have hz := List.mem_zipIdx_iff_getElem?.1 hm
    rw [List.getElem?_zip_eq_some] at hz
    exact ⟨_,hz.1,hk⟩

theorem Spans.give {s : Shares} (h : s.Spans tests vs) {i k : Nat}
    (hn : s.nextShare tests = some (i,k)) : (s.give i k).Spans tests vs := by
  obtain ⟨test,ht,hk⟩ := nextShare_spec hn
  obtain ⟨hp,h0,hl⟩ := longestSpan_spec hk
  refine ⟨List.Subset.trans (List.drop_subset _ _) h.left,?_⟩
  intro j w hw
  rw [get?,Shares.give,List.getElem?_set] at hw
  split at hw
  · next hij =>
    subst hij
    refine ⟨test,s.left.take k,ht,hp,?_,List.Subset.trans (List.take_subset _ _) h.left,?_⟩
    · rw [← List.length_pos_iff,List.length_take]
      omega
    · split at hw
      · exact (Option.some.inj hw).symm
      · cases hw
  · exact h.found j w hw

theorem Spans.handOut {s : Shares} (h : s.Spans tests vs) (n : Nat) :
    (handOut tests n s).Spans tests vs := by
  induction n generalizing s with
  | zero => exact h
  | succ n ih =>
    rw [Shares.handOut]
    split
    · next i k hn => exact ih (h.give hn)
    · exact h

end Shares

theorem Value.shareBy_spans (tests : List (List Value → Bool)) (v : Value) :
    (v.shareBy tests).Spans tests v.flatten := by
  have hstart : Shares.Spans tests v.flatten ⟨tests.map fun _ => none,v.flatten⟩ := by
    refine ⟨List.Subset.refl _,?_⟩
    intro i w hw
    rw [Shares.get?,List.getElem?_map] at hw
    cases h : tests[i]? <;> simp [h] at hw
  exact hstart.handOut tests.length

theorem Value.shareBy_passes {tests : List (List Value → Bool)} {v w : Value} {i : Nat}
    (h : (v.shareBy tests).get? i = some w) : ∃ test, tests[i]? = some test ∧
      test w.flatten = true ∧ w.flatten ≠ [] ∧ w.flatten ⊆ v.flatten := by
  obtain ⟨test,span,ht,hp,hf,hs,rfl⟩ := (shareBy_spans tests v).found i w h
  rw [((flatten_areNodes v).mono hs).flatten_ofNodes]
  exact ⟨test,ht,hp,hf,hs⟩

/-- Without substitutions, a share fits its alternative. -/
theorem Value.share_fits {alternatives : List Pattern} {v w : Value} {i : Nat}
    (h : (v.share alternatives).get? i = some w) (hv : Pattern.Plain v.flatten) :
    ∃ p, alternatives[i]? = some p ∧ p.Fits w.flatten := by
  obtain ⟨test,ht,hp,hf,hs⟩ := shareBy_passes h
  rw [List.getElem?_map] at ht
  obtain ⟨p,hi,rfl⟩ := Option.map_eq_some_iff.1 ht
  exact ⟨p,hi,.of_accepts hp hf fun n hn => hv n (hs hn)⟩

end StyleExpansion
