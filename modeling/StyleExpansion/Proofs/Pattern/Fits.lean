import StyleExpansion.Proofs.Pattern.Cover
import StyleExpansion.Proofs.Value.Segments

/-! # Nodes that fit a pattern

Nodes without a substitution that a pattern derives as a whole. Nodes that fit a pattern fit all that
cover it; what is derived from a part of them fits by itself; and nodes that fit, joined by commas, fit
the repetition.
-/
namespace StyleExpansion.Pattern
open Value (operator join runs)

structure Fits (p : Pattern) (vs : List Value) : Prop where
  filled : vs ≠ []
  plain : Plain vs
  derives : p.Derives vs 0 vs.length

namespace Fits

theorem of_accepts {p : Pattern} {vs : List Value} (h : p.accepts vs = true) (hf : vs ≠ [])
    (hv : Plain vs) : p.Fits vs :=
  ⟨hf,hv,mem_ends_derives (accepts_iff_mem_ends.1 h)⟩

theorem covered {p q : Pattern} {vs : List Value} (h : p.Fits vs) {n : Nat}
    (hq : Pattern.covered n p q = true) : q.Fits vs :=
  ⟨h.filled,h.plain,covered_sound hq h.plain _ _ h.derives⟩

theorem isValueOf {name : String} {vs : List Value} (h : (property name).Fits vs)
    (hn : name.toLower = name) : isValueOf name vs = true := by
  apply isValueOf_iff.2
  rw [hn]
  have hd := h.derives
  generalize vs.length = j at hd ⊢
  cases hd with
  | propertySubstitution hv ht => simp [h.plain.at hv] at ht
  | namedProperty _ hp hd => exact ⟨_,hp,Or.inr hd⟩

end Fits

theorem isValueOf_wide {name : String} {v : Value} (hp : (ofProperty? name).isSome = true)
    (hn : name.toLower = name) (hv : v.isWide = true) : isValueOf name [v] = true := by
  obtain ⟨p,hp⟩ := Option.isSome_iff_exists.1 hp
  exact isValueOf_iff.2 ⟨p,hn.symm ▸ hp,Or.inl ⟨v,rfl,hv⟩⟩

/-! ## Parts -/

def between (vs : List Value) (i j : Nat) : List Value := (vs.take j).drop i

theorem between_subset (vs : List Value) (i j : Nat) : between vs i j ⊆ vs :=
  List.Subset.trans (List.drop_subset _ _) (List.take_subset _ _)

theorem length_between {vs : List Value} {i j : Nat} (hj : j ≤ vs.length) :
    (between vs i j).length = j - i := by
  rw [between,List.length_drop,List.length_take,Nat.min_eq_left hj]

theorem between_eq_nil {vs : List Value} {i j : Nat} (h : j ≤ i) : between vs i j = [] := by
  rw [between,List.drop_eq_nil_iff,List.length_take]
  omega

theorem between_zero_length (vs : List Value) : between vs 0 vs.length = vs := by
  rw [between,List.take_length,List.drop_zero]

theorem between_middle (before ws after : List Value) :
    between (before ++ (ws ++ after)) before.length (before.length + ws.length) = ws := by
  rw [between,List.drop_take,List.drop_left,Nat.add_sub_cancel_left,List.take_left]

theorem mem_between {vs : List Value} {i j : Nat} {v : Value} (h : v ∈ between vs i j) :
    ∃ k, i ≤ k ∧ k < j ∧ vs[k]? = some v := by
  obtain ⟨k,hk⟩ := List.getElem?_of_mem h
  rw [between,List.getElem?_drop,List.getElem?_take] at hk
  split at hk
  · exact ⟨i + k,by omega,by omega,hk⟩
  · cases hk

theorem between_append {vs : List Value} {i m j : Nat} {v : Value} (hv : vs[m]? = some v)
    (hi : i ≤ m) (hj : m < j) : between vs i j = between vs i m ++ v :: between vs (m + 1) j := by
  have hm : m < vs.length := (List.getElem?_eq_some_iff.1 hv).1
  have ht : vs.take j = vs.take m ++ v :: (vs.take j).drop (m + 1) := by
    have hg : (vs.take j)[m]? = some v := by rw [List.getElem?_take_of_lt hj,hv]
    rw [← drop_of_getElem? hg]
    conv_lhs => rw [← List.take_append_drop m (vs.take j)]
    rw [List.take_take,Nat.min_eq_left (Nat.le_of_lt hj)]
  rw [between,ht,List.drop_append_of_le_length (by rw [List.length_take]; omega)]
  rfl

/-- What is derived from a part of a list is derived from it by itself. -/
theorem Derives.fits {p : Pattern} {vs : List Value} {i j : Nat} (h : p.Derives vs i j)
    (hp : p.withinLimits levels = true) (hv : Plain vs) (hlt : i < j) : p.Fits (between vs i j) := by
  have hj : j ≤ vs.length := by
    rcases h.end_le with h | h <;> omega
  have hl := length_between (i := i) hj
  refine ⟨?_,fun v hm => hv v (between_subset vs i j hm),?_⟩
  · rw [← List.length_pos_iff]
    omega
  · rw [hl]
    exact Derives.drop (h.take (Nat.le_refl j)) hp

theorem FreeOf.between {symbol : String} {vs : List Value} {i j : Nat} (h : FreeOf symbol vs i j) :
    ∀ v ∈ between vs i j, v.isOperator symbol = false := by
  intro v hv
  obtain ⟨k,hi,hj,hk⟩ := mem_between hv
  exact h k v hi hj hk

/-! ## Repetition -/

/-- Rounds go on over further nodes, each of which an operator comes before. -/
theorem Derivation.rounds_append {p : Pattern} {rows : List (List Value)}
    (h : ∀ r ∈ rows, p.Fits r) {count : Nat} {vs : List Value}
    (hd : Derivation (.rounds p true (count + 1)) vs 0 vs.length) :
    Derivation (.rounds p true (count + 1 + rows.length))
      (vs ++ rows.flatMap fun r => operator "," :: r) 0
      (vs ++ rows.flatMap fun r => operator "," :: r).length := by
  induction rows generalizing vs count with
  | nil => simpa using hd
  | cons r rows ih =>
    have hr := h r List.mem_cons_self
    have hplain : ∀ v ∈ operator "," :: r, v.isSubstitution = false := by
      intro v hv
      rcases List.mem_cons.1 hv with rfl | hv
      · rfl
      · exact hr.plain v hv
    have hpos : 0 < r.length := List.length_pos_iff.2 hr.filled
    have hone : Derivation (.rounds p true (count + 1 + 1)) (vs ++ operator "," :: r) 0
        (vs ++ operator "," :: r).length := by
      have hshift := hr.derives.shift (vs ++ [operator ","])
      rw [List.append_assoc,List.singleton_append] at hshift
      have hlen : (vs ++ operator "," :: r).length = (vs ++ [operator ","]).length + r.length := by
        simp
        omega
      rw [hlen]
      refine .separated (hd.extend hplain) rfl (v := operator ",") ?_ rfl ?_ ?_
      · simp
      · simpa using hshift
      · simp
        omega
    have hall := ih (fun q hq => h q (List.mem_cons_of_mem _ hq)) hone
    rw [List.append_assoc,List.cons_append] at hall
    rw [List.flatMap_cons,List.cons_append,List.length_cons]
    rwa [Nat.add_right_comm,Nat.add_assoc] at hall

/-- Values that fit a pattern, joined by commas, fit its repetition. -/
theorem Fits.join {p : Pattern} {rows : List Value} (h : ∀ r ∈ rows, p.Fits r.flatten)
    (hne : rows ≠ []) : (listed p).Fits (join "," rows).flatten := by
  cases rows with
  | nil => exact absurd rfl hne
  | cons r rows =>
    have hr := h r List.mem_cons_self
    have hrest : ∀ q ∈ rows.map Value.flatten, p.Fits q := by
      intro q hq
      obtain ⟨w,hw,rfl⟩ := List.mem_map.1 hq
      exact h w (List.mem_cons_of_mem _ hw)
    rw [Value.flatten_join]
    refine ⟨?_,?_,?_⟩
    · exact List.append_ne_nil_of_left_ne_nil hr.filled _
    · intro v hv
      rcases List.mem_append.1 hv with hv | hv
      · exact hr.plain v hv
      · obtain ⟨q,hq,hv⟩ := List.mem_flatMap.1 hv
        rcases List.mem_cons.1 hv with rfl | hv
        · rfl
        · exact (hrest q hq).plain v hv
    · have hfirst : Derivation (.rounds p true (0 + 1)) r.flatten 0 r.flatten.length :=
        .round .noRound rfl hr.derives (List.length_pos_iff.2 hr.filled)
      refine .repeated ?_ ?_ (Derivation.rounds_append hrest hfirst)
      · omega
      · intro m hm
        cases hm

end StyleExpansion.Pattern
