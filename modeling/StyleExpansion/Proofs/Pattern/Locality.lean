import StyleExpansion.Proofs.Pattern.Extent

/-! # What follows a span

Whether a pattern takes a span depends on the nodes of the span only: a list may go on behind them.
Every way to take spans keeps to this if those that it is made of do. At the end of the list it rests on
the dictionary, none of whose patterns takes an empty span; otherwise a substitution that comes next
would make a difference.
-/
namespace StyleExpansion.Pattern

def Local (take : Taker) : Prop :=
  ∀ (vs after : List Value) (k : Nat), k ≤ vs.length → (k ∈ take (vs ++ after) ↔ k ∈ take vs)

theorem takeOne_local (test : Value → Bool) : Local (takeOne test) := by
  intro vs after k hk
  cases vs with
  | nil =>
    obtain rfl := Nat.le_zero.1 hk
    cases after <;> simp [takeOne]
  | cons v vs => rfl

theorem takeCall_local {take : Taker} (name : String) : Local (takeCall take name) := by
  intro vs after k hk
  cases vs with
  | nil =>
    obtain rfl := Nat.le_zero.1 hk
    refine iff_of_false (fun hm => ?_) (fun hm => by cases hm)
    unfold takeCall at hm
    split at hm
    · split at hm <;> simp at hm
    · cases hm
  | cons v vs => cases v <;> rfl

/-! ## The number of rounds -/

section Rounds
variable {take : Taker} {byComma : Bool} {least : Nat} {vs : List Value}

theorem pos_of_mem_takeNext {comma : Bool} {k : Nat} (h : k ∈ takeNext take comma vs) : 0 < k := by
  unfold takeNext at h
  split at h
  · split at h
    · split at h
      · obtain ⟨d,_,rfl⟩ := List.mem_map.1 h
        omega
      · cases h
    · cases h
  · have := of_decide_eq_true (List.mem_filter.1 h).2
    omega

theorem lt_of_mem_advance {count : Nat} {starts : List Nat} (hs : ∀ s ∈ starts, count ≤ s) :
    ∀ s ∈ advance (takeNext take (byComma && count != 0)) vs starts, count + 1 ≤ s := by
  intro s h
  obtain ⟨b,hb,d,hd,rfl⟩ := mem_advance.1 h
  have := hs b hb
  have := pos_of_mem_takeNext hd
  omega

theorem lt_of_mem_takeRounds {n count : Nat} {starts : List Nat} (hs : ∀ s ∈ starts, count ≤ s)
    {k : Nat} (h : k ∈ takeRounds take byComma least vs n count starts) : count < k := by
  induction n generalizing count starts with
  | zero => cases h
  | succ n ih =>
    rw [takeRounds,List.mem_append] at h
    rcases h with h | h
    · split at h
      · exact lt_of_mem_advance hs k h
      · cases h
    · exact Nat.lt_of_succ_lt (ih (lt_of_mem_advance hs) h)

/-- Every round takes a node at least, so more rounds than nodes are never needed for a span. -/
theorem mem_takeRounds_of_limit {n m count : Nat} {starts : List Nat} (hs : ∀ s ∈ starts, count ≤ s)
    {k : Nat} (h : k ∈ takeRounds take byComma least vs n count starts)
    (hm : n ≤ m ∨ k ≤ count + m) : k ∈ takeRounds take byComma least vs m count starts := by
  induction n generalizing m count starts with
  | zero => cases h
  | succ n ih =>
    have hlt := lt_of_mem_takeRounds hs h
    cases m with
    | zero => omega
    | succ m =>
      rw [takeRounds,List.mem_append] at h ⊢
      exact h.imp_right fun h => ih (lt_of_mem_advance hs) h (by omega)

theorem mem_takeRounds_of_size {most : Option Nat} {size k : Nat} (hk : k ≤ vs.length)
    (h : k ∈ takeRounds take byComma least vs (roundLimit most size) 0 [0]) :
    k ∈ takeRounds take byComma least vs (roundLimit most vs.length) 0 [0] := by
  refine mem_takeRounds_of_limit (by simp) h ?_
  cases most <;> simp only [roundLimit] <;> omega

end Rounds

section Combinations
variable {take : Taker} (h : Local take)
include h

theorem advance_local {vs after : List Value} {starts starts' : List Nat}
    (hs : ∀ s ≤ vs.length, s ∈ starts' ↔ s ∈ starts) {k : Nat} (hk : k ≤ vs.length) :
    k ∈ advance take (vs ++ after) starts' ↔ k ∈ advance take vs starts := by
  rw [mem_advance,mem_advance]
  refine exists_congr fun s => ?_
  by_cases hle : s ≤ k
  · have hdrop : (vs ++ after).drop s = vs.drop s ++ after :=
      List.drop_append_of_le_length (Nat.le_trans hle hk)
    rw [hs s (Nat.le_trans hle hk),hdrop]
    refine and_congr_right fun _ => exists_congr fun d => and_congr_left fun hd => ?_
    exact h _ _ _ (by rw [List.length_drop]; omega)
  · constructor <;> rintro ⟨_,d,_,hd⟩ <;> omega

theorem takeNext_local (comma : Bool) : Local (takeNext take comma) := by
  intro vs after k hk
  cases comma with
  | false => simp only [takeNext,Bool.false_eq_true,if_false,List.mem_filter,h vs after k hk]
  | true =>
    cases vs with
    | nil =>
      obtain rfl := Nat.le_zero.1 hk
      exact iff_of_false (fun hm => Nat.lt_irrefl _ (pos_of_mem_takeNext hm))
        (fun hm => Nat.lt_irrefl _ (pos_of_mem_takeNext hm))
    | cons v vs =>
      simp only [takeNext,if_true,List.cons_append]
      split
      · simp only [List.mem_map,List.mem_filter]
        refine exists_congr fun d => and_congr_left fun hd => and_congr_left fun _ => ?_
        exact h _ _ _ (by rw [List.length_cons] at hk; omega)
      · rfl

theorem takeRounds_local (byComma : Bool) (least : Nat) {vs after : List Value} (n count : Nat)
    {starts starts' : List Nat} (hs : ∀ s ≤ vs.length, s ∈ starts' ↔ s ∈ starts) {k : Nat}
    (hk : k ≤ vs.length) : k ∈ takeRounds take byComma least (vs ++ after) n count starts' ↔
      k ∈ takeRounds take byComma least vs n count starts := by
  induction n generalizing count starts starts' with
  | zero => rfl
  | succ n ih =>
    have hreached : ∀ s ≤ vs.length,
        s ∈ advance (takeNext take (byComma && count != 0)) (vs ++ after) starts' ↔
          s ∈ advance (takeNext take (byComma && count != 0)) vs starts :=
      fun s hle => advance_local (takeNext_local h _) hs hle
    rw [takeRounds,takeRounds,List.mem_append,List.mem_append]
    refine or_congr ?_ (ih (count + 1) hreached)
    split
    · exact hreached k hk
    · rfl

theorem takeRepeated_local (least : Nat) (most : Option Nat) (byComma : Bool) :
    Local (takeRepeated take least most byComma) := by
  intro vs after k hk
  have hk' : k ≤ (vs ++ after).length := by
    rw [List.length_append]
    omega
  have hlocal : ∀ n, k ∈ takeRounds take byComma least (vs ++ after) n 0 [0] ↔
      k ∈ takeRounds take byComma least vs n 0 [0] :=
    fun n => takeRounds_local h byComma least n 0 (fun _ _ => Iff.rfl) hk
  rw [takeRepeated,takeRepeated,List.mem_append,List.mem_append]
  refine or_congr Iff.rfl ?_
  exact ⟨fun hm => mem_takeRounds_of_size hk ((hlocal _).1 hm),
    fun hm => mem_takeRounds_of_size hk' ((hlocal _).2 hm)⟩

end Combinations

section Lists
variable {take : Pattern → Taker} (h : ∀ p, Local (take p))
include h

theorem foldl_advance_local (ps : List Pattern) {vs after : List Value} {starts starts' : List Nat}
    (hs : ∀ s ≤ vs.length, s ∈ starts' ↔ s ∈ starts) {k : Nat} (hk : k ≤ vs.length) :
    k ∈ ps.foldl (fun starts p => advance (take p) (vs ++ after) starts) starts' ↔
      k ∈ ps.foldl (fun starts p => advance (take p) vs starts) starts := by
  induction ps generalizing starts starts' with
  | nil => exact hs k hk
  | cons p ps ih => exact ih fun s hle => advance_local (h p) hs hle

theorem takeSequence_local (ps : List Pattern) : Local (takeSequence take ps) :=
  fun _ _ _ hk => foldl_advance_local h ps (fun _ _ => Iff.rfl) hk

theorem takeAnyOrder_local (all : Bool) (items : List Pattern) (n : Nat) (used : Mask) :
    Local (takeAnyOrder take all items n used) := by
  induction n generalizing used with
  | zero => exact fun _ _ _ _ => Iff.rfl
  | succ n ih =>
    intro vs after k hk
    rw [takeAnyOrder,takeAnyOrder,List.mem_append,List.mem_append]
    refine or_congr Iff.rfl ?_
    split
    · rfl
    · simp only [List.mem_flatMap]
      refine exists_congr fun x => and_congr_right fun _ => ?_
      split
      · rfl
      · simp only [List.mem_flatMap]
        refine exists_congr fun d => ?_
        by_cases hd : d ≤ k
        · have hdrop : (vs ++ after).drop d = vs.drop d ++ after :=
            List.drop_append_of_le_length (Nat.le_trans hd hk)
          rw [h x.1 vs after d (Nat.le_trans hd hk),hdrop]
          refine and_congr_right fun _ => ?_
          split
          · rfl
          · simp only [List.mem_map]
            refine exists_congr fun m => and_congr_left fun hm => ih _ _ _ _ ?_
            rw [List.length_drop]
            omega
        · have hfar : ∀ ks : List Nat, k ∉ (if d = 0 && !all then [] else ks.map (d + ·)) := by
            intro ks hm
            split at hm
            · cases hm
            · obtain ⟨m,_,hm⟩ := List.mem_map.1 hm
              omega
          exact iff_of_false (fun hm => hfar _ hm.2) (fun hm => hfar _ hm.2)

end Lists

/-! ## The end of the list -/

theorem propertyTable_fills : (propertyTable.all fun e => e.2.fills 12) = true := by decide +kernel

theorem zero_notMem_spansWithin {p : Pattern} {m : Nat} (h : p.fills m = true) (n : Nat)
    (vs : List Value) : 0 ∉ spansWithin n p vs := by
  intro hm
  have hd := spansWithin_sound n p vs 0 0 hm
  exact Nat.lt_irrefl _ (fills_sound h hd)

section Named
variable {n : Nat} (h : ∀ p, Local (spansWithin n p))
include h

theorem takeType_local (name : String) : Local (takeType (spansWithin n) name) := by
  intro vs after k hk
  cases vs with
  | nil =>
    obtain rfl := Nat.le_zero.1 hk
    refine iff_of_false (fun hm => ?_) (fun hm => by cases hm)
    have hd := takeType_sound (spansWithin_sound n) name after 0 0 hm
    exact Nat.lt_irrefl _ (type_lt hd)
  | cons v vs =>
    rw [List.cons_append,takeType,takeType]
    split
    · rfl
    · split
      · simp only [List.mem_map,List.mem_range,List.length_append]
        refine exists_congr fun m => and_congr_left fun hm => ?_
        rw [List.length_cons] at hk
        omega
      · split
        · rfl
        · split
          · exact h _ _ _ _ hk
          · rfl

theorem takeProperty_local (name : String) : Local (takeProperty (spansWithin n) name) := by
  intro vs after k hk
  cases vs with
  | nil =>
    obtain rfl := Nat.le_zero.1 hk
    have hnone : ∀ vs, 0 ∉ takeProperty (spansWithin n) name vs := by
      intro vs hm
      rw [takeProperty] at hm
      split at hm
      · simp at hm
      · split at hm
        · next p hp =>
          exact zero_notMem_spansWithin (all_of_lookup propertyTable_fills hp) n vs hm
        · cases hm
    exact iff_of_false (hnone _) (hnone _)
  | cons v vs =>
    have hhead : (v :: vs ++ after).head?.any Value.isSubstitution =
        (v :: vs).head?.any Value.isSubstitution := rfl
    rw [takeProperty,takeProperty,hhead]
    split
    · rfl
    · split
      · exact h _ _ _ _ hk
      · rfl

end Named

/-- What a pattern takes, within whatever nesting, does not depend on what follows. -/
theorem spansWithin_local (n : Nat) (p : Pattern) : Local (spansWithin n p) := by
  induction n generalizing p with
  | zero => exact fun _ _ _ _ => Iff.rfl
  | succ n ih =>
    intro vs after k hk
    unfold spansWithin
    rw [mem_ascending,mem_ascending]
    cases p with
    | keyword word => exact takeOne_local _ vs after k hk
    | literal symbol => exact takeOne_local _ vs after k hk
    | type name => exact takeType_local ih name vs after k hk
    | property name => exact takeProperty_local ih name vs after k hk
    | function name body => exact takeCall_local name vs after k hk
    | sequence items => exact takeSequence_local ih items vs after k hk
    | allOf items => exact takeAnyOrder_local ih true items _ 0 vs after k hk
    | anyOf items => exact takeAnyOrder_local ih false items _ 0 vs after k hk
    | oneOf items =>
      simp only [List.mem_flatMap]
      exact exists_congr fun item => and_congr_right fun _ => ih item vs after k hk
    | repeated item least most byComma =>
      exact takeRepeated_local (ih item) least most byComma vs after k hk
    | nonEmpty item =>
      simp only [List.mem_filter]
      exact and_congr_left fun _ => ih item vs after k hk

/-- A pattern accepts the nodes of a span just if it takes them where they stand. -/
theorem accepts_iff_mem_spans (p : Pattern) (span after : List Value) :
    p.accepts span = true ↔ span.length ∈ p.spans (span ++ after) := by
  rw [accepts,List.contains_iff_mem]
  exact (spansWithin_local levels p span after _ (Nat.le_refl _)).symm

end StyleExpansion.Pattern
