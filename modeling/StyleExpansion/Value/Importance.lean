import StyleExpansion.Value

/-! # Importance in a value

A value may end with an exclamation mark and the word `important`, which are not part of what it says.
-/
namespace StyleExpansion.Value

/-- The nodes without the exclamation mark and the word `important` at their end, if they are there. -/
def dropImportance? : List Value → Option (List Value)
  | [] => none
  | [mark,word] =>
    if mark.isOperator "!" && word.isIdent "important" then some [] else none
  | v :: vs => (dropImportance? vs).map (v :: ·)

/-- The value without its importance. -/
def withoutImportance (v : Value) : Value :=
  match dropImportance? v.flatten with
  | some vs => list vs
  | none => v

theorem dropImportance?_eq_some {vs ws : List Value} (h : dropImportance? vs = some ws) :
    ∃ mark word, vs = ws ++ [mark,word] ∧ mark.isOperator "!" = true ∧
      word.isIdent "important" = true := by
  induction vs using dropImportance?.induct generalizing ws with
  | case1 => simp [dropImportance?] at h
  | case2 mark word hm =>
    simp only [dropImportance?,hm,if_true,Option.some.injEq] at h
    exact ⟨mark,word,by simp [← h],(Bool.and_eq_true _ _ ▸ hm).1,(Bool.and_eq_true _ _ ▸ hm).2⟩
  | case3 mark word hm => simp [dropImportance?,hm] at h
  | case4 v vs hn ih =>
    rw [dropImportance?] at h
    · obtain ⟨us,hu,rfl⟩ := Option.map_eq_some_iff.1 h
      obtain ⟨mark,word,rfl,h1,h2⟩ := ih hu
      exact ⟨mark,word,rfl,h1,h2⟩
    · exact hn

end StyleExpansion.Value
