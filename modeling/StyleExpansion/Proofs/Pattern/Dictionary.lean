import StyleExpansion.Proofs.Pattern.Exact

/-! # The dictionary is matched exactly

All patterns of the dictionary nest within the levels that matching goes through, so for them, and for
the types and properties that stand for them, matching takes all that is derived.
-/
namespace StyleExpansion.Pattern

/-- What is checked of all patterns of a table holds of those that are found in it. -/
theorem all_of_lookup {table : List (String × Pattern)} {check : Pattern → Bool} {name : String}
    {p : Pattern} (h : (table.all fun e => check e.2) = true) (hp : table.lookup name = some p) :
    check p = true := by
  obtain ⟨before,after,rfl,_⟩ := List.lookup_eq_some_iff.1 hp
  exact List.all_eq_true.1 h (name,p) (by simp)

theorem withinLimits_succ {n : Nat} {p : Pattern} (h : p.withinLimits n = true) :
    p.withinLimits (n + 1) = true := by
  induction n generalizing p with
  | zero => cases h
  | succ n ih =>
    unfold withinLimits at h ⊢
    have hall : ∀ {ps : List Pattern}, ps.all (withinLimits n) = true →
        ps.all (withinLimits (n + 1)) = true := by
      intro ps hps
      rw [List.all_eq_true] at hps ⊢
      intro q hq
      exact ih (hps q hq)
    have hoption : ∀ {o : Option Pattern}, o.all (withinLimits n) = true →
        o.all (withinLimits (n + 1)) = true := by
      intro o ho
      cases o with
      | none => rfl
      | some q => exact ih ho
    cases p with
    | keyword _ => rfl
    | literal _ => rfl
    | type name => exact hoption h
    | property name => exact hoption h
    | function _ body => exact ih h
    | sequence items => exact hall h
    | allOf items =>
      obtain ⟨hfew,h⟩ := Bool.and_eq_true_iff.1 h
      exact Bool.and_eq_true_iff.2 ⟨hfew,hall h⟩
    | anyOf items =>
      obtain ⟨hfew,h⟩ := Bool.and_eq_true_iff.1 h
      exact Bool.and_eq_true_iff.2 ⟨hfew,hall h⟩
    | oneOf items => exact hall h
    | repeated item _ _ _ => exact ih h
    | nonEmpty item => exact ih h

theorem withinLimits_mono {n m : Nat} {p : Pattern} (h : p.withinLimits n = true) (hm : n ≤ m) :
    p.withinLimits m = true := by
  induction hm with
  | refl => exact h
  | step _ ih => exact withinLimits_succ ih

theorem typeTable_nests : (typeTable.all fun e => e.2.withinLimits 12) = true := by decide +kernel

theorem propertyTable_nests : (propertyTable.all fun e => e.2.withinLimits 12) = true := by
  decide +kernel

theorem withinLimits_of_type {name : String} {p : Pattern} (h : ofType? name = some p) :
    p.withinLimits 12 = true := all_of_lookup typeTable_nests h

theorem withinLimits_of_property {name : String} {p : Pattern} (h : ofProperty? name = some p) :
    p.withinLimits 12 = true := all_of_lookup propertyTable_nests h

theorem type_withinLimits (name : String) {n : Nat} (hn : 12 ≤ n) :
    (type name).withinLimits (n + 1) = true := by
  rw [withinLimits]
  cases h : ofType? name with
  | none => rfl
  | some p => exact withinLimits_mono (withinLimits_of_type h) hn

theorem property_withinLimits (name : String) {n : Nat} (hn : 12 ≤ n) :
    (property name).withinLimits (n + 1) = true := by
  rw [withinLimits]
  cases h : ofProperty? name with
  | none => rfl
  | some p => exact withinLimits_mono (withinLimits_of_property h) hn

/-- A pattern that nests within the levels accepts exactly the nodes that it derives. -/
theorem accepts_iff_derives {p : Pattern} (hp : p.withinLimits levels = true) {vs : List Value} :
    p.accepts vs = true ↔ p.Derives vs 0 vs.length := ((ends_exact p vs).2 hp).2

theorem isValueOf_iff {name : String} {vs : List Value} :
    isValueOf name vs = true ↔ ∃ p, ofProperty? name.toLower = some p ∧
      ((∃ w, vs = [w] ∧ w.isWide = true) ∨ p.Derives vs 0 vs.length) := by
  unfold isValueOf
  cases h : ofProperty? name.toLower with
  | none => simp
  | some p =>
    have hp : p.withinLimits levels = true := withinLimits_mono (withinLimits_of_property h) (by decide)
    rw [Bool.or_eq_true,accepts_iff_derives hp]
    have hw : (vs.length == 1 && vs.all Value.isWide) = true ↔
        ∃ w, vs = [w] ∧ w.isWide = true := by
      rw [Bool.and_eq_true,beq_iff_eq,List.length_eq_one_iff]
      constructor
      · rintro ⟨⟨w,rfl⟩,hw⟩
        exact ⟨w,rfl,by simpa using hw⟩
      · rintro ⟨w,rfl,hw⟩
        exact ⟨⟨w,rfl⟩,by simpa using hw⟩
    rw [hw]
    constructor
    · intro h
      exact ⟨p,rfl,h⟩
    · rintro ⟨q,hq,h⟩
      cases hq
      exact h

end StyleExpansion.Pattern
