import Mathlib
import StyleExpansion.Pattern.Reader
import StyleExpansion.Proofs.Pattern.Dictionary

/-! # Patterns that are written out

A pattern may be given by its text. Where the text is read, matching is as exact as that of the pattern.
-/
namespace StyleExpansion.Pattern

/-- Matching is exact: of any pattern, wherever in a list; of the text of a pattern, while a text that
is no pattern accepts nothing; of the dictionary, which is within the limits as a whole; and of the
values of a property. -/
theorem matching_exact :
    (∀ (p : Pattern) (vs : List Value),
      (∀ i, (p.ends vs i).Pairwise (· < ·) ∧ ∀ j ∈ p.ends vs i, p.Derives vs i j) ∧
      (p.withinLimits levels = true →
        (∀ i j, j ∈ p.ends vs i ↔ p.Derives vs i j) ∧
        (p.accepts vs = true ↔ p.Derives vs 0 vs.length))) ∧
    (∀ (text : String) (vs : List Value), (ofText text).accepts vs = true →
      ∃ p, parse? text = some p ∧ p.Derives vs 0 vs.length) ∧
    (∀ (text : String) (p : Pattern) (vs : List Value), parse? text = some p →
      p.withinLimits levels = true → p.Derives vs 0 vs.length → (ofText text).accepts vs = true) ∧
    (∀ (name : String) (p : Pattern), ofType? name = some p ∨ ofProperty? name = some p →
      p.withinLimits levels = true) ∧
    ∀ (name : String) (vs : List Value), isValueOf name vs = true ↔
      ∃ p, ofProperty? name.toLower = some p ∧
        ((∃ w, vs = [w] ∧ w.isWide = true) ∨ p.Derives vs 0 vs.length) := by
  refine ⟨ends_exact,?_,?_,?_,fun _ _ => isValueOf_iff⟩
  · intro text vs h
    unfold ofText at h
    cases hp : parse? text with
    | none =>
      rw [hp] at h
      cases mem_ends_derives (accepts_iff_mem_ends.1 h) with
      | oneOf hm _ => cases hm
    | some p =>
      rw [hp] at h
      exact ⟨p,rfl,mem_ends_derives (accepts_iff_mem_ends.1 h)⟩
  · intro text p vs ht hp h
    rw [ofText,ht]
    exact (accepts_iff_derives hp).2 h
  · rintro name p (h | h)
    · exact withinLimits_mono (withinLimits_of_type h) (by decide)
    · exact withinLimits_mono (withinLimits_of_property h) (by decide)

/-- Two nodes in the other order than the pattern has them, and a pattern of the dictionary. -/
theorem matching_exact_style_width :
    parse? "<line-width> || solid" = some (.anyOf [.type "line-width",.keyword "solid"]) ∧
    (Pattern.anyOf [.type "line-width",.keyword "solid"]).Derives [.ident "solid",.ident "thin"] 0 2 ∧
    2 ∈ (Pattern.anyOf [.type "line-width",.keyword "solid"]).ends
      [.ident "solid",.ident "thin"] 0 ∧
    (ofText "<line-width> || solid").accepts [.ident "solid",.ident "thin"] = true ∧
    ∃ p, ofType? "line-width" = some p ∧ p.withinLimits levels = true := by
  obtain ⟨hends,hread,htext,htable,_⟩ := matching_exact
  have hp : parse? "<line-width> || solid" =
      some (.anyOf [.type "line-width",.keyword "solid"]) := by cbv
  have hn : (Pattern.anyOf [.type "line-width",.keyword "solid"]).withinLimits levels = true := by
    decide +kernel
  have ha : (ofText "<line-width> || solid").accepts [.ident "solid",.ident "thin"] = true := by
    rw [ofText,hp]
    decide +kernel
  obtain ⟨p,hq,hd⟩ := hread "<line-width> || solid" [.ident "solid",.ident "thin"] ha
  rw [hp] at hq
  cases hq
  have ht : ofType? "line-width" =
      some (.oneOf [.type "length",.keyword "thin",.keyword "medium",.keyword "thick"]) := by
    rfl
  exact ⟨hp,hd,(((hends _ _).2 hn).1 0 2).2 hd,htext _ _ _ hp hn hd,_,ht,
    htable "line-width" _ (Or.inl ht)⟩

end StyleExpansion.Pattern
