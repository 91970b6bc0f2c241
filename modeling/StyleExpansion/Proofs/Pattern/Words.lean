import StyleExpansion.Proofs.Pattern.Cover

/-! # Words

A node that is one of some words is none of others that have no name in common with them, and the words are
what their pattern derives.
-/
namespace StyleExpansion.Shorthand
open Pattern Value

def isAmong (names : List String) : Value → Bool
  | ident name => Text.isOneOf names name
  | _ => false

/-- A name is in two lists only if they have a name in common. -/
theorem isOneOf_disjoint {as bs : List String} (h : ∀ a ∈ as, ∀ b ∈ bs, Text.sameName a b = false)
    {name : String} (ha : Text.isOneOf as name = true) : Text.isOneOf bs name = false := by
  obtain ⟨a,hmem,hname⟩ := List.any_eq_true.1 ha
  refine List.any_eq_false.2 fun b hb => ?_
  rw [Text.sameName_congr hname,h a hmem b hb]
  exact Bool.false_ne_true

/-- A value is one of two lists of words only if they have a name in common. -/
theorem isAmong_disjoint {as bs : List String} (h : ∀ a ∈ as, ∀ b ∈ bs, Text.sameName a b = false)
    {v : Value} (hv : isAmong as v = true) : isAmong bs v = false := by
  cases v with
  | ident name => exact isOneOf_disjoint h hv
  | _ => rfl

theorem isAmong_of_isIdent {v : Value} {word : String} (h : v.isIdent word = true) :
    isAmong [word] v = true := by
  obtain ⟨name,rfl,hname⟩ := isIdent_iff.1 h
  simp [isAmong,Text.isOneOf,hname]

theorem words_derive {names : List String} {v : Value} {vs : List Value} {i : Nat} (hv : vs[i]? = some v)
    (h : isAmong names v = true) : (Pattern.words names).Derives vs i (i + 1) := by
  cases v with
  | ident name =>
    obtain ⟨word,hword,hname⟩ := List.any_eq_true.1 h
    exact .oneOf (List.mem_map_of_mem hword) (.keyword hv hname)
  | _ => cases h

theorem words_derived {names : List String} {v : Value} {more : List Value} {j : Nat}
    (h : (Pattern.words names).Derives (v :: more) 0 j) : j = 1 ∧ isAmong names v = true := by
  cases h with
  | oneOf hmem h =>
    obtain ⟨word,hword,rfl⟩ := List.mem_map.1 hmem
    cases h with
    | keyword hv ht =>
      cases hv
      obtain ⟨name,rfl,hname⟩ := isIdent_iff.1 ht
      exact ⟨rfl,List.any_eq_true.2 ⟨word,hword,hname⟩⟩

end StyleExpansion.Shorthand
