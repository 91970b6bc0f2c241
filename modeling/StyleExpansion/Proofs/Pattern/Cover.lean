import StyleExpansion.Proofs.Pattern.Extent
import StyleExpansion.Proofs.Text.Case

/-! # Patterns that cover others

A pattern covers another one if it derives, where no substitution stands, all that the other derives.
Covering is checked by opening alternatives and the names of the dictionary on both sides until terms
meet that are alike.
-/
namespace StyleExpansion

theorem Value.isIdent_iff {v : Value} {word : String} :
    v.isIdent word = true ↔ ∃ name, v = ident name ∧ Text.sameName name word = true := by
  cases v with
  | ident name => simp [isIdent]
  | _ => simp [isIdent]

theorem Value.isCustomName_congr {a b : String} (h : Text.sameName a b = true) :
    isCustomName (ident a) = isCustomName (ident b) := by
  unfold isCustomName isWide isIdent isName
  dsimp only
  rw [Text.isOneOf_congr h,Text.sameName_congr h]

namespace Pattern

def Plain (vs : List Value) : Prop := ∀ v ∈ vs, v.isSubstitution = false

theorem Plain.at {vs : List Value} (h : Plain vs) {i : Nat} {v : Value} (hv : vs[i]? = some v) :
    v.isSubstitution = false := h v (List.mem_of_getElem? hv)

theorem Plain.plainAt {vs : List Value} (h : Plain vs) (i : Nat) : PlainAt vs i :=
  fun _ hv => h.at hv

theorem Derives.one_of_basicType {name : String} {test : Value → Bool} {vs : List Value} {i j : Nat}
    (h : (type name).Derives vs i j) (hn : name ≠ "any-value")
    (hl : Value.basicTypes.lookup name = some test) :
    j = i + 1 ∧ ∃ v, vs[i]? = some v ∧ (test v = true ∨ v.isSubstitution = true) := by
  cases h with
  | typeSubstitution hi ht => exact ⟨rfl,_,hi,Or.inr ht⟩
  | anyValue _ _ _ _ => exact absurd rfl hn
  | basicType hi _ _ hl' ht =>
    rw [hl] at hl'
    cases hl'
    exact ⟨rfl,_,hi,Or.inl ht⟩
  | namedType _ _ _ hl' _ _ =>
    rw [hl] at hl'
    cases hl'

theorem Derives.of_basicType {name : String} {test : Value → Bool} {vs : List Value} {i j : Nat}
    (h : (type name).Derives vs i j) (hv : Plain vs) (hn : name ≠ "any-value")
    (hl : Value.basicTypes.lookup name = some test) :
    j = i + 1 ∧ ∃ v, vs[i]? = some v ∧ test v = true := by
  obtain ⟨hj,v,hi,ht⟩ := h.one_of_basicType hn hl
  exact ⟨hj,v,hi,ht.resolve_right (by simp [hv.at hi])⟩

def choices : Pattern → List Pattern
  | oneOf items => items
  | type name =>
    if name = "any-value" || (Value.basicTypes.lookup name).isSome then []
    else (ofType? name).toList
  | property name => (ofProperty? name).toList
  | _ => []

theorem derives_iff_choices {p : Pattern} {vs : List Value} (hv : Plain vs) (hp : p.choices ≠ [])
    {i j : Nat} : p.Derives vs i j ↔ ∃ q ∈ p.choices, q.Derives vs i j := by
  cases p with
  | oneOf items =>
    constructor
    · intro hd
      cases hd with
      | oneOf hm hd => exact ⟨_,hm,hd⟩
    · rintro ⟨q,hm,hd⟩
      exact .oneOf hm hd
  | type name =>
    rw [choices] at hp ⊢
    split at hp
    · exact absurd rfl hp
    · next hn =>
      rw [if_neg hn]
      rw [Bool.or_eq_true,not_or,decide_eq_true_eq,Option.not_isSome_iff_eq_none] at hn
      constructor
      · intro hd
        cases hd with
        | typeSubstitution h ht => simp [hv.at h] at ht
        | anyValue _ _ _ _ => exact absurd rfl hn.1
        | basicType _ _ _ hl _ => simp [hn.2] at hl
        | namedType _ _ _ _ hq hd => exact ⟨_,Option.mem_toList.2 hq,hd⟩
      · rintro ⟨q,hq,hd⟩
        have hq := Option.mem_toList.1 hq
        have hlt := fills_sound (all_of_lookup typeTable_fills hq) hd
        have hi : i < vs.length := by
          rcases hd.end_le with h | h <;> omega
        exact .namedType (List.getElem?_eq_getElem hi) (hv.at (List.getElem?_eq_getElem hi)) hn.1
          hn.2 hq hd
  | property name =>
    constructor
    · intro hd
      cases hd with
      | propertySubstitution h ht => simp [hv.at h] at ht
      | namedProperty _ hq hd => exact ⟨_,Option.mem_toList.2 hq,hd⟩
    · rintro ⟨q,hq,hd⟩
      exact .namedProperty (hv.plainAt i) (Option.mem_toList.1 hq) hd
  | keyword _ => exact absurd rfl hp
  | literal _ => exact absurd rfl hp
  | function _ _ => exact absurd rfl hp
  | sequence _ => exact absurd rfl hp
  | allOf _ => exact absurd rfl hp
  | anyOf _ => exact absurd rfl hp
  | repeated _ _ _ _ => exact absurd rfl hp
  | nonEmpty _ => exact absurd rfl hp

def sameTerm : Pattern → Pattern → Bool
  | keyword a,keyword b => a == b
  | literal a,literal b => a == b
  | type a,type b => a == b
  | property a,property b => a == b
  | _,_ => false

theorem eq_of_sameTerm {p q : Pattern} (h : sameTerm p q = true) : p = q := by
  unfold sameTerm at h
  split at h
  · rw [eq_of_beq h]
  · rw [eq_of_beq h]
  · rw [eq_of_beq h]
  · rw [eq_of_beq h]
  · cases h

def isNameKeyword : Pattern → Pattern → Bool
  | keyword word,type name => name == "custom-ident" && Value.isCustomName (.ident word)
  | _,_ => false

theorem derives_of_isNameKeyword {p q : Pattern} (h : isNameKeyword p q = true) {vs : List Value}
    {i j : Nat} (hd : p.Derives vs i j) : q.Derives vs i j := by
  unfold isNameKeyword at h
  split at h
  · rw [Bool.and_eq_true,beq_iff_eq] at h
    obtain ⟨rfl,hc⟩ := h
    cases hd with
    | keyword hv ht =>
      obtain ⟨name,rfl,hs⟩ := Value.isIdent_iff.1 ht
      refine .basicType hv rfl (by decide) (by rfl) ?_
      rw [Value.isCustomName_congr hs]
      exact hc
  · cases h

def isOptional : Pattern → Bool
  | repeated _ 0 _ _ => true
  | _ => false

section Rules
variable (cover : Pattern → Pattern → Bool)

def coveredInside : Pattern → Pattern → Bool
  | repeated p least most byComma,repeated q least' most' byComma' =>
    least == least' && most == most' && byComma == byComma' && cover p q
  | sequence ps,sequence qs => List.all₂ cover ps qs
  | nonEmpty p,q => cover p q
  | _,_ => false

def coveredByOne (p : Pattern) : List Pattern → Bool
  | [] => false
  | q :: qs => cover p q && qs.all isOptional || isOptional q && coveredByOne p qs

def coveredOnce (p : Pattern) : Pattern → Bool
  | nonEmpty q => cover p q
  | repeated q least most _ => decide (least ≤ 1) && most.all (decide <| 1 ≤ ·) && cover p q
  | sequence qs => coveredByOne cover p qs
  | _ => false

end Rules

def covered : Nat → Pattern → Pattern → Bool
  | 0,_,_ => false
  | n + 1,p,q =>
    sameTerm p q || isNameKeyword p q || q.choices.any (covered n p) ||
      (!p.choices.isEmpty && p.choices.all fun r => covered n r q) ||
      coveredInside (covered n) p q || (p.fills n && coveredOnce (covered n) p q)

def Within (vs : List Value) (p q : Pattern) : Prop := ∀ i j, p.Derives vs i j → q.Derives vs i j

theorem Derivation.rounds_mono {p q : Pattern} {byComma : Bool} {count : Nat} {vs : List Value}
    {i j : Nat} (h : Derivation (.rounds p byComma count) vs i j) (hpq : Within vs p q) :
    Derivation (.rounds q byComma count) vs i j := by
  induction count generalizing j with
  | zero =>
    cases h
    exact .noRound
  | succ count ih =>
    cases h with
    | round hr hc hd hlt => exact .round (ih hr) hc (hpq _ _ hd) hlt
    | separated hr hc hv ht hd hlt => exact .separated (ih hr) hc hv ht (hpq _ _ hd) hlt

theorem Derivation.chain_mono {ps qs : List Pattern} {filled : Bool} {vs : List Value} {i j : Nat}
    (h : Derivation (.chain filled ps) vs i j) (hpq : List.Forall₂ (Within vs) ps qs) :
    Derivation (.chain filled qs) vs i j := by
  induction hpq generalizing i with
  | nil =>
    cases h
    exact .endOfChain
  | cons hp _ ih =>
    cases h with
    | link hd hf hc => exact .link (hp _ _ hd) hf (ih hc)

theorem derives_of_isOptional {p : Pattern} (h : p.isOptional = true) (vs : List Value) (i : Nat) :
    p.Derives vs i i := by
  unfold isOptional at h
  split at h
  · exact .repeated (Nat.le_refl 0) (fun m _ => Nat.zero_le m) .noRound
  · cases h

theorem chain_of_optional {ps : List Pattern} (h : ps.all isOptional = true) (vs : List Value)
    (i : Nat) : Derivation (.chain false ps) vs i i := by
  induction ps with
  | nil => exact .endOfChain
  | cons p ps ih =>
    rw [List.all_cons,Bool.and_eq_true] at h
    exact .link (derives_of_isOptional h.1 vs i) (fun h => nomatch h) (ih h.2)

section Rules
variable {cover : Pattern → Pattern → Bool} {vs : List Value}

theorem coveredInside_sound (hcover : ∀ p q, cover p q = true → Within vs p q) {p q : Pattern}
    (h : coveredInside cover p q = true) : Within vs p q := by
  intro i j hd
  unfold coveredInside at h
  split at h
  · simp only [Bool.and_eq_true,beq_iff_eq] at h
    obtain ⟨⟨⟨rfl,rfl⟩,rfl⟩,hc⟩ := h
    cases hd with
    | repeated hl hm hr => exact .repeated hl hm (hr.rounds_mono (hcover _ _ hc))
  · cases hd with
    | sequence hc => exact .sequence (hc.chain_mono (((List.all₂_eq_true _ _).1 h).imp hcover))
  · cases hd with
    | nonEmpty hd _ => exact hcover _ _ h i j hd
  · cases h

theorem coveredByOne_sound (hcover : ∀ p q, cover p q = true → Within vs p q) {p : Pattern}
    {qs : List Pattern} (h : coveredByOne cover p qs = true) {i j : Nat} (hd : p.Derives vs i j) :
    Derivation (.chain false qs) vs i j := by
  induction qs with
  | nil => cases h
  | cons q qs ih =>
    rw [coveredByOne,Bool.or_eq_true,Bool.and_eq_true,Bool.and_eq_true] at h
    rcases h with ⟨hq,hqs⟩ | ⟨hq,hqs⟩
    · exact .link (hcover _ _ hq i j hd) (fun h => nomatch h) (chain_of_optional hqs vs j)
    · exact .link (derives_of_isOptional hq vs i) (fun h => nomatch h) (ih hqs)

theorem coveredOnce_sound (hcover : ∀ p q, cover p q = true → Within vs p q) {p q : Pattern}
    (h : coveredOnce cover p q = true) {i j : Nat} (hlt : i < j) (hd : p.Derives vs i j) :
    q.Derives vs i j := by
  unfold coveredOnce at h
  split at h
  · exact .nonEmpty (hcover _ _ h i j hd) (Nat.ne_of_lt hlt)
  · simp only [Bool.and_eq_true,decide_eq_true_eq] at h
    obtain ⟨⟨hl,hm⟩,hc⟩ := h
    refine .repeated hl ?_ (.round .noRound (by simp) (hcover _ _ hc i j hd) hlt)
    rintro m rfl
    exact of_decide_eq_true hm
  · exact .sequence (coveredByOne_sound hcover h hd)
  · cases h

end Rules

theorem covered_sound {n : Nat} {p q : Pattern} (h : covered n p q = true) {vs : List Value}
    (hv : Plain vs) : Within vs p q := by
  induction n generalizing p q with
  | zero => cases h
  | succ n ih =>
    intro i j hd
    have hcover : ∀ p q, covered n p q = true → Within vs p q := fun _ _ => ih
    simp only [covered,Bool.or_eq_true] at h
    rcases h with ((((h | h) | h) | h) | h) | h
    · rwa [← eq_of_sameTerm h]
    · exact derives_of_isNameKeyword h hd
    · obtain ⟨r,hr,hc⟩ := List.any_eq_true.1 h
      exact (derives_iff_choices hv (List.ne_nil_of_mem hr)).2 ⟨r,hr,ih hc i j hd⟩
    · rw [Bool.and_eq_true,Bool.not_eq_true',List.isEmpty_eq_false_iff] at h
      obtain ⟨r,hr,hd⟩ := (derives_iff_choices hv h.1).1 hd
      exact ih (List.all_eq_true.1 h.2 r hr) i j hd
    · exact coveredInside_sound hcover h i j hd
    · rw [Bool.and_eq_true] at h
      exact coveredOnce_sound hcover h.2 (fills_sound h.1 hd) hd

end Pattern

end StyleExpansion
