import StyleExpansion.Pattern.Spans
import Mathlib.Data.List.Perm.Subperm

/-! # Derivations

What the notation of patterns means, apart from any way of matching: from which place of a list to
which other place a pattern derives the nodes between them. Derivations may be moved along a list, and
a list may go on behind them.
-/
namespace StyleExpansion.Pattern

/-- What nodes are derived from: a pattern, patterns one after the other, each of them filled with
nodes if it must be, or a number of repetitions of a pattern. -/
inductive Goal
  | whole (p : Pattern)
  | chain (filled : Bool) (ps : List Pattern)
  | rounds (p : Pattern) (byComma : Bool) (count : Nat)

def PlainAt (vs : List Value) (i : Nat) : Prop :=
  ∀ v, vs[i]? = some v → v.isSubstitution = false

inductive Derivation : Goal → List Value → Nat → Nat → Prop
  | keyword {word : String} {vs : List Value} {i : Nat} {v : Value} : vs[i]? = some v →
      v.isIdent word = true → Derivation (.whole (keyword word)) vs i (i + 1)
  | literal {symbol : String} {vs : List Value} {i : Nat} {v : Value} : vs[i]? = some v →
      v.isOperator symbol = true → Derivation (.whole (literal symbol)) vs i (i + 1)
  | typeSubstitution {name : String} {vs : List Value} {i : Nat} {v : Value} : vs[i]? = some v →
      v.isSubstitution = true → Derivation (.whole (type name)) vs i (i + 1)
  | anyValue {vs : List Value} {i j : Nat} {v : Value} : vs[i]? = some v →
      v.isSubstitution = false → i < j → j ≤ vs.length →
      Derivation (.whole (type "any-value")) vs i j
  | basicType {name : String} {test : Value → Bool} {vs : List Value} {i : Nat} {v : Value} :
      vs[i]? = some v → v.isSubstitution = false → name ≠ "any-value" →
      Value.basicTypes.lookup name = some test → test v = true →
      Derivation (.whole (type name)) vs i (i + 1)
  | namedType {name : String} {p : Pattern} {vs : List Value} {i j : Nat} {v : Value} :
      vs[i]? = some v → v.isSubstitution = false → name ≠ "any-value" →
      Value.basicTypes.lookup name = none → ofType? name = some p →
      Derivation (.whole p) vs i j → Derivation (.whole (type name)) vs i j
  | propertySubstitution {name : String} {vs : List Value} {i : Nat} {v : Value} :
      vs[i]? = some v → v.isSubstitution = true → Derivation (.whole (property name)) vs i (i + 1)
  | namedProperty {name : String} {p : Pattern} {vs : List Value} {i j : Nat} : PlainAt vs i →
      ofProperty? name = some p → Derivation (.whole p) vs i j →
      Derivation (.whole (property name)) vs i j
  | function {found name : String} {arguments : List Value} {body : Pattern} {vs : List Value}
      {i : Nat} : vs[i]? = some (.function found arguments) → Text.sameName found name = true →
      Derivation (.whole body) arguments 0 arguments.length →
      Derivation (.whole (function name body)) vs i (i + 1)
  | sequence {items : List Pattern} {vs : List Value} {i j : Nat} :
      Derivation (.chain false items) vs i j → Derivation (.whole (sequence items)) vs i j
  | allOf {ps items : List Pattern} {vs : List Value} {i j : Nat} : ps.Perm items →
      Derivation (.chain false ps) vs i j → Derivation (.whole (allOf items)) vs i j
  | anyOf {ps items : List Pattern} {vs : List Value} {i j : Nat} : ps ≠ [] → ps.Subperm items →
      Derivation (.chain true ps) vs i j → Derivation (.whole (anyOf items)) vs i j
  | oneOf {p : Pattern} {items : List Pattern} {vs : List Value} {i j : Nat} : p ∈ items →
      Derivation (.whole p) vs i j → Derivation (.whole (oneOf items)) vs i j
  | repeated {p : Pattern} {least : Nat} {most : Option Nat} {byComma : Bool} {count : Nat}
      {vs : List Value} {i j : Nat} : least ≤ count → (∀ m ∈ most, count ≤ m) →
      Derivation (.rounds p byComma count) vs i j →
      Derivation (.whole (repeated p least most byComma)) vs i j
  | nonEmpty {p : Pattern} {vs : List Value} {i j : Nat} : Derivation (.whole p) vs i j → i ≠ j →
      Derivation (.whole (nonEmpty p)) vs i j
  | endOfChain {filled : Bool} {vs : List Value} {i : Nat} : Derivation (.chain filled []) vs i i
  | link {filled : Bool} {p : Pattern} {ps : List Pattern} {vs : List Value} {i m j : Nat} :
      Derivation (.whole p) vs i m → (filled = true → i < m) →
      Derivation (.chain filled ps) vs m j → Derivation (.chain filled (p :: ps)) vs i j
  | noRound {p : Pattern} {byComma : Bool} {vs : List Value} {i : Nat} :
      Derivation (.rounds p byComma 0) vs i i
  | round {p : Pattern} {byComma : Bool} {count : Nat} {vs : List Value} {i m j : Nat} :
      Derivation (.rounds p byComma count) vs i m → (byComma && count != 0) = false →
      Derivation (.whole p) vs m j → m < j → Derivation (.rounds p byComma (count + 1)) vs i j
  | separated {p : Pattern} {byComma : Bool} {count : Nat} {vs : List Value} {i m j : Nat}
      {v : Value} : Derivation (.rounds p byComma count) vs i m → (byComma && count != 0) = true →
      vs[m]? = some v → v.isOperator "," = true → Derivation (.whole p) vs (m + 1) j → m + 1 < j →
      Derivation (.rounds p byComma (count + 1)) vs i j

/-- The pattern derives the nodes of a list from one place up to another. -/
abbrev Derives (p : Pattern) (vs : List Value) (i j : Nat) : Prop := Derivation (.whole p) vs i j

namespace Derivation

theorem le {g : Goal} {vs : List Value} {i j : Nat} (h : Derivation g vs i j) : i ≤ j := by
  induction h <;> omega

theorem shift {g : Goal} {vs : List Value} {i j : Nat} (h : Derivation g vs i j)
    (before : List Value) :
    Derivation g (before ++ vs) (before.length + i) (before.length + j) := by
  have hget : ∀ (vs : List Value) (i : Nat), (before ++ vs)[before.length + i]? = vs[i]? := by
    intro vs i
    rw [List.getElem?_append_right (Nat.le_add_right _ _),Nat.add_sub_cancel_left]
  induction h with
  | keyword hv ht => exact keyword ((hget _ _).trans hv) ht
  | literal hv ht => exact literal ((hget _ _).trans hv) ht
  | typeSubstitution hv ht => exact typeSubstitution ((hget _ _).trans hv) ht
  | anyValue hv hs hij hj =>
    apply anyValue ((hget _ _).trans hv) hs (by omega)
    rw [List.length_append]
    omega
  | basicType hv hs hn hl ht => exact basicType ((hget _ _).trans hv) hs hn hl ht
  | namedType hv hs hn hl hp _ ih => exact namedType ((hget _ _).trans hv) hs hn hl hp ih
  | propertySubstitution hv ht => exact propertySubstitution ((hget _ _).trans hv) ht
  | namedProperty hs hp _ ih =>
    refine namedProperty ?_ hp ih
    intro v hv
    exact hs v ((hget _ _).symm.trans hv)
  | function hv hn hb => exact function ((hget _ _).trans hv) hn hb
  | sequence _ ih => exact sequence ih
  | allOf hp _ ih => exact allOf hp ih
  | anyOf hn hp _ ih => exact anyOf hn hp ih
  | oneOf hp _ ih => exact oneOf hp ih
  | repeated hl hm _ ih => exact repeated hl hm ih
  | nonEmpty _ hij ih => exact nonEmpty ih (by omega)
  | endOfChain => exact endOfChain
  | link _ hf _ ih ihs => exact link ih (fun h => Nat.add_lt_add_left (hf h) _) ihs
  | noRound => exact noRound
  | round _ hc _ hij ihs ih => exact round ihs hc ih (by omega)
  | separated _ hc hv ht _ hij ihs ih =>
    exact separated ihs hc ((hget _ _).trans hv) ht (by simpa [Nat.add_assoc] using ih) (by omega)

/-- A list may go on behind what is derived, unless a substitution is among the further nodes. -/
theorem extend {g : Goal} {vs : List Value} {i j : Nat} (h : Derivation g vs i j)
    {after : List Value} (ha : ∀ v ∈ after, v.isSubstitution = false) :
    Derivation g (vs ++ after) i j := by
  have hget : ∀ {vs : List Value} {i : Nat} {v : Value}, vs[i]? = some v →
      (vs ++ after)[i]? = some v := by
    intro vs i v hv
    rw [List.getElem?_append_left (List.getElem?_eq_some_iff.1 hv).1,hv]
  induction h with
  | keyword hv ht => exact keyword (hget hv) ht
  | literal hv ht => exact literal (hget hv) ht
  | typeSubstitution hv ht => exact typeSubstitution (hget hv) ht
  | anyValue hv hs hij hj =>
    apply anyValue (hget hv) hs hij
    rw [List.length_append]
    omega
  | basicType hv hs hn hl ht => exact basicType (hget hv) hs hn hl ht
  | namedType hv hs hn hl hp _ ih => exact namedType (hget hv) hs hn hl hp ih
  | propertySubstitution hv ht => exact propertySubstitution (hget hv) ht
  | namedProperty hs hp _ ih =>
    refine namedProperty ?_ hp ih
    intro v hv
    rw [List.getElem?_append] at hv
    split at hv
    · exact hs v hv
    · exact ha v (List.mem_of_getElem? hv)
  | function hv hn hb => exact function (hget hv) hn hb
  | sequence _ ih => exact sequence ih
  | allOf hp _ ih => exact allOf hp ih
  | anyOf hn hp _ ih => exact anyOf hn hp ih
  | oneOf hp _ ih => exact oneOf hp ih
  | repeated hl hm _ ih => exact repeated hl hm ih
  | nonEmpty _ hij ih => exact nonEmpty ih hij
  | endOfChain => exact endOfChain
  | link _ hf _ ih ihs => exact link ih hf ihs
  | noRound => exact noRound
  | round _ hc _ hij ihs ih => exact round ihs hc ih hij
  | separated _ hc hv ht _ hij ihs ih => exact separated ihs hc (hget hv) ht ih hij

end Derivation

/-! ## Inversion -/

section Inversion
variable {p q : Pattern} {vs : List Value} {i j : Nat}

theorem Derives.pair (h : (sequence [p,q]).Derives vs i j) :
    ∃ m, p.Derives vs i m ∧ q.Derives vs m j := by
  cases h with
  | sequence hc =>
    cases hc with
    | link hp _ hc =>
      cases hc with
      | link hq _ hc =>
        cases hc
        exact ⟨_,hp,hq⟩

theorem Derives.cons {ps : List Pattern} (h : (sequence (p :: ps)).Derives vs i j) :
    ∃ m, p.Derives vs i m ∧ (sequence ps).Derives vs m j := by
  cases h with
  | sequence hc =>
    cases hc with
    | link hp _ hc => exact ⟨_,hp,.sequence hc⟩

theorem Derives.of_optional (h : (optional p).Derives vs i j) : i = j ∨ i < j ∧ p.Derives vs i j := by
  cases h with
  | repeated _ hm hr =>
    cases hr with
    | noRound => exact Or.inl rfl
    | round hr _ hd hlt =>
      cases hr with
      | noRound => exact Or.inr ⟨hlt,hd⟩
      | round _ _ _ _ => exact absurd (hm 1 rfl) (by omega)
      | separated _ hc _ _ _ _ => cases hc
    | separated _ hc _ _ _ _ => cases hc

theorem Derives.optional (h : p.Derives vs i j) (hlt : i < j) : (optional p).Derives vs i j := by
  refine .repeated (Nat.zero_le 1) ?_ (.round .noRound rfl h hlt)
  intro m hm
  cases hm
  exact Nat.le_refl 1

theorem Derives.of_literal {symbol : String} (h : (literal symbol).Derives vs i j) :
    j = i + 1 ∧ vs[i]? = some (.operator symbol) := by
  cases h with
  | @literal _ _ _ v hv ht =>
    refine ⟨rfl,?_⟩
    cases v with
    | operator found =>
      have : found = symbol := by simpa [Value.isOperator] using ht
      rw [hv,this]
    | _ => cases ht

end Inversion

end StyleExpansion.Pattern
