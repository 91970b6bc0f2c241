import StyleExpansion.Pattern.Spans
import StyleExpansion.Proofs.Value.Folding

/-! # Patterns and letter case

What a pattern takes from a list of nodes does not depend on their letter case: every way to take spans
keeps to this if those that it is made of do.
-/
namespace StyleExpansion.Pattern
open Value

def Blind (take : Taker) : Prop := ∀ vs : List Value, take (vs.map folded) = take vs

theorem takeOne_blind {test : Value → Bool} (h : ∀ v, test v.folded = test v) :
    Blind (takeOne test) := by
  intro vs
  cases vs with
  | nil => rfl
  | cons v vs => rw [List.map_cons,takeOne,takeOne,h]

section Combinations
variable {take : Taker} (h : Blind take)
include h

theorem advance_folded (vs : List Value) (starts : List Nat) :
    advance take (vs.map folded) starts = advance take vs starts := by
  simp only [advance,← List.map_drop,h _]

theorem takeNext_blind (comma : Bool) : Blind (takeNext take comma) := by
  intro vs
  cases comma with
  | false => exact congrArg (List.filter _) (h vs)
  | true =>
    cases vs with
    | nil => rfl
    | cons v vs => simp only [List.map_cons,takeNext,if_true,isOperator_folded,h vs]

theorem takeRounds_folded (byComma : Bool) (least : Nat) (vs : List Value) (n count : Nat)
    (starts : List Nat) : takeRounds take byComma least (vs.map folded) n count starts =
      takeRounds take byComma least vs n count starts := by
  induction n generalizing count starts with
  | zero => rfl
  | succ n ih => simp only [takeRounds,advance_folded (takeNext_blind h _),ih]

theorem takeRepeated_blind (least : Nat) (most : Option Nat) (byComma : Bool) :
    Blind (takeRepeated take least most byComma) := by
  intro vs
  simp only [takeRepeated,takeRounds_folded h,List.length_map]

theorem takeCall_blind (name : String) : Blind (takeCall take name) := by
  intro vs
  rcases vs with _ | ⟨v,vs⟩
  · rfl
  · cases v with
    | function found args =>
      simp only [List.map_cons,folded,takeCall,foldedAll_eq_map,h args,List.length_map,
        Text.sameName_congr (Text.sameName_toLower found)]
    | _ => rfl

end Combinations

section Lists
variable {take : Pattern → Taker} (h : ∀ p, Blind (take p))
include h

theorem takeSequence_blind (ps : List Pattern) : Blind (takeSequence take ps) := by
  intro vs
  simp only [takeSequence,advance_folded (h _)]

theorem takeAnyOrder_blind (all : Bool) (items : List Pattern) (n : Nat) (used : Mask) :
    Blind (takeAnyOrder take all items n used) := by
  induction n generalizing used with
  | zero => exact fun _ => rfl
  | succ n ih =>
    intro vs
    simp only [takeAnyOrder,h _ vs,← List.map_drop,ih _ _]

theorem takeType_blind (name : String) : Blind (takeType take name) := by
  intro vs
  cases vs with
  | nil => rfl
  | cons v vs =>
    rw [List.map_cons,takeType,takeType,isSubstitution_folded,List.length_map]
    have hnamed : ∀ p, take p (v.folded :: vs.map folded) = take p (v :: vs) := fun p => h p (v :: vs)
    cases hlookup : basicTypes.lookup name with
    | none => simp only [hnamed]
    | some test =>
      obtain ⟨before,after,htypes,_⟩ := List.lookup_eq_some_iff.1 hlookup
      have htest : test v.folded = test v :=
        basicTypes_folded (name,test) (htypes ▸ List.mem_append_right _ List.mem_cons_self) v
      simp only [htest]

theorem takeProperty_blind (name : String) : Blind (takeProperty take name) := by
  intro vs
  have hhead : (vs.map folded).head?.any isSubstitution = vs.head?.any isSubstitution := by
    cases vs with
    | nil => rfl
    | cons v vs => exact isSubstitution_folded v
  simp only [takeProperty,hhead,h _ vs]

end Lists

/-- The spans of a pattern, within whatever nesting, do not depend on letter case. -/
theorem spansWithin_blind (n : Nat) (p : Pattern) : Blind (spansWithin n p) := by
  induction n generalizing p with
  | zero => exact fun _ => rfl
  | succ n ih =>
    intro vs
    cases p with
    | keyword word => exact congrArg ascending (takeOne_blind (fun v => v.isIdent_folded word) vs)
    | literal symbol => exact congrArg ascending (takeOne_blind (fun v => v.isOperator_folded symbol) vs)
    | type name => exact congrArg ascending (takeType_blind ih name vs)
    | property name => exact congrArg ascending (takeProperty_blind ih name vs)
    | function name body => exact congrArg ascending (takeCall_blind (ih body) name vs)
    | sequence items => exact congrArg ascending (takeSequence_blind ih items vs)
    | allOf items => exact congrArg ascending (takeAnyOrder_blind ih true items _ 0 vs)
    | anyOf items => exact congrArg ascending (takeAnyOrder_blind ih false items _ 0 vs)
    | oneOf items =>
      refine congrArg ascending (?_ : items.flatMap _ = items.flatMap _)
      simp only [ih _ vs]
    | repeated item least most byComma =>
      exact congrArg ascending (takeRepeated_blind (ih item) least most byComma vs)
    | nonEmpty item => exact congrArg (fun ks => ascending (ks.filter (· ≠ 0))) (ih item vs)

theorem accepts_folded (p : Pattern) (vs : List Value) : p.accepts (vs.map folded) = p.accepts vs := by
  rw [accepts,spans,spansWithin_blind,List.length_map,accepts,spans]

theorem isValueOf_folded (property : String) (vs : List Value) :
    isValueOf property (vs.map folded) = isValueOf property vs := by
  have hwide : (vs.map folded).all isWide = vs.all isWide := by
    simp only [List.all_map,Function.comp_def,isWide_folded]
  simp only [isValueOf,hwide,accepts_folded,List.length_map]

end StyleExpansion.Pattern
