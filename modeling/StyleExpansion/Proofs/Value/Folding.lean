import Mathlib.Data.List.Forall2
import StyleExpansion.Edge
import StyleExpansion.Proofs.Text.Case
import StyleExpansion.Shorthand
import StyleExpansion.Value.Segments
import StyleExpansion.Value.Types

/-! # Values in lower case

Two values are alike but for letter case if they have the same folding, in which names of identifiers, of
functions and of units are in lower case on every level. No test of a node sees a difference, and every
way to take a value apart or to put one together gives values that differ in letter case at most.
-/
namespace StyleExpansion.Value

mutual
def folded : Value → Value
  | ident name => ident name.toLower
  | dimension text unit => dimension text unit.toLower
  | function name arguments => function name.toLower (foldedAll arguments)
  | parens nodes => parens (foldedAll nodes)
  | brackets nodes => brackets (foldedAll nodes)
  | list nodes => list (foldedAll nodes)
  | v => v
def foldedAll : List Value → List Value
  | [] => []
  | v :: vs => v.folded :: foldedAll vs
end

def CaseEqual (v w : Value) : Prop := v.folded = w.folded

theorem foldedAll_eq_map (vs : List Value) : foldedAll vs = vs.map folded := by
  induction vs with
  | nil => rfl
  | cons v vs ih => rw [foldedAll,ih,List.map_cons]

/-! ## Tests -/

section Tests
variable (v : Value)

theorem isIdent_folded (name : String) : v.folded.isIdent name = v.isIdent name := by
  cases v <;> first | rfl | exact Text.sameName_congr (Text.sameName_toLower _) name

theorem isOperator_folded (symbol : String) : v.folded.isOperator symbol = v.isOperator symbol := by
  cases v <;> rfl

theorem isString_folded : v.folded.isString = v.isString := by
  cases v <;> rfl

theorem isCallOf_folded (names : List String) : v.folded.isCallOf names = v.isCallOf names := by
  cases v <;> first | rfl | exact Text.isOneOf_congr (Text.sameName_toLower _) names

theorem hasUnit_folded (units : List String) : v.folded.hasUnit units = v.hasUnit units := by
  cases v <;> first | rfl | exact Text.isOneOf_congr (Text.sameName_toLower _) units

theorem isZero_folded : v.folded.isZero = v.isZero := by
  cases v <;> rfl

theorem isName_folded : v.folded.isName = v.isName := by
  cases v <;> rfl

theorem isWide_folded : v.folded.isWide = v.isWide := by
  cases v <;> first | rfl | exact Text.isOneOf_congr (Text.sameName_toLower _) wideKeywords

theorem isMath_folded : v.folded.isMath = v.isMath := v.isCallOf_folded mathFunctions

theorem isSubstitution_folded : v.folded.isSubstitution = v.isSubstitution :=
  v.isCallOf_folded ["var","env"]

theorem isHexColor_folded : v.folded.isHexColor = v.isHexColor := by
  cases v <;> rfl

theorem isPercentage_folded : v.folded.isPercentage = v.isPercentage := by
  have hmath := v.isMath_folded
  cases v <;> first | rfl | exact hmath

theorem isNumber_folded : v.folded.isNumber = v.isNumber := by
  have hmath := v.isMath_folded
  cases v <;> first | rfl | exact hmath

theorem isInteger_folded : v.folded.isInteger = v.isInteger := by
  have hmath := v.isMath_folded
  cases v <;> first | rfl | exact hmath

theorem isUrl_folded : v.folded.isUrl = v.isUrl := by
  have hcall := v.isCallOf_folded ["url","src"]
  cases v <;> first | rfl | exact hcall

theorem isLength_folded : v.folded.isLength = v.isLength := by
  rw [isLength,hasUnit_folded,isZero_folded,isMath_folded,isLength]

theorem isColor_folded : v.folded.isColor = v.isColor := by
  have hone : ∀ (names : List String) (s : String), Text.isOneOf names s.toLower = Text.isOneOf names s :=
    fun names s => Text.isOneOf_congr (Text.sameName_toLower s) names
  cases v with
  | ident name => simp only [folded,isColor,hone]
  | function name arguments => simp only [folded,isColor,hone]
  | _ => rfl

theorem isDashedName_folded : v.folded.isDashedName = v.isDashedName := by
  cases v with
  | ident name =>
    simp only [folded,isDashedName,Text.toList_toLower]
    rcases name.toList with _ | ⟨a,_ | ⟨b,r⟩⟩
    · rfl
    · simp [List.isPrefixOf]
    · simp [List.isPrefixOf,Text.toLower_beq_hyphen]
  | _ => rfl

end Tests

theorem basicTypes_folded : ∀ t ∈ basicTypes, ∀ v : Value, t.2 v.folded = t.2 v := by
  simp only [basicTypes,List.forall_mem_cons]
  refine ⟨isLength_folded,isPercentage_folded,?_,isNumber_folded,isInteger_folded,?_,?_,
    fun v => v.hasUnit_folded _,fun v => v.hasUnit_folded _,isString_folded,isUrl_folded,isColor_folded,
    isHexColor_folded,?_,isName_folded,?_,isDashedName_folded,List.forall_mem_nil _⟩
  · exact fun v => by rw [isLength_folded,isPercentage_folded]
  · exact fun v => by rw [isTime,hasUnit_folded,isMath_folded,isTime]
  · exact fun v => by rw [isAngle,hasUnit_folded,isZero_folded,isMath_folded,isAngle]
  · exact fun v => by rw [isImage,isUrl_folded,isCallOf_folded,isImage]
  · exact fun v => by rw [isCustomName,isName_folded,isWide_folded,isIdent_folded,isCustomName]

/-! ## Taking apart and putting together -/

theorem flatten_folded (v : Value) : v.folded.flatten = v.flatten.map folded := by
  induction v using list_induction with
  | node v hlist hnode =>
    rw [hnode,List.map_singleton]
    cases v <;> first | rfl | exact absurd rfl (hlist _)
  | lists vs ih =>
    rw [folded,foldedAll_eq_map,flatten_list,flatten_list,flattenAll_eq_flatMap,flattenAll_eq_flatMap,
      List.flatMap_map,List.map_flatMap]
    exact List.flatMap_congr ih

theorem isEmpty_folded (v : Value) : v.folded.isEmpty = v.isEmpty := by
  rw [Bool.eq_iff_iff,isEmpty_iff,isEmpty_iff,flatten_folded,List.map_eq_nil_iff]

theorem list_folded (vs : List Value) : (list vs).folded = list (vs.map folded) := by
  rw [folded,foldedAll_eq_map]

theorem ofNodes_folded (vs : List Value) : (ofNodes vs).folded = ofNodes (vs.map folded) := by
  rcases vs with _ | ⟨v,_ | ⟨w,vs⟩⟩
  · rfl
  · rfl
  · exact list_folded (v :: w :: vs)

theorem runs_folded (symbol : String) (vs : List Value) :
    runs symbol (vs.map folded) = (runs symbol vs).map (List.map folded) := by
  induction vs with
  | nil => rfl
  | cons v vs ih =>
    obtain ⟨r,rs,hruns⟩ := List.exists_cons_of_ne_nil (runs_ne_nil symbol vs)
    rw [List.map_cons,runs,runs,isOperator_folded,ih,hruns]
    split <;> rfl

theorem allSegments_folded (symbol : String) (v : Value) :
    v.folded.allSegments symbol = (v.allSegments symbol).map folded := by
  simp only [allSegments,flatten_folded,runs_folded,List.map_map]
  exact List.map_congr_left fun r _ => (list_folded r).symm

theorem segments_folded (symbol : String) (v : Value) :
    v.folded.segments symbol = (v.segments symbol).map folded := by
  rw [segments,allSegments_folded,List.filter_map,segments]
  simp only [Function.comp_def,isEmpty_folded]

theorem interleave_folded (symbol : String) (vs : List Value) :
    interleave symbol (vs.map folded) = (interleave symbol vs).map folded := by
  fun_induction interleave symbol vs with
  | case1 => rfl
  | case2 => rfl
  | case3 v w vs ih =>
    rw [List.map_cons] at ih
    rw [List.map_cons,List.map_cons,interleave,ih]
    rfl

theorem map_folded_eq_iff {vs ws : List Value} :
    vs.map folded = ws.map folded ↔ List.Forall₂ CaseEqual vs ws := by
  rw [← List.forall₂_eq_eq_eq,List.forall₂_map_left_iff,List.forall₂_map_right_iff]
  rfl

theorem list_caseEqual_iff {vs ws : List Value} :
    (list vs).CaseEqual (list ws) ↔ List.Forall₂ CaseEqual vs ws := by
  rw [CaseEqual,list_folded,list_folded,list.injEq,map_folded_eq_iff]

theorem join_folded (symbol : String) (vs : List Value) :
    (join symbol vs).folded = join symbol (vs.map folded) := by
  rw [join,list_folded,← interleave_folded,join]

theorem soleKeyword_folded (v : Value) : v.folded.soleKeyword = v.soleKeyword := by
  rw [soleKeyword,flatten_folded,soleKeyword]
  rcases v.flatten with _ | ⟨w,_ | ⟨x,ws⟩⟩
  · rfl
  · cases w <;> first | rfl | exact congrArg some (Text.toLower_toLower _)
  · cases w <;> rfl

theorem getD_folded (vs : List Value) (i : Nat) (d : Value) :
    (vs.map folded).getD i d.folded = (vs.getD i d).folded := by
  rw [List.getD_eq_getElem?_getD,List.getElem?_map,List.getD_eq_getElem?_getD]
  exact Option.getD_map folded d _

theorem nodeOr_folded (v : Value) (i : Nat) (d : Value) :
    v.folded.nodeOr i d.folded = (v.nodeOr i d).folded := by
  rw [nodeOr,flatten_folded,getD_folded,nodeOr]

theorem ofNodesOr_folded (vs : List Value) (d : Value) :
    ofNodesOr (vs.map folded) d.folded = (ofNodesOr vs d).folded := by
  rw [ofNodesOr,ofNodesOr,List.isEmpty_map]
  split
  · rfl
  · exact (ofNodes_folded vs).symm

/-! A default that is its own folding is one on both sides. -/

section Defaults
variable {d : Value} (hd : d.folded = d)
include hd

theorem option_getD_of_folded (o : Option Value) : (o.map folded).getD d = (o.getD d).folded := by
  cases o with
  | none => exact hd.symm
  | some => rfl

theorem getD_of_folded (vs : List Value) (i : Nat) :
    (vs.map folded).getD i d = (vs.getD i d).folded := by
  rw [← getD_folded,hd]

theorem nodeOr_of_folded (v : Value) (i : Nat) : v.folded.nodeOr i d = (v.nodeOr i d).folded := by
  rw [← nodeOr_folded,hd]

theorem ofNodesOr_of_folded (vs : List Value) :
    ofNodesOr (vs.map folded) d = (ofNodesOr vs d).folded := by
  rw [← ofNodesOr_folded,hd]

theorem presentOr_of_folded (vs : List Value) (i : Nat) :
    presentOr (vs.map folded) i d = (presentOr vs i d).folded := by
  rw [presentOr,List.getElem?_map,Option.filter_map,presentOr]
  simp only [Function.comp_def,isEmpty_folded]
  exact option_getD_of_folded hd _

end Defaults

end StyleExpansion.Value
