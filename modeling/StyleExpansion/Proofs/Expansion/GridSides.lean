import StyleExpansion.Proofs.Expansion.Commas
import Mathlib.Data.List.TakeWhile

/-! # Sides of a grid

A slash parts the value of a grid into two sides, and every node of a side goes to one longhand, which
takes nodes of that side only. A side with automatic tracks keeps all of its nodes but the words that
say so, from which the flow is read.
-/
namespace StyleExpansion
open Value

/-! ## Two sides -/

/-- The nodes of a value before and behind a slash. Without a first side there is no second one. -/
structure Sides where
  first : List Value
  second : List Value

namespace Sides

def ofParts (before behind : List Value) : Sides :=
  if before.isEmpty then ⟨behind,[]⟩ else ⟨before,behind⟩

/-- What stands before the first slash of a value and what stands behind it. -/
def of (v : Value) : Sides :=
  ofParts (v.flatten.takeWhile fun n => !n.isOperator "/")
    (v.flatten.dropWhile fun n => !n.isOperator "/").tail

def sentTo (s : Sides) (first second : Value → String) (name : String) : List Value :=
  (s.first.filter fun n => first n == name) ++ s.second.filter fun n => second n == name

theorem ofParts_append (before behind : List Value) :
    (ofParts before behind).first ++ (ofParts before behind).second = before ++ behind := by
  cases before with
  | nil => simp [ofParts]
  | cons v before => simp [ofParts]

theorem second_of_first {v : Value} (h : (of v).first = []) : (of v).second = [] := by
  unfold of ofParts at h ⊢
  split at h
  · next hempty => rw [if_pos hempty]
  · next hempty => exact absurd (List.isEmpty_iff.2 h) hempty

/-- Without the empty ones, the two sides are the two parts. -/
theorem ofParts_filter (before behind : List Value) :
    [(ofParts before behind).first,(ofParts before behind).second].filter (fun r => !r.isEmpty) =
      [before,behind].filter fun r => !r.isEmpty := by
  cases before with
  | nil => cases behind <;> simp [ofParts]
  | cons v before => simp [ofParts]

end Sides

/-- Without a slash in a list, or with one between two lists without any. -/
theorem free_or_parted {nodes : List Value}
    (h : (nodes.filter (isOperator "/")).length ≤ 1) :
    (∀ n ∈ nodes, n.isOperator "/" = false) ∨
    ∃ before behind, nodes = before ++ operator "/" :: behind ∧
      (∀ n ∈ before, n.isOperator "/" = false) ∧ ∀ n ∈ behind, n.isOperator "/" = false := by
  induction nodes with
  | nil => exact Or.inl (by simp)
  | cons v nodes ih =>
    cases hv : v.isOperator "/" with
    | true =>
      rw [List.filter_cons_of_pos hv,List.length_cons] at h
      have hnone : (nodes.filter (isOperator "/")) = [] := by
        rw [← List.length_eq_zero_iff]
        omega
      refine Or.inr ⟨[],nodes,?_,by simp,fun n hn => ?_⟩
      · rw [List.nil_append,Value.isOperator_iff.1 hv]
      · simpa using List.filter_eq_nil_iff.1 hnone n hn
    | false =>
      rw [List.filter_cons_of_neg (by simp [hv])] at h
      rcases ih h with hfree | ⟨before,behind,rfl,hbefore,hbehind⟩
      · exact Or.inl (List.forall_mem_cons.2 ⟨hv,hfree⟩)
      · exact Or.inr ⟨v :: before,behind,rfl,List.forall_mem_cons.2 ⟨hv,hbefore⟩,hbehind⟩

theorem not_slash_of_free {nodes : List Value} (h : ∀ n ∈ nodes, n.isOperator "/" = false) :
    ∀ n ∈ nodes, (!n.isOperator "/") = true := by
  intro n hn
  rw [h n hn]
  rfl

theorem slash_not_kept : ¬(!(operator "/").isOperator "/") = true := by decide

section Parted
variable {v : Value}

theorem sides_of_free (h : ∀ n ∈ v.flatten, n.isOperator "/" = false) :
    Sides.of v = Sides.ofParts v.flatten [] := by
  have hfree := not_slash_of_free h
  rw [Sides.of,List.takeWhile_eq_self_iff.2 hfree,List.dropWhile_eq_nil_iff.2 hfree,List.tail_nil]

theorem sides_of_parted {before behind : List Value} (hv : v.flatten = before ++ operator "/" :: behind)
    (h : ∀ n ∈ before, n.isOperator "/" = false) : Sides.of v = Sides.ofParts before behind := by
  have hfree := not_slash_of_free h
  rw [Sides.of,hv,List.takeWhile_append_of_pos hfree,List.dropWhile_append_of_pos hfree,
    List.takeWhile_cons,List.dropWhile_cons,if_neg slash_not_kept,if_neg slash_not_kept,
    List.append_nil,List.tail_cons]

theorem segments_eq_filter (symbol : String) (v : Value) :
    v.segments symbol = ((runs symbol v.flatten).filter fun r => !r.isEmpty).map list := by
  rw [segments,allSegments,List.filter_map]
  congr 1
  refine List.filter_congr fun r hr => ?_
  have hempty : (list r).isEmpty = r.isEmpty := by
    rw [Bool.eq_iff_iff,Value.isEmpty_iff,flatten_of_mem_runs hr,List.isEmpty_iff]
  rw [Function.comp_apply,hempty]

variable (h : (v.flatten.filter (isOperator "/")).length ≤ 1)
include h

theorem sides_append :
    (Sides.of v).first ++ (Sides.of v).second = v.flatten.filter fun n => !n.isOperator "/" := by
  have hfree : ∀ {nodes : List Value}, (∀ n ∈ nodes, n.isOperator "/" = false) →
      (nodes.filter fun n => !n.isOperator "/") = nodes :=
    fun hn => List.filter_eq_self.2 (not_slash_of_free hn)
  rcases free_or_parted h with hnone | ⟨before,behind,hv,hbefore,hbehind⟩
  · rw [sides_of_free hnone,Sides.ofParts_append,List.append_nil,hfree hnone]
  · rw [sides_of_parted hv hbefore,Sides.ofParts_append,hv,List.filter_append,hfree hbefore,
      List.filter_cons,if_neg slash_not_kept,hfree hbehind]

theorem segments_sides : v.segments "/" =
    ([(Sides.of v).first,(Sides.of v).second].filter fun r => !r.isEmpty).map list := by
  rw [segments_eq_filter]
  rcases free_or_parted h with hnone | ⟨before,behind,hv,hbefore,hbehind⟩
  · rw [sides_of_free hnone,Sides.ofParts_filter,runs_of_free hnone]
    cases v.flatten <;> rfl
  · rw [sides_of_parted hv hbefore,Sides.ofParts_filter,hv,runs_append hbefore,runs_of_free hbehind]

end Parted

/-! ## Sent to longhands -/

/-- What a longhand holds: the nodes that are sent to it, or its default if there are none. -/
def Holds (w : Value) (nodes : List Value) (default : Value) : Prop :=
  if nodes.isEmpty then w = default else w.flatten = nodes

theorem holds_none (default : Value) : Holds default [] default := rfl

theorem holds_listOr {nodes : List Value} (h : AreNodes nodes) (default : Value) :
    Holds (if nodes.isEmpty then default else list nodes) nodes default := by
  unfold Holds
  split
  · rfl
  · exact h.flatten_list

theorem holds_ofNodesOr {nodes : List Value} (h : AreNodes nodes) (default : Value) :
    Holds (ofNodesOr nodes default) nodes default := by
  unfold Holds ofNodesOr
  split
  · rfl
  · exact h.flatten_ofNodes

/-- Every node of two sides is sent to one of the longhands, which all are different, and is held there
in its place among the other nodes; no longhand holds nodes of both sides. -/
structure Placed (ls : List Longhand) (names : List String) (s : Sides) (first second : Value → String)
    (default : String → Value) : Prop where
  properties : ls.map Longhand.property = names
  once : names.Nodup
  first_listed : ∀ n ∈ s.first, first n ∈ names
  second_listed : ∀ n ∈ s.second, second n ∈ names
  apart : ∀ n ∈ s.first, ∀ m ∈ s.second, first n ≠ second m
  holds : ∀ l ∈ ls, Holds l.value (s.sentTo first second l.property) (default l.property)

/-- The value of a grid: at most one slash, and none of the values that are not read. -/
structure IsGridValue (v : Value) : Prop where
  oneSlash : (v.flatten.filter (isOperator "/")).length ≤ 1
  nodes : v.flatten ≠ []
  written : v.flatten ≠ [string ""]
  narrow : ∀ n, v.flatten = [n] → n.isWide = false ∧ n.isIdent "none" = false

namespace IsGridValue
variable {v : Value} (h : IsGridValue v)
include h

theorem commonValue : commonValue v.flatten = none :=
  commonValue_of_read h.nodes h.written fun n hn => (h.narrow n hn).1

theorem soleKeyword_ne : v.soleKeyword ≠ some "none" := by
  unfold soleKeyword
  split
  · next name hv =>
    intro hnone
    have hsame : Text.sameName name "none" = true := by
      rw [← Option.some.inj hnone,← Text.sameName_congr (Text.sameName_toLower name)]
      exact Text.sameName_refl _
    have hident := (h.narrow _ hv).2
    rw [Value.isIdent,hsame] at hident
    cases hident
  · intro hnone
    cases hnone

theorem sides_areNodes : AreNodes (Sides.of v).first ∧ AreNodes (Sides.of v).second := by
  have hsub : (Sides.of v).first ++ (Sides.of v).second ⊆ v.flatten := by
    rw [sides_append h.oneSlash]
    exact List.filter_subset_self _
  obtain ⟨hfirst,hsecond⟩ := List.append_subset.1 hsub
  exact ⟨(flatten_areNodes v).mono hfirst,(flatten_areNodes v).mono hsecond⟩

theorem segments_cases :
    (v.segments "/" = [] ∧ (Sides.of v).first = [] ∧ (Sides.of v).second = []) ∨
    (v.segments "/" = [list (Sides.of v).first] ∧ (Sides.of v).second = []) ∨
    (v.segments "/" = [list (Sides.of v).first,list (Sides.of v).second] ∧ (Sides.of v).second ≠ []) := by
  have hsegments := segments_sides h.oneSlash
  cases hfirst : (Sides.of v).first with
  | nil =>
    have hsecond := Sides.second_of_first hfirst
    refine Or.inl ⟨?_,rfl,hsecond⟩
    rw [hsegments,hfirst,hsecond]
    rfl
  | cons n rest =>
    rw [hfirst] at hsegments
    cases hsecond : (Sides.of v).second with
    | nil =>
      rw [hsecond] at hsegments
      exact Or.inr (Or.inl ⟨hsegments,rfl⟩)
    | cons m more =>
      rw [hsecond] at hsegments
      exact Or.inr (Or.inr ⟨hsegments,List.cons_ne_nil m more⟩)

theorem first_eq : ((v.segments "/")[0]?.map flatten).getD [] = (Sides.of v).first := by
  obtain ⟨hfirst,-⟩ := h.sides_areNodes
  rcases h.segments_cases with ⟨hs,hnil,-⟩ | ⟨hs,-⟩ | ⟨hs,-⟩
  · rw [hs,hnil]
    rfl
  · rw [hs]
    exact hfirst.flatten_list
  · rw [hs]
    exact hfirst.flatten_list

theorem second_eq : ((v.segments "/")[1]?.map flatten).getD [] = (Sides.of v).second := by
  rcases h.segments_cases with ⟨hs,-,hnil⟩ | ⟨hs,hnil⟩ | ⟨hs,-⟩
  · rw [hs,hnil]
    rfl
  · rw [hs,hnil]
    rfl
  · rw [hs]
    exact h.sides_areNodes.2.flatten_list

/-- The second segment is the second side, and missing where that is. -/
theorem second_segment (default : Value) : (v.segments "/").getD 1 default =
    if (Sides.of v).second.isEmpty then default else list (Sides.of v).second := by
  rcases h.segments_cases with ⟨hs,-,hnil⟩ | ⟨hs,hnil⟩ | ⟨hs,hsecond⟩
  · rw [hs,hnil]
    rfl
  · rw [hs,hnil]
    rfl
  · rw [hs,if_neg (by rwa [List.isEmpty_iff])]
    rfl

end IsGridValue

/-! ## The longhands of a grid -/

/-- Strings on the first side are areas, all else there rows. -/
def areaOrRow (n : Value) : String :=
  if n.isString then "grid-template-areas" else "grid-template-rows"

def listOrNone (nodes : List Value) : Value :=
  if nodes.isEmpty then ident "none" else list nodes

theorem gridTemplateParts_eq {v : Value} (h : IsGridValue v) : Shorthand.gridTemplateParts v =
    #v[listOrNone ((Sides.of v).first.filter fun n => !n.isString),listOrNone (Sides.of v).second,
      listOrNone ((Sides.of v).first.filter isString)] := by
  have hread : ¬(v.flatten.isEmpty || v.soleKeyword == some "none") = true := by
    simp [h.nodes,h.soleKeyword_ne]
  rw [Shorthand.gridTemplateParts]
  simp only [if_neg hread,h.first_eq,h.second_segment]
  rfl

/-- The defaults of a grid, whose flow is given. -/
def gridDefault (flow : Value) (name : String) : Value :=
  if name == "grid-auto-flow" then flow
  else if name == "grid-auto-rows" || name == "grid-auto-columns" then ident "auto"
  else ident "none"

/-- The nodes of a side that are no words about automatic tracks. -/
def tracksOf (nodes : List Value) : List Value :=
  nodes.filter fun n => !n.isIdent "auto-flow" && !n.isIdent "dense"

/-- The axis of automatic tracks, and that they are dense if the side says so. -/
def flowOf (axis : String) (nodes : List Value) : Value :=
  ofNodes (ident axis :: if nodes.any (isIdent "dense") then [ident "dense"] else [])

theorem autoFlow_eq (nodes : List Value) (axis : String) : Shorthand.autoFlow nodes axis =
    if nodes.any (isIdent "auto-flow") then
      some ⟨flowOf axis nodes,ofNodesOr (tracksOf nodes) (ident "auto")⟩
    else none := by
  unfold Shorthand.autoFlow flowOf
  split
  · split <;> rfl
  · rfl

theorem areaOrRow_elim {P : String → Prop} (hrow : P "grid-template-rows")
    (harea : P "grid-template-areas") (n : Value) : P (areaOrRow n) := by
  unfold areaOrRow
  split
  · exact harea
  · exact hrow

theorem areaOrRow_other {name : String} (hrow : "grid-template-rows" ≠ name)
    (harea : "grid-template-areas" ≠ name) (n : Value) : (areaOrRow n == name) = false :=
  areaOrRow_elim (P := fun found => (found == name) = false) (beq_eq_false_iff_ne.2 hrow)
    (beq_eq_false_iff_ne.2 harea) n

theorem areaOrRow_row (n : Value) : (areaOrRow n == "grid-template-rows") = !n.isString := by
  unfold areaOrRow
  split
  · next h => rw [h]; decide
  · next h => rw [Bool.eq_false_iff.2 h]; decide

theorem areaOrRow_area (n : Value) : (areaOrRow n == "grid-template-areas") = n.isString := by
  unfold areaOrRow
  split
  · next h => rw [h]; decide
  · next h => rw [Bool.eq_false_iff.2 h]; decide

theorem placed_of_leaf {s : Shorthand} (hs : s ∈ shorthands) (hleaf : s.name ∉ Shorthand.branchNames)
    {property : String} (hp : property.toLower = s.name) {v : Value}
    (hv : commonValue v.flatten = none) {sides : Sides} {first second : Value → String}
    {default : String → Value} (hfirst : ∀ n ∈ sides.first, first n ∈ s.longhands)
    (hsecond : ∀ n ∈ sides.second, second n ∈ s.longhands)
    (apart : ∀ n ∈ sides.first, ∀ m ∈ sides.second, first n ≠ second m)
    (holds : ∀ l ∈ s.expand v,
      Holds l.value (sides.sentTo first second l.property) (default l.property)) :
    Placed (expand property v) s.longhands sides first second default := by
  rw [expand_leaf hs hleaf hp hv]
  exact ⟨s.expand_property v,(longhandsOf_leaf hs hleaf hp).2,hfirst,hsecond,apart,holds⟩

theorem sentTo_other {s : Sides} {name : String} (hrow : "grid-template-rows" ≠ name)
    (harea : "grid-template-areas" ≠ name) (hcolumn : "grid-template-columns" ≠ name) :
    s.sentTo areaOrRow (fun _ => "grid-template-columns") name = [] := by
  simp only [Sides.sentTo,areaOrRow_other hrow harea,beq_eq_false_iff_ne.2 hcolumn,List.filter_false,
    List.append_nil]

def templateLonghands (s : Sides) : List Longhand :=
  [⟨"grid-template-rows",listOrNone (s.first.filter fun n => !n.isString)⟩,
   ⟨"grid-template-columns",listOrNone s.second⟩,
   ⟨"grid-template-areas",listOrNone (s.first.filter isString)⟩]

theorem templateLonghands_hold {s : Sides} (hfirst : AreNodes s.first) (hsecond : AreNodes s.second)
    (default : String → Value)
    (hdefault : ∀ l ∈ templateLonghands s, default l.property = ident "none") :
    ∀ l ∈ templateLonghands s, Holds l.value
      (s.sentTo areaOrRow (fun _ => "grid-template-columns") l.property) (default l.property) := by
  intro l hl
  rw [hdefault l hl]
  have hcolumn : ∀ n, (areaOrRow n == "grid-template-columns") = false :=
    areaOrRow_other (by decide) (by decide)
  have hall : ∀ l ∈ templateLonghands s, Holds l.value
      (s.sentTo areaOrRow (fun _ => "grid-template-columns") l.property) (ident "none") := by
    simp only [templateLonghands,List.forall_mem_cons,Sides.sentTo,areaOrRow_row,areaOrRow_area,hcolumn,
      String.reduceBEq,List.filter_false,List.filter_true,List.append_nil,List.nil_append]
    exact ⟨holds_listOr (hfirst.mono (List.filter_subset_self _)) _,holds_listOr hsecond _,
      holds_listOr (hfirst.mono (List.filter_subset_self _)) _,by simp⟩
  exact hall l hl

theorem gridTemplate_expand {v : Value} (h : IsGridValue v) :
    Shorthand.gridTemplate.expand v = templateLonghands (Sides.of v) := by
  have hassign : Shorthand.gridTemplate.assign v = _ := gridTemplateParts_eq h
  rw [Shorthand.expand,hassign]
  rfl

theorem gridTemplate_mem : Shorthand.gridTemplate ∈ shorthands := by simp [shorthands]

theorem gridTemplate_placed {v : Value} (h : IsGridValue v) {property : String}
    (hp : property.toLower = "grid-template") :
    Placed (expand property v) Shorthand.gridTemplate.longhands (Sides.of v) areaOrRow
      (fun _ => "grid-template-columns") fun _ => ident "none" := by
  obtain ⟨hfirst,hsecond⟩ := h.sides_areNodes
  refine placed_of_leaf gridTemplate_mem (by decide +kernel) hp h.commonValue (fun n _ => ?_)
    (fun _ _ => by decide) (fun n _ _ _ => ?_) ?_
  · exact areaOrRow_elim (P := (· ∈ Shorthand.gridTemplate.longhands)) (by decide) (by decide) n
  · exact areaOrRow_elim (P := (· ≠ "grid-template-columns")) (by decide) (by decide) n
  · rw [gridTemplate_expand h]
    exact templateLonghands_hold hfirst hsecond (fun _ => ident "none") fun _ _ => rfl

theorem grid_mem : Shorthand.grid ∈ shorthands := by simp [shorthands]

theorem grid_expand_of_assign {v : Value} {rows columns areas autoRows autoColumns flow : Value}
    (h : Shorthand.grid.assign v = #v[rows,columns,areas,autoRows,autoColumns,flow]) :
    Shorthand.grid.expand v =
      [⟨"grid-template-rows",rows⟩,⟨"grid-template-columns",columns⟩,
       ⟨"grid-template-areas",areas⟩,⟨"grid-auto-rows",autoRows⟩,⟨"grid-auto-columns",autoColumns⟩,
       ⟨"grid-auto-flow",flow⟩] := by
  rw [Shorthand.expand,h]
  rfl

theorem grid_assign_eq {v : Value} (h : IsGridValue v) : Shorthand.grid.assign v =
    if (Sides.of v).first.any (isIdent "auto-flow") then
      #v[ident "none",ofNodesOr (Sides.of v).second (ident "none"),ident "none",
        ofNodesOr (tracksOf (Sides.of v).first) (ident "auto"),ident "auto",
        flowOf "row" (Sides.of v).first]
    else if (Sides.of v).second.any (isIdent "auto-flow") then
      #v[ofNodesOr (Sides.of v).first (ident "none"),ident "none",ident "none",ident "auto",
        ofNodesOr (tracksOf (Sides.of v).second) (ident "auto"),flowOf "column" (Sides.of v).second]
    else
      #v[listOrNone ((Sides.of v).first.filter fun n => !n.isString),listOrNone (Sides.of v).second,
        listOrNone ((Sides.of v).first.filter isString),ident "auto",ident "auto",ident "row"] := by
  simp only [Shorthand.grid,h.first_eq,h.second_eq,autoFlow_eq,gridTemplateParts_eq h]
  cases (Sides.of v).first.any (isIdent "auto-flow") with
  | true => rfl
  | false => cases (Sides.of v).second.any (isIdent "auto-flow") <;> rfl

section Grid
variable {v : Value} (h : IsGridValue v) {property : String} (hp : property.toLower = "grid")
include h hp

theorem grid_placed_rows (hflow : (Sides.of v).first.any (isIdent "auto-flow") = true) :
    Placed (expand property v) Shorthand.grid.longhands
      ⟨tracksOf (Sides.of v).first,(Sides.of v).second⟩ (fun _ => "grid-auto-rows")
      (fun _ => "grid-template-columns") (gridDefault (flowOf "row" (Sides.of v).first)) := by
  obtain ⟨hfirst,hsecond⟩ := h.sides_areNodes
  have hassign := grid_assign_eq h
  rw [if_pos hflow] at hassign
  refine placed_of_leaf grid_mem (by decide +kernel) hp h.commonValue (fun _ _ => by decide)
    (fun _ _ => by decide) (fun _ _ _ _ => by decide) ?_
  rw [grid_expand_of_assign hassign]
  simp only [List.forall_mem_cons,Sides.sentTo,String.reduceBEq,List.filter_false,List.filter_true,
    List.append_nil,List.nil_append]
  exact ⟨holds_none _,holds_ofNodesOr hsecond _,holds_none _,
    holds_ofNodesOr (hfirst.mono (List.filter_subset_self _)) _,holds_none _,holds_none _,by simp⟩

theorem grid_placed_columns (hnone : (Sides.of v).first.any (isIdent "auto-flow") = false)
    (hflow : (Sides.of v).second.any (isIdent "auto-flow") = true) :
    Placed (expand property v) Shorthand.grid.longhands
      ⟨(Sides.of v).first,tracksOf (Sides.of v).second⟩ (fun _ => "grid-template-rows")
      (fun _ => "grid-auto-columns") (gridDefault (flowOf "column" (Sides.of v).second)) := by
  obtain ⟨hfirst,hsecond⟩ := h.sides_areNodes
  have hassign := grid_assign_eq h
  rw [if_neg (by simp [hnone]),if_pos hflow] at hassign
  refine placed_of_leaf grid_mem (by decide +kernel) hp h.commonValue (fun _ _ => by decide)
    (fun _ _ => by decide) (fun _ _ _ _ => by decide) ?_
  rw [grid_expand_of_assign hassign]
  simp only [List.forall_mem_cons,Sides.sentTo,String.reduceBEq,List.filter_false,List.filter_true,
    List.append_nil,List.nil_append]
  exact ⟨holds_ofNodesOr hfirst _,holds_none _,holds_none _,holds_none _,
    holds_ofNodesOr (hsecond.mono (List.filter_subset_self _)) _,holds_none _,by simp⟩

omit hp in
theorem grid_expand_of_template (hnone : (Sides.of v).first.any (isIdent "auto-flow") = false)
    (hsecond : (Sides.of v).second.any (isIdent "auto-flow") = false) :
    Shorthand.grid.expand v = templateLonghands (Sides.of v) ++
      [⟨"grid-auto-rows",ident "auto"⟩,⟨"grid-auto-columns",ident "auto"⟩,
       ⟨"grid-auto-flow",ident "row"⟩] := by
  have hassign := grid_assign_eq h
  rw [if_neg (by simp [hnone]),if_neg (by simp [hsecond])] at hassign
  exact grid_expand_of_assign hassign

/-- No automatic tracks: the sides are read as those of a template. -/
theorem grid_placed_template (hnone : (Sides.of v).first.any (isIdent "auto-flow") = false)
    (hsecond' : (Sides.of v).second.any (isIdent "auto-flow") = false) :
    Placed (expand property v) Shorthand.grid.longhands (Sides.of v) areaOrRow
      (fun _ => "grid-template-columns") (gridDefault (ident "row")) := by
  obtain ⟨hfirst,hsecond⟩ := h.sides_areNodes
  refine placed_of_leaf grid_mem (by decide +kernel) hp h.commonValue (fun n _ => ?_)
    (fun _ _ => by decide) (fun n _ _ _ => ?_) ?_
  · exact areaOrRow_elim (P := (· ∈ Shorthand.grid.longhands)) (by decide) (by decide) n
  · exact areaOrRow_elim (P := (· ≠ "grid-template-columns")) (by decide) (by decide) n
  rw [grid_expand_of_template h hnone hsecond',List.forall_mem_append]
  constructor
  · refine templateLonghands_hold hfirst hsecond _ ?_
    simp only [templateLonghands,List.forall_mem_cons]
    exact ⟨rfl,rfl,rfl,by simp⟩
  · simp only [List.forall_mem_cons]
    rw [sentTo_other (by decide) (by decide) (by decide),sentTo_other (by decide) (by decide) (by decide),
      sentTo_other (by decide) (by decide) (by decide)]
    exact ⟨holds_none _,holds_none _,holds_none _,by simp⟩

end Grid

/-- The nodes of a grid are placed on the longhands of its sides. Every node of either side goes to one
longhand and stands there in its order, and no longhand holds nodes of both sides; only the words about
automatic tracks are taken out, on the first side that has them, and give the flow. Without automatic
tracks a grid begins with what its template is. -/
theorem expand_grid_sides {v : Value} (h : IsGridValue v) {template grid : String}
    (ht : template.toLower = "grid-template") (hg : grid.toLower = "grid") :
    ((Sides.of v).first ++ (Sides.of v).second = v.flatten.filter fun n => !n.isOperator "/") ∧
    Placed (expand template v) Shorthand.gridTemplate.longhands (Sides.of v) areaOrRow
      (fun _ => "grid-template-columns") (fun _ => ident "none") ∧
    ((Sides.of v).first.any (isIdent "auto-flow") = true →
      Placed (expand grid v) Shorthand.grid.longhands
        ⟨tracksOf (Sides.of v).first,(Sides.of v).second⟩ (fun _ => "grid-auto-rows")
        (fun _ => "grid-template-columns") (gridDefault (flowOf "row" (Sides.of v).first))) ∧
    ((Sides.of v).first.any (isIdent "auto-flow") = false →
      (Sides.of v).second.any (isIdent "auto-flow") = true →
      Placed (expand grid v) Shorthand.grid.longhands
        ⟨(Sides.of v).first,tracksOf (Sides.of v).second⟩ (fun _ => "grid-template-rows")
        (fun _ => "grid-auto-columns") (gridDefault (flowOf "column" (Sides.of v).second))) ∧
    ((Sides.of v).first.any (isIdent "auto-flow") = false →
      (Sides.of v).second.any (isIdent "auto-flow") = false →
      Placed (expand grid v) Shorthand.grid.longhands (Sides.of v) areaOrRow
        (fun _ => "grid-template-columns") (gridDefault (ident "row")) ∧
      (expand grid v).take 3 = expand template v) := by
  refine ⟨sides_append h.oneSlash,gridTemplate_placed h ht,grid_placed_rows h hg,
    grid_placed_columns h hg,fun hfirst hsecond => ⟨grid_placed_template h hg hfirst hsecond,?_⟩⟩
  rw [expand_leaf grid_mem (by decide +kernel) hg h.commonValue,
    grid_expand_of_template h hfirst hsecond,
    expand_leaf gridTemplate_mem (by decide +kernel) ht h.commonValue,gridTemplate_expand h]
  rfl

/-- Strings and a track on the first side, dense automatic columns on the second. -/
theorem expand_grid_sides_dense :
    IsGridValue (list [string "a b",dimension "1" "fr",operator "/",ident "dense",ident "Auto-Flow",
      dimension "2" "fr"]) ∧
    Placed (expand "Grid" (list [string "a b",dimension "1" "fr",operator "/",ident "dense",
        ident "Auto-Flow",dimension "2" "fr"])) Shorthand.grid.longhands
      ⟨[string "a b",dimension "1" "fr"],[dimension "2" "fr"]⟩ (fun _ => "grid-template-rows")
      (fun _ => "grid-auto-columns") (gridDefault (list [ident "column",ident "dense"])) := by
  have h : IsGridValue (list [string "a b",dimension "1" "fr",operator "/",ident "dense",
      ident "Auto-Flow",dimension "2" "fr"]) :=
    ⟨by decide +kernel,by decide +kernel,by decide +kernel,fun n hn => by cases hn⟩
  have htemplate : "grid-template".toLower = "grid-template" := by decide +kernel
  have hgrid : "Grid".toLower = "grid" := by decide +kernel
  exact ⟨h,(expand_grid_sides h htemplate hgrid).2.2.2.1 (by decide +kernel) (by decide +kernel)⟩

end StyleExpansion
