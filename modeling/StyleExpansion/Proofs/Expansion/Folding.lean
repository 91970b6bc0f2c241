import Mathlib
import StyleExpansion.Proofs.Expansion.Literals
import StyleExpansion.Proofs.Pattern.Folding

/-! # Expansions and letter case

Two values that differ in letter case at most are shared out alike, so that they stand for the same
longhands, of which the values differ in letter case at most. Where a value decides on a keyword, letter
case does not matter; the keywords that an expansion writes out are in lower case already.
-/
namespace StyleExpansion
open Pattern Value

/-! ## Sharing out -/

def Caseless (test : List Value → Bool) : Prop := ∀ vs : List Value, test (vs.map folded) = test vs

theorem longestSpan_folded {test : List Value → Bool} (h : Caseless test) (vs : List Value) :
    longestSpan test (vs.map folded) = longestSpan test vs := by
  simp only [longestSpan,List.length_map,← List.map_take,h _]

namespace Shares

def folded (s : Shares) : Shares := ⟨s.found.map (Option.map Value.folded),s.left.map Value.folded⟩

theorem nextShare_folded {tests : List (List Value → Bool)} (h : ∀ test ∈ tests, Caseless test)
    (s : Shares) : s.folded.nextShare tests = s.nextShare tests := by
  rw [nextShare,folded,List.zip_map_right,List.zipIdx_map,List.findSome?_map,nextShare,
    ← List.head?_filterMap,← List.head?_filterMap]
  refine congrArg List.head? (List.filterMap_congr ?_)
  intro x hx
  have ht := h _ (List.of_mem_zip (List.fst_mem_of_mem_zipIdx hx)).1
  simp only [Function.comp_def,Prod.map,id,Option.isSome_map,longestSpan_folded ht]

theorem give_folded (s : Shares) (i k : Nat) : s.folded.give i k = (s.give i k).folded := by
  simp only [give,folded,List.map_set,List.map_drop,List.map_take,Option.map_some,ofNodes_folded]

theorem handOut_folded {tests : List (List Value → Bool)} (h : ∀ test ∈ tests, Caseless test) (n : Nat)
    (s : Shares) : handOut tests n s.folded = (handOut tests n s).folded := by
  induction n generalizing s with
  | zero => rfl
  | succ n ih =>
    rw [handOut,nextShare_folded h,handOut]
    split
    · rw [give_folded,ih]
    · rfl

theorem get?_folded (s : Shares) (i : Nat) : s.folded.get? i = (s.get? i).map Value.folded := by
  rw [get?,folded,List.getElem?_map,get?]
  rcases s.found[i]? with _ | _ | _ <;> rfl

theorem get_folded (s : Shares) (i : Nat) {d : Value} (hd : d.folded = d) :
    s.folded.get i d = (s.get i d).folded :=
  (congrArg (·.getD d) (s.get?_folded i)).trans (option_getD_of_folded hd (s.get? i))

end Shares

theorem Value.shareBy_folded {tests : List (List Value → Bool)} (h : ∀ test ∈ tests, Caseless test)
    (v : Value) : v.folded.shareBy tests = (v.shareBy tests).folded := by
  rw [shareBy,flatten_folded,shareBy,← Shares.handOut_folded h]
  simp [Shares.folded]

theorem Value.share_folded (alternatives : List Pattern) (v : Value) :
    v.folded.share alternatives = (v.share alternatives).folded := by
  apply shareBy_folded
  intro test ht
  obtain ⟨p,_,rfl⟩ := List.mem_map.1 ht
  exact accepts_folded p

/-! ## Fields -/

theorem defaultNames_lower : (defaultNames.all Text.isLower) = true := by decide +kernel

theorem ident_folded (name : String) (h : name ∈ defaultNames) : (ident name).folded = ident name :=
  congrArg ident (Text.toLower_of_isLower (List.all_eq_true.1 defaultNames_lower name h))

theorem default_folded {d : Value} (h : d ∈ defaults) : d.folded = d := by
  rcases List.mem_append.1 h with h | h
  · obtain ⟨name,hn,rfl⟩ := List.mem_map.1 h
    exact ident_folded name hn
  · simp only [List.mem_cons,List.not_mem_nil,or_false] at h
    rcases h with rfl | rfl | rfl | rfl
    · rfl
    · rfl
    · rfl
    · exact congrArg (dimension "0") (Text.toLower_of_isLower (by decide +kernel))

def Longhand.folded (l : Longhand) : Longhand := ⟨l.property,l.value.folded⟩

theorem Longhand.map_folded_eq_iff {ls ms : List Longhand} :
    ls.map Longhand.folded = ms.map Longhand.folded ↔
      List.Forall₂ (fun l m => l.property = m.property ∧ l.value.CaseEqual m.value) ls ms := by
  rw [← List.forall₂_eq_eq_eq,List.forall₂_map_left_iff,List.forall₂_map_right_iff]
  simp only [Longhand.folded,Longhand.mk.injEq,CaseEqual]

def Folds {n : Nat} (read : Value → Vector Value n) : Prop :=
  ∀ v : Value, (read v.folded).toList = (read v).toList.map folded

theorem Fields.read_folded {ps : List Pattern} (fs : Fields ps)
    (h : ∀ f ∈ fs.fields, f.default ∈ defaults) (v : Value) :
    fs.read v.folded = (fs.read v).map folded := by
  rw [Fields.read,share_folded,Fields.read,List.map_map]
  exact List.map_congr_left fun f hf => Shares.get_folded _ _ (default_folded (h f hf))

theorem Folds.getElem {n : Nat} {read : Value → Vector Value n} (h : Folds read) (v : Value) {i : Nat}
    (hi : i < n) : (read v.folded)[i] = (read v)[i].folded := by
  have hread := List.getElem_of_eq (h v) (i := i) (by simpa using hi)
  simpa using hread

theorem Folds.layered {n : Nat} {read : Value → Vector Value n} (h : Folds read) :
    Folds fun v => v.layered read := by
  intro v
  have hlayers : v.folded.layers = v.layers.map folded := segments_folded "," v
  apply List.ext_getElem (by simp)
  intro i hi _
  have hi : i < n := by simpa using hi
  simp only [Value.layered,Vector.getElem_toList,Vector.getElem_ofFn,List.getElem_map,hlayers,
    List.map_map,Function.comp_def,join_folded]
  simp only [Fin.getElem_fin,h.getElem _ hi]

theorem Folds.append {m n : Nat} {f : Value → Vector Value m} {g : Value → Vector Value n}
    (hf : Folds f) (hg : Folds g) : Folds fun v => f v ++ g v := by
  intro v
  simp only [Vector.toList_append,List.map_append,hf v,hg v]

namespace Shorthand

theorem empty_folded : empty.folded = empty := rfl

theorem boxEdges_folds : Folds boxEdges := by
  intro v
  simp only [boxEdges,nodeOr_of_folded empty_folded,nodeOr_folded]
  rfl

theorem axisEdges_folds : Folds axisEdges := by
  intro v
  simp only [axisEdges,nodeOr_of_folded empty_folded,nodeOr_folded]
  rfl

theorem border_folds : Folds border.assign := fun _ => rfl

theorem line_folds (name : String) : Folds (line name).assign :=
  lineFields.read_folded (by simp [lineFields,defaults,defaultNames])

theorem borderRadius_folds : Folds borderRadius.assign := by
  intro v
  simp only [borderRadius,segments_folded,getD_of_folded empty_folded,List.getElem?_map]
  cases (v.segments "/")[1]? with
  | none => exact boxEdges_folds _
  | some second =>
    simp only [Option.map_some,Vector.toList_zipWith,boxEdges_folds _,List.zipWith_map,
      List.map_zipWith,list_folded,List.map_cons,List.map_nil]

theorem slicePart_folded (slice : Option Value) (i : Nat) :
    slicePart (slice.map folded) i = (slicePart slice i).folded := by
  have hparts : ((slice.map folded).map (allSegments "/")).getD [] =
      ((slice.map (allSegments "/")).getD []).map folded := by
    cases slice with
    | none => rfl
    | some w => exact allSegments_folded "/" w
  rw [slicePart,hparts,presentOr_of_folded (ident_folded "initial" (by simp [defaultNames])),slicePart]

theorem borderImage_folds : Folds borderImage.assign := by
  intro v
  simp (disch := simp [default_folded,defaults,defaultNames]) only [borderImage,share_folded,
    Shares.get_folded,Shares.get?_folded,slicePart_folded]
  rfl

theorem maskBorder_folds : Folds maskBorder.assign := by
  intro v
  simp (disch := simp [default_folded,defaults,defaultNames]) only [maskBorder,share_folded,
    Shares.get_folded,Shares.get?_folded,slicePart_folded]
  rfl

/-! ## Fields only -/

theorem reading_folds {r : Reading} (hr : r ∈ readings) : Folds r.shorthand.assign := by
  intro v
  rw [r.reads,r.reads]
  exact r.fields.read_folded (readings_default r hr) v

theorem listStyle_folds : Folds listStyle.assign := by
  intro v
  have hread : ∀ w, (listStyle.assign w).toList = (listStyleFields (((w.share
      (listStyleFields true).alternatives).get? 1).any (isIdent "none"))).read w := fun _ => rfl
  have hnone : ((v.folded.share (listStyleFields true).alternatives).get? 1).any (isIdent "none") =
      ((v.share (listStyleFields true).alternatives).get? 1).any (isIdent "none") := by
    rw [share_folded,Shares.get?_folded,Option.any_map]
    exact congrArg (Option.any · _) (funext fun w => isIdent_folded w "none")
  rw [hread,hread,hnone]
  generalize ((v.share (listStyleFields true).alternatives).get? 1).any (isIdent "none") = noImage
  apply Fields.read_folded
  cases noImage <;> simp [listStyleFields,defaults,defaultNames]

/-! ## Keywords of their own meaning -/

theorem flex_folds : Folds flex.assign := by
  intro v
  simp only [flex,soleKeyword_folded]
  split
  · simp [default_folded,defaults,defaultNames]
  · split
    · simp [default_folded,defaults,defaultNames]
    · exact flexFields.read_folded (by simp [flexFields,defaults]) v

theorem fontVariant_folds : Folds fontVariant.assign := by
  intro v
  simp only [fontVariant,soleKeyword_folded]
  split
  · simp [default_folded,defaults,defaultNames]
  · split
    · simp [default_folded,defaults,defaultNames]
    · exact fontVariantFields.read_folded (by simp [fontVariantFields,defaults,defaultNames]) v

theorem fontSynthesis_folds : Folds fontSynthesis.assign := by
  intro v
  have hflag : ∀ b : Bool, (if b then ident "auto" else ident "none").folded =
      if b then ident "auto" else ident "none" := by
    intro b
    cases b <;> simp [default_folded,defaults,defaultNames]
  simp only [fontSynthesis,soleKeyword_folded,share_folded,Shares.get?_folded,Option.isSome_map]
  change [_,_,_,_] = List.map folded [_,_,_,_]
  simp only [List.map_cons,List.map_nil,hflag]

theorem isSole_caseless (names : List String) : Caseless (isSole names) := by
  intro vs
  rcases vs with _ | ⟨v,_ | ⟨w,vs⟩⟩
  · rfl
  · cases v <;> first | rfl | exact Text.isOneOf_congr (Text.sameName_toLower _) names
  · cases v <;> rfl

theorem whiteSpace_folds : Folds whiteSpace.assign := by
  intro v
  have hsole : ∀ test ∈ [isSole collapseKeywords,isSole ["wrap","nowrap"]], Caseless test :=
    List.forall_mem_cons.2 ⟨isSole_caseless _,List.forall_mem_singleton.2 (isSole_caseless _)⟩
  have hpreset : ∀ part : String × Value × Value → Value,
      (∀ e ∈ whiteSpaceKeywords, part e ∈ defaults) → ∀ d : Value,
      ((v.soleKeyword.bind fun keyword => whiteSpaceKeywords.find? fun e => e.1 == keyword).map
        part).getD d.folded =
      (((v.soleKeyword.bind fun keyword => whiteSpaceKeywords.find? fun e => e.1 == keyword).map
        part).getD d).folded := by
    intro part hpart d
    cases h : (v.soleKeyword.bind fun keyword => whiteSpaceKeywords.find? fun e => e.1 == keyword) with
    | none => rfl
    | some e => exact (default_folded (hpart e (preset_mem h))).symm
  simp (disch := simp [default_folded,defaults,defaultNames]) only [whiteSpace,soleKeyword_folded,
    shareBy_folded hsole,Shares.get_folded,hpreset _ fun e he => (whiteSpaceKeywords_default e he).1,
    hpreset _ fun e he => (whiteSpaceKeywords_default e he).2]
  rfl

/-! ## Fonts -/

theorem systemFont_folded (v : Value) : systemFont v.folded = (systemFont v).map folded := by
  rw [systemFont,flatten_folded,systemFont]
  rcases v.flatten with _ | ⟨w,_ | ⟨x,ws⟩⟩
  · rfl
  · cases w with
    | ident name =>
      have hname := Text.isOneOf_congr (Text.sameName_toLower name) systemFonts
      simp only [List.map_cons,List.map_nil,folded,hname]
      split <;> rfl
    | _ => rfl
  · cases w <;> rfl

theorem fontEnd_folded (vs : List Value) : fontEnd (vs.map folded) =
    ⟨(fontEnd vs).size.folded,(fontEnd vs).lineHeight.folded,(fontEnd vs).family.folded⟩ := by
  have hnormal := ident_folded "normal" (by simp [defaultNames])
  rw [fontEnd,← List.map_take,List.length_map,accepts_folded,fontEnd]
  split <;> simp (disch := simp [default_folded,defaults,defaultNames]) only [← List.map_drop,
    getD_of_folded empty_folded,getD_of_folded,ofNodesOr_of_folded,hnormal]

theorem font_folds : Folds font.assign := by
  intro v
  simp only [font,systemFont_folded]
  cases systemFont v with
  | some family => simp [default_folded,defaults,defaultNames]
  | none =>
    have hleft : ∀ s : Shares, s.folded.left = s.left.map folded := fun _ => rfl
    simp (disch := simp [default_folded,defaults,defaultNames]) only [Option.map_none,share_folded,
      Shares.get_folded,hleft,fontEnd_folded]
    rfl

/-! ## Motion -/

theorem animationLayer_folds : Folds animationLayer :=
  animationFields.read_folded (by simp [animationFields,defaults,defaultNames])

theorem transitionLayer_folds : Folds transitionLayer :=
  transitionFields.read_folded (by simp [transitionFields,defaults,defaultNames])

theorem animation_folds : Folds animation.assign := by
  have hconst : Folds fun _ => #v[ident "auto",ident "normal",ident "normal"] := by
    intro _
    simp [default_folded,defaults,defaultNames]
  exact animationLayer_folds.layered.append hconst

theorem rangeLayer_folds : Folds rangeLayer := by
  intro v
  have hnormal := ident_folded "normal" (by simp [defaultNames])
  have hname : ∀ w : Value, isRangeName w.folded = isRangeName w := by
    intro w
    rw [isRangeName,flatten_folded,accepts_folded,isRangeName]
  have hoffset : ∀ w : Value, isRangeOffset w.folded = isRangeOffset w := by
    intro w
    rw [isRangeOffset,flatten_folded,accepts_folded,isRangeOffset]
  have hdefault : ∀ name : Value, (if isRangeName name then name.folded else ident "normal") =
      (if isRangeName name then name else ident "normal").folded := by
    intro name
    split
    · rfl
    · exact hnormal.symm
  simp only [rangeLayer,flatten_folded]
  change [_,_] = List.map folded [_,_]
  rcases v.flatten with _ | ⟨name,_ | ⟨offset,ws⟩⟩
  · simp [ofNodes_folded,← ofNodesOr_folded,hnormal]
  · simp only [List.map_cons,List.map_nil,hname,hdefault,ofNodes_folded,← ofNodesOr_folded,List.map_take,
      List.map_drop]
  · simp only [List.map_cons,List.map_nil,hname,hoffset,hdefault,ofNodes_folded,← ofNodesOr_folded,
      List.map_take,List.map_drop]

theorem takeLongest_folded (p : Pattern) (vs : List Value) : takeLongest p (vs.map folded) =
    ((takeLongest p vs).1.map folded,(takeLongest p vs).2.map folded) := by
  rw [takeLongest,longestSpan_folded (accepts_folded p),takeLongest]
  cases longestSpan p.accepts vs with
  | none => rfl
  | some k => simp only [ofNodes_folded,List.map_take,List.map_drop,Option.map_some]

theorem side_folded (vs : List Value) (i : Nat) : (((vs.map folded)[i]?).map flatten).getD [] =
    ((vs[i]?.map flatten).getD []).map folded := by
  rw [List.getElem?_map]
  cases vs[i]? with
  | none => rfl
  | some w => exact flatten_folded w

theorem offset_folds : Folds offset.assign := by
  intro v
  simp (disch := simp [default_folded,defaults,defaultNames]) only [offset,allSegments_folded,
    side_folded,takeLongest_folded,option_getD_of_folded,presentOr_of_folded,← list_folded,
    share_folded,Shares.get_folded]
  rfl

theorem timelineLayer_folds : Folds fun layer : Value =>
    #v[layer.nodeOr 0 (ident "none"),layer.nodeOr 1 (ident "block")] := by
  intro v
  simp (disch := simp [default_folded,defaults,defaultNames]) only [nodeOr_of_folded]
  rfl

theorem viewTimelineLayer_folds : Folds viewTimelineLayer := by
  intro v
  simp (disch := simp [default_folded,defaults,defaultNames]) only [viewTimelineLayer,
    nodeOr_of_folded,flatten_folded,← List.map_drop,← list_folded,share_folded,Shares.get_folded]
  rfl

/-! ## Backgrounds and masks -/

theorem positionPart_folded (notated : Option Value) (i : Nat) :
    positionPart (notated.map folded) i = (positionPart notated i).map folded := by
  cases notated with
  | none => rfl
  | some w =>
    change (w.folded.segments "/")[i]? = ((w.segments "/")[i]?).map folded
    rw [segments_folded,List.getElem?_map]

theorem maskLayer_folds : Folds maskLayer := by
  intro v
  have hzero : (list [zeroPercent,zeroPercent]).folded = list [zeroPercent,zeroPercent] := rfl
  simp (disch := simp [default_folded,defaults,defaultNames]) only [maskLayer,share_folded,
    Shares.get_folded,Shares.get?_folded,positionPart_folded,option_getD_of_folded hzero,
    option_getD_of_folded,Option.filter_map,Function.comp_def,flatten_folded,accepts_folded,
    ← Option.map_or]
  rfl

theorem isVertical_folded (v : Value) : isVertical v.folded = isVertical v := by
  rw [isVertical,isIdent_folded,isIdent_folded,isVertical]

theorem isHorizontal_folded (v : Value) : isHorizontal v.folded = isHorizontal v := by
  rw [isHorizontal,isIdent_folded,isIdent_folded,isHorizontal]

theorem positionAxes_folds : Folds positionAxes := by
  intro v
  have hcenter := ident_folded "center" (by simp [defaultNames])
  have hedges : (positionEdges v.folded).toList = (positionEdges v).toList.map folded :=
    axisFields.read_folded (by simp [axisFields,defaults,defaultNames]) v
  rw [positionAxes,flatten_folded,positionAxes]
  rcases v.flatten with _ | ⟨a,_ | ⟨b,_ | ⟨c,ws⟩⟩⟩
  · rfl
  · simp only [List.map_cons,List.map_nil,isVertical_folded]
    split
    · exact congrArg (fun c => [c,a.folded]) hcenter.symm
    · exact congrArg (fun c => [a.folded,c]) hcenter.symm
  · simp only [List.map_cons,List.map_nil,isVertical_folded,isHorizontal_folded]
    split <;> rfl
  · exact hedges

theorem backgroundShares_folded (v : Value) : backgroundShares v.folded = (backgroundShares v).folded :=
  share_folded _ v

theorem backgroundAxes_folded (v : Value) (i : Nat) (hi : i < 2) :
    (((positionPart ((backgroundShares v.folded).get? 1) 0).map positionAxes).getD
      #v[zeroPercent,zeroPercent])[i] =
    ((((positionPart ((backgroundShares v).get? 1) 0).map positionAxes).getD
      #v[zeroPercent,zeroPercent])[i]).folded := by
  rw [backgroundShares_folded,Shares.get?_folded,positionPart_folded]
  cases positionPart ((backgroundShares v).get? 1) 0 with
  | none =>
    obtain rfl | rfl : i = 0 ∨ i = 1 := by omega
    · rfl
    · rfl
  | some w => exact positionAxes_folds.getElem w hi

theorem backgroundLayer_folds : Folds backgroundLayer := by
  intro v
  simp only [backgroundLayer,backgroundAxes_folded v 0 (by decide),backgroundAxes_folded v 1 (by decide)]
  simp (disch := simp [default_folded,defaults,defaultNames]) only [backgroundShares_folded,
    Shares.get_folded,Shares.get?_folded,positionPart_folded,option_getD_of_folded,← Option.map_or]
  rfl

theorem backgroundColor_folded (v : Value) : backgroundColor v.folded = (backgroundColor v).folded := by
  have htransparent := ident_folded "transparent" (by simp [defaultNames])
  have hlayers : v.folded.layers = v.layers.map folded := segments_folded "," v
  rw [backgroundColor,hlayers,List.filterMap_map]
  simp only [Function.comp_def,backgroundShares_folded,Shares.get?_folded]
  rw [← List.map_filterMap,List.getLast?_map,option_getD_of_folded htransparent,backgroundColor]

theorem background_folds : Folds background.assign := by
  have hcolor : Folds fun v => #v[backgroundColor v] := fun v =>
    congrArg (fun c => [c]) (backgroundColor_folded v)
  exact backgroundLayer_folds.layered.append hcolor

/-! ## Grids, alignment and sizes -/

theorem filter_folded (test : Value → Bool) (h : ∀ v, test v.folded = test v) (vs : List Value) :
    (vs.map folded).filter test = (vs.filter test).map folded := by
  rw [List.filter_map]
  simp only [Function.comp_def,h]

theorem gridTemplateParts_folds : Folds gridTemplateParts := by
  intro v
  have hnone := ident_folded "none" (by simp [defaultNames])
  have hlist : ∀ vs : List Value, (if (vs.map folded).isEmpty then ident "none" else list (vs.map folded)) =
      (if vs.isEmpty then ident "none" else list vs).folded := by
    intro vs
    rw [List.isEmpty_map]
    split
    · exact hnone.symm
    · exact (list_folded vs).symm
  simp only [gridTemplateParts,flatten_folded,List.isEmpty_map,soleKeyword_folded]
  split
  · simp [hnone]
  · have hother := filter_folded (fun w => !w.isString) fun w => congrArg not w.isString_folded
    simp only [segments_folded,side_folded,hother,filter_folded _ isString_folded,hlist,
      getD_of_folded hnone]
    rfl

theorem any_folded {test : Value → Bool} (h : ∀ v, test v.folded = test v) (vs : List Value) :
    (vs.map folded).any test = vs.any test := by
  rw [List.any_map]
  simp only [Function.comp_def,h]

theorem autoFlow_folded (vs : List Value) {axis : String} (haxis : axis ∈ defaultNames) :
    autoFlow (vs.map folded) axis =
      (autoFlow vs axis).map fun a => ⟨a.flow.folded,a.tracks.folded⟩ := by
  have hrest := filter_folded (fun w => !w.isIdent "auto-flow" && !w.isIdent "dense") fun w => by
    rw [isIdent_folded,isIdent_folded]
  have hflow : ∀ dense : Bool, (if dense then list [ident axis,ident "dense"] else ident axis).folded =
      if dense then list [ident axis,ident "dense"] else ident axis := by
    intro dense
    have hdense := ident_folded "dense" (by simp [defaultNames])
    cases dense
    · exact ident_folded axis haxis
    · simp [list_folded,ident_folded axis haxis,hdense]
  simp only [autoFlow,any_folded fun w => isIdent_folded w _,hrest]
  split
  · simp (disch := simp [default_folded,defaults,defaultNames]) only [Option.map_some,hflow,
      ofNodesOr_of_folded]
  · rfl

theorem grid_folds : Folds grid.assign := by
  intro v
  have hrow := autoFlow_folded (((v.segments "/")[0]?.map flatten).getD [])
    (show "row" ∈ defaultNames by simp [defaultNames])
  have hcolumn := autoFlow_folded (((v.segments "/")[1]?.map flatten).getD [])
    (show "column" ∈ defaultNames by simp [defaultNames])
  simp only [grid,segments_folded,side_folded,hrow,hcolumn]
  cases autoFlow (((v.segments "/")[0]?.map flatten).getD []) "row" with
  | some a =>
    simp (disch := simp [default_folded,defaults,defaultNames]) only [Option.map_some,ofNodesOr_of_folded]
    simp [default_folded,defaults,defaultNames]
  | none =>
    cases autoFlow (((v.segments "/")[1]?.map flatten).getD []) "column" with
    | some a =>
      simp (disch := simp [default_folded,defaults,defaultNames]) only [Option.map_some,Option.map_none,
        ofNodesOr_of_folded]
      simp [default_folded,defaults,defaultNames]
    | none =>
      simp only [Option.map_none,Vector.toList_append,List.map_append,gridTemplateParts_folds v]
      simp [default_folded,defaults,defaultNames]

theorem gridLine_folds (name : String) : Folds (gridLine name).assign := by
  intro v
  simp (disch := simp [default_folded,defaults,defaultNames]) only [gridLine,segments_folded,
    presentOr_of_folded]
  rfl

theorem gridArea_folds : Folds gridArea.assign := by
  intro v
  simp (disch := simp [default_folded,defaults,defaultNames]) only [gridArea,segments_folded,
    presentOr_of_folded]
  rfl

theorem place_folds (kind : String) (baselineToStart : Bool) :
    Folds (place kind baselineToStart).assign := by
  intro v
  have hstart := ident_folded "start" (by simp [defaultNames])
  simp only [place,placement,flatten_folded,longestSpan_folded (accepts_folded _),List.length_map,
    ← List.map_take,← List.map_drop,← ofNodes_folded,List.isEmpty_map,
    any_folded fun w => isIdent_folded w _]
  change [_,_] = List.map folded [_,_]
  simp only [List.map_cons,List.map_nil]
  split
  · rfl
  · split
    · rw [hstart]
    · rfl

theorem container_folds : Folds container.assign := by
  intro v
  simp (disch := simp [default_folded,defaults,defaultNames]) only [container,allSegments_folded,
    presentOr_of_folded]
  rfl

theorem sizeGroups_folded (vs : List Value) :
    sizeGroups (vs.map folded) = (sizeGroups vs).map folded := by
  induction vs using sizeGroups.induct with
  | case1 => rfl
  | case2 v => rfl
  | case3 v w vs hv ih =>
    rw [List.map_cons,List.map_cons,sizeGroups,isIdent_folded,if_pos hv,ih,sizeGroups,if_pos hv]
    simp [list_folded]
  | case4 v w vs hv ih =>
    rw [List.map_cons] at ih
    rw [List.map_cons,List.map_cons,sizeGroups,isIdent_folded,if_neg hv,ih,sizeGroups,if_neg hv]
    rfl

theorem containIntrinsicSize_folds : Folds containIntrinsicSize.assign := by
  intro v
  simp only [containIntrinsicSize,flatten_folded,sizeGroups_folded,getD_of_folded empty_folded,
    getD_folded]
  rfl

theorem positionTry_folds : Folds positionTry.assign := by
  intro v
  have hordered : (v.flatten.map folded).head?.any
        (fun first => (Pattern.property "position-try-order").accepts first.flatten) =
      v.flatten.head?.any fun first => (Pattern.property "position-try-order").accepts first.flatten := by
    rw [List.head?_map,Option.any_map]
    simp only [flatten_folded,accepts_folded]
  simp only [positionTry,flatten_folded,hordered]
  split <;> simp (disch := simp [default_folded,defaults,defaultNames]) only [← List.map_drop,
    getD_of_folded empty_folded,ofNodesOr_of_folded] <;> simp [default_folded,defaults,defaultNames]

/-! ## All of them -/

theorem parts_fold : ∀ s ∈ partShorthands, Folds s.assign := by
  have hreading : ∀ r ∈ readings, Folds r.shorthand.assign := fun r hr => reading_folds hr
  simp only [readings,partShorthands,List.forall_mem_cons] at hreading ⊢
  obtain ⟨houtline,hflow,hcolumns,hwrap,hdecoration,hemphasis,_⟩ := hreading
  exact ⟨houtline,borderRadius_folds,borderImage_folds,maskBorder_folds,font_folds,fontSynthesis_folds,
    fontVariant_folds,flex_folds,hflow,animation_folds,rangeLayer_folds.layered,
    transitionLayer_folds.layered,maskLayer_folds.layered,offset_folds,timelineLayer_folds.layered,
    viewTimelineLayer_folds.layered,gridTemplateParts_folds,grid_folds,gridLine_folds "grid-row",
    gridLine_folds "grid-column",gridArea_folds,whiteSpace_folds,hwrap,background_folds,
    positionAxes_folds.layered,hdecoration,hemphasis,hcolumns,listStyle_folds,List.forall_mem_nil _⟩

theorem last_fold : ∀ s ∈ lastShorthands, Folds s.assign := by
  have hreading : ∀ r ∈ readings, Folds r.shorthand.assign := fun r hr => reading_folds hr
  simp only [readings,lastShorthands,List.forall_mem_cons] at hreading ⊢
  exact ⟨place_folds "content" true,place_folds "items" false,place_folds "self" false,container_folds,
    containIntrinsicSize_folds,hreading.2.2.2.2.2.2.1,positionTry_folds,List.forall_mem_nil _⟩

theorem folds_of_mem : ∀ {s : Shorthand}, s ∈ shorthands → Folds s.assign := by
  apply forall_mem_shorthands
  · exact fun _ _ => boxEdges_folds
  · exact fun _ _ => axisEdges_folds
  · exact fun _ _ _ => axisEdges_folds
  · exact border_folds
  · exact line_folds
  · exact parts_fold
  · exact last_fold

theorem expand_folded {s : Shorthand} (hs : s ∈ shorthands) (v : Value) :
    s.expand v.folded = (s.expand v).map Longhand.folded := by
  rw [expand,folds_of_mem hs,expand,List.zipWith_map_right,List.map_zipWith]
  rfl

end Shorthand

theorem commonValue_folded (vs : List Value) :
    commonValue (vs.map folded) = (commonValue vs).map folded := by
  have hunset : (ident "unset").folded = ident "unset" := ident_folded "unset" (by simp [defaultNames])
  rcases vs with _ | ⟨v,_ | ⟨w,vs⟩⟩
  · exact congrArg some hunset.symm
  · have hsole : (if v.folded.isWide then some v.folded else none) =
        (if v.isWide then some v else none).map folded := by
      rw [isWide_folded]
      split <;> rfl
    cases v with
    | string text =>
      change (if text.isEmpty then _ else _) = Option.map folded (if text.isEmpty then _ else _)
      split
      · exact congrArg some hunset.symm
      · rfl
    | _ => exact hsole
  · cases v <;> rfl

/-- On every level, the expansion of a folded value is the folded expansion. -/
theorem expandWithin_folded (n : Nat) (property : String) (v : Value) :
    expandWithin n property v.folded = (expandWithin n property v).map Longhand.folded := by
  induction n generalizing property v with
  | zero => rfl
  | succ n ih =>
    rw [expandWithin,expandWithin,flatten_folded,commonValue_folded]
    cases hs : Shorthand.named? property.toLower with
    | none => rfl
    | some s =>
      cases commonValue v.flatten with
      | some w =>
        simp only [Option.map_some,List.map_map]
        rfl
      | none =>
        simp only [Option.map_none,Shorthand.expand_folded (List.mem_of_find?_eq_some hs),
          List.flatMap_map,List.map_flatMap]
        exact List.flatMap_congr fun l _ => ih l.property l.value

/-- Values that differ in letter case at most stand for the same longhands, with values that differ in
letter case at most, and no pattern and no property tells them apart. -/
theorem expand_caseEqual :
    (∀ (property : String) (v w : Value), v.CaseEqual w →
      List.Forall₂ (fun a b => a.property = b.property ∧ a.value.CaseEqual b.value)
        (expand property v) (expand property w)) ∧
    ∀ vs ws : List Value, List.Forall₂ CaseEqual vs ws →
      (∀ (n : Nat) (p : Pattern), spansWithin n p vs = spansWithin n p ws) ∧
      ∀ property : String, isValueOf property vs = isValueOf property ws := by
  refine ⟨fun property v w h => ?_,fun vs ws h => ?_⟩
  · have hfolded : (expand property v).map Longhand.folded =
        (expand property w).map Longhand.folded := by
      rw [expand,← expandWithin_folded,h,expandWithin_folded,expand]
    exact Longhand.map_folded_eq_iff.1 hfolded
  · have hfolded := map_folded_eq_iff.2 h
    exact ⟨fun n p => by rw [← spansWithin_blind n p vs,hfolded,spansWithin_blind],
      fun property => by rw [← isValueOf_folded,hfolded,isValueOf_folded]⟩

theorem expand_caseEqual_borderTop :
    ∃ vs ws : List Value, vs = [dimension "2" "PX",ident "Solid",function "RGB" [ident "FROM"]] ∧
      ws = [dimension "2" "px",ident "solid",function "rgb" [ident "from"]] ∧
      (list vs).CaseEqual (list ws) ∧ List.Forall₂ CaseEqual vs ws ∧
      List.Forall₂ (fun a b => a.property = b.property ∧ a.value.CaseEqual b.value)
        (expand "Border-Top" (list vs)) (expand "Border-Top" (list ws)) ∧
      isValueOf "border-top" vs = isValueOf "border-top" ws := by
  refine ⟨_,_,rfl,rfl,?_⟩
  have hvalues : (list [dimension "2" "PX",ident "Solid",function "RGB" [ident "FROM"]]).CaseEqual
      (list [dimension "2" "px",ident "solid",function "rgb" [ident "from"]]) := by
    unfold CaseEqual
    cbv
  have hnodes := list_caseEqual_iff.1 hvalues
  exact ⟨hvalues,hnodes,expand_caseEqual.1 _ _ _ hvalues,(expand_caseEqual.2 _ _ hnodes).2 _⟩

end StyleExpansion
