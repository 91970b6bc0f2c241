import StyleExpansion.Proofs.Expansion.Fields

/-! # Shorthands without layers

Their longhands are fields of the whole value, unless the value is a keyword of its own meaning, for
which they take written-out values.
-/
namespace StyleExpansion.Shorthand
open Pattern Value

/-! ## Fields only -/

structure Reading where
  shorthand : Shorthand
  fields : Fields (shorthand.longhands.map property)
  reads : ∀ v, (shorthand.assign v).toList = fields.read v

def readings : List Reading :=
  [⟨outline,
    ⟨[.property "outline-style",.property "outline-width",.property "outline-color"],
     [⟨1,ident "medium"⟩,⟨0,ident "none"⟩,⟨2,ident "currentcolor"⟩],by decide +kernel⟩,fun _ => rfl⟩,
   ⟨flexFlow,
    ⟨[.property "flex-direction",.property "flex-wrap"],
     [⟨0,ident "row"⟩,⟨1,ident "nowrap"⟩],by decide +kernel⟩,fun _ => rfl⟩,
   ⟨columns,
    ⟨[.property "column-width",.property "column-count"],
     [⟨0,ident "auto"⟩,⟨1,ident "auto"⟩],by decide +kernel⟩,fun _ => rfl⟩,
   ⟨textWrap,
    ⟨[.property "text-wrap-mode",.property "text-wrap-style"],
     [⟨0,ident "wrap"⟩,⟨1,ident "auto"⟩],by decide +kernel⟩,fun _ => rfl⟩,
   ⟨textDecoration,
    ⟨[.property "text-decoration-line",.property "text-decoration-style",
      .property "text-decoration-color",.property "text-decoration-thickness"],
     [⟨0,ident "none"⟩,⟨1,ident "solid"⟩,⟨2,ident "currentcolor"⟩,⟨3,ident "auto"⟩],
     by decide +kernel⟩,fun _ => rfl⟩,
   ⟨textEmphasis,
    ⟨[.property "text-emphasis-style",.property "text-emphasis-color"],
     [⟨0,ident "none"⟩,⟨1,ident "currentcolor"⟩],by decide +kernel⟩,fun _ => rfl⟩,
   ⟨caret,
    ⟨[.property "caret-color",.property "caret-animation",.property "caret-shape"],
     [⟨0,ident "auto"⟩,⟨1,ident "auto"⟩,⟨2,ident "auto"⟩],by decide +kernel⟩,fun _ => rfl⟩]

theorem readings_listed : ∀ r ∈ readings, r.shorthand ∈ shorthands := by
  simp [readings,shorthands]

theorem reading_typed {r : Reading} (hr : r ∈ readings) {v : Value} (hv : Plain v.flatten) :
    r.shorthand.Typed v := by
  apply typed_of_allFit (readings_listed r hr)
  rw [r.reads]
  exact r.fields.fits hv

def listStyleFields (noImage : Bool) : Fields (listStyle.longhands.map property) where
  alternatives :=
    [.property "list-style-position",.property "list-style-image",.property "list-style-type"]
  fields :=
    [⟨0,ident "outside"⟩,⟨1,ident "none"⟩,⟨2,if noImage then ident "none" else ident "disc"⟩]
  sound := by
    revert noImage
    decide +kernel

theorem listStyle_typed {v : Value} (hv : Plain v.flatten) : listStyle.Typed v := by
  apply typed_of_allFit (by simp [shorthands])
  have hread : ∃ noImage, (listStyle.assign v).toList = (listStyleFields noImage).read v :=
    ⟨((v.share (listStyleFields true).alternatives).get? 1).any (isIdent "none"),rfl⟩
  obtain ⟨noImage,hread⟩ := hread
  rw [hread]
  exact (listStyleFields noImage).fits hv

/-! ## Keywords of their own meaning -/

def flexFields : Fields (flex.longhands.map property) where
  alternatives := [.property "flex-grow",.property "flex-shrink",.property "flex-basis"]
  fields := [⟨0,number "1"⟩,⟨1,number "1"⟩,⟨2,number "0"⟩]
  sound := by decide +kernel

def flexConstants (growing : Bool) : Constants (flex.longhands.map property) where
  values :=
    if growing then [number "1",number "1",ident "auto"] else [number "0",number "0",ident "auto"]
  known := by
    revert growing
    decide +kernel

theorem flex_typed {v : Value} (hv : Plain v.flatten) : flex.Typed v := by
  apply typed_of_allFit (by simp [shorthands])
  by_cases hauto : (v.soleKeyword == some "auto") = true
  · have hread : (flex.assign v).toList = (flexConstants true).values := by
      simp only [flex,hauto,if_true]
      rfl
    rw [hread]
    exact (flexConstants true).fits
  · by_cases hnone : (v.soleKeyword == some "none") = true
    · have hread : (flex.assign v).toList = (flexConstants false).values := by
        simp only [flex,hauto,hnone,if_true]
        rfl
      rw [hread]
      exact (flexConstants false).fits
    · have hread : (flex.assign v).toList = flexFields.read v := by
        simp only [flex,hauto,hnone]
        rfl
      rw [hread]
      exact flexFields.fits hv

def fontVariantFields : Fields (fontVariant.longhands.map property) where
  alternatives :=
    [.type "ligatures-list",.words capsKeywords,.type "alternates-list",.type "numeric-list",
     .type "east-asian-list",.words ["sub","super"],.words ["text","emoji","unicode"]]
  fields := (List.range 7).map fun i => ⟨i,ident "normal"⟩
  sound := by decide +kernel

def fontVariantNone : Constants [property "font-variant-ligatures"] where
  values := [ident "none"]
  known := by decide +kernel

theorem fontVariant_typed {v : Value} (hv : Plain v.flatten) : fontVariant.Typed v := by
  apply typed_of_allFit (by simp [shorthands])
  by_cases hnormal : (v.soleKeyword == some "normal") = true
  · have hread : (fontVariant.assign v).toList = fontVariantFields.fields.map Field.default := by
      simp only [fontVariant,hnormal,if_true]
      rfl
    rw [hread]
    exact fontVariantFields.defaults_fit
  · by_cases hnone : (v.soleKeyword == some "none") = true
    · have hread : (fontVariant.assign v).toList =
          fontVariantNone.values ++ (fontVariantFields.fields.map Field.default).drop 1 := by
        simp only [fontVariant,hnormal,hnone,if_true]
        rfl
      rw [hread]
      exact List.rel_append fontVariantNone.fits (List.forall₂_drop 1 fontVariantFields.defaults_fit)
    · have hread : (fontVariant.assign v).toList = fontVariantFields.read v := by
        simp only [fontVariant,hnormal,hnone]
        rfl
      rw [hread]
      exact fontVariantFields.fits hv

def fontSynthesisConstants (weight style caps position : Bool) :
    Constants (fontSynthesis.longhands.map property) where
  values := [weight,style,caps,position].map fun b => if b then ident "auto" else ident "none"
  known := by
    revert weight style caps position
    decide +kernel

theorem fontSynthesis_typed (v : Value) : fontSynthesis.Typed v := by
  apply typed_of_allFit (by simp [shorthands])
  have hread : ∃ weight style caps position, (fontSynthesis.assign v).toList =
      (fontSynthesisConstants weight style caps position).values := ⟨_,_,_,_,rfl⟩
  obtain ⟨weight,style,caps,position,hread⟩ := hread
  rw [hread]
  exact (fontSynthesisConstants weight style caps position).fits

theorem fits_of_isSole {names : List String} {vs : List Value} (h : isSole names vs = true) :
    (words names).Fits vs := by
  unfold isSole at h
  split at h
  · next name =>
    obtain ⟨word,hw,hs⟩ := List.any_eq_true.1 h
    refine ⟨by simp,?_,?_⟩
    · intro v hv
      rw [List.mem_singleton.1 hv]
      rfl
    · exact .oneOf (List.mem_map_of_mem hw) (.keyword rfl hs)
  · cases h

theorem get_fits_of_isSole {tests : List (List Value → Bool)} {v d : Value} {i : Nat}
    {names : List String} {p : Pattern} (ht : tests[i]? = some (isSole names))
    (hp : covered coverLevels (words names) p = true) (hd : p.Fits d.flatten) :
    p.Fits ((v.shareBy tests).get i d).flatten := by
  apply fits_getD (o := (v.shareBy tests).get? i) hd
  intro w hw
  obtain ⟨test,htest,hpass,_,_⟩ := shareBy_passes hw
  rw [ht] at htest
  cases htest
  exact (fits_of_isSole hpass).covered hp

def whiteSpaceConstants (e : String × Value × Value) (he : e ∈ whiteSpaceKeywords) :
    Constants (whiteSpace.longhands.map property) where
  values := [e.2.1,e.2.2]
  known := by
    revert e
    decide +kernel

theorem whiteSpace_covers : AllCovered [words collapseKeywords,words ["wrap","nowrap"]]
    (whiteSpace.longhands.map property) := by
  decide +kernel

theorem whiteSpace_typed (v : Value) : whiteSpace.Typed v := by
  apply typed_of_allFit (by simp [shorthands])
  cases hpreset : v.soleKeyword.bind fun keyword =>
      whiteSpaceKeywords.find? fun e => e.1 == keyword with
  | some e =>
    have hread : (whiteSpace.assign v).toList = [e.2.1,e.2.2] := by
      simp only [whiteSpace,hpreset]
      rfl
    obtain ⟨keyword,_,hfind⟩ := Option.bind_eq_some_iff.1 hpreset
    rw [hread]
    exact (whiteSpaceConstants e (List.mem_of_find?_eq_some hfind)).fits
  | none =>
    have hread : (whiteSpace.assign v).toList =
        [(v.shareBy [isSole collapseKeywords,isSole ["wrap","nowrap"]]).get 0 (ident "collapse"),
         (v.shareBy [isSole collapseKeywords,isSole ["wrap","nowrap"]]).get 1 (ident "wrap")] := by
      simp only [whiteSpace,hpreset]
      rfl
    have hdefault := (whiteSpaceConstants ("normal",ident "collapse",ident "wrap")
      (by simp [whiteSpaceKeywords])).fits
    have hcover := whiteSpace_covers
    simp only [whiteSpaceConstants,whiteSpace,List.map_cons,List.map_nil,List.forall₂_cons]
      at hdefault hcover
    rw [hread]
    exact .cons (get_fits_of_isSole rfl hcover.1 hdefault.1)
      (.cons (get_fits_of_isSole rfl hcover.2.1 hdefault.2.1) .nil)

/-! ## Lines -/

def linePatterns : List Pattern := [.type "line-width",.type "line-style",.type "color"]

def lineFields : Fields linePatterns where
  alternatives := linePatterns
  fields := [⟨0,ident "medium"⟩,⟨1,ident "none"⟩,⟨2,ident "currentcolor"⟩]
  sound := by decide +kernel

theorem line_fits (name : String) {v : Value} (hv : Plain v.flatten) :
    AllFit linePatterns ((line name).assign v).toList := lineFields.fits hv

def edgeLineNames : List String :=
  ["border-top","border-right","border-bottom","border-left","border-inline-start",
   "border-inline-end","border-block-start","border-block-end","column-rule"]

theorem edgeLines_covered : ∀ name ∈ edgeLineNames,
    AllCovered linePatterns ((line name).longhands.map property) := by
  decide +kernel

theorem edgeLines_listed : ∀ name ∈ edgeLineNames, line name ∈ shorthands := by
  simp [edgeLineNames,shorthands,lines]

theorem edgeLine_typed {name : String} (hn : name ∈ edgeLineNames) {v : Value}
    (hv : Plain v.flatten) : (line name).Typed v :=
  typed_of_allFit (edgeLines_listed name hn) ((line_fits name hv).covered (edgeLines_covered name hn))

/-- A pattern of one node goes to both edges of an axis. -/
theorem axis_typed {s : Shorthand} {p : Pattern} {w : Value} (hs : s ∈ shorthands)
    (hread : (s.assign w).toList = w.axisEdges.toList)
    (hp : p.isSingle 12 = true) (hcover : AllCovered [p,p] (s.longhands.map property))
    (hw : p.Fits w.flatten) : s.Typed w := by
  obtain ⟨n,hn⟩ := List.length_eq_one_iff.1 (isSingle_sound hp hw.derives)
  have hnode : n.flatten = [n] := flatten_areNodes w n (by simp [hn])
  have hedges : w.axisEdges.toList = [n,n] := by
    simp [axisEdges,nodeOr,hn]
  have hfit : AllFit [p,p] (s.assign w).toList := by
    rw [hread,hedges]
    rw [hn,← hnode] at hw
    exact .cons hw (.cons hw .nil)
  exact typed_of_allFit hs (hfit.covered hcover)

end StyleExpansion.Shorthand
