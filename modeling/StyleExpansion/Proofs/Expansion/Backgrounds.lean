import StyleExpansion.Proofs.Expansion.Layers
import StyleExpansion.Proofs.Expansion.Parts
import StyleExpansion.Proofs.Expansion.Positions

/-! # Backgrounds and masks

Of every layer, the position and the size are parts of one share, and a box may do for two longhands.
All else are fields.
-/
namespace StyleExpansion.Shorthand
open Pattern Value

theorem positions_slashless :
    ∀ name ∈ ["position","bg-position","bg-size"], Slashless (.type name) := by
  have hfree : ∀ name ∈ ["position","bg-position","bg-size"],
      (Pattern.type name).avoids "/" 12 = true := by
    decide +kernel
  intro name hn
  exact ⟨hfree name hn,type_withinLimits name (by decide)⟩

theorem sharedPart_fits (alternatives : List Pattern) {position : String} {v x : Value} {i j : Nat}
    (hj : alternatives[j]? = some (positionNotation position))
    (hp : position ∈ ["position","bg-position","bg-size"]) (hv : Plain v.flatten)
    (hx : positionPart ((v.share alternatives).get? j) i = some x) :
    ∃ p, [Pattern.type position,.type "bg-size"][i]? = some p ∧ p.Fits x.flatten := by
  cases h : (v.share alternatives).get? j with
  | none =>
    rw [h] at hx
    cases hx
  | some w =>
    rw [h] at hx
    obtain ⟨p,hp',hfit⟩ := share_fits h hv
    rw [hj] at hp'
    cases hp'
    exact positionPart_fits (positions_slashless position hp)
      (positions_slashless "bg-size" (by simp)) hfit hx

theorem sharedPart_getD_fits (alternatives : List Pattern) {position : String} {v d : Value}
    {i j : Nat} {p : Pattern} (hj : alternatives[j]? = some (positionNotation position))
    (hp : position ∈ ["position","bg-position","bg-size"])
    (hi : [Pattern.type position,.type "bg-size"][i]? = some p) (hv : Plain v.flatten)
    (hd : p.Fits d.flatten) :
    p.Fits ((positionPart ((v.share alternatives).get? j) i).getD d).flatten := by
  apply fits_getD hd
  intro x hx
  obtain ⟨q,hq,hfit⟩ := sharedPart_fits alternatives hj hp hv hx
  rw [hi] at hq
  cases hq
  exact hfit

/-! ## Masks -/

def maskClips : Pattern := .oneOf [.type "geometry-box",.keyword "no-clip"]

def maskLayering : Layering (mask.longhands.map property) where
  patterns :=
    [.type "mask-reference",.type "position",.type "bg-size",.type "repeat-style",
     .type "geometry-box",maskClips,.type "compositing-operator",.type "masking-mode"]
  covers := by decide +kernel

def maskFields : Fields [.type "mask-reference",.type "repeat-style",.type "geometry-box",
    .type "compositing-operator",.type "masking-mode"] where
  alternatives :=
    [.type "mask-reference",positionNotation "position",.type "repeat-style",.type "geometry-box",
     maskClips,.type "compositing-operator",.type "masking-mode"]
  fields :=
    [⟨0,ident "none"⟩,⟨2,ident "repeat"⟩,⟨3,ident "border-box"⟩,⟨5,ident "add"⟩,
     ⟨6,ident "match-source"⟩]
  sound := by decide +kernel

def maskConstants : Constants [.type "position",.type "bg-size",maskClips] where
  values := [list [zeroPercent,zeroPercent],ident "auto",ident "border-box"]
  known := by decide +kernel

theorem maskLayer_fits {v : Value} (hv : Plain v.flatten) :
    AllFit maskLayering.patterns (maskLayer v).toList := by
  have hfields := maskFields.fits hv
  simp only [Fields.read,maskFields,List.map_cons,List.map_nil,List.forall₂_cons] at hfields
  obtain ⟨himage,hrepeat,horigin,hcomposite,hmode,_⟩ := hfields
  have hconstants := maskConstants.fits
  simp only [maskConstants,List.forall₂_cons] at hconstants
  obtain ⟨hzero,hauto,hbox,_⟩ := hconstants
  have hposition := sharedPart_getD_fits (i := 0) (j := 1) maskFields.alternatives rfl (by simp) rfl
    hv hzero
  have hsize := sharedPart_getD_fits (i := 1) (j := 1) maskFields.alternatives rfl (by simp) rfl
    hv hauto
  have hclip : maskClips.Fits
      (Value.flatten ((((v.share maskFields.alternatives).get? 4).or
        (((v.share maskFields.alternatives).get? 3).filter fun origin =>
          maskClips.accepts origin.flatten)).getD (ident "border-box"))) := by
    apply fits_getD hbox
    intro w hw
    rcases Option.or_eq_some_iff.1 hw with hw | ⟨_,hw⟩
    · obtain ⟨p,hp,hfit⟩ := share_fits hw hv
      cases hp
      exact hfit
    · obtain ⟨hw,ha⟩ := Option.filter_eq_some_iff.1 hw
      obtain ⟨p,_,hfit⟩ := share_fits hw hv
      exact .of_accepts ha hfit.filled hfit.plain
  exact .cons himage (.cons hposition (.cons hsize (.cons hrepeat (.cons horigin (.cons hclip
    (.cons hcomposite (.cons hmode .nil)))))))

theorem mask_typed {v : Value} (hv : Plain v.flatten)
    (hl : ∃ n ∈ v.flatten, n.isOperator "," = false) : mask.Typed v := by
  apply typed_of_allFit (by simp [shorthands])
  exact maskLayering.fits hv hl fun w hw => maskLayer_fits hw

/-! ## Backgrounds -/

def backgroundLayering : Layering ((background.longhands.take 8).map property) where
  patterns :=
    [.type "bg-image",xPattern,yPattern,.type "bg-size",.type "repeat-style",.type "attachment",
     .type "visual-box",.type "bg-clip"]
  covers := by decide +kernel

def backgroundFields : Fields [.type "bg-image",.type "repeat-style",.type "attachment",
    .type "visual-box"] where
  alternatives :=
    [.type "bg-image",positionNotation "bg-position",.type "repeat-style",.type "attachment",
     .type "visual-box",.type "visual-box",.type "color"]
  fields := [⟨0,ident "none"⟩,⟨2,ident "repeat"⟩,⟨3,ident "scroll"⟩,⟨4,ident "padding-box"⟩]
  sound := by decide +kernel

def backgroundConstants : Constants [xPattern,yPattern,.type "bg-size",.type "bg-clip",
    property "background-color"] where
  values := [zeroPercent,zeroPercent,ident "auto",ident "border-box",ident "transparent"]
  known := by decide +kernel

theorem fits_of_toList {p q : Pattern} {axes : Vector Value 2} (h : AllFit [p,q] axes.toList) :
    p.Fits (axes.get ⟨0,by decide⟩).flatten ∧ q.Fits (axes.get ⟨1,by decide⟩).flatten := by
  obtain ⟨⟨l⟩,hl⟩ := axes
  obtain ⟨x,y,rfl⟩ := List.length_eq_two.1 hl
  cases h with
  | cons hx h =>
    cases h with
    | cons hy _ => exact ⟨hx,hy⟩

theorem backgroundAxes_fit {v : Value} (hv : Plain v.flatten) :
    AllFit [xPattern,yPattern] (((positionPart ((backgroundShares v).get? 1) 0).map
      positionAxes).getD #v[zeroPercent,zeroPercent]).toList := by
  cases h : positionPart ((backgroundShares v).get? 1) 0 with
  | none =>
    have hconstants := backgroundConstants.fits
    simp only [backgroundConstants,List.forall₂_cons] at hconstants
    obtain ⟨hx,hy,_⟩ := hconstants
    exact .cons hx (.cons hy .nil)
  | some x =>
    obtain ⟨p,hp,hfit⟩ := sharedPart_fits backgroundFields.alternatives rfl (by simp) hv h
    cases hp
    exact positionAxes_fit hfit

theorem backgroundClips_cover :
    covered coverLevels (.type "visual-box") (.type "bg-clip") = true ∧
    covered coverLevels (.type "color") (property "background-color") = true := by
  decide +kernel

theorem backgroundLayer_fits {v : Value} (hv : Plain v.flatten) :
    AllFit backgroundLayering.patterns (backgroundLayer v).toList := by
  have hfields := backgroundFields.fits hv
  simp only [Fields.read,backgroundFields,List.map_cons,List.map_nil,List.forall₂_cons] at hfields
  obtain ⟨himage,hrepeat,hattachment,horigin,_⟩ := hfields
  obtain ⟨hx,hy⟩ := fits_of_toList (backgroundAxes_fit hv)
  have hconstants := backgroundConstants.fits
  simp only [backgroundConstants,List.forall₂_cons] at hconstants
  obtain ⟨_,_,hauto,hbox,_⟩ := hconstants
  have hsize := sharedPart_getD_fits (i := 1) (j := 1) backgroundFields.alternatives rfl (by simp)
    rfl hv hauto
  have hclip : (Pattern.type "bg-clip").Fits
      (Value.flatten ((((backgroundShares v).get? 5).or ((backgroundShares v).get? 4)).getD
        (ident "border-box"))) := by
    apply fits_getD hbox
    intro w hw
    rcases Option.or_eq_some_iff.1 hw with hw | ⟨_,hw⟩
    · obtain ⟨p,hp,hfit⟩ := share_fits hw hv
      cases hp
      exact hfit.covered backgroundClips_cover.1
    · obtain ⟨p,hp,hfit⟩ := share_fits hw hv
      cases hp
      exact hfit.covered backgroundClips_cover.1
  exact .cons himage (.cons hx (.cons hy (.cons hsize (.cons hrepeat (.cons hattachment
    (.cons horigin (.cons hclip .nil)))))))

theorem backgroundColor_fits {v : Value} (hv : Plain v.flatten) :
    (property "background-color").Fits (backgroundColor v).flatten := by
  have hconstants := backgroundConstants.fits
  simp only [backgroundConstants,List.forall₂_cons] at hconstants
  obtain ⟨_,_,_,_,htransparent,_⟩ := hconstants
  apply fits_getD htransparent
  intro w hw
  obtain ⟨layer,hl,hw⟩ := List.mem_filterMap.1 (List.mem_of_getLast? hw)
  obtain ⟨p,hp,hfit⟩ := share_fits hw (plain_of_mem_layers hv hl)
  cases hp
  exact hfit.covered backgroundClips_cover.2

theorem background_typed {v : Value} (hv : Plain v.flatten)
    (hl : ∃ n ∈ v.flatten, n.isOperator "," = false) : background.Typed v := by
  apply typed_of_allFit (by simp [shorthands])
  have hread : (background.assign v).toList =
      (v.layered backgroundLayer).toList ++ [backgroundColor v] := Vector.toList_append
  rw [hread]
  have hfit : AllFit _ (v.layered backgroundLayer).toList :=
    backgroundLayering.fits hv hl fun w hw => backgroundLayer_fits hw
  exact List.rel_append hfit (.cons (backgroundColor_fits hv) .nil)

end StyleExpansion.Shorthand
