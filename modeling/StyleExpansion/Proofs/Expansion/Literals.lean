import StyleExpansion.Proofs.Expansion.Backgrounds
import StyleExpansion.Proofs.Expansion.Origins
import StyleExpansion.Proofs.Expansion.Unlayered

/-! # Literals of expansions

Every shorthand draws its longhands from its value and the defaults, those in layers with commas between
the layers, and so does every expansion, on whatever level.
-/
namespace StyleExpansion
open Pattern Value Shorthand

theorem Fields.drawn {ps : List Pattern} (fs : Fields ps)
    (h : ∀ f ∈ fs.fields, f.default ∈ defaults) (v : Value) :
    AllDrawn defaults v.flatten (fs.read v) := by
  intro w hw
  obtain ⟨f,hf,rfl⟩ := List.mem_map.1 hw
  exact drawn_get (drawn_default (h f hf)) f.index

namespace Shorthand

/-! ## Edges and borders -/

theorem boxEdges_draws : Draws defaults boxEdges := by
  intro v
  have htop : Drawn defaults v.flatten (v.nodeOr 0 empty) := drawn_nodeOr drawn_empty 0
  have hright := drawn_nodeOr htop 1
  exact .cons htop (.cons hright (.cons (drawn_nodeOr htop 2) (.cons (drawn_nodeOr hright 3) .nil)))

theorem axisEdges_draws : Draws defaults axisEdges := by
  intro v
  have hstart : Drawn defaults v.flatten (v.nodeOr 0 empty) := drawn_nodeOr drawn_empty 0
  exact .cons hstart (.cons (drawn_nodeOr hstart 1) .nil)

theorem border_draws : Draws defaults border.assign := by
  intro v
  have hself : Drawn defaults v.flatten v := drawn_self v
  exact .cons hself (.cons hself (.cons hself (.cons hself .nil)))

theorem line_draws (name : String) : Draws defaults (line name).assign :=
  lineFields.drawn (by simp [lineFields,defaults,defaultNames])

theorem borderRadius_draws : Draws defaults borderRadius.assign := by
  intro v
  have hgroups : AllDrawn defaults v.flatten (v.segments "/") := segments_drawn v "/"
  have hedges : ∀ {w : Value}, Drawn defaults v.flatten w →
      AllDrawn defaults v.flatten w.boxEdges.toList :=
    fun hw x hx => (boxEdges_draws _ x hx).trans hw
  have hfirst : Drawn defaults v.flatten ((v.segments "/").getD 0 empty) := by
    rw [List.getD_eq_getElem?_getD]
    exact drawn_getD (fun w hw => hgroups w (List.mem_of_getElem? hw)) drawn_empty
  simp only [borderRadius]
  split
  · exact hedges hfirst
  · next second hs =>
    have hsecond := hedges (hgroups second (List.mem_of_getElem? hs))
    intro w hw
    rw [Vector.toList_zipWith] at hw
    obtain ⟨i,hi,rfl⟩ := List.getElem_of_mem hw
    rw [List.getElem_zipWith]
    exact drawn_list (.cons (hedges hfirst _ (List.getElem_mem _))
      (.cons (hsecond _ (List.getElem_mem _)) .nil))

theorem slicePart_drawn {tests : List (List Value → Bool)} (v : Value) (j i : Nat) :
    Drawn defaults v.flatten (slicePart ((v.shareBy tests).get? j) i) := by
  apply drawn_presentOr _ (drawn_ident (by simp [defaultNames]))
  cases h : (v.shareBy tests).get? j with
  | none => exact .nil
  | some w => exact fun s hs => (allSegments_drawn w "/" s hs).trans (share_drawn h)

theorem borderImage_draws : Draws defaults borderImage.assign := fun v =>
  .cons (get_drawn (by simp [defaultNames]) 0) (.cons (slicePart_drawn v 1 0)
    (.cons (slicePart_drawn v 1 1) (.cons (slicePart_drawn v 1 2)
    (.cons (get_drawn (by simp [defaultNames]) 2) .nil))))

theorem maskBorder_draws : Draws defaults maskBorder.assign := fun v =>
  .cons (get_drawn (by simp [defaultNames]) 0) (.cons (slicePart_drawn v 1 0)
    (.cons (slicePart_drawn v 1 1) (.cons (slicePart_drawn v 1 2)
    (.cons (get_drawn (by simp [defaultNames]) 2)
    (.cons (get_drawn (by simp [defaultNames]) 3) .nil)))))

/-! ## Fields only -/

theorem readings_default :
    ∀ r ∈ readings, ∀ f ∈ r.fields.fields, f.default ∈ defaults := by
  simp [readings,defaults,defaultNames]

theorem reading_draws {r : Reading} (hr : r ∈ readings) : Draws defaults r.shorthand.assign := by
  intro v
  rw [r.reads]
  exact r.fields.drawn (readings_default r hr) v

theorem listStyle_draws : Draws defaults listStyle.assign := by
  intro v
  have hread : ∃ noImage, (listStyle.assign v).toList = (listStyleFields noImage).read v :=
    ⟨((v.share (listStyleFields true).alternatives).get? 1).any (isIdent "none"),rfl⟩
  obtain ⟨noImage,hread⟩ := hread
  rw [hread]
  apply (listStyleFields noImage).drawn
  cases noImage <;> simp [listStyleFields,defaults,defaultNames]

/-! ## Keywords of their own meaning -/

theorem flex_draws : Draws defaults flex.assign := by
  intro v
  have hnumber : ∀ text ∈ ["0","1"], Drawn defaults v.flatten (number text) := by
    intro text ht
    apply drawn_default
    simp only [List.mem_cons,List.not_mem_nil,or_false] at ht
    rcases ht with rfl | rfl
    · simp [defaults]
    · simp [defaults]
  have hauto : Drawn defaults v.flatten (ident "auto") := drawn_ident (by simp [defaultNames])
  simp only [flex]
  split
  · exact .cons (hnumber "1" (by simp)) (.cons (hnumber "1" (by simp)) (.cons hauto .nil))
  · split
    · exact .cons (hnumber "0" (by simp)) (.cons (hnumber "0" (by simp)) (.cons hauto .nil))
    · exact flexFields.drawn (by simp [flexFields,defaults]) v

theorem fontVariant_draws : Draws defaults fontVariant.assign := by
  intro v
  have hnormal : Drawn defaults v.flatten (ident "normal") := drawn_ident (by simp [defaultNames])
  have hnone : Drawn defaults v.flatten (ident "none") := drawn_ident (by simp [defaultNames])
  have hrest : AllDrawn defaults v.flatten (List.replicate 6 (ident "normal")) := by
    intro w hw
    rw [List.eq_of_mem_replicate hw]
    exact hnormal
  simp only [fontVariant]
  split
  · exact .cons hnormal hrest
  · split
    · exact .cons hnone hrest
    · exact fontVariantFields.drawn (by simp [fontVariantFields,defaults,defaultNames]) v

theorem fontSynthesis_draws : Draws defaults fontSynthesis.assign := by
  intro v
  have hflag : ∀ b : Bool,
      Drawn defaults v.flatten (if b then ident "auto" else ident "none") := by
    intro b
    cases b
    · exact drawn_ident (by simp [defaultNames])
    · exact drawn_ident (by simp [defaultNames])
  exact .cons (hflag _) (.cons (hflag _) (.cons (hflag _) (.cons (hflag _) .nil)))

theorem whiteSpaceKeywords_default :
    ∀ e ∈ whiteSpaceKeywords, e.2.1 ∈ defaults ∧ e.2.2 ∈ defaults := by
  simp [whiteSpaceKeywords,defaults,defaultNames]

theorem preset_mem {v : Value} {e : String × Value × Value} (h : (v.soleKeyword.bind fun keyword =>
    whiteSpaceKeywords.find? fun e => e.1 == keyword) = some e) : e ∈ whiteSpaceKeywords := by
  obtain ⟨_,_,hf⟩ := Option.bind_eq_some_iff.1 h
  exact List.mem_of_find?_eq_some hf

theorem whiteSpace_draws : Draws defaults whiteSpace.assign := by
  intro v
  refine .cons (drawn_getD ?_ (get_drawn (by simp [defaultNames]) 0))
    (.cons (drawn_getD ?_ (get_drawn (by simp [defaultNames]) 1)) .nil)
  · intro w hw
    obtain ⟨e,he,rfl⟩ := Option.map_eq_some_iff.1 hw
    exact drawn_default (whiteSpaceKeywords_default e (preset_mem he)).1
  · intro w hw
    obtain ⟨e,he,rfl⟩ := Option.map_eq_some_iff.1 hw
    exact drawn_default (whiteSpaceKeywords_default e (preset_mem he)).2

/-! ## Fonts -/

theorem fontEnd_drawn {v : Value} {vs : List Value} (h : vs ⊆ v.flatten) :
    AllDrawn defaults v.flatten [(fontEnd vs).size,(fontEnd vs).lineHeight,(fontEnd vs).family] := by
  have hnode : ∀ {d : Value} (i : Nat), Drawn defaults v.flatten d →
      Drawn defaults v.flatten (vs.getD i d) := by
    intro d i hd
    rw [List.getD_eq_getElem?_getD]
    exact drawn_getD (fun w hw => allDrawn_of_nodes h w (List.mem_of_getElem? hw)) hd
  have hinitial : Drawn defaults v.flatten (ident "initial") := drawn_ident (by simp [defaultNames])
  have hfamily : ∀ k, Drawn defaults v.flatten (ofNodesOr (vs.drop k) (ident "initial")) :=
    fun k => drawn_ofNodesOr (allDrawn_of_nodes (List.Subset.trans (List.drop_subset k vs) h)) hinitial
  unfold fontEnd
  split
  · exact .cons (hnode 0 drawn_empty) (.cons (hnode 2 drawn_empty) (.cons (hfamily 3) .nil))
  · exact .cons (hnode 0 hinitial) (.cons (drawn_ident (by simp [defaultNames]))
      (.cons (hfamily 1) .nil))

theorem systemFont_drawn {v family : Value} (h : systemFont v = some family) :
    Drawn defaults v.flatten family := by
  unfold systemFont at h
  split at h
  · next name hv =>
    split at h
    · cases h
      apply drawn_of_subset
      rw [hv,flatten]
      · exact List.Subset.refl _
      · simp
    · cases h
  · cases h

theorem font_draws : Draws defaults font.assign := by
  intro v
  have hinitial : Drawn defaults v.flatten (ident "initial") := drawn_ident (by simp [defaultNames])
  simp only [font]
  split
  · next family hf =>
    exact .cons hinitial (.cons hinitial (.cons hinitial (.cons hinitial (.cons hinitial
      (.cons hinitial (.cons (systemFont_drawn hf) .nil))))))
  · exact .cons (drawn_get hinitial 0) (.cons (drawn_get hinitial 1) (.cons (drawn_get hinitial 2)
      (.cons (drawn_get hinitial 3) (fontEnd_drawn (shareBy_spans _ v).left))))

/-! ## Motion -/

theorem animationLayer_draws : Draws defaults animationLayer :=
  animationFields.drawn (by simp [animationFields,defaults,defaultNames])

theorem transitionLayer_draws : Draws defaults transitionLayer :=
  transitionFields.drawn (by simp [transitionFields,defaults,defaultNames])

theorem animation_draws : Draws literals animation.assign := by
  intro v
  have hread : (animation.assign v).toList = (v.layered animationLayer).toList ++
      [ident "auto",ident "normal",ident "normal"] := Vector.toList_append
  have hconst : AllDrawn defaults v.flatten [ident "auto",ident "normal",ident "normal"] :=
    .cons (drawn_ident (by simp [defaultNames])) (.cons (drawn_ident (by simp [defaultNames]))
      (.cons (drawn_ident (by simp [defaultNames])) .nil))
  rw [hread]
  exact (animationLayer_draws.layered v).append hconst.literal

theorem rangeLayer_draws : Draws defaults rangeLayer := by
  intro v
  have hnormal : Drawn defaults v.flatten (ident "normal") := drawn_ident (by simp [defaultNames])
  refine .cons (drawn_ofNodes (allDrawn_of_nodes (List.take_subset _ _))) (.cons
    (drawn_ofNodesOr (allDrawn_of_nodes (List.drop_subset _ _)) ?_) .nil)
  split
  · next name _ hv =>
    split
    · exact allDrawn_of_nodes (List.Subset.refl _) name (by simp [hv])
    · exact hnormal
  · exact hnormal

theorem takeLongest_drawn (p : Pattern) {v : Value} {vs : List Value} (h : vs ⊆ v.flatten) :
    (∀ w, (takeLongest p vs).1 = some w → Drawn defaults v.flatten w) ∧
      (takeLongest p vs).2 ⊆ v.flatten := by
  unfold takeLongest
  split
  · next k _ =>
    refine ⟨?_,List.Subset.trans (List.drop_subset k vs) h⟩
    intro w hw
    cases hw
    exact drawn_ofNodes (allDrawn_of_nodes (List.Subset.trans (List.take_subset k vs) h))
  · exact ⟨nofun,h⟩

theorem offset_draws : Draws defaults offset.assign := by
  intro v
  have hparts : AllDrawn defaults v.flatten (v.allSegments "/") := allSegments_drawn v "/"
  have hmain : (((v.allSegments "/")[0]?).map flatten).getD [] ⊆ v.flatten := by
    intro n hn
    cases h : (v.allSegments "/")[0]? with
    | none => simp [h] at hn
    | some w =>
      rw [h] at hn
      obtain ⟨r,hr,rfl⟩ := List.mem_map.1 (List.mem_of_getElem? h)
      rw [Option.map_some,Option.getD_some,flatten_of_mem_runs hr] at hn
      exact mem_of_mem_runs hr hn
  obtain ⟨hposition,hafter⟩ := takeLongest_drawn (.property "offset-position") hmain
  obtain ⟨hpath,hrest⟩ := takeLongest_drawn (.property "offset-path") hafter
  have hzero : Drawn defaults v.flatten (number "0") := drawn_default (by simp [defaults])
  refine .cons (drawn_getD hposition (drawn_ident (by simp [defaultNames])))
    (.cons (drawn_getD hpath (drawn_ident (by simp [defaultNames])))
    (.cons (drawn_getD ?_ hzero) (.cons (drawn_getD ?_ (drawn_ident (by simp [defaultNames])))
    (.cons (drawn_presentOr hparts (drawn_ident (by simp [defaultNames])) 1) .nil))))
  · exact fun w hw => (share_drawn hw).trans (drawn_list (allDrawn_of_nodes hrest))
  · exact fun w hw => (share_drawn hw).trans (drawn_list (allDrawn_of_nodes hrest))

theorem timelineLayer_draws : Draws defaults fun layer : Value =>
    #v[layer.nodeOr 0 (ident "none"),layer.nodeOr 1 (ident "block")] := fun _ =>
  .cons (drawn_nodeOr (drawn_ident (by simp [defaultNames])) 0)
    (.cons (drawn_nodeOr (drawn_ident (by simp [defaultNames])) 1) .nil)

theorem viewTimelineLayer_draws : Draws defaults viewTimelineLayer := by
  intro v
  have hlist : Drawn defaults v.flatten (list (v.flatten.drop 1)) :=
    drawn_list (allDrawn_of_nodes (List.drop_subset 1 v.flatten))
  refine .cons (drawn_nodeOr (drawn_ident (by simp [defaultNames])) 0)
    (.cons (drawn_getD ?_ (drawn_ident (by simp [defaultNames])))
    (.cons (drawn_getD ?_ (drawn_ident (by simp [defaultNames]))) .nil))
  · exact fun w hw => (share_drawn hw).trans hlist
  · exact fun w hw => (share_drawn hw).trans hlist

/-! ## Backgrounds and masks -/

theorem positionPart_drawn {tests : List (List Value → Bool)} {v w : Value} {i j : Nat}
    (h : positionPart ((v.shareBy tests).get? j) i = some w) : Drawn defaults v.flatten w := by
  obtain ⟨x,hx,hw⟩ := Option.bind_eq_some_iff.1 h
  exact (segments_drawn x "/" w (List.mem_of_getElem? hw)).trans (share_drawn hx)

theorem zeroPercent_drawn {vs : List Value} : Drawn defaults vs zeroPercent :=
  drawn_default (by simp [defaults,zeroPercent])

theorem maskLayer_draws : Draws defaults maskLayer := by
  intro v
  have hzero : Drawn defaults v.flatten (list [zeroPercent,zeroPercent]) :=
    drawn_list (.cons zeroPercent_drawn (.cons zeroPercent_drawn .nil))
  have hsize : Drawn defaults v.flatten (ident "auto") := drawn_ident (by simp [defaultNames])
  have hclip : Drawn defaults v.flatten (ident "border-box") := drawn_ident (by simp [defaultNames])
  refine .cons (get_drawn (by simp [defaultNames]) 0)
    (.cons (drawn_getD (fun w hw => positionPart_drawn hw) hzero)
    (.cons (drawn_getD (fun w hw => positionPart_drawn hw) hsize)
    (.cons (get_drawn (by simp [defaultNames]) 2) (.cons (get_drawn (by simp [defaultNames]) 3)
    (.cons (drawn_getD ?_ hclip) (.cons (get_drawn (by simp [defaultNames]) 5)
    (.cons (get_drawn (by simp [defaultNames]) 6) .nil)))))))
  intro w hw
  rcases Option.or_eq_some_iff.1 hw with hw | ⟨_,hw⟩
  · exact share_drawn hw
  · exact share_drawn (Option.filter_eq_some_iff.1 hw).1

theorem positionAxes_draws : Draws defaults positionAxes := by
  intro v
  have hcenter : Drawn defaults v.flatten (ident "center") := drawn_ident (by simp [defaultNames])
  have hnodes : AllDrawn defaults v.flatten v.flatten := allDrawn_of_nodes (List.Subset.refl _)
  unfold positionAxes
  split
  · exact .cons zeroPercent_drawn (.cons zeroPercent_drawn .nil)
  · next a hv =>
    have ha := hnodes a (by simp [hv])
    split
    · exact .cons hcenter (.cons ha .nil)
    · exact .cons ha (.cons hcenter .nil)
  · next a b hv =>
    have ha := hnodes a (by simp [hv])
    have hb := hnodes b (by simp [hv])
    split
    · exact .cons hb (.cons ha .nil)
    · exact .cons ha (.cons hb .nil)
  · exact axisFields.drawn (by simp [axisFields,defaults,defaultNames]) v

theorem backgroundAxes_draws (v : Value) : AllDrawn defaults v.flatten
    (((positionPart ((backgroundShares v).get? 1) 0).map positionAxes).getD
      #v[zeroPercent,zeroPercent]).toList := by
  cases h : positionPart ((backgroundShares v).get? 1) 0 with
  | none => exact .cons zeroPercent_drawn (.cons zeroPercent_drawn .nil)
  | some w => exact fun x hx => (positionAxes_draws w x hx).trans (positionPart_drawn h)

theorem backgroundLayer_draws : Draws defaults backgroundLayer := by
  intro v
  have haxes := backgroundAxes_draws v
  have hsize : Drawn defaults v.flatten (ident "auto") := drawn_ident (by simp [defaultNames])
  have hclip : Drawn defaults v.flatten (ident "border-box") := drawn_ident (by simp [defaultNames])
  refine .cons (get_drawn (by simp [defaultNames]) 0)
    (.cons (haxes _ (Vector.mem_toList_iff.2 (Vector.getElem_mem (by decide))))
    (.cons (haxes _ (Vector.mem_toList_iff.2 (Vector.getElem_mem (by decide))))
    (.cons (drawn_getD (fun w hw => positionPart_drawn hw) hsize)
    (.cons (get_drawn (by simp [defaultNames]) 2) (.cons (get_drawn (by simp [defaultNames]) 3)
    (.cons (get_drawn (by simp [defaultNames]) 4) (.cons (drawn_getD ?_ hclip) .nil)))))))
  intro w hw
  rcases Option.or_eq_some_iff.1 hw with hw | ⟨_,hw⟩
  · exact share_drawn hw
  · exact share_drawn hw

theorem backgroundColor_drawn (v : Value) : Drawn defaults v.flatten (backgroundColor v) := by
  apply drawn_getD _ (drawn_ident (by simp [defaultNames]))
  intro w hw
  obtain ⟨layer,hl,hw⟩ := List.mem_filterMap.1 (List.mem_of_getLast? hw)
  exact (share_drawn hw).trans (segments_drawn v "," layer hl)

theorem background_draws : Draws literals background.assign := by
  intro v
  have hread : (background.assign v).toList =
      (v.layered backgroundLayer).toList ++ [backgroundColor v] := Vector.toList_append
  have hcolor : AllDrawn defaults v.flatten [backgroundColor v] :=
    .cons (backgroundColor_drawn v) .nil
  rw [hread]
  exact (backgroundLayer_draws.layered v).append hcolor.literal

/-! ## Grids, alignment and sizes -/

theorem side_subset (v : Value) (i : Nat) :
    (((v.segments "/")[i]?).map flatten).getD [] ⊆ v.flatten := by
  intro n hn
  cases h : (v.segments "/")[i]? with
  | none => simp [h] at hn
  | some w =>
    rw [h] at hn
    exact (flatten_of_mem_segments (List.mem_of_getElem? h)).2 hn

theorem gridTemplateParts_draws : Draws defaults gridTemplateParts := by
  intro v
  have hnone : Drawn defaults v.flatten (ident "none") := drawn_ident (by simp [defaultNames])
  have hlist : ∀ vs : List Value, vs ⊆ v.flatten →
      Drawn defaults v.flatten (if vs.isEmpty then ident "none" else list vs) := by
    intro vs hvs
    split
    · exact hnone
    · exact drawn_list (allDrawn_of_nodes hvs)
  have hside : ∀ p : Value → Bool,
      (((((v.segments "/")[0]?).map flatten).getD []).filter p) ⊆ v.flatten :=
    fun p => List.Subset.trans (List.filter_subset_self _) (side_subset v 0)
  simp only [gridTemplateParts]
  split
  · exact .cons hnone (.cons hnone (.cons hnone .nil))
  · refine .cons (hlist _ (hside _)) (.cons ?_ (.cons (hlist _ (hside _)) .nil))
    rw [List.getD_eq_getElem?_getD]
    exact drawn_getD (fun w hw => segments_drawn v "/" w (List.mem_of_getElem? hw)) hnone

theorem autoFlow_drawn {v : Value} {vs : List Value} {axis : String} {a : AutoFlow}
    (hvs : vs ⊆ v.flatten) (haxis : axis ∈ defaultNames) (h : autoFlow vs axis = some a) :
    Drawn defaults v.flatten a.flow ∧ Drawn defaults v.flatten a.tracks := by
  unfold autoFlow at h
  split at h
  · cases h
    refine ⟨?_,drawn_ofNodesOr (allDrawn_of_nodes (List.Subset.trans (List.filter_subset_self vs) hvs))
      (drawn_ident (by simp [defaultNames]))⟩
    dsimp only
    split
    · exact drawn_list (.cons (drawn_ident haxis)
        (.cons (drawn_ident (by simp [defaultNames])) .nil))
    · exact drawn_ident haxis
  · cases h

theorem grid_draws : Draws defaults grid.assign := by
  intro v
  have hnone : Drawn defaults v.flatten (ident "none") := drawn_ident (by simp [defaultNames])
  have hauto : Drawn defaults v.flatten (ident "auto") := drawn_ident (by simp [defaultNames])
  have hside : ∀ i, Drawn defaults v.flatten
      (ofNodesOr ((((v.segments "/")[i]?).map flatten).getD []) (ident "none")) :=
    fun i => drawn_ofNodesOr (allDrawn_of_nodes (side_subset v i)) hnone
  simp only [grid]
  split
  · next a _ ha =>
    obtain ⟨hflow,htracks⟩ := autoFlow_drawn (side_subset v 0) (by simp [defaultNames]) ha
    exact .cons hnone (.cons (hside 1) (.cons hnone (.cons htracks (.cons hauto
      (.cons hflow .nil)))))
  · next a ha _ =>
    obtain ⟨hflow,htracks⟩ := autoFlow_drawn (side_subset v 1) (by simp [defaultNames]) ha
    exact .cons (hside 0) (.cons hnone (.cons hnone (.cons hauto (.cons htracks
      (.cons hflow .nil)))))
  · rw [Vector.toList_append]
    exact (gridTemplateParts_draws v).append (.cons hauto (.cons hauto
      (.cons (drawn_ident (by simp [defaultNames])) .nil)))

theorem gridLine_draws (name : String) : Draws defaults (gridLine name).assign := by
  intro v
  have hauto : Drawn defaults v.flatten (ident "auto") := drawn_ident (by simp [defaultNames])
  have hpart := drawn_presentOr (segments_drawn v "/") hauto
  exact .cons (hpart 0) (.cons (hpart 1) .nil)

theorem gridArea_draws : Draws defaults gridArea.assign := by
  intro v
  have hauto : Drawn defaults v.flatten (ident "auto") := drawn_ident (by simp [defaultNames])
  have hpart := drawn_presentOr (segments_drawn v "/") hauto
  exact .cons (hpart 0) (.cons (hpart 1) (.cons (hpart 2) (.cons (hpart 3) .nil)))

theorem place_draws (kind : String) (baselineToStart : Bool) :
    Draws defaults (place kind baselineToStart).assign := by
  intro v
  have hspan : ∀ vs : List Value, vs ⊆ v.flatten → Drawn defaults v.flatten (ofNodes vs) :=
    fun _ h => drawn_ofNodes (allDrawn_of_nodes h)
  refine .cons (hspan _ (List.take_subset _ _)) (.cons ?_ .nil)
  split
  · exact hspan _ (List.drop_subset _ _)
  · split
    · exact drawn_ident (by simp [defaultNames])
    · exact hspan _ (List.take_subset _ _)

theorem container_draws : Draws defaults container.assign := fun v =>
  .cons (drawn_presentOr (allSegments_drawn v "/") (drawn_ident (by simp [defaultNames])) 0)
    (.cons (drawn_presentOr (allSegments_drawn v "/") (drawn_ident (by simp [defaultNames])) 1) .nil)

theorem sizeGroups_drawn {ds vs ws : List Value} (h : AllDrawn ds vs ws) :
    AllDrawn ds vs (sizeGroups ws) := by
  induction ws using sizeGroups.induct with
  | case1 => exact .nil
  | case2 w => exact h
  | case3 w x ws hw ih =>
    rw [sizeGroups,if_pos hw]
    obtain ⟨hw,h⟩ := List.forall_mem_cons.1 h
    obtain ⟨hx,h⟩ := List.forall_mem_cons.1 h
    exact .cons (drawn_list (.cons hw (.cons hx .nil))) (ih h)
  | case4 w x ws hw ih =>
    rw [sizeGroups,if_neg hw]
    obtain ⟨hw,h⟩ := List.forall_mem_cons.1 h
    exact .cons hw (ih h)

theorem containIntrinsicSize_draws : Draws defaults containIntrinsicSize.assign := by
  intro v
  have hgroups : AllDrawn defaults v.flatten (sizeGroups v.flatten) :=
    sizeGroups_drawn (allDrawn_of_nodes (List.Subset.refl _))
  have hget : ∀ {d : Value} (i : Nat), Drawn defaults v.flatten d →
      Drawn defaults v.flatten ((sizeGroups v.flatten).getD i d) := by
    intro d i hd
    rw [List.getD_eq_getElem?_getD]
    exact drawn_getD (fun w hw => hgroups w (List.mem_of_getElem? hw)) hd
  have hwidth := hget 0 drawn_empty
  exact .cons hwidth (.cons (hget 1 hwidth) .nil)

theorem positionTry_draws : Draws defaults positionTry.assign := by
  intro v
  have hnodes : AllDrawn defaults v.flatten v.flatten := allDrawn_of_nodes (List.Subset.refl _)
  refine .cons ?_ (.cons (drawn_ofNodesOr ?_ (drawn_ident (by simp [defaultNames]))) .nil)
  · split
    · rw [List.getD_eq_getElem?_getD]
      exact drawn_getD (fun w hw => hnodes w (List.mem_of_getElem? hw)) drawn_empty
    · exact drawn_ident (by simp [defaultNames])
  · split
    · exact allDrawn_of_nodes (List.drop_subset 1 v.flatten)
    · exact hnodes

/-! ## All of them -/

/-- What holds of the shorthands of every family of edges holds of those in the table. -/
theorem forall_mem_edges {p : Shorthand → Prop} (hbox : ∀ name property, p (ofBox name property))
    (haxis : ∀ name property, p (ofAxis name property))
    (hpair : ∀ name first second, p (ofPair name first second)) :
    ∀ s ∈ boxShorthands ++ axisShorthands ++ pairShorthands, p s := by
  intro s hs
  rcases List.mem_append.1 hs with hs | hs
  · rcases List.mem_append.1 hs with hs | hs
    · simp only [boxShorthands,List.mem_cons,List.not_mem_nil,or_false] at hs
      rcases hs with rfl | rfl | rfl | rfl | rfl | rfl | rfl | rfl <;> exact hbox _ _
    · simp only [axisShorthands,List.mem_cons,List.not_mem_nil,or_false] at hs
      rcases hs with rfl | rfl | rfl | rfl | rfl | rfl | rfl | rfl | rfl | rfl | rfl | rfl | rfl |
        rfl | rfl | rfl <;> exact haxis _ _
  · simp only [pairShorthands,List.mem_cons,List.not_mem_nil,or_false] at hs
    rcases hs with rfl | rfl | rfl | rfl <;> exact hpair _ _ _

theorem forall_mem_lines {p : Shorthand → Prop} (h : ∀ name, p (line name)) : ∀ s ∈ lines, p s := by
  intro s hs
  simp only [lines,List.mem_cons,List.not_mem_nil,or_false] at hs
  rcases hs with rfl | rfl | rfl | rfl | rfl | rfl | rfl | rfl | rfl | rfl | rfl <;> exact h _

def partShorthands : List Shorthand :=
  [outline,borderRadius,borderImage,maskBorder,font,fontSynthesis,fontVariant,flex,flexFlow,
   animation,animationRange,transition,mask,offset,scrollTimeline,viewTimeline,gridTemplate,grid,
   gridLine "grid-row",gridLine "grid-column",gridArea,whiteSpace,textWrap,background,
   backgroundPosition,textDecoration,textEmphasis,columns,listStyle]

def lastShorthands : List Shorthand :=
  [place "content" true,place "items" false,place "self" false,container,containIntrinsicSize,
   caret,positionTry]

/-- What holds of every family of shorthands, and of each of the others, holds of all of them. -/
theorem forall_mem_shorthands {p : Shorthand → Prop} (hbox : ∀ name property, p (ofBox name property))
    (haxis : ∀ name property, p (ofAxis name property))
    (hpair : ∀ name first second, p (ofPair name first second)) (hborder : p border)
    (hline : ∀ name, p (line name)) (hparts : ∀ s ∈ partShorthands, p s)
    (hlast : ∀ s ∈ lastShorthands, p s) : ∀ s ∈ shorthands, p s := by
  have hedges := forall_mem_edges hbox haxis hpair
  change ∀ s ∈ boxShorthands ++ axisShorthands ++ border :: lines ++ partShorthands ++
    pairShorthands ++ lastShorthands, p s
  simp only [List.forall_mem_append,List.forall_mem_cons] at hedges ⊢
  exact ⟨⟨⟨⟨hedges.1,hborder,forall_mem_lines hline⟩,hparts⟩,hedges.2⟩,hlast⟩

theorem parts_draw : ∀ s ∈ partShorthands, Draws literals s.assign := by
  have hreading : ∀ r ∈ readings, Draws literals r.shorthand.assign :=
    fun r hr => (reading_draws hr).literal
  simp only [readings,List.forall_mem_cons] at hreading
  obtain ⟨houtline,hflow,hcolumns,hwrap,hdecoration,hemphasis,_⟩ := hreading
  intro s hs
  simp only [partShorthands,List.mem_cons,List.not_mem_nil,or_false] at hs
  rcases hs with rfl | rfl | rfl | rfl | rfl | rfl | rfl | rfl | rfl | rfl | rfl | rfl | rfl | rfl |
    rfl | rfl | rfl | rfl | rfl | rfl | rfl | rfl | rfl | rfl | rfl | rfl | rfl | rfl | rfl
  · exact houtline
  · exact borderRadius_draws.literal
  · exact borderImage_draws.literal
  · exact maskBorder_draws.literal
  · exact font_draws.literal
  · exact fontSynthesis_draws.literal
  · exact fontVariant_draws.literal
  · exact flex_draws.literal
  · exact hflow
  · exact animation_draws
  · exact rangeLayer_draws.layered
  · exact transitionLayer_draws.layered
  · exact maskLayer_draws.layered
  · exact offset_draws.literal
  · exact timelineLayer_draws.layered
  · exact viewTimelineLayer_draws.layered
  · exact gridTemplateParts_draws.literal
  · exact grid_draws.literal
  · exact (gridLine_draws "grid-row").literal
  · exact (gridLine_draws "grid-column").literal
  · exact gridArea_draws.literal
  · exact whiteSpace_draws.literal
  · exact hwrap
  · exact background_draws
  · exact positionAxes_draws.layered
  · exact hdecoration
  · exact hemphasis
  · exact hcolumns
  · exact listStyle_draws.literal

theorem last_draw : ∀ s ∈ lastShorthands, Draws defaults s.assign := by
  have hreading : ∀ r ∈ readings, Draws defaults r.shorthand.assign := fun r hr => reading_draws hr
  simp only [readings,List.forall_mem_cons] at hreading
  intro s hs
  simp only [lastShorthands,List.mem_cons,List.not_mem_nil,or_false] at hs
  rcases hs with rfl | rfl | rfl | rfl | rfl | rfl | rfl
  · exact place_draws "content" true
  · exact place_draws "items" false
  · exact place_draws "self" false
  · exact container_draws
  · exact containIntrinsicSize_draws
  · exact hreading.2.2.2.2.2.2.1
  · exact positionTry_draws

theorem draws_of_mem : ∀ {s : Shorthand}, s ∈ shorthands → Draws literals s.assign := by
  apply forall_mem_shorthands
  · exact fun _ _ => boxEdges_draws.literal
  · exact fun _ _ => axisEdges_draws.literal
  · exact fun _ _ _ => axisEdges_draws.literal
  · exact border_draws.literal
  · exact fun name => (line_draws name).literal
  · exact parts_draw
  · exact fun s hs => (last_draw s hs).literal

end Shorthand

theorem Shorthand.value_mem_of_mem_expand {s : Shorthand} {v : Value} {l : Longhand}
    (h : l ∈ s.expand v) : l.value ∈ (s.assign v).toList := by
  obtain ⟨i,hi,rfl⟩ := List.getElem_of_mem h
  simp only [Shorthand.expand,List.getElem_zipWith]
  exact List.getElem_mem _

theorem commonValue_drawn {v w : Value} (h : commonValue v.flatten = some w) :
    Drawn literals v.flatten w := by
  have hunset : Drawn literals v.flatten (ident "unset") :=
    (drawn_ident (by simp [defaultNames])).mono (List.Subset.refl _) (List.subset_cons_self _ _)
  unfold commonValue at h
  split at h
  · cases h
    exact hunset
  · split at h
    · cases h
      exact hunset
    · cases h
  · next hv =>
    split at h
    · cases h
      exact allDrawn_of_nodes (List.Subset.refl _) w (by simp [hv])
    · cases h
  · cases h

/-- On whatever level, an expansion holds nodes of its value and literals only. -/
theorem expandWithin_drawn (n : Nat) (property : String) (v : Value) :
    ∀ l ∈ expandWithin n property v, Drawn literals v.flatten l.value := by
  induction n generalizing property v with
  | zero =>
    intro l hl
    rw [List.mem_singleton.1 hl]
    exact drawn_self v
  | succ n ih =>
    intro l hl
    rw [expandWithin] at hl
    split at hl
    · rw [List.mem_singleton.1 hl]
      exact drawn_self v
    · next s hs =>
      split at hl
      · next w hw =>
        obtain ⟨_,_,rfl⟩ := List.mem_map.1 hl
        exact commonValue_drawn hw
      · obtain ⟨k,hk,hl⟩ := List.mem_flatMap.1 hl
        have hkv : k.value ∈ (s.assign v).toList := value_mem_of_mem_expand hk
        exact (ih k.property k.value l hl).trans
          (draws_of_mem (List.mem_of_find?_eq_some hs) v _ hkv)

end StyleExpansion
