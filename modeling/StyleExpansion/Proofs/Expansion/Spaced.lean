import StyleExpansion.Proofs.Expansion.Commas
import StyleExpansion.Proofs.Value.Spaced

/-! # Expansions are spaced

A shorthand gives its longhands nodes, lists of nodes, and such values with commas between them. So every
longhand of a spaced value is written like the list of its nodes.
-/
namespace StyleExpansion
open Value

def AllSpaced (ws : List Value) : Prop := ∀ w ∈ ws, w.isSpaced = true

theorem AllSpaced.nil : AllSpaced [] := nofun

theorem AllSpaced.cons {w : Value} {ws : List Value} (h : w.isSpaced = true) (hs : AllSpaced ws) :
    AllSpaced (w :: ws) := List.forall_mem_cons.2 ⟨h,hs⟩

theorem AllSpaced.append {us ws : List Value} (h : AllSpaced us) (hs : AllSpaced ws) :
    AllSpaced (us ++ ws) := List.forall_mem_append.2 ⟨h,hs⟩

def Spaces {n : Nat} (read : Value → Vector Value n) : Prop := ∀ v, AllSpaced (read v).toList

theorem spaced_empty : empty.isSpaced = true := rfl

theorem spaced_node {v w : Value} (h : w ∈ v.flatten) : w.isSpaced = true :=
  (isSpaced_of_node (flatten_areNodes v w h)).1

theorem spaced_list {ws : List Value} (h : AreNodes ws) : (list ws).isSpaced = true :=
  isSpaced_list_of_nodes fun w hw => Or.inl (h w hw)

theorem spaced_ofNodes {ws : List Value} (h : AreNodes ws) : (ofNodes ws).isSpaced = true := by
  unfold ofNodes
  split
  · exact (isSpaced_of_node (h _ List.mem_cons_self)).1
  · exact spaced_list h

theorem spaced_ofNodesOr {ws : List Value} {d : Value} (h : AreNodes ws) (hd : d.isSpaced = true) :
    (ofNodesOr ws d).isSpaced = true := by
  unfold ofNodesOr
  split
  · exact hd
  · exact spaced_ofNodes h

theorem spaced_getD {o : Option Value} {d : Value} (h : ∀ w, o = some w → w.isSpaced = true)
    (hd : d.isSpaced = true) : (o.getD d).isSpaced = true := by
  cases o with
  | none => exact hd
  | some w => exact h w rfl

theorem AllSpaced.getD {ws : List Value} (h : AllSpaced ws) {d : Value} (hd : d.isSpaced = true)
    (i : Nat) : (ws.getD i d).isSpaced = true := by
  rw [List.getD_eq_getElem?_getD]
  exact spaced_getD (fun w hw => h w (List.mem_of_getElem? hw)) hd

theorem AllSpaced.presentOr {ws : List Value} (h : AllSpaced ws) {d : Value} (hd : d.isSpaced = true)
    (i : Nat) : (presentOr ws i d).isSpaced = true := by
  apply spaced_getD _ hd
  intro w hw
  exact h w (List.mem_of_getElem? (Option.filter_eq_some_iff.1 hw).1)

theorem allSpaced_flatten (v : Value) : AllSpaced v.flatten := fun _ hw => spaced_node hw

theorem spaced_nodeOr {v d : Value} (hd : d.isSpaced = true) (i : Nat) :
    (v.nodeOr i d).isSpaced = true := (allSpaced_flatten v).getD hd i

theorem allSegments_spaced (v : Value) (symbol : String) : AllSpaced (v.allSegments symbol) := by
  intro s hs
  obtain ⟨r,hr,rfl⟩ := List.mem_map.1 hs
  exact spaced_list ((flatten_areNodes v).mono (mem_of_mem_runs hr))

theorem segments_spaced (v : Value) (symbol : String) : AllSpaced (v.segments symbol) :=
  fun s hs => allSegments_spaced v symbol s (List.mem_of_mem_filter hs)

theorem spaced_share {tests : List (List Value → Bool)} {v w : Value} {i : Nat}
    (h : (v.shareBy tests).get? i = some w) : w.isSpaced = true := by
  obtain ⟨_,_,_,_,_,hs,rfl⟩ := (shareBy_spans tests v).found i w h
  exact spaced_ofNodes ((flatten_areNodes v).mono hs)

theorem spaced_get {tests : List (List Value → Bool)} {v d : Value} (hd : d.isSpaced = true)
    (i : Nat) : ((v.shareBy tests).get i d).isSpaced = true :=
  spaced_getD (o := (v.shareBy tests).get? i) (fun _ hw => spaced_share hw) hd

theorem spaced_default {d : Value} (h : d ∈ defaults) : d.isSpaced = true := by
  have hall : ∀ d ∈ defaults, d.isSpaced = true := by decide +kernel
  exact hall d h

theorem Fields.spaced {ps : List Pattern} (fs : Fields ps)
    (h : ∀ f ∈ fs.fields, f.default ∈ defaults) (v : Value) : AllSpaced (fs.read v) := by
  intro w hw
  obtain ⟨f,hf,rfl⟩ := List.mem_map.1 hw
  exact spaced_get (spaced_default (h f hf)) f.index

/-- The fields of layers are spaced with commas between the layers, since no layer holds one. -/
theorem Spaces.layered {n : Nat} {read : Value → Vector Value n} (h : Spaces read)
    (hd : Draws defaults read) : Spaces fun v => v.layered read := by
  intro v w hw
  obtain ⟨i,hi,rfl⟩ := List.getElem_of_mem hw
  have hin : i < n := by simpa using hi
  simp only [Value.layered,Vector.getElem_toList,Vector.getElem_ofFn]
  have hfield : ∀ x ∈ (v.layers.map read).map fun row => row[i],
      ∃ layer ∈ v.layers, x ∈ (read layer).toList := by
    intro x hx
    obtain ⟨row,hrow,rfl⟩ := List.mem_map.1 hx
    obtain ⟨layer,hl,rfl⟩ := List.mem_map.1 hrow
    exact ⟨layer,hl,Vector.mem_toList_iff.2 (Vector.getElem_mem hin)⟩
  apply isSpaced_join
  · intro x hx
    obtain ⟨layer,_,hx⟩ := hfield x hx
    exact h layer x hx
  · intro x hx m hm
    obtain ⟨layer,hl,hx⟩ := hfield x hx
    rcases hd layer x hx m hm with hm | hm
    · exact free_of_mem_segments hl m hm
    · exact defaults_free m hm

namespace Shorthand

/-! ## Edges and borders -/

theorem boxEdges_leaves (v : Value) : ∀ w ∈ v.boxEdges.toList, w.flatten = [w] ∨ w = empty := by
  have hnode : ∀ {d : Value} (i : Nat), (d.flatten = [d] ∨ d = empty) →
      (v.nodeOr i d).flatten = [v.nodeOr i d] ∨ v.nodeOr i d = empty := by
    intro d i hd
    rw [nodeOr,List.getD_eq_getElem?_getD]
    cases h : v.flatten[i]? with
    | none => exact hd
    | some w => exact Or.inl (flatten_areNodes v w (List.mem_of_getElem? h))
  have htop := hnode 0 (Or.inr rfl)
  have hright := hnode 1 htop
  have hall : ∀ w ∈ [v.nodeOr 0 empty,v.nodeOr 1 (v.nodeOr 0 empty),
      v.nodeOr 2 (v.nodeOr 0 empty),v.nodeOr 3 (v.nodeOr 1 (v.nodeOr 0 empty))],
      w.flatten = [w] ∨ w = empty := by
    simp only [List.forall_mem_cons]
    exact ⟨htop,hright,hnode 2 htop,hnode 3 hright,List.forall_mem_nil _⟩
  exact hall

theorem boxEdges_spaces : Spaces boxEdges := by
  intro v w hw
  rcases boxEdges_leaves v w hw with h | rfl
  · exact (isSpaced_of_node h).1
  · exact spaced_empty

theorem axisEdges_spaces : Spaces axisEdges := fun _ =>
  .cons (spaced_nodeOr spaced_empty 0)
    (.cons (spaced_nodeOr (spaced_nodeOr spaced_empty 0) 1) .nil)

theorem line_spaces (name : String) : Spaces (line name).assign :=
  lineFields.spaced (by simp [lineFields,defaults,defaultNames])

theorem borderRadius_spaces : Spaces borderRadius.assign := by
  intro v
  simp only [borderRadius]
  split
  · exact boxEdges_spaces _
  · next second _ =>
    intro w hw
    rw [Vector.toList_zipWith] at hw
    obtain ⟨i,hi,rfl⟩ := List.getElem_of_mem hw
    rw [List.getElem_zipWith]
    refine isSpaced_list_of_nodes (List.forall_mem_cons.2 ⟨?_,List.forall_mem_singleton.2 ?_⟩)
    · exact boxEdges_leaves _ _ (List.getElem_mem _)
    · exact boxEdges_leaves _ _ (List.getElem_mem _)

theorem slicePart_spaced {tests : List (List Value → Bool)} (v : Value) (j i : Nat) :
    (slicePart ((v.shareBy tests).get? j) i).isSpaced = true := by
  refine AllSpaced.presentOr ?_ rfl i
  cases (v.shareBy tests).get? j with
  | none => exact .nil
  | some w => exact allSegments_spaced w "/"

theorem borderImage_spaces : Spaces borderImage.assign := fun v =>
  .cons (spaced_get rfl 0) (.cons (slicePart_spaced v 1 0) (.cons (slicePart_spaced v 1 1)
    (.cons (slicePart_spaced v 1 2) (.cons (spaced_get rfl 2) .nil))))

theorem maskBorder_spaces : Spaces maskBorder.assign := fun v =>
  .cons (spaced_get rfl 0) (.cons (slicePart_spaced v 1 0) (.cons (slicePart_spaced v 1 1)
    (.cons (slicePart_spaced v 1 2) (.cons (spaced_get rfl 2) (.cons (spaced_get rfl 3) .nil)))))

/-! ## Fields only -/

theorem reading_spaces {r : Reading} (hr : r ∈ readings) : Spaces r.shorthand.assign := by
  intro v
  rw [r.reads]
  exact r.fields.spaced (readings_default r hr) v

theorem listStyle_spaces : Spaces listStyle.assign := by
  intro v
  refine .cons (spaced_get rfl 0) (.cons (spaced_get rfl 1) (.cons (spaced_get ?_ 2) .nil))
  split <;> rfl

theorem flex_spaces : Spaces flex.assign := by
  intro v
  simp only [flex]
  split
  · exact .cons rfl (.cons rfl (.cons rfl .nil))
  · split
    · exact .cons rfl (.cons rfl (.cons rfl .nil))
    · exact flexFields.spaced (by simp [flexFields,defaults]) v

theorem fontVariant_spaces : Spaces fontVariant.assign := by
  intro v
  have hwords : ∀ name, AllSpaced (ident name :: List.replicate 6 (ident "normal")) := by
    intro name
    refine .cons rfl ?_
    intro w hw
    rw [List.eq_of_mem_replicate hw]
    rfl
  simp only [fontVariant]
  split
  · exact hwords "normal"
  · split
    · exact hwords "none"
    · exact fontVariantFields.spaced (by simp [fontVariantFields,defaults,defaultNames]) v

theorem fontSynthesis_spaces : Spaces fontSynthesis.assign := by
  intro v
  have hflag : ∀ b : Bool, (if b then ident "auto" else ident "none").isSpaced = true := by
    intro b
    cases b <;> rfl
  exact .cons (hflag _) (.cons (hflag _) (.cons (hflag _) (.cons (hflag _) .nil)))

theorem whiteSpace_spaces : Spaces whiteSpace.assign := by
  intro v
  refine .cons (spaced_getD ?_ (spaced_get rfl 0)) (.cons (spaced_getD ?_ (spaced_get rfl 1)) .nil)
  · intro w hw
    obtain ⟨e,he,rfl⟩ := Option.map_eq_some_iff.1 hw
    exact spaced_default (whiteSpaceKeywords_default e (preset_mem he)).1
  · intro w hw
    obtain ⟨e,he,rfl⟩ := Option.map_eq_some_iff.1 hw
    exact spaced_default (whiteSpaceKeywords_default e (preset_mem he)).2

/-! ## Fonts -/

theorem fontEnd_spaced {vs : List Value} (h : AreNodes vs) :
    AllSpaced [(fontEnd vs).size,(fontEnd vs).lineHeight,(fontEnd vs).family] := by
  have hnodes : AllSpaced vs := fun w hw => (isSpaced_of_node (h w hw)).1
  have hfamily : ∀ k, (ofNodesOr (vs.drop k) (ident "initial")).isSpaced = true :=
    fun k => spaced_ofNodesOr (h.mono (List.drop_subset k vs)) rfl
  unfold fontEnd
  split
  · exact .cons (hnodes.getD rfl 0) (.cons (hnodes.getD rfl 2) (.cons (hfamily 3) .nil))
  · exact .cons (hnodes.getD rfl 0) (.cons rfl (.cons (hfamily 1) .nil))

theorem font_spaces : Spaces font.assign := by
  intro v
  simp only [font]
  split
  · next family hf =>
    have hfamily : family.isSpaced = true := by
      unfold systemFont at hf
      split at hf
      · split at hf
        · cases hf
          rfl
        · cases hf
      · cases hf
    exact .cons rfl (.cons rfl (.cons rfl (.cons rfl (.cons rfl (.cons rfl (.cons hfamily .nil))))))
  · exact .cons (spaced_get rfl 0) (.cons (spaced_get rfl 1) (.cons (spaced_get rfl 2)
      (.cons (spaced_get rfl 3)
      (fontEnd_spaced ((flatten_areNodes v).mono (shareBy_spans _ v).left)))))

/-! ## Motion -/

theorem animationLayer_spaces : Spaces animationLayer :=
  animationFields.spaced (by simp [animationFields,defaults,defaultNames])

theorem transitionLayer_spaces : Spaces transitionLayer :=
  transitionFields.spaced (by simp [transitionFields,defaults,defaultNames])

theorem rangeLayer_spaces : Spaces rangeLayer := by
  intro v
  have hnodes := flatten_areNodes v
  refine .cons (spaced_ofNodes (hnodes.mono (List.take_subset _ _)))
    (.cons (spaced_ofNodesOr (hnodes.mono (List.drop_subset _ _)) ?_) .nil)
  split
  · next name _ hv =>
    split
    · exact spaced_node (v := v) (by simp [hv])
    · rfl
  · rfl

theorem takeLongest_nodes (p : Pattern) {vs : List Value} (h : AreNodes vs) :
    (∀ w, (takeLongest p vs).1 = some w → w.isSpaced = true) ∧ AreNodes (takeLongest p vs).2 := by
  unfold takeLongest
  split
  · next k _ =>
    refine ⟨?_,h.mono (List.drop_subset k vs)⟩
    intro w hw
    cases hw
    exact spaced_ofNodes (h.mono (List.take_subset k vs))
  · exact ⟨nofun,h⟩

theorem offset_spaces : Spaces offset.assign := by
  intro v
  have hmain : AreNodes ((((v.allSegments "/")[0]?).map flatten).getD []) := by
    cases (v.allSegments "/")[0]? with
    | none => nofun
    | some w => exact flatten_areNodes w
  obtain ⟨hposition,hafter⟩ := takeLongest_nodes (.property "offset-position") hmain
  obtain ⟨hpath,_⟩ := takeLongest_nodes (.property "offset-path") hafter
  exact .cons (spaced_getD hposition rfl) (.cons (spaced_getD hpath rfl) (.cons (spaced_get rfl 0)
    (.cons (spaced_get rfl 1) (.cons ((allSegments_spaced v "/").presentOr rfl 1) .nil))))

theorem timelineLayer_spaces : Spaces fun layer : Value =>
    #v[layer.nodeOr 0 (ident "none"),layer.nodeOr 1 (ident "block")] := fun _ =>
  .cons (spaced_nodeOr rfl 0) (.cons (spaced_nodeOr rfl 1) .nil)

theorem viewTimelineLayer_spaces : Spaces viewTimelineLayer := fun _ =>
  .cons (spaced_nodeOr rfl 0) (.cons (spaced_get rfl 0) (.cons (spaced_get rfl 1) .nil))

/-! ## Backgrounds and masks -/

theorem positionPart_spaced {o : Option Value} {i : Nat} {w : Value} (h : positionPart o i = some w) :
    w.isSpaced = true := by
  obtain ⟨x,_,hw⟩ := Option.bind_eq_some_iff.1 h
  exact segments_spaced x "/" w (List.mem_of_getElem? hw)

theorem spaced_or {tests : List (List Value → Bool)} {v d : Value} {i : Nat} {o : Option Value}
    (ho : ∀ w, o = some w → w.isSpaced = true) (hd : d.isSpaced = true) :
    ((((v.shareBy tests).get? i).or o).getD d).isSpaced = true := by
  refine spaced_getD ?_ hd
  intro w hw
  rcases Option.or_eq_some_iff.1 hw with hw | ⟨_,hw⟩
  · exact spaced_share hw
  · exact ho w hw

theorem maskLayer_spaces : Spaces maskLayer := fun _ =>
  .cons (spaced_get rfl 0) (.cons (spaced_getD (fun _ => positionPart_spaced) rfl)
    (.cons (spaced_getD (fun _ => positionPart_spaced) rfl) (.cons (spaced_get rfl 2)
    (.cons (spaced_get rfl 3)
    (.cons (spaced_or (fun _ hw => spaced_share (Option.filter_eq_some_iff.1 hw).1) rfl)
    (.cons (spaced_get rfl 5) (.cons (spaced_get rfl 6) .nil)))))))

theorem positionAxes_spaces : Spaces positionAxes := by
  intro v
  have hnodes := allSpaced_flatten v
  unfold positionAxes
  split
  · exact .cons rfl (.cons rfl .nil)
  · next a hv =>
    have ha := hnodes a (by simp [hv])
    split
    · exact .cons rfl (.cons ha .nil)
    · exact .cons ha (.cons rfl .nil)
  · next a b hv =>
    have ha := hnodes a (by simp [hv])
    have hb := hnodes b (by simp [hv])
    split
    · exact .cons hb (.cons ha .nil)
    · exact .cons ha (.cons hb .nil)
  · exact axisFields.spaced (by simp [axisFields,defaults,defaultNames]) v

theorem backgroundLayer_spaces : Spaces backgroundLayer := by
  intro v
  have haxes : AllSpaced (((positionPart ((backgroundShares v).get? 1) 0).map positionAxes).getD
      #v[zeroPercent,zeroPercent]).toList := by
    cases positionPart ((backgroundShares v).get? 1) 0 with
    | none => exact .cons rfl (.cons rfl .nil)
    | some w => exact positionAxes_spaces w
  exact .cons (spaced_get rfl 0) (.cons (haxes _ (by simp)) (.cons (haxes _ (by simp))
    (.cons (spaced_getD (fun _ => positionPart_spaced) rfl) (.cons (spaced_get rfl 2)
    (.cons (spaced_get rfl 3) (.cons (spaced_get rfl 4)
    (.cons (spaced_or (fun _ hw => spaced_share hw) rfl) .nil)))))))

theorem backgroundColor_spaced (v : Value) : (backgroundColor v).isSpaced = true := by
  apply spaced_getD _ rfl
  intro w hw
  obtain ⟨layer,_,hw⟩ := List.mem_filterMap.1 (List.mem_of_getLast? hw)
  exact spaced_share hw

/-! ## Grids, alignment and sizes -/

theorem side_nodes (v : Value) (i : Nat) :
    AreNodes ((((v.segments "/")[i]?).map flatten).getD []) := by
  cases (v.segments "/")[i]? with
  | none => nofun
  | some w => exact flatten_areNodes w

theorem gridTemplateParts_spaces : Spaces gridTemplateParts := by
  intro v
  have hlist : ∀ p : Value → Bool,
      (if (((((v.segments "/")[0]?).map flatten).getD []).filter p).isEmpty then ident "none"
        else list (((((v.segments "/")[0]?).map flatten).getD []).filter p)).isSpaced = true := by
    intro p
    split
    · rfl
    · exact spaced_list ((side_nodes v 0).mono (List.filter_subset_self _))
  simp only [gridTemplateParts]
  split
  · exact .cons rfl (.cons rfl (.cons rfl .nil))
  · exact .cons (hlist _) (.cons ((segments_spaced v "/").getD rfl 1) (.cons (hlist _) .nil))

theorem autoFlow_spaced {vs : List Value} {axis : String} {a : AutoFlow} (hvs : AreNodes vs)
    (h : autoFlow vs axis = some a) : a.flow.isSpaced = true ∧ a.tracks.isSpaced = true := by
  unfold autoFlow at h
  split at h
  · cases h
    refine ⟨?_,spaced_ofNodesOr (hvs.mono (List.filter_subset_self vs)) rfl⟩
    dsimp only
    split <;> rfl
  · cases h

theorem grid_spaces : Spaces grid.assign := by
  intro v
  have hside : ∀ i, (ofNodesOr ((((v.segments "/")[i]?).map flatten).getD [])
      (ident "none")).isSpaced = true := fun i => spaced_ofNodesOr (side_nodes v i) rfl
  simp only [grid]
  split
  · next a _ ha =>
    obtain ⟨hflow,htracks⟩ := autoFlow_spaced (side_nodes v 0) ha
    exact .cons rfl (.cons (hside 1) (.cons rfl (.cons htracks (.cons rfl (.cons hflow .nil)))))
  · next a ha _ =>
    obtain ⟨hflow,htracks⟩ := autoFlow_spaced (side_nodes v 1) ha
    exact .cons (hside 0) (.cons rfl (.cons rfl (.cons rfl (.cons htracks (.cons hflow .nil)))))
  · rw [Vector.toList_append]
    exact (gridTemplateParts_spaces v).append (.cons rfl (.cons rfl (.cons rfl .nil)))

theorem gridLine_spaces (name : String) : Spaces (gridLine name).assign := fun v =>
  .cons ((segments_spaced v "/").presentOr rfl 0)
    (.cons ((segments_spaced v "/").presentOr rfl 1) .nil)

theorem gridArea_spaces : Spaces gridArea.assign := fun v =>
  .cons ((segments_spaced v "/").presentOr rfl 0)
    (.cons ((segments_spaced v "/").presentOr rfl 1)
    (.cons ((segments_spaced v "/").presentOr rfl 2)
    (.cons ((segments_spaced v "/").presentOr rfl 3) .nil)))

theorem place_spaces (kind : String) (baselineToStart : Bool) :
    Spaces (place kind baselineToStart).assign := by
  intro v
  have hspan : ∀ vs : List Value, vs ⊆ v.flatten → (ofNodes vs).isSpaced = true :=
    fun _ h => spaced_ofNodes ((flatten_areNodes v).mono h)
  refine .cons (hspan _ (List.take_subset _ _)) (.cons ?_ .nil)
  split
  · exact hspan _ (List.drop_subset _ _)
  · split
    · rfl
    · exact hspan _ (List.take_subset _ _)

theorem container_spaces : Spaces container.assign := fun v =>
  .cons ((allSegments_spaced v "/").presentOr rfl 0)
    (.cons ((allSegments_spaced v "/").presentOr rfl 1) .nil)

theorem sizeGroups_spaced {vs : List Value} (h : AreNodes vs) : AllSpaced (sizeGroups vs) := by
  induction vs using sizeGroups.induct with
  | case1 => exact .nil
  | case2 v => exact .cons (isSpaced_of_node (h v List.mem_cons_self)).1 .nil
  | case3 v w vs hv ih =>
    rw [sizeGroups,if_pos hv]
    have hpair : AreNodes [v,w] := h.mono (by simp)
    exact .cons (spaced_list hpair) (ih (h.mono fun x hx => by simp [hx]))
  | case4 v w vs hv ih =>
    rw [sizeGroups,if_neg hv]
    exact .cons (isSpaced_of_node (h v List.mem_cons_self)).1 (ih (h.mono (List.subset_cons_self _ _)))

theorem containIntrinsicSize_spaces : Spaces containIntrinsicSize.assign := fun v =>
  have hgroups : AllSpaced (sizeGroups v.flatten) := sizeGroups_spaced (flatten_areNodes v)
  .cons (hgroups.getD rfl 0) (.cons (hgroups.getD (hgroups.getD rfl 0) 1) .nil)

theorem positionTry_spaces : Spaces positionTry.assign := by
  intro v
  refine .cons ?_ (.cons (spaced_ofNodesOr ?_ rfl) .nil)
  · split
    · exact (allSpaced_flatten v).getD rfl 0
    · rfl
  · split
    · exact (flatten_areNodes v).mono (List.drop_subset 1 v.flatten)
    · exact flatten_areNodes v

/-! ## All of them -/

theorem layered_spaces : ∀ c ∈ LayeredShorthand.all, Spaces c.read ∧ ∀ v, AllSpaced (c.rest v) := by
  have hnone : ∀ v : Value, AllSpaced ((fun _ => []) v) := fun _ => .nil
  simp only [LayeredShorthand.all,List.forall_mem_cons]
  refine ⟨⟨animationLayer_spaces,?_⟩,⟨backgroundLayer_spaces,?_⟩,⟨transitionLayer_spaces,hnone⟩,
    ⟨maskLayer_spaces,hnone⟩,⟨positionAxes_spaces,hnone⟩,⟨timelineLayer_spaces,hnone⟩,
    ⟨viewTimelineLayer_spaces,hnone⟩,⟨rangeLayer_spaces,hnone⟩,List.forall_mem_nil _⟩
  · exact fun _ => .cons rfl (.cons rfl (.cons rfl .nil))
  · exact fun v => .cons (backgroundColor_spaced v) .nil

theorem layered_assign_spaces {c : LayeredShorthand} (hc : c ∈ LayeredShorthand.all) :
    Spaces c.shorthand.assign := by
  obtain ⟨hread,hrest⟩ := layered_spaces c hc
  intro v
  rw [c.assigns]
  exact (hread.layered c.draws v).append (hrest v)

theorem parts_space : ∀ s ∈ partShorthands, Spaces s.assign := by
  have hreading : ∀ r ∈ readings, Spaces r.shorthand.assign := fun r hr => reading_spaces hr
  have hlayered : ∀ c ∈ LayeredShorthand.all, Spaces c.shorthand.assign :=
    fun c hc => layered_assign_spaces hc
  simp only [readings,List.forall_mem_cons] at hreading
  simp only [LayeredShorthand.all,List.forall_mem_cons] at hlayered
  obtain ⟨houtline,hflow,hcolumns,hwrap,hdecoration,hemphasis,_⟩ := hreading
  obtain ⟨hanimation,hbackground,htransition,hmask,hposition,htimeline,hview,hrange,_⟩ := hlayered
  intro s hs
  simp only [partShorthands,List.mem_cons,List.not_mem_nil,or_false] at hs
  rcases hs with rfl | rfl | rfl | rfl | rfl | rfl | rfl | rfl | rfl | rfl | rfl | rfl | rfl | rfl |
    rfl | rfl | rfl | rfl | rfl | rfl | rfl | rfl | rfl | rfl | rfl | rfl | rfl | rfl | rfl
  · exact houtline
  · exact borderRadius_spaces
  · exact borderImage_spaces
  · exact maskBorder_spaces
  · exact font_spaces
  · exact fontSynthesis_spaces
  · exact fontVariant_spaces
  · exact flex_spaces
  · exact hflow
  · exact hanimation
  · exact hrange
  · exact htransition
  · exact hmask
  · exact offset_spaces
  · exact htimeline
  · exact hview
  · exact gridTemplateParts_spaces
  · exact grid_spaces
  · exact gridLine_spaces "grid-row"
  · exact gridLine_spaces "grid-column"
  · exact gridArea_spaces
  · exact whiteSpace_spaces
  · exact hwrap
  · exact hbackground
  · exact hposition
  · exact hdecoration
  · exact hemphasis
  · exact hcolumns
  · exact listStyle_spaces

theorem last_space : ∀ s ∈ lastShorthands, Spaces s.assign := by
  have hreading : ∀ r ∈ readings, Spaces r.shorthand.assign := fun r hr => reading_spaces hr
  simp only [readings,List.forall_mem_cons] at hreading
  intro s hs
  simp only [lastShorthands,List.mem_cons,List.not_mem_nil,or_false] at hs
  rcases hs with rfl | rfl | rfl | rfl | rfl | rfl | rfl
  · exact place_spaces "content" true
  · exact place_spaces "items" false
  · exact place_spaces "self" false
  · exact container_spaces
  · exact containIntrinsicSize_spaces
  · exact hreading.2.2.2.2.2.2.1
  · exact positionTry_spaces

/-- One shorthand passes its value on as it is; the others are spaced whatever it is. -/
theorem spaced_of_mem : ∀ {s : Shorthand}, s ∈ shorthands → ∀ {v : Value}, v.isSpaced = true →
    AllSpaced (s.assign v).toList := by
  apply forall_mem_shorthands
  · exact fun _ _ v _ => boxEdges_spaces v
  · exact fun _ _ v _ => axisEdges_spaces v
  · exact fun _ _ _ v _ => axisEdges_spaces v
  · exact fun hv => .cons hv (.cons hv (.cons hv (.cons hv .nil)))
  · exact fun name v _ => line_spaces name v
  · exact fun s hs v _ => parts_space s hs v
  · exact fun s hs v _ => last_space s hs v

end Shorthand

theorem commonValue_spaced {v w : Value} (h : commonValue v.flatten = some w) :
    w.isSpaced = true := by
  unfold commonValue at h
  split at h
  · cases h
    rfl
  · split at h <;> cases h
    rfl
  · next hv =>
    split at h <;> cases h
    exact spaced_node (v := v) (by simp [hv])
  · cases h

/-- On whatever level, the expansion of a spaced value holds spaced values. -/
theorem expandWithin_spaced (n : Nat) (property : String) {v : Value} (hv : v.isSpaced = true) :
    ∀ l ∈ expandWithin n property v, l.value.isSpaced = true := by
  induction n generalizing property v with
  | zero =>
    intro l hl
    rwa [List.mem_singleton.1 hl]
  | succ n ih =>
    intro l hl
    rw [expandWithin] at hl
    split at hl
    · rwa [List.mem_singleton.1 hl]
    · next s hs =>
      split at hl
      · next w hw =>
        obtain ⟨_,_,rfl⟩ := List.mem_map.1 hl
        exact commonValue_spaced hw
      · obtain ⟨k,hk,hl⟩ := List.mem_flatMap.1 hl
        have hkv : k.value ∈ (s.assign v).toList := Shorthand.value_mem_of_mem_expand hk
        have hks := Shorthand.spaced_of_mem (List.mem_of_find?_eq_some hs) hv k.value hkv
        exact ih k.property hks l hl

/-- The longhands of a value without lists inside it are written like the lists of their nodes. -/
theorem expand_spaced (property : String) {v : Value} (hv : v.isSpaced = true) :
    ∀ l ∈ expand property v, l.value.isSpaced = true :=
  expandWithin_spaced _ property hv

end StyleExpansion
