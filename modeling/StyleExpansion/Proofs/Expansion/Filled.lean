import StyleExpansion.Proofs.Expansion.Backgrounds
import StyleExpansion.Proofs.Value.Segments

/-! # Fields are never empty

A share has a node and so has every default, whatever the layer is.
-/
namespace StyleExpansion
open Pattern Value

def AllFilled (ws : List Value) : Prop := ∀ w ∈ ws, w.flatten ≠ []

theorem AllFilled.nil : AllFilled [] := by
  intro w hw
  cases hw

theorem AllFilled.cons {w : Value} {ws : List Value} (h : w.flatten ≠ []) (hs : AllFilled ws) :
    AllFilled (w :: ws) := List.forall_mem_cons.2 ⟨h,hs⟩

def Fills {n : Nat} (read : Value → Vector Value n) : Prop :=
  ∀ layer : Value, layer.flatten ≠ [] → AllFilled (read layer).toList

theorem filled_ident (name : String) : (ident name).flatten ≠ [] := by simp [flatten]

theorem filled_getD {o : Option Value} {d : Value} (h : ∀ w, o = some w → w.flatten ≠ [])
    (hd : d.flatten ≠ []) : (o.getD d).flatten ≠ [] := by
  cases o with
  | none => exact hd
  | some w => exact h w rfl

theorem filled_share {tests : List (List Value → Bool)} {v w : Value} {i : Nat}
    (h : (v.shareBy tests).get? i = some w) : w.flatten ≠ [] := by
  obtain ⟨_,_,_,hf,_⟩ := shareBy_passes h
  exact hf

theorem filled_get {tests : List (List Value → Bool)} {v d : Value} (hd : d.flatten ≠ []) (i : Nat) :
    ((v.shareBy tests).get i d).flatten ≠ [] :=
  filled_getD (o := (v.shareBy tests).get? i) (fun _ hw => filled_share hw) hd

theorem filled_node {v w : Value} (h : w ∈ v.flatten) : w.flatten ≠ [] := by
  rw [flatten_areNodes v w h]
  exact List.cons_ne_nil _ _

theorem filled_nodeOr {v d : Value} (hd : d.flatten ≠ []) (i : Nat) : (v.nodeOr i d).flatten ≠ [] := by
  rw [nodeOr,List.getD_eq_getElem?_getD]
  exact filled_getD (fun w hw => filled_node (List.mem_of_getElem? hw)) hd

theorem filled_ofNodesOr {ws : List Value} {d : Value} (h : AreNodes ws) (hd : d.flatten ≠ []) :
    (ofNodesOr ws d).flatten ≠ [] := by
  unfold ofNodesOr
  split
  · exact hd
  · next hne =>
    rw [h.flatten_ofNodes]
    simpa using hne

theorem AllFit.filled {ps : List Pattern} {ws : List Value} (h : AllFit ps ws) : AllFilled ws := by
  induction h with
  | nil => exact .nil
  | cons hp _ ih => exact .cons hp.filled ih

theorem Fields.filled {ps : List Pattern} (fs : Fields ps) (v : Value) : AllFilled (fs.read v) := by
  intro w hw
  obtain ⟨f,hf,rfl⟩ := List.mem_map.1 hw
  exact filled_get (fs.defaults_fit.filled _ (List.mem_map_of_mem hf)) f.index

namespace Shorthand

theorem rangeLayer_fills : Fills rangeLayer := by
  intro layer h
  obtain ⟨first,rest,hv⟩ := List.exists_cons_of_ne_nil h
  have hnodes := flatten_areNodes layer
  refine .cons ?_ (.cons (filled_ofNodesOr (hnodes.mono (List.drop_subset _ _)) ?_) .nil)
  · rw [(hnodes.mono (List.take_subset _ _)).flatten_ofNodes,hv]
    cases rest with
    | nil => simp
    | cons offset rest =>
      dsimp only
      split <;> simp
  · rw [hv]
    dsimp only
    split
    · exact filled_node (v := layer) (by simp [hv])
    · exact filled_ident _

theorem viewTimelineLayer_fills : Fills viewTimelineLayer := fun _ _ =>
  .cons (filled_nodeOr (filled_ident _) 0)
    (.cons (filled_get (filled_ident _) 0) (.cons (filled_get (filled_ident _) 1) .nil))

theorem timelineLayer_fills : Fills fun layer : Value =>
    #v[layer.nodeOr 0 (ident "none"),layer.nodeOr 1 (ident "block")] := fun _ _ =>
  .cons (filled_nodeOr (filled_ident _) 0) (.cons (filled_nodeOr (filled_ident _) 1) .nil)

theorem positionPart_filled {o : Option Value} {i : Nat} {w : Value}
    (h : positionPart o i = some w) : w.flatten ≠ [] := by
  obtain ⟨x,_,hw⟩ := Option.bind_eq_some_iff.1 h
  exact (flatten_of_mem_segments (List.mem_of_getElem? hw)).1

theorem maskLayer_fills : Fills maskLayer := by
  intro layer _
  refine .cons (filled_get (filled_ident _) 0)
    (.cons (filled_getD (fun _ => positionPart_filled) (by simp [zeroPercent,flatten,flattenAll]))
    (.cons (filled_getD (fun _ => positionPart_filled) (filled_ident _))
    (.cons (filled_get (filled_ident _) 2) (.cons (filled_get (filled_ident _) 3)
    (.cons (filled_getD ?_ (filled_ident _)) (.cons (filled_get (filled_ident _) 5)
    (.cons (filled_get (filled_ident _) 6) .nil)))))))
  intro w hw
  rcases Option.or_eq_some_iff.1 hw with hw | ⟨_,hw⟩
  · exact filled_share hw
  · exact filled_share (Option.filter_eq_some_iff.1 hw).1

theorem filled_zeroPercent : zeroPercent.flatten ≠ [] := by simp [zeroPercent,flatten]

theorem positionAxes_filled (v : Value) : AllFilled (positionAxes v).toList := by
  have hnode : ∀ a ∈ v.flatten, a.flatten ≠ [] := fun _ ha => filled_node ha
  unfold positionAxes
  split
  · exact .cons filled_zeroPercent (.cons filled_zeroPercent .nil)
  · next a hv =>
    have ha := hnode a (by simp [hv])
    split
    · exact .cons (filled_ident _) (.cons ha .nil)
    · exact .cons ha (.cons (filled_ident _) .nil)
  · next a b hv =>
    have ha := hnode a (by simp [hv])
    have hb := hnode b (by simp [hv])
    split
    · exact .cons hb (.cons ha .nil)
    · exact .cons ha (.cons hb .nil)
  · exact .cons (filled_get (filled_ident _) 0) (.cons (filled_get (filled_ident _) 1) .nil)

theorem backgroundLayer_fills : Fills backgroundLayer := by
  intro layer _
  have haxes : AllFilled (((positionPart ((backgroundShares layer).get? 1) 0).map positionAxes).getD
      #v[zeroPercent,zeroPercent]).toList := by
    cases positionPart ((backgroundShares layer).get? 1) 0 with
    | none => exact .cons filled_zeroPercent (.cons filled_zeroPercent .nil)
    | some w => exact positionAxes_filled w
  refine .cons (filled_get (filled_ident _) 0)
    (.cons (haxes _ (by simp)) (.cons (haxes _ (by simp))
    (.cons (filled_getD (fun _ => positionPart_filled) (filled_ident _))
    (.cons (filled_get (filled_ident _) 2) (.cons (filled_get (filled_ident _) 3)
    (.cons (filled_get (filled_ident _) 4) (.cons (filled_getD ?_ (filled_ident _)) .nil)))))))
  intro w hw
  rcases Option.or_eq_some_iff.1 hw with hw | ⟨_,hw⟩
  · exact filled_share hw
  · exact filled_share hw

end Shorthand

end StyleExpansion
