import StyleExpansion.Proofs.Expansion.Backgrounds
import StyleExpansion.Proofs.Expansion.Slices
import StyleExpansion.Proofs.Expansion.Unlayered

/-! # Expansions are well typed

However a shorthand is written, its longhands take values that their own patterns accept. A shorthand
that gives each of its longhands such a value does so in an expansion too, on whatever level it is; and
since the names of an expansion do not depend on the value, the keywords that every property takes may
go to all of them.
-/
namespace StyleExpansion
open Pattern Value Shorthand

def WellTyped (ls : List Longhand) : Prop :=
  ∀ l ∈ ls, isValueOf l.property l.value.flatten = true

theorem isWide_of_commonValue {vs : List Value} {w : Value} (h : commonValue vs = some w) :
    w.isWide = true := by
  unfold commonValue at h
  split at h
  · cases h
    decide +kernel
  · split at h
    · cases h
      decide +kernel
    · cases h
  · split at h
    · next hw =>
      cases h
      exact hw
    · cases h
  · cases h

theorem flatten_of_isWide {w : Value} (h : w.isWide = true) : w.flatten = [w] := by
  cases w with
  | ident name => simp [flatten]
  | _ => cases h

/-- Where a property has some value, it has those that every property has. -/
theorem isValueOf_common {name : String} {vs ws : List Value} {w : Value}
    (h : isValueOf name vs = true) (hw : commonValue ws = some w) :
    isValueOf name w.flatten = true := by
  obtain ⟨p,hp,_⟩ := isValueOf_iff.1 h
  have hwide := isWide_of_commonValue hw
  exact isValueOf_iff.2 ⟨p,hp,Or.inl ⟨w,flatten_of_isWide hwide,hwide⟩⟩

theorem wellTyped_of_value {n : Nat} {property : String} {v : Value}
    (hn : named? property.toLower = none) (h : isValueOf property v.flatten = true) :
    WellTyped (expandWithin n property v) := by
  have he : expandWithin n property v = [⟨property,v⟩] := by
    cases n with
    | zero => rfl
    | succ n => rw [expandWithin,hn]
  intro l hl
  rw [he] at hl
  rw [List.mem_singleton.1 hl]
  exact h

/-- One level of expansion. The names are those of any expansion that is known to be well typed, so a
common value may go to them. -/
theorem wellTyped_succ {n : Nat} {property : String} {s : Shorthand} {v : Value} (v' : Value)
    (hn : n < depth) (hs : named? property.toLower = some s) (hset : Settled (n + 1) s.name)
    (hknown : ∀ l ∈ s.expand v', WellTyped (expandWithin n l.property l.value))
    (h : commonValue v.flatten = none →
      ∀ l ∈ s.expand v, WellTyped (expandWithin n l.property l.value)) :
    WellTyped (expandWithin (n + 1) property v) := by
  obtain ⟨hname,hsettled⟩ := named?_spec hs
  rw [← hname] at hs
  intro l hl
  rw [expandWithin,← hname,hs] at hl
  dsimp only at hl
  cases hc : commonValue v.flatten with
  | none =>
    rw [hc] at hl
    obtain ⟨k,hk,hl⟩ := List.mem_flatMap.1 hl
    exact h hc k hk l hl
  | some w =>
    rw [hc] at hl
    obtain ⟨m,hm,rfl⟩ := List.mem_map.1 hl
    have hnames := flatMap_expandWithin_property (n := n) (s := s) (v := v') fun k hk => by
      have hmem := mem_longhands_of_mem_expand hk
      exact expandWithin_property k.value (Nat.le_of_lt hn) (hsettled.longhands _ hmem)
        (hset.of_mem hs hmem)
    rw [hset.stable hn,longhandsWithin,hs] at hm
    dsimp only at hm
    rw [← hnames] at hm
    obtain ⟨k,hk,rfl⟩ := List.mem_map.1 hm
    obtain ⟨j,hj,hk⟩ := List.mem_flatMap.1 hk
    exact isValueOf_common (hknown j hj k hk) hc

/-- A shorthand that sets no other one, on whatever level. -/
theorem wellTyped_leaf {n : Nat} {property : String} {s : Shorthand} {v : Value} (v' : Value)
    (hn : n < depth) (hs : named? property.toLower = some s) (hleaf : s.name ∉ branchNames)
    (hknown : s.Typed v') (h : commonValue v.flatten = none → s.Typed v) :
    WellTyped (expandWithin (n + 1) property v) := by
  have hset := (named?_spec hs).2
  have hnone := hset.leaf hleaf
  have hexpand : ∀ {u : Value}, s.Typed u →
      ∀ l ∈ s.expand u, WellTyped (expandWithin n l.property l.value) := by
    intro u hu l hl
    have hm := mem_longhands_of_mem_expand hl
    refine wellTyped_of_value ?_ (hu.mem hl)
    rw [hset.longhands _ hm]
    exact hnone _ hm
  refine wellTyped_succ v' hn hs ?_ (hexpand hknown) fun hc => hexpand (h hc)
  intro l hl
  obtain ⟨hname,_⟩ := named?_spec hs
  rw [longhandsWithin,hname,hs] at hl
  obtain ⟨m,hm,hl⟩ := List.mem_flatMap.1 hl
  rw [longhandsWithin_of_none (hnone m hm),List.mem_singleton] at hl
  rw [hl]
  exact hnone m hm

/-! ## Lines on an axis -/

def axisKinds : List (String × Pattern) :=
  [("width",.type "line-width"),("style",.type "line-style"),("color",.type "color")]

theorem axisKinds_checked : ∀ axis ∈ ["inline","block"],
    (line ("border-" ++ axis)).longhands =
      axisKinds.map (fun k => (borderAxisFamily axis k.1).name) ∧
    ∀ k ∈ axisKinds, k.2.isSingle 12 = true ∧ (borderAxisFamily axis k.1).name ∉ branchNames ∧
      AllCovered [k.2,k.2] ((borderAxisFamily axis k.1).longhands.map property) := by
  decide +kernel

theorem borderAxis_listed : ∀ axis ∈ ["inline","block"], ∀ k ∈ axisKinds,
    borderAxisFamily axis k.1 ∈ shorthands := by
  simp [axisKinds,shorthands,axisShorthands]

/-- A single node that fits the kind goes to both edges. -/
theorem borderAxis_wellTyped {axis : String} (ha : axis ∈ ["inline","block"])
    {k : String × Pattern} (hk : k ∈ axisKinds) {w : Value} (hw : k.2.Fits w.flatten) :
    WellTyped (expandWithin 8 (borderAxisFamily axis k.1).name w) := by
  have hs := borderAxis_listed axis ha k hk
  obtain ⟨hsingle,hleaf,hcover⟩ := (axisKinds_checked axis ha).2 k hk
  have htyped : (borderAxisFamily axis k.1).Typed w := axis_typed hs rfl hsingle hcover hw
  refine wellTyped_leaf w (by decide) ?_ hleaf htyped fun _ => htyped
  rw [(isSettled_of_mem hs).name]
  exact named?_of_mem hs

theorem axisLine_wellTyped (axis : String) (ha : axis ∈ ["inline","block"]) {v : Value}
    (hv : Plain v.flatten) : ∀ l ∈ (line ("border-" ++ axis)).expand v,
      WellTyped (expandWithin 8 l.property l.value) := by
  have hfit := line_fits ("border-" ++ axis) hv
  intro l hl
  rw [Shorthand.expand] at hl
  generalize ((line ("border-" ++ axis)).assign v).toList = ws at hfit hl
  rw [(axisKinds_checked axis ha).1] at hl
  cases hfit with
  | cons hwidth hfit =>
    cases hfit with
    | cons hstyle hfit =>
      cases hfit with
      | cons hcolor hfit =>
        cases hfit
        simp only [axisKinds,List.map_cons,List.map_nil,List.zipWith_cons_cons,List.zipWith_nil_left,
          List.mem_cons,List.not_mem_nil,or_false] at hl
        rcases hl with rfl | rfl | rfl
        · exact borderAxis_wellTyped ha (k := ("width",.type "line-width")) (by simp [axisKinds]) hwidth
        · exact borderAxis_wellTyped ha (k := ("style",.type "line-style")) (by simp [axisKinds]) hstyle
        · exact borderAxis_wellTyped ha (k := ("color",.type "color")) (by simp [axisKinds]) hcolor

/-! ## All of them -/

/-- The shorthands whose longhands always are values of their properties. -/
def typedNames : List String :=
  ["border","border-top","border-right","border-bottom","border-left","border-inline","border-block",
   "border-inline-start","border-inline-end","border-block-start","border-block-end","column-rule",
   "outline","border-image","mask-border","font-synthesis","font-variant","flex","flex-flow",
   "animation","transition","mask","white-space","text-wrap","background","text-decoration",
   "text-emphasis","columns","list-style","caret"]

def layeredNames : List String := ["animation","transition","mask","background"]

def leaves : List Shorthand :=
  readings.map Reading.shorthand ++ edgeLineNames.map line ++
    [listStyle,flex,fontVariant,fontSynthesis,whiteSpace,borderImage,maskBorder]

def layeredLeaves : List Shorthand := [animation,transition,mask,background]

theorem leaf_typed {s : Shorthand} (hs : s ∈ leaves) {v : Value} (hv : Plain v.flatten) :
    s.Typed v := by
  rcases List.mem_append.1 hs with hs | hs
  · rcases List.mem_append.1 hs with hs | hs
    · obtain ⟨r,hr,rfl⟩ := List.mem_map.1 hs
      exact reading_typed hr hv
    · obtain ⟨name,hn,rfl⟩ := List.mem_map.1 hs
      exact edgeLine_typed hn hv
  · simp only [List.mem_cons,List.not_mem_nil,or_false] at hs
    rcases hs with rfl | rfl | rfl | rfl | rfl | rfl | rfl
    · exact listStyle_typed hv
    · exact flex_typed hv
    · exact fontVariant_typed hv
    · exact fontSynthesis_typed v
    · exact whiteSpace_typed v
    · exact borderImage_typed hv
    · exact maskBorder_typed hv

theorem layeredLeaf_typed {s : Shorthand} (hs : s ∈ layeredLeaves) {v : Value}
    (hv : Plain v.flatten) (hl : ∃ n ∈ v.flatten, n.isOperator "," = false) : s.Typed v := by
  simp only [layeredLeaves,List.mem_cons,List.not_mem_nil,or_false] at hs
  rcases hs with rfl | rfl | rfl | rfl
  · exact animation_typed hv hl
  · exact transition_typed hv hl
  · exact mask_typed hv hl
  · exact background_typed hv hl

theorem leaves_listed : ∀ s ∈ leaves ++ layeredLeaves, s ∈ shorthands := by
  simp [leaves,layeredLeaves,readings,edgeLineNames,shorthands,lines]

theorem typedNames_checked :
    (∀ name ∈ typedNames, name ∈ branchNames ∨ (∃ s ∈ leaves, s.name = name) ∨
      name ∈ layeredNames ∧ ∃ s ∈ layeredLeaves, s.name = name) ∧
    ∀ s ∈ leaves ++ layeredLeaves, s.name ∉ branchNames := by
  decide +kernel

theorem plain_none : Plain (flatten (ident "none")) := by
  intro v hv
  rw [List.mem_singleton.1 hv]
  rfl

theorem branch_wellTyped {property : String} (h : property.toLower ∈ branchNames) {v : Value}
    (hv : Plain v.flatten) : WellTyped (expandWithin 9 property v) := by
  have hsucc : ∀ {s : Shorthand}, s ∈ shorthands → s.name = property.toLower →
      (∀ l ∈ s.expand v, WellTyped (expandWithin 8 l.property l.value)) →
      WellTyped (expandWithin 9 property v) := by
    intro s hs hname hall
    have hsettled := (isSettled_of_mem hs).settled.mono (m := 9) (by decide)
    exact wellTyped_succ v (by decide) (hname ▸ named?_of_mem hs) hsettled hall fun _ => hall
  simp only [branchNames,List.mem_cons,List.not_mem_nil,or_false] at h
  rcases h with h | h | h
  · apply hsucc (s := border) (by simp [shorthands]) h.symm
    intro l hl
    have hmem : ∃ name ∈ edgeLineNames.take 4, l = ⟨name,v⟩ := by
      simpa [border,Shorthand.expand,edgeLineNames] using hl
    obtain ⟨name,hn,rfl⟩ := hmem
    have hn := List.mem_of_mem_take hn
    have hs := edgeLines_listed name hn
    have hleaf : line name ∈ leaves :=
      List.mem_append_left _ (List.mem_append_right _ (List.mem_map_of_mem hn))
    have htyped := edgeLine_typed hn hv
    refine wellTyped_leaf v (by decide) ?_ ?_ htyped fun _ => htyped
    · have hlower : name.toLower = name := (isSettled_of_mem hs).name
      exact hlower.symm ▸ named?_of_mem hs
    · exact typedNames_checked.2 _ (List.mem_append_left _ hleaf)
  · exact hsucc (by simp [shorthands,lines]) h.symm (axisLine_wellTyped "inline" (by simp) hv)
  · exact hsucc (by simp [shorthands,lines]) h.symm (axisLine_wellTyped "block" (by simp) hv)

/-- Every longhand in the expansion of these shorthands, in any letter case, has a value of its property,
however malformed the value of the shorthand is, as long as no substitution stands in it, and those that
are read in layers have no value or one that is not only commas. -/
theorem expand_typed {property : String} (hp : property.toLower ∈ typedNames) {v : Value}
    (hv : ∀ n ∈ v.flatten, n.isSubstitution = false)
    (hl : property.toLower ∈ layeredNames →
      v.flatten = [] ∨ ∃ n ∈ v.flatten, n.isOperator "," = false) :
    ∀ l ∈ expand property v, isValueOf l.property l.value.flatten = true := by
  rcases typedNames_checked.1 _ hp with hb | ⟨s,hs,hname⟩ | ⟨hlayered,s,hs,hname⟩
  · exact branch_wellTyped hb hv
  · have hmem := List.mem_append_left layeredLeaves hs
    have htyped := leaf_typed hs hv
    exact wellTyped_leaf v (by decide) (hname ▸ named?_of_mem (leaves_listed s hmem))
      (typedNames_checked.2 s hmem) htyped fun _ => htyped
  · have hmem := List.mem_append_right leaves hs
    have hnone : s.Typed (ident "none") := layeredLeaf_typed hs plain_none
      ⟨ident "none",by simp [flatten],rfl⟩
    refine wellTyped_leaf (ident "none") (by decide) (hname ▸ named?_of_mem (leaves_listed s hmem))
      (typedNames_checked.2 s hmem) hnone ?_
    intro hc
    rcases hl hlayered with hempty | hnode
    · rw [hempty] at hc
      cases hc
    · exact layeredLeaf_typed hs hv hnode

/-- A malformed background: a layer with one slash too many, and a layer that is no background. -/
theorem expand_typed_background : "Background".toLower ∈ typedNames ∧
    ∀ l ∈ expand "Background" (list [ident "top",operator "/",ident "auto",operator "/",
      operator ",",string "no background"]), isValueOf l.property l.value.flatten = true := by
  have hp : "Background".toLower ∈ typedNames := by decide +kernel
  refine ⟨hp,expand_typed hp ?_ ?_⟩
  · decide +kernel
  · intro _
    exact Or.inr ⟨ident "top",by simp [flatten,flattenAll],rfl⟩

end StyleExpansion
