import StyleExpansion.Proofs.Expansion.Filled
import StyleExpansion.Proofs.Expansion.Literals

/-! # Layers between commas

Several shorthands read their value layer by layer. As no field of a layer is empty or holds a comma,
the layers of every longhand stay apart and in step: a longhand of two values with a comma between them
is what it is for each of the two, with a comma between.
-/
namespace StyleExpansion
open Pattern Value

/-- The value that a property has among longhands. -/
def valueOf? (ls : List Longhand) (name : String) : Option Value :=
  (ls.find? fun l => l.property == name).map Longhand.value

theorem valueOf?_zipWith {names : List String} {vs : List Value} (hd : names.Nodup) {i : Nat}
    {name : String} {w : Value} (hn : names[i]? = some name) (hw : vs[i]? = some w) :
    valueOf? (names.zipWith Longhand.mk vs) name = some w := by
  induction names generalizing vs i with
  | nil => cases hn
  | cons first rest ih =>
    cases vs with
    | nil => cases hw
    | cons v vs =>
      obtain ⟨hfirst,hrest⟩ := List.nodup_cons.1 hd
      cases i with
      | zero =>
        cases hn
        cases hw
        simp [valueOf?]
      | succ i =>
        have hne : first ≠ name := by
          rintro rfl
          exact hfirst (List.mem_of_getElem? hn)
        rw [List.zipWith_cons_cons,valueOf?,List.find?_cons_of_neg (by simpa using hne)]
        exact ih hrest hn hw

/-! ## Leaves of the table -/

section Leaf
variable {s : Shorthand} (hs : s ∈ shorthands) (hleaf : s.name ∉ Shorthand.branchNames)
  {property : String} (hp : property.toLower = s.name)
include hs hleaf hp

omit hp in
theorem longhandsWithin_leaf (n : Nat) : Shorthand.longhandsWithin (n + 1) s.name = s.longhands := by
  rw [Shorthand.longhandsWithin,Shorthand.named?_of_mem hs]
  exact Shorthand.flatMap_longhandsWithin_of_none ((Shorthand.isSettled_of_mem hs).leaf hleaf) n

theorem longhandsOf_leaf : longhandsOf property = some s.longhands ∧ s.longhands.Nodup := by
  constructor
  · rw [longhandsOf,isShorthand,hp,Shorthand.named?_of_mem hs]
    exact congrArg some (longhandsWithin_leaf hs hleaf 8)
  · rw [← longhandsWithin_leaf hs hleaf 1]
    exact (Shorthand.isSettled_of_mem hs).once

/-- A value that is read at all goes through one level of shorthands. -/
theorem expandWithin_leaf {v : Value} (hv : commonValue v.flatten = none) (n : Nat) :
    expandWithin (n + 1) property v = s.expand v := by
  have hset := Shorthand.isSettled_of_mem hs
  rw [expandWithin,hp,Shorthand.named?_of_mem hs]
  simp only [hv]
  have hone : ∀ l ∈ s.expand v, expandWithin n l.property l.value = [l] := by
    intro l hl
    have hm := mem_longhands_of_mem_expand hl
    cases n with
    | zero => rfl
    | succ n => rw [expandWithin,hset.longhands _ hm,hset.leaf hleaf _ hm]
  rw [List.flatMap_congr hone]
  exact List.flatMap_singleton' _

theorem expand_leaf {v : Value} (hv : commonValue v.flatten = none) :
    expand property v = s.expand v := expandWithin_leaf hs hleaf hp hv 8

theorem valueOf?_leaf {v : Value} (hv : commonValue v.flatten = none) {i : Nat} {name : String}
    {w : Value} (hn : s.longhands[i]? = some name) (hw : (s.assign v).toList[i]? = some w) :
    valueOf? (expand property v) name = some w := by
  rw [expand_leaf hs hleaf hp hv]
  exact valueOf?_zipWith (longhandsOf_leaf hs hleaf hp).2 hn hw

theorem valueOf?_common {v w : Value} (hv : commonValue v.flatten = some w) {name : String}
    (hn : name ∈ s.longhands) : valueOf? (expand property v) name = some w := by
  have hshort : isShorthand property = true := by
    rw [isShorthand,hp,Shorthand.named?_of_mem hs]
    rfl
  have hnames : (expand property v).map Longhand.property = s.longhands := by
    have h := (expand_expands hshort v).names
    rw [(longhandsOf_leaf hs hleaf hp).1] at h
    exact (Option.some.inj h).symm
  rw [← hnames] at hn
  obtain ⟨l,hl,rfl⟩ := List.mem_map.1 hn
  obtain ⟨k,hk⟩ := Option.isSome_iff_exists.1
    (List.find?_isSome (p := fun k : Longhand => k.property == l.property).2 ⟨l,hl,by simp⟩)
  rw [valueOf?,hk,Option.map_some,
    value_of_commonValue hshort hv (List.mem_of_find?_eq_some hk)]

end Leaf

/-! ## Layers -/

theorem commonValue_of_read {vs : List Value} (hnodes : vs ≠ []) (hwritten : vs ≠ [string ""])
    (hnarrow : ∀ n, vs = [n] → n.isWide = false) : commonValue vs = none := by
  unfold commonValue
  split
  · exact absurd rfl hnodes
  · next text =>
    rw [if_neg]
    intro he
    rw [String.isEmpty_iff] at he
    exact hwritten (by rw [he])
  · next n _ => rw [if_neg (by simp [hnarrow n rfl])]
  · rfl

/-- The value is read in layers: one of its nodes is no comma, and it is none of the values that go to
all longhands unread. -/
structure IsLayered (v : Value) : Prop where
  node : ∃ n ∈ v.flatten, n.isOperator "," = false
  narrow : ∀ n, v.flatten = [n] → n.isWide = false
  written : v.flatten ≠ [string ""]

namespace IsLayered

theorem commonValue {v : Value} (h : IsLayered v) : commonValue v.flatten = none := by
  obtain ⟨n,hn,_⟩ := h.node
  exact commonValue_of_read (List.ne_nil_of_mem hn) h.written h.narrow

/-- One node shows it that is no comma, no empty text and no keyword that every property takes. -/
theorem of_mem {v n : Value} (hn : n ∈ v.flatten) (hcomma : n.isOperator "," = false)
    (hwide : n.isWide = false) (htext : n ≠ string "") : IsLayered v := by
  refine ⟨⟨n,hn,hcomma⟩,fun w hw => ?_,fun hw => ?_⟩
  · rw [hw,List.mem_singleton] at hn
    exact hn ▸ hwide
  · rw [hw,List.mem_singleton] at hn
    exact htext hn

/-- Two values with a comma between them make more than one node. -/
theorem append {a b v : Value} (ha : IsLayered a) (hb : IsLayered b)
    (h : v.flatten = a.flatten ++ operator "," :: b.flatten) : IsLayered v := by
  obtain ⟨n,hn,hno⟩ := ha.node
  obtain ⟨m,hm,_⟩ := hb.node
  have hlen : 2 < v.flatten.length := by
    rw [h,List.length_append,List.length_cons]
    have := List.length_pos_of_mem hn
    have := List.length_pos_of_mem hm
    omega
  refine ⟨⟨n,by rw [h]; exact List.mem_append_left _ hn,hno⟩,?_,?_⟩
  · intro w hw
    rw [hw] at hlen
    simp at hlen
  · intro hw
    rw [hw] at hlen
    simp at hlen

end IsLayered

theorem defaults_free : ∀ d ∈ defaults, d.isOperator "," = false := by decide +kernel

structure LayeredShorthand where
  shorthand : Shorthand
  size : Nat
  read : Value → Vector Value size
  rest : Value → List Value
  assigns : ∀ v, (shorthand.assign v).toList = (v.layered read).toList ++ rest v
  draws : Draws defaults read
  fills : Fills read

namespace LayeredShorthand

def whole (s : Shorthand) {read : Value → Vector Value s.longhands.length}
    (assigns : ∀ v, s.assign v = v.layered read) (draws : Draws defaults read)
    (fills : Fills read) : LayeredShorthand where
  shorthand := s
  size := s.longhands.length
  read := read
  rest := fun _ => []
  assigns := fun v => by rw [assigns,List.append_nil]
  draws := draws
  fills := fills

/-- The timeline and the range of an animation, with the values that reset them. -/
def animationResets : List Longhand :=
  [⟨"animation-timeline",ident "auto"⟩,⟨"animation-range-start",ident "normal"⟩,
   ⟨"animation-range-end",ident "normal"⟩]

def animation : LayeredShorthand where
  shorthand := Shorthand.animation
  size := 8
  read := Shorthand.animationLayer
  rest := fun _ => animationResets.map Longhand.value
  assigns := fun _ => Vector.toList_append
  draws := Shorthand.animationLayer_draws
  fills := fun layer _ => Shorthand.animationFields.filled layer

def background : LayeredShorthand where
  shorthand := Shorthand.background
  size := 8
  read := Shorthand.backgroundLayer
  rest := fun v => [Shorthand.backgroundColor v]
  assigns := fun _ => Vector.toList_append
  draws := Shorthand.backgroundLayer_draws
  fills := Shorthand.backgroundLayer_fills

def transition : LayeredShorthand :=
  whole Shorthand.transition (fun _ => rfl) Shorthand.transitionLayer_draws
    fun layer _ => Shorthand.transitionFields.filled layer

def position : LayeredShorthand :=
  whole Shorthand.backgroundPosition (fun _ => rfl) Shorthand.positionAxes_draws
    fun layer _ => Shorthand.positionAxes_filled layer

def all : List LayeredShorthand :=
  [animation,background,transition,
   whole Shorthand.mask (fun _ => rfl) Shorthand.maskLayer_draws Shorthand.maskLayer_fills,position,
   whole Shorthand.scrollTimeline (fun _ => rfl) Shorthand.timelineLayer_draws
    Shorthand.timelineLayer_fills,
   whole Shorthand.viewTimeline (fun _ => rfl) Shorthand.viewTimelineLayer_draws
    Shorthand.viewTimelineLayer_fills,
   whole Shorthand.animationRange (fun _ => rfl) Shorthand.rangeLayer_draws
    Shorthand.rangeLayer_fills]

def separateNames (name : String) : List String :=
  if name = "animation" then animationResets.map Longhand.property
  else if name = "background" then ["background-color"]
  else []

def names : List String :=
  ["animation","background","transition","mask","background-position","scroll-timeline",
   "view-timeline","animation-range"]

theorem all_checked :
    (∀ name ∈ names, ∃ c ∈ all, c.shorthand.name = name) ∧
    ∀ c ∈ all, c.shorthand.name ∉ Shorthand.branchNames ∧
      c.shorthand.longhands.filter (fun l => !(separateNames c.shorthand.name).contains l) =
        c.shorthand.longhands.take c.size := by
  decide +kernel

theorem listed_of_mem {c : LayeredShorthand} (h : c ∈ all) : c.shorthand ∈ shorthands := by
  simp only [all,List.mem_cons,List.not_mem_nil,or_false] at h
  rcases h with rfl | rfl | rfl | rfl | rfl | rfl | rfl | rfl <;>
    simp [animation,background,transition,position,whole,shorthands]

section Column
variable (c : LayeredShorthand)

/-- A field of all layers, with commas between the layers. -/
def column (i : Fin c.size) (v : Value) : Value := join "," (v.layers.map fun layer => (c.read layer)[i])

theorem assign_getElem? (i : Fin c.size) (v : Value) :
    (c.shorthand.assign v).toList[i.val]? = some (c.column i v) := by
  rw [c.assigns,List.getElem?_append_left (by simp),List.getElem?_eq_getElem (by simp)]
  simp [layered,column,Function.comp_def]

theorem filled_of_mem_layers {v layer : Value} (h : layer ∈ v.layers) (i : Fin c.size) :
    ((c.read layer)[i]).flatten ≠ [] :=
  c.fills layer (flatten_of_mem_segments h).1 _ (Vector.mem_toList_iff.2 (Vector.getElem_mem _))

theorem free_of_mem_layers {v layer : Value} (h : layer ∈ v.layers) (i : Fin c.size) :
    ∀ n ∈ ((c.read layer)[i]).flatten, n.isOperator "," = false := by
  intro n hn
  have hdrawn := c.draws layer _ (Vector.mem_toList_iff.2 (Vector.getElem_mem i.isLt)) n hn
  rcases hdrawn with hm | hm
  · exact free_of_mem_segments h n hm
  · exact defaults_free n hm

/-- Entry after entry, a column has the field of one layer. -/
theorem runs_column {v : Value} (hv : v.layers ≠ []) (i : Fin c.size) :
    runs "," (c.column i v).flatten = v.layers.map fun layer => ((c.read layer)[i]).flatten := by
  rw [column,runs_join (by simpa using hv),List.map_map]
  · rfl
  · intro w hw
    obtain ⟨layer,hl,rfl⟩ := List.mem_map.1 hw
    exact c.free_of_mem_layers hl i

theorem flatten_column_append {a b v : Value} (ha : a.layers ≠ []) (hb : b.layers ≠ [])
    (h : v.flatten = a.flatten ++ operator "," :: b.flatten) (i : Fin c.size) :
    (c.column i v).flatten =
      (c.column i a).flatten ++ operator "," :: (c.column i b).flatten := by
  have hlayers : v.layers = a.layers ++ b.layers := segments_append h
  rw [column,hlayers,List.map_append,flatten_join_append (by simpa using ha) (by simpa using hb)]
  rfl

end Column

end LayeredShorthand

open LayeredShorthand

/-- The longhands of a property that are fields of its layers. -/
def layeredLonghands (property : String) : List String :=
  ((longhandsOf property).getD []).filter fun l => !(separateNames property.toLower).contains l

/-- A field of all layers is the value of its longhand, one entry for each layer. -/
theorem valueOf?_column {property name : String} {c : LayeredShorthand} (hc : c ∈ all)
    (hp : property.toLower = c.shorthand.name) (i : Fin c.size)
    (hn : c.shorthand.longhands[i.val]? = some name) {v : Value} (hv : IsLayered v) :
    valueOf? (expand property v) name = some (c.column i v) ∧
      runs "," (c.column i v).flatten = v.layers.map fun layer => ((c.read layer)[i]).flatten :=
  ⟨valueOf?_leaf (listed_of_mem hc) (all_checked.2 c hc).1 hp hv.commonValue hn (c.assign_getElem? i v),
    c.runs_column (Shorthand.layers_ne_nil hv.node) i⟩

/-- A longhand in layers is one column of its shorthand, for every value that is read in layers. -/
theorem exists_column {property name : String} {c : LayeredShorthand} (hc : c ∈ all)
    (hp : property.toLower = c.shorthand.name) (hn : name ∈ layeredLonghands property) :
    ∃ i : Fin c.size, ∀ v, IsLayered v → valueOf? (expand property v) name = some (c.column i v) := by
  obtain ⟨hleaf,htake⟩ := all_checked.2 c hc
  rw [layeredLonghands,(longhandsOf_leaf (listed_of_mem hc) hleaf hp).1,Option.getD_some,hp,htake] at hn
  obtain ⟨i,hi⟩ := List.mem_iff_getElem?.1 hn
  rw [List.getElem?_take] at hi
  split at hi
  · next hlt => exact ⟨⟨i,hlt⟩,fun v hv => (valueOf?_column hc hp ⟨i,hlt⟩ hi hv).1⟩
  · cases hi

/-- A longhand that is no field of the layers has a value of its own, unless the value of the shorthand
goes to all longhands. -/
theorem valueOf?_separate {property name : String} {c : LayeredShorthand} (hc : c ∈ all)
    (hp : property.toLower = c.shorthand.name) {i : Nat} {v w : Value}
    (hn : c.shorthand.longhands[c.size + i]? = some name) (hw : (c.rest v)[i]? = some w) :
    valueOf? (expand property v) name = some ((commonValue v.flatten).getD w) := by
  have hs := listed_of_mem hc
  have hleaf := (all_checked.2 c hc).1
  cases hv : commonValue v.flatten with
  | some x => exact valueOf?_common hs hleaf hp hv (List.mem_of_getElem? hn)
  | none =>
    apply valueOf?_leaf hs hleaf hp hv hn
    rw [c.assigns,List.getElem?_append_right (by simp)]
    simpa using hw

/-- The color that a layer of a background claims. -/
def claimedColor (layer : Value) : Option Value := (Shorthand.backgroundShares layer).get? 6

/-- What a layer claims is one of its nodes, a color or a substitution. -/
theorem claimedColor_spec {layer w : Value} (h : claimedColor layer = some w) :
    w ∈ layer.flatten ∧ (w.isColor = true ∨ w.isSubstitution = true) := by
  obtain ⟨test,span,ht,hpass,_,hsub,rfl⟩ := (shareBy_spans _ layer).found 6 w h
  cases ht
  have hd : (Pattern.type "color").Derives span 0 span.length :=
    mem_ends_derives (accepts_iff_mem_ends.1 hpass)
  have htype : Value.basicTypes.lookup "color" = some isColor := rfl
  obtain ⟨hlen,n,hn,hcolor⟩ := hd.one_of_basicType (by decide) htype
  obtain ⟨m,rfl⟩ := List.length_eq_one_iff.1 hlen
  cases hn
  exact ⟨hsub List.mem_cons_self,hcolor⟩

/-- Every longhand in layers is, for two values with a comma between them, what it is for each of them,
with a comma between; it has one entry for each layer, that of the layer alone. Of an animation the rest
is reset, and the color of a background is the last one that a layer claims, unless the value goes to all
longhands unread. -/
theorem expand_layered {property : String} (h : property.toLower ∈ names) :
    (∀ a b v : Value, IsLayered a → IsLayered b →
      v.flatten = a.flatten ++ operator "," :: b.flatten → ∀ name ∈ layeredLonghands property,
      ∃ x y z, valueOf? (expand property a) name = some x ∧
        valueOf? (expand property b) name = some y ∧ valueOf? (expand property v) name = some z ∧
        z.flatten = x.flatten ++ operator "," :: y.flatten) ∧
    (∀ name ∈ layeredLonghands property, ∃ entry : Value → List Value, ∀ v : Value, IsLayered v →
      ∃ w, valueOf? (expand property v) name = some w ∧
        runs "," w.flatten = v.layers.map entry ∧ ∀ layer ∈ v.layers, entry layer ≠ []) ∧
    (property.toLower = "animation" → ∀ v : Value, ∀ r ∈ animationResets,
      valueOf? (expand property v) r.property = some ((commonValue v.flatten).getD r.value)) ∧
    (property.toLower = "background" → ∀ v : Value,
      valueOf? (expand property v) "background-color" = some ((commonValue v.flatten).getD
        ((v.layers.filterMap claimedColor).getLast?.getD (ident "transparent"))) ∧
      ∀ layer ∈ v.layers, ∀ w, claimedColor layer = some w →
        w ∈ layer.flatten ∧ (w.isColor = true ∨ w.isSubstitution = true)) := by
  obtain ⟨c,hc,hname⟩ := all_checked.1 _ h
  refine ⟨?_,?_,?_,?_⟩
  · intro a b v ha hb hv name hn
    obtain ⟨i,hi⟩ := exists_column hc hname.symm hn
    refine ⟨_,_,_,hi a ha,hi b hb,hi v (ha.append hb hv),?_⟩
    exact c.flatten_column_append (Shorthand.layers_ne_nil ha.node) (Shorthand.layers_ne_nil hb.node)
      hv i
  · intro name hn
    obtain ⟨i,hi⟩ := exists_column hc hname.symm hn
    refine ⟨fun layer => ((c.read layer)[i]).flatten,?_⟩
    intro v hv
    refine ⟨_,hi v hv,c.runs_column (Shorthand.layers_ne_nil hv.node) i,?_⟩
    exact fun layer hl => c.filled_of_mem_layers hl i
  · intro hp v r hr
    have hmem : animation ∈ all := List.mem_cons_self
    obtain ⟨i,hi⟩ := List.mem_iff_getElem?.1 hr
    have hnames : Shorthand.animation.longhands.drop 8 = animationResets.map Longhand.property := rfl
    apply valueOf?_separate hmem hp (i := i)
    · have := congrArg (fun names => names[i]?) hnames
      simpa [animation,hi] using this
    · simp [animation,hi]
  · intro hp v
    have hmem : background ∈ all := List.mem_cons_of_mem _ List.mem_cons_self
    exact ⟨valueOf?_separate hmem hp (i := 0) rfl rfl,fun layer _ w => claimedColor_spec⟩

/-- A background of two layers in mixed case, and the resets of an animation that has one of them. -/
theorem expand_layered_background :
    "Background".toLower ∈ names ∧ IsLayered (ident "red") ∧ IsLayered (url "a.png") ∧
    "background-image" ∈ layeredLonghands "Background" ∧
    (∃ x y z, valueOf? (expand "Background" (ident "red")) "background-image" = some x ∧
      valueOf? (expand "Background" (url "a.png")) "background-image" = some y ∧
      valueOf? (expand "Background" (list [ident "red",operator ",",url "a.png"]))
        "background-image" = some z ∧ z.flatten = x.flatten ++ operator "," :: y.flatten) ∧
    "animation" ∈ names ∧
    valueOf? (expand "animation" (ident "spin")) "animation-timeline" = some (ident "auto") := by
  have hback : "Background".toLower ∈ names := by decide +kernel
  have hanim : "animation".toLower ∈ names := by decide +kernel
  have hlower : "animation".toLower = "animation" := by decide +kernel
  have hname : "background-image" ∈ layeredLonghands "Background" := by decide +kernel
  have hred : IsLayered (ident "red") := by
    refine ⟨⟨_,List.mem_singleton_self _,rfl⟩,?_,by simp [flatten]⟩
    intro n hn
    cases hn
    decide +kernel
  have hurl : IsLayered (url "a.png") := by
    refine ⟨⟨_,List.mem_singleton_self _,rfl⟩,?_,by simp [flatten]⟩
    intro n hn
    cases hn
    rfl
  refine ⟨hback,hred,hurl,hname,?_,hlower ▸ hanim,?_⟩
  · exact (expand_layered hback).1 _ _ _ hred hurl (by simp [flatten,flattenAll]) _ hname
  · have hspin := (expand_layered hanim).2.2.1 hlower (ident "spin")
      ⟨"animation-timeline",ident "auto"⟩ List.mem_cons_self
    have hread : commonValue (ident "spin").flatten = none := by decide +kernel
    rwa [hread] at hspin

/-- A keyword that every property takes reaches the longhands that an animation resets otherwise. -/
theorem animation_resets_inherit : ¬∀ v : Value, ∀ r ∈ animationResets,
    valueOf? (expand "animation" v) r.property = some r.value := by
  intro h
  have hauto := h (ident "inherit") ⟨"animation-timeline",ident "auto"⟩ List.mem_cons_self
  have hinherit : valueOf? (expand "animation" (ident "inherit")) "animation-timeline" =
      some (ident "inherit") := by decide +kernel
  rw [hinherit] at hauto
  simp at hauto

end StyleExpansion
