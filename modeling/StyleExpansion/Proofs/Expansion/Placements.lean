import StyleExpansion.Proofs.Expansion.Backgrounds
import StyleExpansion.Proofs.Expansion.PositionOrder

/-! # Positions in backgrounds

A layer of a background that is a position, perhaps with a size after a slash, is one share: no image
begins as a position does, and the notation of the position and its size takes all nodes. So the position
is read as it is where it stands alone, and nothing else is set.
-/
namespace StyleExpansion.Shorthand
open Pattern Value

/-! ## The first node of a position -/

def positionWords : List String := ["left","center","right","top","bottom"]

def mayPlace (v : Value) : Bool := isAmong positionWords v || (v.isLength || v.isPercentage)

theorem mayPlace_of_isIdent {v : Value} {word : String} (hw : word ∈ positionWords)
    (h : v.isIdent word = true) : mayPlace v = true := by
  obtain ⟨name,rfl,hname⟩ := isIdent_iff.1 h
  exact Bool.or_eq_true_iff.2 (Or.inl (List.any_eq_true.2 ⟨word,hw,hname⟩))

theorem mayPlace_of_offset {names : List String} (hn : names ⊆ positionWords) {v : Value}
    (hv : v.isSubstitution = false) (h : (offsetPattern names).mayBegin 3 v = true) : mayPlace v = true := by
  obtain ⟨p,hp,hbegin⟩ := List.any_eq_true.1 h
  rcases List.mem_append.1 hp with hp | hp
  · obtain ⟨word,hw,rfl⟩ := List.mem_map.1 hp
    exact mayPlace_of_isIdent (hn hw) hbegin
  · cases List.mem_singleton.1 hp
    have htest : (v.isSubstitution || (v.isLength || v.isPercentage)) = true := hbegin
    rw [hv,Bool.false_or] at htest
    exact Bool.or_eq_true_iff.2 (Or.inr htest)

theorem mayPlace_of_edge {edges : List String} (he : edges ⊆ positionWords) {v : Value}
    (h : (edgePattern edges).mayBegin 4 v = true) : mayPlace v = true := by
  obtain ⟨p,hp,hbegin⟩ := List.any_eq_true.1 h
  rcases List.mem_cons.1 hp with rfl | hp
  · exact mayPlace_of_isIdent (by decide) hbegin
  · cases List.mem_singleton.1 hp
    obtain ⟨q,hq,hword⟩ := List.any_eq_true.1 hbegin
    obtain ⟨word,hw,rfl⟩ := List.mem_map.1 hq
    exact mayPlace_of_isIdent (he hw) hword

/-- A position begins with one of its words or an offset. -/
theorem mayPlace_of_fits {v : Value} {more : List Value} (h : (Pattern.type "bg-position").Fits (v :: more)) :
    mayPlace v = true := by
  have hv : v.isSubstitution = false := h.plain v List.mem_cons_self
  rcases bgPosition_cases h with hd | ⟨_,hd,-⟩ | ⟨_,hd,-⟩ | ⟨_,hd,-⟩
  · exact mayPlace_of_offset (by decide) hv (mayBegin_sound hd rfl)
  · exact mayPlace_of_offset (by decide) hv (mayBegin_sound hd rfl)
  · exact mayPlace_of_edge (by decide) (mayBegin_sound hd rfl)
  · exact mayPlace_of_edge (by decide) (mayBegin_sound hd rfl)

/-- What begins a position is no image, nor a keyword for the lack of one. -/
theorem not_image_of_mayPlace {v : Value} (h : mayPlace v = true) :
    v.isImage = false ∧ v.isIdent "none" = false := by
  cases v with
  | ident name =>
    have hword : Text.isOneOf positionWords name = true := by
      simpa [mayPlace,isAmong,isLength,isPercentage,hasUnit,isZero,isMath,isCallOf] using h
    have hnone : Text.isOneOf ["none"] name = false := isOneOf_disjoint (by decide +kernel) hword
    exact ⟨rfl,by simpa [Text.isOneOf,isIdent] using hnone⟩
  | function name args =>
    have hmath : Text.isOneOf mathFunctions name = true := by
      simpa [mayPlace,isAmong,isLength,isPercentage,hasUnit,isZero,isMath,isCallOf] using h
    have himage : Text.isOneOf (["url","src"] ++ imageFunctions) name = false :=
      isOneOf_disjoint (by decide +kernel) hmath
    rw [Text.isOneOf,List.any_append] at himage
    exact ⟨himage,rfl⟩
  | url text => cases h
  | _ => exact ⟨rfl,rfl⟩

theorem isLayered_of_mayPlace {v n : Value} (hn : n ∈ v.flatten) (h : mayPlace n = true) : IsLayered v := by
  cases n with
  | ident name =>
    have hword : Text.isOneOf positionWords name = true := by
      simpa [mayPlace,isAmong,isLength,isPercentage,hasUnit,isZero,isMath,isCallOf] using h
    exact .of_mem hn rfl (isOneOf_disjoint (by decide +kernel) hword) (by simp)
  | operator symbol => cases h
  | string text => cases h
  | _ => exact .of_mem hn rfl rfl (by simp)

/-! ## Placements -/

theorem free_of_fits {p : Pattern} {vs : List Value} (h : p.Fits vs) {symbol : String}
    (hp : p.avoids symbol 12 = true) : ∀ v ∈ vs, v.isOperator symbol = false :=
  between_zero_length vs ▸ (avoids_sound hp h.derives).between

theorem avoid_separators : ∀ symbol ∈ ["/",","], ∀ name ∈ ["bg-position","bg-size"],
    (Pattern.type name).avoids symbol 12 = true := by
  decide +kernel

structure IsPlaced (position : List Value) (size : Option (List Value)) : Prop where
  plain : Plain position
  accepted : (Pattern.type "bg-position").accepts position = true
  sizePlain : ∀ s ∈ size, Plain s
  sizeAccepted : ∀ s ∈ size, (Pattern.type "bg-size").accepts s = true

/-- A position, perhaps with a size. -/
structure Placement where
  position : List Value
  size : Option (List Value)
  placed : IsPlaced position size

namespace Placement
variable (l : Placement)

def nodes : List Value := l.position ++ (l.size.map (operator "/" :: ·)).getD []

theorem position_fits : (Pattern.type "bg-position").Fits l.position := by
  have hd : (Pattern.type "bg-position").Derives l.position 0 l.position.length :=
    mem_ends_derives (accepts_iff_mem_ends.1 l.placed.accepted)
  exact ⟨List.length_pos_iff.1 (type_lt hd),l.placed.plain,hd⟩

theorem size_fits {s : List Value} (hs : s ∈ l.size) : (Pattern.type "bg-size").Fits s := by
  have hd : (Pattern.type "bg-size").Derives s 0 s.length :=
    mem_ends_derives (accepts_iff_mem_ends.1 (l.placed.sizeAccepted s hs))
  exact ⟨List.length_pos_iff.1 (type_lt hd),l.placed.sizePlain s hs,hd⟩

theorem position_free : ∀ symbol ∈ ["/",","], ∀ v ∈ l.position, v.isOperator symbol = false :=
  fun symbol hs => free_of_fits l.position_fits (avoid_separators symbol hs _ (by simp))

theorem size_free {s : List Value} (hs : s ∈ l.size) :
    ∀ symbol ∈ ["/",","], ∀ v ∈ s, v.isOperator symbol = false :=
  fun symbol hsymbol => free_of_fits (l.size_fits hs) (avoid_separators symbol hsymbol _ (by simp))

theorem nodes_free : ∀ v ∈ l.nodes, v.isOperator "," = false := by
  intro v hv
  rcases List.mem_append.1 hv with hv | hv
  · exact l.position_free "," (by simp) v hv
  · cases hsize : l.size with
    | none => simp [hsize] at hv
    | some s =>
      rw [hsize] at hv
      rcases List.mem_cons.1 hv with rfl | hv
      · rfl
      · exact l.size_free hsize "," (by simp) v hv

/-- The position and the size are what stands before the slash and after it. -/
theorem runs_nodes : runs "/" l.nodes = l.position :: l.size.toList := by
  have hposition := l.position_free "/" (by simp)
  cases hsize : l.size with
  | none => simpa [nodes,hsize] using runs_of_free hposition
  | some s =>
    have hs := l.size_free hsize "/" (by simp)
    simpa [nodes,hsize,runs_of_free hs] using runs_append hposition s

theorem nodes_fit : (positionNotation "bg-position").Fits l.nodes := by
  have hposition := l.position_fits
  cases hsize : l.size with
  | none =>
    have hnodes : l.nodes = l.position := by simp [nodes,hsize]
    rw [hnodes]
    exact ⟨hposition.filled,hposition.plain,.sequence (.link hposition.derives (by simp)
      (.link (.repeated (Nat.le_refl 0) (by simp) .noRound) (by simp) .endOfChain))⟩
  | some s =>
    have hnodes : l.nodes = l.position ++ operator "/" :: s := by simp [nodes,hsize]
    have hs := l.size_fits hsize
    have hplain : Plain (operator "/" :: s) := List.forall_mem_cons.2 ⟨rfl,hs.plain⟩
    have hend : (l.position ++ operator "/" :: s).length = l.position.length + 1 + s.length := by
      simp
      omega
    rw [hnodes]
    refine ⟨by simp,List.forall_mem_append.2 ⟨hposition.plain,hplain⟩,?_⟩
    have hslash : (Pattern.literal "/").Derives (l.position ++ operator "/" :: s) l.position.length
        (l.position.length + 1) := .literal (v := operator "/") (by simp) rfl
    have hafter : (Pattern.type "bg-size").Derives (l.position ++ operator "/" :: s)
        (l.position.length + 1) (l.position.length + 1 + s.length) := by
      have hshift := hs.derives.shift (l.position ++ [operator "/"])
      simpa using hshift
    rw [hend]
    refine .sequence (.link (hposition.derives.extend hplain) (by simp) (.link (Derives.optional
      (.sequence (.link hslash (by simp) (.link hafter (by simp) .endOfChain))) (by omega)) (by simp)
      .endOfChain))

/-! ## The share of a layer -/

theorem exists_position : ∃ v more, l.position = v :: more ∧ mayPlace v = true := by
  obtain ⟨v,more,hposition⟩ := List.exists_cons_of_ne_nil l.position_fits.filled
  exact ⟨v,more,hposition,mayPlace_of_fits (hposition ▸ l.position_fits)⟩

theorem exists_nodes : ∃ v more, l.nodes = v :: more ∧ mayPlace v = true := by
  obtain ⟨v,more,hposition,hv⟩ := l.exists_position
  exact ⟨v,_,by rw [nodes,hposition,List.cons_append],hv⟩

/-- The layer is one share, that of the position with its size. -/
theorem inTurn : InTurn (backgroundFields.alternatives.map Pattern.accepts) [(1,l.nodes)] [] := by
  have haccepts : (positionNotation "bg-position").accepts l.nodes = true :=
    (accepts_iff_derives (by decide +kernel)).2 l.nodes_fit.derives
  obtain ⟨v,more,hnodes,hfirst⟩ := l.exists_nodes
  have hv : v.isSubstitution = false := l.nodes_fit.plain v (hnodes ▸ List.mem_cons_self)
  obtain ⟨himage,hnone⟩ := not_image_of_mayPlace hfirst
  rw [hnodes] at haccepts ⊢
  refine .cons (.of_accepts rfl haccepts (fun k hk _ => by simpa using hk) ?_) .nil
  intro j hj q hq more
  obtain rfl : j = 0 := by omega
  cases hq
  rw [Bool.eq_false_iff]
  intro htake
  have hbegin : (Pattern.type "bg-image").mayBegin 3 v = true :=
    mayBegin_sound (mem_ends_derives (accepts_iff_mem_ends.1 htake)) rfl
  have htest : (v.isSubstitution || (false || ((v.isSubstitution || v.isImage) ||
    (v.isIdent "none" || false)))) = true := hbegin
  simp [hv,himage,hnone] at htest

variable {l} {layer : Value}

theorem flatten_share (h : layer.flatten = l.nodes) : (ofNodes l.nodes).flatten = l.nodes :=
  (h ▸ flatten_areNodes layer).flatten_ofNodes

theorem shares_eq (h : layer.flatten = l.nodes) (i : Nat) :
    (backgroundShares layer).get? i = if i = 1 then some (ofNodes l.nodes) else none := by
  have hget := l.inTurn.get? (by simp) (by simpa using h) i
  refine hget.trans ?_
  by_cases hi : i = 1
  · subst hi
    rfl
  · rw [if_neg hi,List.lookup_cons,beq_false_of_ne hi]
    rfl

theorem positionPart_eq (h : layer.flatten = l.nodes) (i : Nat) :
    positionPart (some (ofNodes l.nodes)) i = ((l.position :: l.size.toList)[i]?).map list := by
  have hruns : runs "/" (ofNodes l.nodes).flatten = l.position :: l.size.toList := by
    rw [flatten_share h,l.runs_nodes]
  have hfilled : ∀ r ∈ runs "/" (ofNodes l.nodes).flatten, r ≠ [] := by
    rw [hruns]
    intro r hr
    rcases List.mem_cons.1 hr with rfl | hr
    · exact l.position_fits.filled
    · exact (l.size_fits (Option.mem_toList.1 hr)).filled
  rw [positionPart,Option.bind_some,segments_of_runs hfilled,hruns,List.getElem?_map]

/-- The fields of the layer: the axes of the position, the size, and defaults. -/
def fields (l : Placement) : Vector Value 8 :=
  #v[ident "none",(positionAxes (list l.position)).get 0,(positionAxes (list l.position)).get 1,
    (l.size.map list).getD (ident "auto"),ident "repeat",ident "scroll",ident "padding-box",
    ident "border-box"]

theorem flatten_size (h : layer.flatten = l.nodes) :
    (l.fields[(3 : Fin 8)]).flatten = l.size.getD [ident "auto"] := by
  have hfield : l.fields[(3 : Fin 8)] = (l.size.map list).getD (ident "auto") := rfl
  rw [hfield]
  cases hsize : l.size with
  | none => simp [flatten]
  | some s =>
    have hpart : s ⊆ l.nodes := by
      intro n hn
      simp [nodes,hsize,hn]
    exact ((h ▸ flatten_areNodes layer).mono hpart).flatten_list

theorem backgroundLayer_eq (h : layer.flatten = l.nodes) : backgroundLayer layer = l.fields := by
  have hget : ∀ i d, (backgroundShares layer).get i d = ((backgroundShares layer).get? i).getD d :=
    fun _ _ => rfl
  have hsize : positionPart (some (ofNodes l.nodes)) 1 = l.size.map list := by
    rw [positionPart_eq h]
    cases l.size <;> rfl
  simp only [backgroundLayer,hget,shares_eq h]
  have hposition : positionPart (some (ofNodes l.nodes)) 0 = some (list l.position) := positionPart_eq h 0
  simp [fields,hsize,hposition,Vector.get]

end Placement

/-- The longhands of a background that are neither its position nor its size, with what a layer without
them takes. -/
def placementDefaults : List (String × Value) :=
  [("background-image",ident "none"),("background-repeat",ident "repeat"),
   ("background-attachment",ident "scroll"),("background-origin",ident "padding-box"),
   ("background-clip",ident "border-box")]

theorem placementDefaults_fields {d : String × Value} (hd : d ∈ placementDefaults) :
    ∃ i : Fin 8, background.longhands[i.val]? = some d.1 ∧
      ∀ l : Placement, (l.fields[i]).flatten = [d.2] := by
  simp only [placementDefaults,List.mem_cons,List.not_mem_nil,or_false] at hd
  rcases hd with rfl | rfl | rfl | rfl | rfl
  · exact ⟨0,rfl,fun _ => rfl⟩
  · exact ⟨4,rfl,fun _ => rfl⟩
  · exact ⟨5,rfl,fun _ => rfl⟩
  · exact ⟨6,rfl,fun _ => rfl⟩
  · exact ⟨7,rfl,fun _ => rfl⟩

end StyleExpansion.Shorthand

namespace StyleExpansion
open Value Shorthand

/-- Rows of placements with commas between them are the layers of a value. -/
theorem layers_of_rows {placements : List Placement} (hne : placements ≠ []) {row : Placement → List Value}
    (hhead : ∀ l, ∃ v more, row l = v :: more ∧ mayPlace v = true)
    (hfree : ∀ l, ∀ n ∈ row l, n.isOperator "," = false) {v : Value}
    (hv : v.flatten = [operator ","].intercalate (placements.map row)) :
    v.layers = placements.map (fun l => list (row l)) ∧
      (∀ l ∈ placements, (list (row l)).flatten = row l) ∧ IsLayered v := by
  have hruns : runs "," v.flatten = placements.map row := by
    rw [hv]
    refine runs_intercalate (by simpa using hne) ?_
    intro r hr
    obtain ⟨l,-,rfl⟩ := List.mem_map.1 hr
    exact hfree l
  have hlayers : v.layers = placements.map fun l => list (row l) := by
    rw [layers,segments_of_runs,hruns,List.map_map]
    · rfl
    · intro r hr
      obtain ⟨l,-,rfl⟩ := List.mem_map.1 (hruns ▸ hr)
      obtain ⟨n,more,hrow,-⟩ := hhead l
      rw [hrow]
      exact List.cons_ne_nil n more
  have hmem : ∀ l ∈ placements, list (row l) ∈ v.layers := by
    intro l hl
    rw [hlayers]
    exact List.mem_map_of_mem (f := fun l => list (row l)) hl
  have hflat : ∀ l ∈ placements, (list (row l)).flatten = row l :=
    fun l hl => flatten_of_list_mem_segments (hmem l hl)
  obtain ⟨l,rest,rfl⟩ := List.exists_cons_of_ne_nil hne
  obtain ⟨n,more,hrow,hn⟩ := hhead l
  refine ⟨hlayers,hflat,isLayered_of_mayPlace (n := n) ?_ hn⟩
  apply (flatten_of_mem_segments (hmem l List.mem_cons_self)).2
  rw [hflat l List.mem_cons_self,hrow]
  exact List.mem_cons_self

/-- A longhand of a background of placements has their fields. -/
theorem background_column {placements : List Placement} (hne : placements ≠ []) {property : String}
    (hp : property.toLower = "background") {v : Value}
    (hv : v.flatten = [operator ","].intercalate (placements.map Placement.nodes)) (i : Fin 8)
    {name : String} (hn : background.longhands[i.val]? = some name) :
    valueOf? (expand property v) name = some (join "," (placements.map fun l => l.fields[i])) ∧
      runs "," (join "," (placements.map fun l => l.fields[i])).flatten =
        placements.map fun l => (l.fields[i]).flatten := by
  obtain ⟨hlayers,hflat,hlayered⟩ := layers_of_rows hne (fun l => l.exists_nodes)
    (fun l => l.nodes_free) hv
  have hcolumn := valueOf?_column (.tail _ (.head _)) hp (i : Fin LayeredShorthand.background.size) hn
    hlayered
  have hrows : (v.layers.map fun layer => (backgroundLayer layer)[i]) =
      placements.map fun l => l.fields[i] := by
    rw [hlayers,List.map_map]
    refine List.map_congr_left fun l hl => ?_
    exact congrArg (fun row : Vector Value 8 => row[i]) (Placement.backgroundLayer_eq (hflat l hl))
  have hjoin : LayeredShorthand.background.column i v = join "," (placements.map fun l => l.fields[i]) :=
    congrArg (join ",") hrows
  rw [hjoin] at hcolumn
  refine ⟨hcolumn.1,hcolumn.2.trans ?_⟩
  have hflatten := congrArg (List.map flatten) hrows
  rw [List.map_map,List.map_map] at hflatten
  exact hflatten

/-- No layer of a background of placements has a color. -/
theorem background_color {placements : List Placement} (hne : placements ≠ []) {property : String}
    (hp : property.toLower = "background") {v : Value}
    (hv : v.flatten = [operator ","].intercalate (placements.map Placement.nodes)) :
    valueOf? (expand property v) "background-color" = some (ident "transparent") := by
  obtain ⟨hlayers,hflat,hlayered⟩ := layers_of_rows hne (fun l => l.exists_nodes)
    (fun l => l.nodes_free) hv
  have hnone : v.layers.filterMap (fun layer => (backgroundShares layer).get? 6) = [] := by
    rw [hlayers,List.filterMap_eq_nil_iff]
    intro layer hlayer
    obtain ⟨l,hl,rfl⟩ := List.mem_map.1 hlayer
    rw [Placement.shares_eq (hflat l hl)]
    rfl
  have hcolor : backgroundColor v = ident "transparent" := by
    rw [backgroundColor,hnone]
    rfl
  have hseparate := valueOf?_separate (c := LayeredShorthand.background) (.tail _ (.head _)) hp
    (i := 0) (v := v) (w := backgroundColor v) rfl rfl
  rwa [hlayered.commonValue,hcolor] at hseparate

/-- A background whose layers are positions, each perhaps with a size, has the positions as they are by
themselves and the sizes, and all else is at its default. -/
theorem expand_background_placements {placements : List Placement} (hne : placements ≠ [])
    {property position : String} (hproperty : property.toLower = "background")
    (hposition : position.toLower = "background-position") {v w : Value}
    (hv : v.flatten = [operator ","].intercalate (placements.map Placement.nodes))
    (hw : w.flatten = [operator ","].intercalate (placements.map Placement.position)) :
    (∀ axis ∈ ["background-position-x","background-position-y"], ∃ x,
      valueOf? (expand property v) axis = some x ∧ valueOf? (expand position w) axis = some x) ∧
    (∃ size, valueOf? (expand property v) "background-size" = some size ∧
      runs "," size.flatten = placements.map fun l => l.size.getD [ident "auto"]) ∧
    (∀ d ∈ placementDefaults, ∃ x, valueOf? (expand property v) d.1 = some x ∧
      runs "," x.flatten = placements.map fun _ => [d.2]) ∧
    valueOf? (expand property v) "background-color" = some (ident "transparent") := by
  have hcolumn := background_column hne hproperty hv
  refine ⟨?_,?_,?_,background_color hne hproperty hv⟩
  · obtain ⟨hlayers,-,hlayered⟩ := layers_of_rows hne (fun l => l.exists_position)
      (fun l => l.position_free "," (by simp)) hw
    obtain ⟨xs,ys,hx,hy,hxs,hys,-⟩ := expand_position hposition hlayered
    rw [hlayers,List.map_map] at hxs hys
    intro axis haxis
    simp only [List.mem_cons,List.not_mem_nil,or_false] at haxis
    rcases haxis with rfl | rfl
    · exact ⟨xs,hxs ▸ (hcolumn 1 rfl).1,hx⟩
    · exact ⟨ys,hys ▸ (hcolumn 2 rfl).1,hy⟩
  · obtain ⟨-,hflat,-⟩ := layers_of_rows hne (fun l => l.exists_nodes) (fun l => l.nodes_free) hv
    obtain ⟨hsize,hentries⟩ := hcolumn 3 rfl
    exact ⟨_,hsize,hentries.trans (List.map_congr_left fun l hl => Placement.flatten_size (hflat l hl))⟩
  · intro d hd
    obtain ⟨i,hname,hfields⟩ := placementDefaults_fields hd
    obtain ⟨hdefault,hentries⟩ := hcolumn i hname
    exact ⟨_,hdefault,hentries.trans (List.map_congr_left fun l _ => hfields l)⟩

theorem rightCover_placed :
    IsPlaced [ident "RIGHT",dimension "1" "em",ident "center"] (some [ident "cover"]) := by
  refine ⟨?_,by decide +kernel,?_,by decide +kernel⟩
  · simp [Pattern.Plain,isSubstitution,isCallOf]
  · simp [Pattern.Plain,isSubstitution,isCallOf]

theorem half_placed : IsPlaced [percentage "50"] none := by
  refine ⟨?_,by decide +kernel,by simp,by simp⟩
  simp [Pattern.Plain,isSubstitution,isCallOf]

/-- Two layers, the first one with a size. -/
theorem expand_background_placements_two :
    (∃ x, valueOf? (expand "Background" (list [ident "RIGHT",dimension "1" "em",ident "center",
          operator "/",ident "cover",operator ",",percentage "50"])) "background-position-x" = some x ∧
        valueOf? (expand "background-position" (list [ident "RIGHT",dimension "1" "em",ident "center",
          operator ",",percentage "50"])) "background-position-x" = some x) ∧
      ∃ size, valueOf? (expand "Background" (list [ident "RIGHT",dimension "1" "em",ident "center",
          operator "/",ident "cover",operator ",",percentage "50"])) "background-size" = some size ∧
        runs "," size.flatten = [[ident "cover"],[ident "auto"]] := by
  have hne : [Placement.mk _ _ rightCover_placed,Placement.mk _ _ half_placed] ≠ [] := by simp
  have h := expand_background_placements hne (by decide +kernel : "Background".toLower = "background")
    (by decide +kernel : "background-position".toLower = "background-position")
    (v := list [ident "RIGHT",dimension "1" "em",ident "center",operator "/",ident "cover",
      operator ",",percentage "50"])
    (w := list [ident "RIGHT",dimension "1" "em",ident "center",operator ",",percentage "50"]) rfl rfl
  exact ⟨h.1 _ List.mem_cons_self,h.2.1⟩

end StyleExpansion
