import StyleExpansion.Proofs.Expansion.Commas
import StyleExpansion.Proofs.Expansion.Positions
import StyleExpansion.Proofs.Matching.InTurn
import StyleExpansion.Proofs.Pattern.Heads
import StyleExpansion.Proofs.Pattern.Words

/-! # Positions in either order

The edges tell the axes apart, so the terms of a position may be written in either order: two nodes are
swapped if one of them stands on the axis of the other, and more nodes are shared out, an edge with what
follows it.
-/
namespace StyleExpansion.Shorthand
open Pattern Value

/-- The first words of a term, by the alternative that takes it: the edges of the horizontal axis, those
of the vertical axis, and the center. -/
def termWords : Nat → List String
  | 0 => ["left","right"]
  | 1 => ["top","bottom"]
  | 2 => ["center"]
  | _ => []

inductive IsTerm : Nat → List Value → Prop
  | word {i : Nat} {v : Value} : i < 3 → isAmong (termWords i) v = true → IsTerm i [v]
  | offset {i : Nat} {v n : Value} : i < 2 → isAmong (termWords i) v = true →
      (Pattern.type "length-percentage").accepts [n] = true → IsTerm i [v,n]

def IsAlong (axis : Nat) (ws : List Value) : Prop := ws = [ident "center"] ∨ IsTerm axis ws

def edgeTerm (edges : List String) : Pattern :=
  .sequence [.words edges,.optional (.type "length-percentage")]

def termPatterns : List Pattern := [edgeTerm (termWords 0),edgeTerm (termWords 1),.keyword "center"]

theorem positionEdges_eq (v : Value) : positionEdges v =
    #v[(v.share termPatterns).get 0 (ident "center"),(v.share termPatterns).get 1 (ident "center")] := rfl

theorem termPatterns_nest : ∀ p ∈ termPatterns, p.withinLimits levels = true := by decide +kernel

theorem termPatterns_edge {i : Nat} (hi : i < 2) : termPatterns[i]? = some (edgeTerm (termWords i)) := by
  obtain rfl | rfl : i = 0 ∨ i = 1 := by omega
  all_goals rfl

theorem termPatterns_cases {i : Nat} {p : Pattern} (hp : termPatterns[i]? = some p) :
    i < 2 ∧ p = edgeTerm (termWords i) ∨ i = 2 ∧ p = .keyword "center" := by
  have hlt : i < 3 := (List.getElem?_eq_some_iff.1 hp).1
  rcases Nat.lt_or_eq_of_le (Nat.le_of_lt_succ hlt) with hi | rfl
  · exact Or.inl ⟨hi,Option.some.inj (hp.symm.trans (termPatterns_edge hi))⟩
  · exact Or.inr ⟨rfl,(Option.some.inj hp).symm⟩

/-! ## What the alternatives take -/

theorem lt_of_isAmong {i : Nat} {v : Value} (hv : isAmong (termWords i) v = true) : i < 3 := by
  by_contra hi
  obtain ⟨m,rfl⟩ := Nat.exists_eq_add_of_le (Nat.not_lt.1 hi)
  rw [Nat.add_comm] at hv
  cases v <;> cases hv

theorem termWords_apart {i j : Nat} (hij : i ≠ j) {v : Value} (hv : isAmong (termWords i) v = true) :
    isAmong (termWords j) v = false := by
  have hapart : ∀ i < 3, ∀ j < 3, i ≠ j → ∀ a ∈ termWords i, ∀ b ∈ termWords j,
      Text.sameName a b = false := by decide +kernel
  rw [Bool.eq_false_iff]
  intro hw
  rw [isAmong_disjoint (hapart i (lt_of_isAmong hv) j (lt_of_isAmong hw) hij) hv] at hw
  cases hw

theorem not_offset_of_word {names : List String} {v : Value} (hv : isAmong names v = true) :
    (Pattern.type "length-percentage").accepts [v] = false := by
  rw [Bool.eq_false_iff]
  intro h
  have hbegin : (Pattern.type "length-percentage").mayBegin 3 v = true :=
    mayBegin_sound (mem_ends_derives (accepts_iff_mem_ends.1 h)) rfl
  cases v with
  | ident name => cases hbegin
  | _ => cases hv

/-- What an alternative takes is a word, perhaps with an offset. -/
theorem term_of_accepts {i : Nat} {p : Pattern} (hp : termPatterns[i]? = some p) {v : Value}
    {more : List Value} (h : p.accepts (v :: more) = true) : isAmong (termWords i) v = true ∧
      (more = [] ∨ ∃ n, more = [n] ∧ (Pattern.type "length-percentage").accepts [n] = true) := by
  have hd : p.Derives (v :: more) 0 (v :: more).length := mem_ends_derives (accepts_iff_mem_ends.1 h)
  rcases termPatterns_cases hp with ⟨-,rfl⟩ | ⟨rfl,rfl⟩
  · obtain ⟨m,hword,hoffset⟩ := Derives.pair hd
    obtain ⟨rfl,hv⟩ := words_derived hword
    refine ⟨hv,?_⟩
    rcases Derives.of_optional hoffset with hend | ⟨-,hoffset⟩
    · exact Or.inl (List.eq_nil_of_length_eq_zero (Nat.succ.inj hend).symm)
    · obtain ⟨hlen,-⟩ := Derives.one_of_basicType hoffset (by decide) rfl
      obtain ⟨n,rfl⟩ := List.length_eq_one_iff.1 (Nat.succ.inj hlen)
      exact Or.inr ⟨n,rfl,(accepts_iff_derives (by decide +kernel)).2
        (Derives.drop hoffset (by decide +kernel))⟩
  · have hwords : (Pattern.words ["center"]).Derives (v :: more) 0 (v :: more).length :=
      .oneOf List.mem_cons_self hd
    obtain ⟨hlen,hv⟩ := words_derived hwords
    exact ⟨hv,Or.inl (List.eq_nil_of_length_eq_zero (Nat.succ.inj hlen))⟩

theorem IsTerm.accepted {i : Nat} {ws : List Value} (h : IsTerm i ws) :
    ∃ p, termPatterns[i]? = some p ∧ p.accepts ws = true := by
  have hderives : ∃ p, termPatterns[i]? = some p ∧ p.Derives ws 0 ws.length := by
    cases h with
    | @word v hi hv =>
      have hword : (Pattern.words (termWords i)).Derives [v] 0 1 := words_derive rfl hv
      rcases Nat.lt_or_eq_of_le (Nat.le_of_lt_succ hi) with hi | rfl
      · exact ⟨_,termPatterns_edge hi,.sequence (.link hword (by simp)
          (.link (.repeated (Nat.le_refl 0) (by simp) .noRound) (by simp) .endOfChain))⟩
      · cases hword with
        | oneOf hmem hword => exact ⟨_,rfl,List.mem_singleton.1 hmem ▸ hword⟩
    | @offset v n hi hv hn =>
      have hword : (Pattern.words (termWords i)).Derives [v,n] 0 1 := words_derive rfl hv
      have hoffset : (Pattern.type "length-percentage").Derives [v,n] 1 2 :=
        (mem_ends_derives (accepts_iff_mem_ends.1 hn)).shift [v]
      exact ⟨_,termPatterns_edge hi,.sequence (.link hword (by simp)
        (.link (Derives.optional hoffset Nat.one_lt_two) (by simp) .endOfChain))⟩
  obtain ⟨p,hp,hd⟩ := hderives
  exact ⟨p,hp,(accepts_iff_derives (termPatterns_nest p (List.mem_of_getElem? hp))).2 hd⟩

theorem IsTerm.exists_first {i : Nat} {ws : List Value} (h : IsTerm i ws) :
    ∃ v more, ws = v :: more ∧ isAmong (termWords i) v = true := by
  cases h with
  | word _ hv => exact ⟨_,_,rfl,hv⟩
  | offset _ hv _ => exact ⟨_,_,rfl,hv⟩

/-- A term is taken where it stands, if what follows is no offset. -/
theorem IsTerm.takesFirst {i : Nat} {ws rest : List Value} (h : IsTerm i ws)
    (hrest : ∀ n, rest.head? = some n → (Pattern.type "length-percentage").accepts [n] = false) :
    TakesFirst (termPatterns.map Pattern.accepts) i ws rest := by
  obtain ⟨p,hp,haccepts⟩ := h.accepted
  obtain ⟨v,more,rfl,hv⟩ := h.exists_first
  refine .of_accepts hp haccepts ?_ ?_
  · intro k hk htake
    rcases (term_of_accepts hp htake).2 with hnone | ⟨n,hone,hn⟩
    · have hlen := congrArg List.length hnone
      rw [List.length_take_of_le hk] at hlen
      simp at hlen
      omega
    · have hlen := congrArg List.length hone
      rw [List.length_take_of_le hk,List.length_singleton] at hlen
      subst hlen
      cases more with
      | nil =>
        obtain ⟨w,rest,rfl⟩ := List.exists_cons_of_length_pos (l := rest) hk
        cases hone
        rw [hrest _ rfl] at hn
        cases hn
      | cons w more => simp
  · intro j hj q hq more
    rw [Bool.eq_false_iff]
    intro htake
    have hw := (term_of_accepts hq htake).1
    rw [termWords_apart (Nat.ne_of_gt hj) hv] at hw
    cases hw

/-! ## The axes of two terms -/

theorem isVertical_eq (v : Value) : isVertical v = isAmong (termWords 1) v := by
  cases v with
  | ident name => simp [isVertical,isAmong,isIdent,termWords,Text.isOneOf]
  | _ => rfl

theorem isHorizontal_eq (v : Value) : isHorizontal v = isAmong (termWords 0) v := by
  cases v with
  | ident name => simp [isHorizontal,isAmong,isIdent,termWords,Text.isOneOf]
  | _ => rfl

/-- Two terms of different kinds are taken one after the other. -/
theorem inTurn_terms {i j : Nat} {x y : List Value} (hx : IsTerm i x) (hy : IsTerm j y) :
    InTurn (termPatterns.map Pattern.accepts) [(i,x),(j,y)] [] := by
  refine .cons (hx.takesFirst ?_) (.cons (hy.takesFirst (by simp)) .nil)
  intro n hn
  obtain ⟨w,more,rfl,hw⟩ := hy.exists_first
  cases hn
  exact not_offset_of_word hw

/-- Either order of two terms gives each alternative its own. -/
theorem get?_terms {x y : List Value} {v : Value} (hv : v.flatten = x ++ y ∨ v.flatten = y ++ x) {i j : Nat}
    (hx : IsTerm i x) (hy : IsTerm j y) (hij : i ≠ j) (k : Nat) :
    (v.share termPatterns).get? k = if k = i then some (ofNodes x) else
      if k = j then some (ofNodes y) else none := by
  have hlookup : ∀ {a b : Nat} {p q : List Value}, ([(a,p),(b,q)].lookup k).map ofNodes =
      if k = a then some (ofNodes p) else if k = b then some (ofNodes q) else none := by
    intro a b p q
    by_cases ha : k = a
    · subst ha
      simp
    · rw [List.lookup_cons,beq_false_of_ne ha,if_neg ha]
      by_cases hb : k = b
      · subst hb
        simp
      · rw [List.lookup_cons,beq_false_of_ne hb,if_neg hb]
        rfl
  rcases hv with hv | hv
  · exact ((inTurn_terms hx hy).get? (by simpa using hij) (by simpa using hv) k).trans hlookup
  · refine ((inTurn_terms hy hx).get? (by simpa using hij.symm) (by simpa using hv) k).trans ?_
    rw [hlookup]
    by_cases hki : k = i
    · rw [if_neg (hki ▸ hij),if_pos hki,if_pos hki]
    · rw [if_neg hki,if_neg hki]

/-- Two terms, one along each axis, that are not both the center. -/
structure AreAxes (x y : List Value) : Prop where
  horizontal : IsAlong 0 x
  vertical : IsAlong 1 y
  edged : ¬(x = [ident "center"] ∧ y = [ident "center"])

namespace AreAxes
variable {x y : List Value} {v : Value}

/-- One of the terms is at an edge, so that different alternatives take them. -/
theorem exists_terms (h : AreAxes x y) : ∃ i j, IsTerm i x ∧ IsTerm j y ∧ i ≠ j ∧
    (i = 0 ∨ i = 2 ∧ x = [ident "center"]) ∧ (j = 1 ∨ j = 2 ∧ y = [ident "center"]) := by
  have hterm : ∀ {axis : Nat} {ws : List Value}, IsAlong axis ws →
      ∃ i, IsTerm i ws ∧ (i = axis ∨ i = 2 ∧ ws = [ident "center"]) := by
    rintro axis ws (rfl | h)
    · exact ⟨2,.word (by omega) (isAmong_of_isIdent (Text.sameName_refl "center")),Or.inr ⟨rfl,rfl⟩⟩
    · exact ⟨axis,h,Or.inl rfl⟩
  obtain ⟨i,hx,hi⟩ := hterm h.horizontal
  obtain ⟨j,hy,hj⟩ := hterm h.vertical
  refine ⟨i,j,hx,hy,?_,hi,hj⟩
  rintro rfl
  rcases hi with rfl | ⟨rfl,hcenter⟩
  · omega
  · exact h.edged ⟨hcenter,(hj.resolve_left (by omega)).2⟩

theorem positionEdges_eq (h : AreAxes x y) (hv : v.flatten = x ++ y ∨ v.flatten = y ++ x) :
    positionEdges v = #v[ofNodes x,ofNodes y] := by
  obtain ⟨i,j,hx,hy,hij,hi,hj⟩ := h.exists_terms
  have hget := get?_terms hv hx hy hij
  have hfirst : (v.share termPatterns).get 0 (ident "center") = ofNodes x := by
    change ((v.share termPatterns).get? 0).getD (ident "center") = ofNodes x
    rw [hget]
    rcases hi with rfl | ⟨rfl,rfl⟩
    · rfl
    · rw [if_neg (by decide),if_neg (by omega)]
      rfl
  have hsecond : (v.share termPatterns).get 1 (ident "center") = ofNodes y := by
    change ((v.share termPatterns).get? 1).getD (ident "center") = ofNodes y
    rw [hget,if_neg (by omega)]
    rcases hj with rfl | ⟨rfl,rfl⟩
    · rfl
    · rfl
  rw [Shorthand.positionEdges_eq,hfirst,hsecond]

theorem positionAxes_eq (h : AreAxes x y) (hv : v.flatten = x ++ y ∨ v.flatten = y ++ x) :
    positionAxes v = #v[ofNodes x,ofNodes y] := by
  obtain ⟨i,j,hx,hy,hij,hi,hj⟩ := h.exists_terms
  obtain ⟨a,as,rfl,ha⟩ := hx.exists_first
  obtain ⟨b,bs,rfl,hb⟩ := hy.exists_first
  by_cases hlong : as = [] ∧ bs = []
  · obtain ⟨rfl,rfl⟩ := hlong
    have hupright : isVertical a = false :=
      isVertical_eq a ▸ termWords_apart (by omega) ha
    have hlevel : isHorizontal b = false :=
      isHorizontal_eq b ▸ termWords_apart (by omega) hb
    rcases hv with hv | hv
    · simp [positionAxes,hv,hupright,hlevel,ofNodes]
    · have hedge : isVertical b = true ∨ isHorizontal a = true := by
        rw [isVertical_eq,isHorizontal_eq]
        rcases hi with rfl | ⟨rfl,-⟩
        · exact Or.inr ha
        · exact Or.inl (hj.resolve_right (by omega) ▸ hb)
      simp [positionAxes,hv,hedge,ofNodes]
  · have hlen : 2 < v.flatten.length := by
      have hpos : 0 < as.length + bs.length := by
        by_contra hzero
        exact hlong ⟨List.eq_nil_of_length_eq_zero (by omega),List.eq_nil_of_length_eq_zero (by omega)⟩
      rcases hv with hv | hv
      all_goals
        rw [hv,List.length_append,List.length_cons,List.length_cons]
        omega
    rw [← h.positionEdges_eq hv]
    unfold positionAxes
    split
    · next hnil => simp [hnil] at hlen
    · next hone => simp [hone] at hlen
    · next htwo => simp [htwo] at hlen
    · rfl

end AreAxes

/-! ## Layers of positions -/

theorem position_listed : LayeredShorthand.position ∈ LayeredShorthand.all :=
  .tail _ (.tail _ (.tail _ (.tail _ (.head _))))

theorem isLayered_of_word {v n : Value} {i : Nat} (hn : n ∈ v.flatten)
    (hword : isAmong (termWords i) n = true) : IsLayered v := by
  have hwide : ∀ i < 3, ∀ a ∈ termWords i, ∀ b ∈ wideKeywords, Text.sameName a b = false := by
    decide +kernel
  cases n with
  | ident name => exact .of_mem hn rfl (isOneOf_disjoint (hwide i (lt_of_isAmong hword)) hword) (by simp)
  | _ => cases hword

end StyleExpansion.Shorthand

namespace StyleExpansion
open Value Shorthand

/-- The longhands of a position have the axes of its layers. -/
theorem expand_position {property : String} (hp : property.toLower = "background-position") {v : Value}
    (hv : IsLayered v) : ∃ xs ys, valueOf? (expand property v) "background-position-x" = some xs ∧
      valueOf? (expand property v) "background-position-y" = some ys ∧
      xs = join "," (v.layers.map fun layer => (positionAxes layer).get 0) ∧
      ys = join "," (v.layers.map fun layer => (positionAxes layer).get 1) ∧
      runs "," xs.flatten = v.layers.map (fun layer => ((positionAxes layer).get 0).flatten) ∧
      runs "," ys.flatten = v.layers.map fun layer => ((positionAxes layer).get 1).flatten := by
  obtain ⟨hx,hxruns⟩ := valueOf?_column position_listed hp (⟨0,Nat.two_pos⟩ : Fin 2) rfl hv
  obtain ⟨hy,hyruns⟩ := valueOf?_column position_listed hp (⟨1,Nat.one_lt_two⟩ : Fin 2) rfl hv
  exact ⟨_,_,hx,hy,rfl,rfl,hxruns,hyruns⟩

/-- Positions whose layers have the same axes have the same expansion. -/
theorem expand_position_congr {property : String} (hp : property.toLower = "background-position")
    {v w : Value} (hv : IsLayered v) (hw : IsLayered w)
    (h : w.layers.map positionAxes = v.layers.map positionAxes) : expand property w = expand property v := by
  have hs := LayeredShorthand.listed_of_mem position_listed
  have hleaf := (LayeredShorthand.all_checked.2 _ position_listed).1
  have hassign : backgroundPosition.assign w = backgroundPosition.assign v := by
    simp only [backgroundPosition,layered,h]
  rw [expand_leaf hs hleaf hp hv.commonValue,expand_leaf hs hleaf hp hw.commonValue]
  exact congrArg (fun vs => List.zipWith Longhand.mk _ (Vector.toList vs)) hassign

/-- In every layer of a position, a term of each axis may be written in either order, one of them at an
edge: the layer has the terms as its entries on the axes. -/
theorem expand_position_order {property : String} (hp : property.toLower = "background-position")
    {x y : List Value} (h : AreAxes x y) {before after : List Value} {v w : Value}
    (hv : v.layers = before ++ list (x ++ y) :: after) (hw : w.layers = before ++ list (y ++ x) :: after) :
    expand property w = expand property v ∧ ∃ xs ys,
      valueOf? (expand property v) "background-position-x" = some xs ∧
      valueOf? (expand property v) "background-position-y" = some ys ∧
      (runs "," xs.flatten)[before.length]? = some x ∧ (runs "," ys.flatten)[before.length]? = some y := by
  have hvmem : list (x ++ y) ∈ v.layers := by simp [hv]
  have hwmem : list (y ++ x) ∈ w.layers := by simp [hw]
  have hvflat : (list (x ++ y)).flatten = x ++ y := flatten_of_list_mem_segments hvmem
  have hwflat : (list (y ++ x)).flatten = y ++ x := flatten_of_list_mem_segments hwmem
  obtain ⟨i,j,hx,-⟩ := h.exists_terms
  obtain ⟨a,as,hcons,ha⟩ := hx.exists_first
  have hvlayered : IsLayered v := isLayered_of_word
    ((flatten_of_mem_segments hvmem).2 (by rw [hvflat,hcons]; simp)) ha
  have hwlayered : IsLayered w := isLayered_of_word
    ((flatten_of_mem_segments hwmem).2 (by rw [hwflat,hcons]; simp)) ha
  have hvaxes := h.positionAxes_eq (Or.inl hvflat)
  have hwaxes := h.positionAxes_eq (Or.inr hwflat)
  have hnodes : AreNodes (x ++ y) := hvflat ▸ flatten_areNodes _
  refine ⟨?_,?_⟩
  · refine expand_position_congr hp hvlayered hwlayered ?_
    rw [hv,hw,List.map_append,List.map_append,List.map_cons,List.map_cons,hvaxes,hwaxes]
  · obtain ⟨xs,ys,hxs,hys,-,-,hxruns,hyruns⟩ := expand_position hp hvlayered
    have hentry : ∀ entry : Value → List Value,
        ((before ++ list (x ++ y) :: after).map entry)[before.length]? = some (entry (list (x ++ y))) := by
      intro entry
      simp
    refine ⟨xs,ys,hxs,hys,?_,?_⟩
    · rw [hxruns,hv,hentry,hvaxes]
      exact congrArg some (hnodes.mono (List.subset_append_left x y)).flatten_ofNodes
    · rw [hyruns,hv,hentry,hvaxes]
      exact congrArg some (hnodes.mono (List.subset_append_right x y)).flatten_ofNodes

/-- The second one of three layers, in mixed case, with an offset from the left edge. -/
theorem expand_position_order_center :
    expand "Background-Position" (list [number "0",operator ",",ident "center",ident "LEFT",
        dimension "10" "px",operator ",",ident "center"]) =
      expand "Background-Position" (list [number "0",operator ",",ident "LEFT",dimension "10" "px",
        ident "center",operator ",",ident "center"]) ∧
    ∃ xs ys, valueOf? (expand "Background-Position" (list [number "0",operator ",",ident "LEFT",
          dimension "10" "px",ident "center",operator ",",ident "center"])) "background-position-x" =
        some xs ∧
      valueOf? (expand "Background-Position" (list [number "0",operator ",",ident "LEFT",
          dimension "10" "px",ident "center",operator ",",ident "center"])) "background-position-y" =
        some ys ∧
      (runs "," xs.flatten)[1]? = some [ident "LEFT",dimension "10" "px"] ∧
      (runs "," ys.flatten)[1]? = some [ident "center"] := by
  have haxes : AreAxes [ident "LEFT",dimension "10" "px"] [ident "center"] :=
    ⟨Or.inr (.offset (by decide) (by decide +kernel) (by decide +kernel)),Or.inl rfl,by simp⟩
  have hv : (list [number "0",operator ",",ident "LEFT",dimension "10" "px",ident "center",
      operator ",",ident "center"]).layers = [list [number "0"]] ++
        list ([ident "LEFT",dimension "10" "px"] ++ [ident "center"]) :: [list [ident "center"]] := rfl
  exact expand_position_order (by decide +kernel) haxes hv rfl

end StyleExpansion
