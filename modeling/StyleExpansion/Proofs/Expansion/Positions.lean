import Mathlib.Data.List.Permutation
import StyleExpansion.Proofs.Expansion.Fields

/-! # Positions by axis

A position of one or two nodes is told apart by its keywords: an edge belongs to its axis wherever it
stands, and all else stands in the order of the axes. Positions of more nodes are shared out.
-/
namespace StyleExpansion.Shorthand
open Pattern Value

def axisPattern (edges : List String) : Pattern :=
  .oneOf [.keyword "center",
    .nonEmpty (.sequence [.optional (.words edges),.optional (.type "length-percentage")])]

def xPattern : Pattern := axisPattern ["left","right","x-start","x-end"]

def yPattern : Pattern := axisPattern ["top","bottom","y-start","y-end"]

def offsetPattern (words : List String) : Pattern :=
  .oneOf (words.map .keyword ++ [.type "length-percentage"])

def edgePattern (edges : List String) : Pattern :=
  .oneOf [.keyword "center",.sequence [.words edges,.optional (.type "length-percentage")]]

theorem fits_keyword {v : Value} {word : String} (h : v.isIdent word = true) :
    (keyword word).Fits [v] := by
  obtain ⟨name,rfl,_⟩ := isIdent_iff.1 h
  refine ⟨by simp,?_,.keyword rfl h⟩
  intro w hw
  rw [List.mem_singleton.1 hw]
  rfl

theorem Fits.of_oneOf {items : List Pattern} {vs : List Value} (h : (oneOf items).Fits vs) :
    ∃ p ∈ items, p.Fits vs := by
  have hd := h.derives
  cases hd with
  | oneOf hm hd => exact ⟨_,hm,h.filled,h.plain,hd⟩

theorem isIdent_of_fits {v : Value} {word : String} (h : (keyword word).Fits [v]) :
    v.isIdent word = true := by
  cases h.derives with
  | keyword hv ht =>
    cases hv
    exact ht

theorem not_isIdent {v : Value} {word other : String} (h : v.isIdent word = true)
    (hne : Text.sameName word other = false) : v.isIdent other = false := by
  obtain ⟨name,rfl,hs⟩ := isIdent_iff.1 h
  rw [isIdent,Text.sameName_congr hs]
  exact hne

theorem not_isIdent_of_offset {v : Value} (h : (type "length-percentage").Fits [v]) (word : String) :
    v.isIdent word = false := by
  have hl : basicTypes.lookup "length-percentage" = some fun v => v.isLength || v.isPercentage := rfl
  obtain ⟨_,w,hw,ht⟩ := Derives.of_basicType h.derives h.plain (by decide) hl
  cases hw
  cases v with
  | ident name => cases ht
  | _ => rfl

theorem word_of_edgePattern {edges : List String} {v : Value} (h : (edgePattern edges).Fits [v]) :
    (words ("center" :: edges)).Fits [v] := by
  obtain ⟨p,hm,hp⟩ := Fits.of_oneOf h
  rcases List.mem_cons.1 hm with rfl | hm
  · exact ⟨hp.filled,hp.plain,.oneOf (by simp) hp.derives⟩
  · rw [List.mem_singleton.1 hm] at hp
    obtain ⟨m,hw,_⟩ := hp.derives.pair
    cases hw with
    | oneOf hm hw =>
      obtain ⟨word,hword,rfl⟩ := List.mem_map.1 hm
      cases hw with
      | keyword hv ht =>
        cases hv
        have hmem : keyword word ∈ (("center" :: edges).map keyword) := by simp [hword]
        exact ⟨h.filled,h.plain,.oneOf hmem (.keyword rfl ht)⟩

theorem not_isIdent_of_offsetPattern {names : List String} {v : Value} (others : List String)
    (h : (offsetPattern names).Fits [v])
    (hne : ∀ word ∈ names, ∀ other ∈ others, Text.sameName word other = false) :
    ∀ other ∈ others, v.isIdent other = false := by
  intro other ho
  obtain ⟨p,hm,hp⟩ := Fits.of_oneOf h
  rcases List.mem_append.1 hm with hm | hm
  · obtain ⟨word,hword,rfl⟩ := List.mem_map.1 hm
    exact not_isIdent (isIdent_of_fits hp) (hne word hword other ho)
  · rw [List.mem_singleton.1 hm] at hp
    exact not_isIdent_of_offset hp other

theorem bgPosition_cases {vs : List Value} (h : (type "bg-position").Fits vs) :
    (offsetPattern ["left","center","right","top","bottom"]).Derives vs 0 vs.length ∨
    (∃ m, (offsetPattern ["left","center","right"]).Derives vs 0 m ∧
      (offsetPattern ["top","center","bottom"]).Derives vs m vs.length) ∨
    (∃ m, (edgePattern ["left","right"]).Derives vs 0 m ∧
      (edgePattern ["top","bottom"]).Derives vs m vs.length) ∨
    ∃ m, (edgePattern ["top","bottom"]).Derives vs 0 m ∧
      (edgePattern ["left","right"]).Derives vs m vs.length := by
  have hc : (type "bg-position").choices =
      [.oneOf [offsetPattern ["left","center","right","top","bottom"],
        .sequence [offsetPattern ["left","center","right"],offsetPattern ["top","center","bottom"]],
        .allOf [edgePattern ["left","right"],edgePattern ["top","bottom"]]]] := rfl
  obtain ⟨p,hp,hd⟩ := (derives_iff_choices h.plain (by rw [hc]; simp)).1 h.derives
  rw [hc,List.mem_singleton] at hp
  subst hp
  cases hd with
  | oneOf hm hd =>
    simp only [List.mem_cons,List.not_mem_nil,or_false] at hm
    rcases hm with rfl | rfl | rfl
    · exact Or.inl hd
    · exact Or.inr (Or.inl (Derives.pair hd))
    · cases hd with
      | allOf hperm hc =>
        rcases List.perm_pair.1 hperm with rfl | rfl
        · exact Or.inr (Or.inr (Or.inl (Derives.pair (.sequence hc))))
        · exact Or.inr (Or.inr (Or.inr (Derives.pair (.sequence hc))))

def positionTerms : List Pattern :=
  [offsetPattern ["left","center","right"],offsetPattern ["top","center","bottom"],
   edgePattern ["left","right"],edgePattern ["top","bottom"]]

theorem positionTerms_checked :
    ∀ p ∈ positionTerms, p.fills 12 = true ∧ p.withinLimits levels = true := by
  decide +kernel

/-- Of two terms that derive two nodes, each fits one of them. -/
theorem fits_of_two {p q : Pattern} (hp : p ∈ positionTerms) (hq : q ∈ positionTerms) {a b : Value}
    (hv : Plain [a,b]) (h : ∃ m, p.Derives [a,b] 0 m ∧ q.Derives [a,b] m 2) :
    p.Fits [a] ∧ q.Fits [b] := by
  obtain ⟨m,hdp,hdq⟩ := h
  obtain ⟨hfp,hnp⟩ := positionTerms_checked p hp
  obtain ⟨hfq,hnq⟩ := positionTerms_checked q hq
  have h0 := fills_sound hfp hdp
  have h2 := fills_sound hfq hdq
  have hm : m = 1 := by omega
  subst hm
  exact ⟨hdp.fits hnp hv h0,hdq.fits hnq hv h2⟩

theorem not_two_of_one {p q : Pattern} (hp : p ∈ positionTerms) (hq : q ∈ positionTerms) {a : Value}
    (h : ∃ m, p.Derives [a] 0 m ∧ q.Derives [a] m 1) : False := by
  obtain ⟨m,hdp,hdq⟩ := h
  have h0 := fills_sound (positionTerms_checked p hp).1 hdp
  have h1 := fills_sound (positionTerms_checked q hq).1 hdq
  omega

theorem xPattern_covers : ∀ p ∈ [offsetPattern ["left","center","right"],words ["center","left",
    "right"],keyword "center"], covered coverLevels p xPattern = true := by
  decide +kernel

theorem yPattern_covers : ∀ p ∈ [offsetPattern ["top","center","bottom"],words ["center","top",
    "bottom"],keyword "center",keyword "top",keyword "bottom"],
    covered coverLevels p yPattern = true := by
  decide +kernel

def axisFields : Fields [xPattern,yPattern] where
  alternatives :=
    [.sequence [.words ["left","right"],.optional (.type "length-percentage")],
     .sequence [.words ["top","bottom"],.optional (.type "length-percentage")],.keyword "center"]
  fields := [⟨0,ident "center"⟩,⟨1,ident "center"⟩]
  sound := by decide +kernel

theorem fits_x {p : Pattern} {v : Value} (h : p.Fits [v])
    (hp : p ∈ [offsetPattern ["left","center","right"],words ["center","left","right"],
      keyword "center"]) : xPattern.Fits [v] := h.covered (xPattern_covers p hp)

theorem fits_y {p : Pattern} {v : Value} (h : p.Fits [v])
    (hp : p ∈ [offsetPattern ["top","center","bottom"],words ["center","top","bottom"],
      keyword "center",keyword "top",keyword "bottom"]) : yPattern.Fits [v] :=
  h.covered (yPattern_covers p hp)

theorem center_fits : xPattern.Fits (flatten (ident "center")) ∧
    yPattern.Fits (flatten (ident "center")) := by
  have hcenter : (keyword "center").Fits [ident "center"] :=
    fits_keyword (Text.sameName_refl "center")
  exact ⟨fits_x hcenter (by simp),fits_y hcenter (by simp)⟩

/-- A word of an axis that is no edge of it is the center. -/
theorem center_of_word {edges : List String} {v : Value} (h : (words ("center" :: edges)).Fits [v])
    (hv : ∀ edge ∈ edges, v.isIdent edge = false) : (keyword "center").Fits [v] := by
  obtain ⟨p,hm,hp⟩ := Fits.of_oneOf h
  rcases List.mem_cons.1 hm with rfl | hm
  · exact hp
  · obtain ⟨edge,he,rfl⟩ := List.mem_map.1 hm
    have := isIdent_of_fits hp
    rw [hv edge he] at this
    cases this

theorem one_fits {a : Value} (h : (type "bg-position").Fits [a]) :
    if isVertical a then yPattern.Fits [a] else xPattern.Fits [a] := by
  rcases bgPosition_cases h with hd | hd | hd | hd
  · have hfit : (offsetPattern ["left","center","right","top","bottom"]).Fits [a] :=
      ⟨h.filled,h.plain,hd⟩
    split
    · next hvert =>
      rcases Bool.or_eq_true_iff.1 hvert with hword | hword
      · exact fits_y (fits_keyword hword) (by simp)
      · exact fits_y (fits_keyword hword) (by simp)
    · next hvert =>
      rw [isVertical,Bool.or_eq_true,not_or] at hvert
      obtain ⟨p,hm,hp⟩ := Fits.of_oneOf hfit
      have hrest : p ∈ ["left","center","right"].map keyword ++ [.type "length-percentage"] := by
        simp only [List.map_cons,List.map_nil,List.cons_append,List.nil_append,List.mem_cons,
          List.not_mem_nil,or_false] at hm ⊢
        rcases hm with rfl | rfl | rfl | rfl | rfl | rfl
        · simp
        · simp
        · simp
        · exact absurd (isIdent_of_fits hp) hvert.1
        · exact absurd (isIdent_of_fits hp) hvert.2
        · simp
      exact fits_x (p := offsetPattern _) ⟨hp.filled,hp.plain,.oneOf hrest hp.derives⟩ (by simp)
  · exact (not_two_of_one (by simp [positionTerms]) (by simp [positionTerms]) hd).elim
  · exact (not_two_of_one (by simp [positionTerms]) (by simp [positionTerms]) hd).elim
  · exact (not_two_of_one (by simp [positionTerms]) (by simp [positionTerms]) hd).elim

theorem two_fit {a b : Value} (h : (type "bg-position").Fits [a,b]) :
    if isVertical a || isHorizontal b then xPattern.Fits [b] ∧ yPattern.Fits [a]
    else xPattern.Fits [a] ∧ yPattern.Fits [b] := by
  have hstay : ∀ {p q : Pattern}, (p.Fits [a] ∧ q.Fits [b]) →
      (covered coverLevels p (offsetPattern ["left","center","right"]) = true) →
      (covered coverLevels q (offsetPattern ["top","center","bottom"]) = true) →
      if isVertical a || isHorizontal b then xPattern.Fits [b] ∧ yPattern.Fits [a]
      else xPattern.Fits [a] ∧ yPattern.Fits [b] := by
    intro p q hfit hp hq
    have ha := hfit.1.covered hp
    have hb := hfit.2.covered hq
    have hvert : isVertical a = false := by
      have hno := not_isIdent_of_offsetPattern ["top","bottom"] ha (by decide +kernel)
      rw [isVertical,hno "top" (by simp),hno "bottom" (by simp)]
      rfl
    have hhoriz : isHorizontal b = false := by
      have hno := not_isIdent_of_offsetPattern ["left","right"] hb (by decide +kernel)
      rw [isHorizontal,hno "left" (by simp),hno "right" (by simp)]
      rfl
    rw [hvert,hhoriz]
    exact ⟨fits_x ha (by simp),fits_y hb (by simp)⟩
  rcases bgPosition_cases h with hd | hd | hd | hd
  · have hsingle : (offsetPattern ["left","center","right","top","bottom"]).isSingle 12 = true := by
      decide +kernel
    have := isSingle_sound hsingle hd
    simp at this
  · exact hstay (fits_of_two (by simp [positionTerms]) (by simp [positionTerms]) h.plain hd)
      (by decide +kernel) (by decide +kernel)
  · obtain ⟨ha,hb⟩ := fits_of_two (by simp [positionTerms]) (by simp [positionTerms]) h.plain hd
    exact hstay ⟨word_of_edgePattern ha,word_of_edgePattern hb⟩ (by decide +kernel)
      (by decide +kernel)
  · obtain ⟨ha,hb⟩ := fits_of_two (by simp [positionTerms]) (by simp [positionTerms]) h.plain hd
    have ha := word_of_edgePattern ha
    have hb := word_of_edgePattern hb
    split
    · exact ⟨fits_x hb (by simp),fits_y ha (by simp)⟩
    · next hno =>
      rw [Bool.or_eq_true,not_or,isVertical,isHorizontal,Bool.or_eq_true,Bool.or_eq_true,not_or,
        not_or,Bool.not_eq_true,Bool.not_eq_true,Bool.not_eq_true,Bool.not_eq_true] at hno
      have hca := center_of_word ha (by simpa using hno.1)
      have hcb := center_of_word hb (by simpa using hno.2)
      exact ⟨fits_x hca (by simp),fits_y hcb (by simp)⟩

theorem positionAxes_fit {v : Value} (h : (type "bg-position").Fits v.flatten) :
    AllFit [xPattern,yPattern] (positionAxes v).toList := by
  have hnodes := flatten_areNodes v
  unfold positionAxes
  split
  · next hv => exact absurd hv h.filled
  · next a hv =>
    rw [hv] at h hnodes
    have hone := one_fits h
    have ha : a.flatten = [a] := hnodes a (by simp)
    split
    · next hvert =>
      rw [if_pos hvert,← ha] at hone
      exact .cons center_fits.1 (.cons hone .nil)
    · next hvert =>
      rw [if_neg hvert,← ha] at hone
      exact .cons hone (.cons center_fits.2 .nil)
  · next a b hv =>
    rw [hv] at h hnodes
    have htwo := two_fit h
    have ha : a.flatten = [a] := hnodes a (by simp)
    have hb : b.flatten = [b] := hnodes b (by simp)
    split
    · next hswap =>
      rw [if_pos hswap,← ha,← hb] at htwo
      exact .cons htwo.1 (.cons htwo.2 .nil)
    · next hswap =>
      rw [if_neg hswap,← ha,← hb] at htwo
      exact .cons htwo.1 (.cons htwo.2 .nil)
  · exact axisFields.fits h.plain

end StyleExpansion.Shorthand
