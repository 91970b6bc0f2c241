import StyleExpansion.Proofs.Expansion.Parts

/-! # Image borders

A slice, a width and an outset are parts of one share; what else there is has a share of its own. What
is missing takes the initial value, which every property has.
-/
namespace StyleExpansion.Shorthand
open Pattern Value

structure Listed (name : String) : Prop where
  lower : name.toLower = name
  known : (ofProperty? name).isSome = true

theorem Listed.initial {name : String} (h : Listed name) :
    isValueOf name (flatten (ident "initial")) = true := by
  apply isValueOf_wide h.known h.lower
  decide +kernel

theorem get_typed {alternatives : List Pattern} {v : Value} (hv : Plain v.flatten) {i : Nat}
    {name : String} (hi : alternatives[i]? = some (.property name)) (hn : Listed name) :
    isValueOf name ((v.share alternatives).get i (ident "initial")).flatten = true := by
  cases h : (v.share alternatives).get? i with
  | none =>
    rw [Shares.get,← Shares.get?,h]
    exact hn.initial
  | some w =>
    obtain ⟨p,hp,hfit⟩ := share_fits h hv
    rw [hi] at hp
    cases hp
    rw [Shares.get,← Shares.get?,h]
    exact hfit.isValueOf hn.lower

theorem slicePart_typed {alternatives : List Pattern} {v : Value} (hv : Plain v.flatten) {i j : Nat}
    {width outset slice name : String}
    (hj : alternatives[j]? = some (sliceNotation width outset slice))
    (hslash : ∀ name ∈ [slice,width,outset], Slashless (property name))
    (hi : [slice,width,outset][i]? = some name) (hn : Listed name) :
    isValueOf name (slicePart ((v.share alternatives).get? j) i).flatten = true := by
  cases h : (v.share alternatives).get? j with
  | none => exact hn.initial
  | some w =>
    obtain ⟨p,hp,hfit⟩ := share_fits h hv
    rw [hj] at hp
    cases hp
    have hparts := sliceNotation_parts hslash hfit
    have hread : slicePart (some w) i =
        (((runs "/" w.flatten)[i]?.map list).filter fun r => !r.isEmpty).getD (ident "initial") := by
      simp [slicePart,presentOr,allSegments]
    rw [hread]
    cases hr : (runs "/" w.flatten)[i]? with
    | none => exact hn.initial
    | some r =>
      obtain ⟨p,hp,hpart⟩ := hparts.get hr
      have hp : property name = p := by
        have := congrArg (Option.map property) hi
        rw [← List.getElem?_map] at this
        exact Option.some.inj (this.symm.trans hp)
      subst hp
      have hflat : (list r).flatten = r := flatten_of_mem_runs (List.mem_of_getElem? hr)
      by_cases hempty : r = []
      · rw [Option.map_some,Option.filter_some,if_neg ?_]
        · exact hn.initial
        · rw [hempty]
          decide
      · rw [Option.map_some,Option.filter_some,if_pos ?_,Option.getD_some,hflat]
        · exact (hpart.fits hempty).isValueOf hn.lower
        · rwa [Bool.not_eq_true',← Bool.not_eq_true,Value.isEmpty_iff,hflat]

/-- The properties are in the dictionary, and those of a slice, a width and an outset have no slash. -/
theorem imageBorders_checked : ∀ s ∈ [borderImage,maskBorder],
    (∀ name ∈ s.longhands, (ofProperty? name).isSome = true) ∧
    ∀ name ∈ (s.longhands.drop 1).take 3, (property name).avoids "/" 12 = true := by
  decide +kernel

theorem imageBorder_listed {s : Shorthand} (hs : s ∈ [borderImage,maskBorder]) :
    (∀ name ∈ s.longhands, Listed name) ∧
    ∀ name ∈ (s.longhands.drop 1).take 3, Slashless (property name) := by
  obtain ⟨hknown,hslash⟩ := imageBorders_checked s hs
  have hmem : s ∈ shorthands := by
    rcases List.mem_cons.1 hs with rfl | hs
    · simp [shorthands]
    · rw [List.mem_singleton.1 hs]
      simp [shorthands]
  constructor
  · intro name hn
    exact ⟨(isSettled_of_mem hmem).longhands name hn,hknown name hn⟩
  · intro name hn
    exact ⟨hslash name hn,property_withinLimits name (by decide)⟩

theorem borderImage_typed {v : Value} (hv : Plain v.flatten) : borderImage.Typed v := by
  obtain ⟨hn,hslash⟩ := imageBorder_listed (s := borderImage) (by simp)
  have hslash : ∀ name ∈ ["border-image-slice","border-image-width","border-image-outset"],
      Slashless (property name) := hslash
  refine .cons (get_typed hv rfl (hn _ ?_)) (.cons (slicePart_typed hv rfl hslash rfl (hn _ ?_))
    (.cons (slicePart_typed hv rfl hslash rfl (hn _ ?_))
    (.cons (slicePart_typed hv rfl hslash rfl (hn _ ?_)) (.cons (get_typed hv rfl (hn _ ?_)) .nil))))
  · simp [borderImage]
  · simp [borderImage]
  · simp [borderImage]
  · simp [borderImage]
  · simp [borderImage]

theorem maskBorder_typed {v : Value} (hv : Plain v.flatten) : maskBorder.Typed v := by
  obtain ⟨hn,hslash⟩ := imageBorder_listed (s := maskBorder) (by simp)
  have hslash : ∀ name ∈ ["mask-border-slice","mask-border-width","mask-border-outset"],
      Slashless (property name) := hslash
  refine .cons (get_typed hv rfl (hn _ ?_)) (.cons (slicePart_typed hv rfl hslash rfl (hn _ ?_))
    (.cons (slicePart_typed hv rfl hslash rfl (hn _ ?_))
    (.cons (slicePart_typed hv rfl hslash rfl (hn _ ?_)) (.cons (get_typed hv rfl (hn _ ?_))
    (.cons (get_typed hv rfl (hn _ ?_)) .nil)))))
  · simp [maskBorder]
  · simp [maskBorder]
  · simp [maskBorder]
  · simp [maskBorder]
  · simp [maskBorder]
  · simp [maskBorder]

end StyleExpansion.Shorthand
