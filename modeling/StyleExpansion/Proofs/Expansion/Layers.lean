import StyleExpansion.Proofs.Expansion.Fields

/-! # Shorthands of motion in layers

The longhands of animations and transitions are fields of every layer.
-/
namespace StyleExpansion.Shorthand
open Pattern Value

theorem layers_ne_nil {v : Value} (h : ∃ n ∈ v.flatten, n.isOperator "," = false) :
    v.layers ≠ [] := by
  obtain ⟨n,hn,ho⟩ := h
  exact segments_ne_nil hn ho

structure Layering (qs : List Pattern) where
  patterns : List Pattern
  covers : AllCovered (patterns.map listed) qs

theorem Layering.fits {n : Nat} {read : Value → Vector Value n} {qs : List Pattern}
    (l : Layering qs) {v : Value} (hv : Plain v.flatten)
    (hl : ∃ n ∈ v.flatten, n.isOperator "," = false)
    (h : ∀ w, Plain w.flatten → AllFit l.patterns (read w).toList) :
    AllFit qs (v.layered read).toList := by
  have hfit : AllFit (l.patterns.map listed) (v.layered read).toList :=
    layered_fits (layers_ne_nil hl) fun w hw => h w (plain_of_mem_layers hv hw)
  exact hfit.covered l.covers

def animationLayering : Layering ((animation.longhands.take 8).map property) where
  patterns :=
    [.oneOf [.keyword "none",.type "keyframes-name"],.type "time",.type "easing-function",
     .type "time",.type "single-animation-iteration-count",.type "single-animation-direction",
     .type "single-animation-fill-mode",.type "single-animation-play-state"]
  covers := by decide +kernel

def animationFields : Fields animationLayering.patterns where
  alternatives :=
    [.type "time",.type "easing-function",.type "time",.type "single-animation-iteration-count",
     .type "single-animation-direction",.type "single-animation-fill-mode",
     .type "single-animation-play-state",.oneOf [.keyword "none",.type "keyframes-name"]]
  fields :=
    [⟨7,ident "none"⟩,⟨0,dimension "0" "s"⟩,⟨1,ident "ease"⟩,⟨2,dimension "0" "s"⟩,⟨3,number "1"⟩,
     ⟨4,ident "normal"⟩,⟨5,ident "none"⟩,⟨6,ident "running"⟩]
  sound := by decide +kernel

def animationConstants : Constants ((animation.longhands.drop 8).map property) where
  values := [ident "auto",ident "normal",ident "normal"]
  known := by decide +kernel

theorem animation_typed {v : Value} (hv : Plain v.flatten)
    (hl : ∃ n ∈ v.flatten, n.isOperator "," = false) : animation.Typed v := by
  apply typed_of_allFit (by simp [shorthands])
  have hread : (animation.assign v).toList =
      (v.layered animationLayer).toList ++ animationConstants.values := Vector.toList_append
  rw [hread]
  have hfit : AllFit _ (v.layered animationLayer).toList :=
    animationLayering.fits hv hl fun w hw => animationFields.fits hw
  exact List.rel_append hfit animationConstants.fits

def transitionLayering : Layering (transition.longhands.map property) where
  patterns :=
    [.type "single-transition-property",.type "time",.type "easing-function",.type "time",
     .type "transition-behavior-value"]
  covers := by decide +kernel

def transitionFields : Fields transitionLayering.patterns where
  alternatives :=
    [.type "time",.type "easing-function",.type "time",.type "transition-behavior-value",
     .oneOf [.keyword "none",.type "single-transition-property"]]
  fields :=
    [⟨4,ident "all"⟩,⟨0,dimension "0" "s"⟩,⟨1,ident "ease"⟩,⟨2,dimension "0" "s"⟩,
     ⟨3,ident "normal"⟩]
  sound := by decide +kernel

theorem transition_typed {v : Value} (hv : Plain v.flatten)
    (hl : ∃ n ∈ v.flatten, n.isOperator "," = false) : transition.Typed v := by
  apply typed_of_allFit (by simp [shorthands])
  exact transitionLayering.fits hv hl fun w hw => transitionFields.fits hw

end StyleExpansion.Shorthand
