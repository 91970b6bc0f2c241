import StyleExpansion.Shorthand

/-! # Shorthands of borders

Lines around a box, its corners, and the images that replace its border.
-/
namespace StyleExpansion.Shorthand
open Value

/-- All four edges alike. -/
def border : Shorthand :=
  ⟨"border",["border-top","border-right","border-bottom","border-left"],fun v => #v[v,v,v,v]⟩

/-- The width, style and color of a line. -/
def line (name : String) : Shorthand :=
  ⟨name,[name ++ "-width",name ++ "-style",name ++ "-color"],fun v =>
    let s := v.share [.type "line-width",.type "line-style",.type "color"]
    #v[s.get 0 (ident "medium"),s.get 1 (ident "none"),s.get 2 (ident "currentcolor")]⟩

def lines : List Shorthand :=
  [line "border-top",line "border-right",line "border-bottom",line "border-left",
   line "border-inline",line "border-block",line "border-inline-start",line "border-inline-end",
   line "border-block-start",line "border-block-end",line "column-rule"]

/-- The style comes first among the alternatives, because a keyword may be a style and a color. -/
def outline : Shorthand :=
  ⟨"outline",["outline-width","outline-style","outline-color"],fun v =>
    let s := v.share [.property "outline-style",.property "outline-width",.property "outline-color"]
    #v[s.get 1 (ident "medium"),s.get 0 (ident "none"),s.get 2 (ident "currentcolor")]⟩

/-- A corner has one radius, or a horizontal and a vertical one on the two sides of a slash. -/
def borderRadius : Shorthand :=
  ⟨"border-radius",
    ["border-top-left-radius","border-top-right-radius","border-bottom-right-radius",
     "border-bottom-left-radius"],fun v =>
    let groups := v.segments "/"
    let first := (groups.getD 0 empty).boxEdges
    match groups[1]? with
    | none => first
    | some second => first.zipWith (fun a b => list [a,b]) second.boxEdges⟩

/-- A slice with the width and the outset of an image border, which follow it after slashes. -/
def sliceNotation (width outset : String) (slice : String) : Pattern :=
  .sequence [.property slice,.optional (.oneOf [
    .sequence [.literal "/",.property width],
    .sequence [.literal "/",.optional (.property width),.literal "/",.property outset]])]

def slicePart (slice : Option Value) (i : Nat) : Value :=
  presentOr ((slice.map (allSegments "/")).getD []) i (ident "initial")

def borderImage : Shorthand :=
  ⟨"border-image",
    ["border-image-source","border-image-slice","border-image-width","border-image-outset",
     "border-image-repeat"],fun v =>
    let s := v.share [.property "border-image-source",
      sliceNotation "border-image-width" "border-image-outset" "border-image-slice",
      .property "border-image-repeat"]
    #v[s.get 0 (ident "initial"),slicePart (s.get? 1) 0,slicePart (s.get? 1) 1,
      slicePart (s.get? 1) 2,s.get 2 (ident "initial")]⟩

def maskBorder : Shorthand :=
  ⟨"mask-border",
    ["mask-border-source","mask-border-slice","mask-border-width","mask-border-outset",
     "mask-border-repeat","mask-border-mode"],fun v =>
    let s := v.share [.property "mask-border-source",
      sliceNotation "mask-border-width" "mask-border-outset" "mask-border-slice",
      .property "mask-border-repeat",.property "mask-border-mode"]
    #v[s.get 0 (ident "initial"),slicePart (s.get? 1) 0,slicePart (s.get? 1) 1,
      slicePart (s.get? 1) 2,s.get 2 (ident "initial"),s.get 3 (ident "initial")]⟩

end StyleExpansion.Shorthand
