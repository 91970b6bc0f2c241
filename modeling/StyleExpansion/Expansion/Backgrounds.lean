import StyleExpansion.Shorthand

/-! # Shorthands of backgrounds and masks

Both are layered. A layer may have a position, which a slash separates from a size.
-/
namespace StyleExpansion.Shorthand
open Value

def positionNotation (position : String) : Pattern :=
  .sequence [.type position,.optional (.sequence [.literal "/",.type "bg-size"])]

def positionPart (notated : Option Value) (i : Nat) : Option Value :=
  notated.bind fun v => (v.segments "/")[i]?

def zeroPercent : Value := percentage "0"

def maskLayer (v : Value) : Vector Value 8 :=
  let clips : Pattern := .oneOf [.type "geometry-box",.keyword "no-clip"]
  let s := v.share [.type "mask-reference",positionNotation "position",.type "repeat-style",
    .type "geometry-box",clips,.type "compositing-operator",.type "masking-mode"]
  let clip := (s.get? 4).or ((s.get? 3).filter fun origin => clips.accepts origin.flatten)
  #v[s.get 0 (ident "none"),(positionPart (s.get? 1) 0).getD (list [zeroPercent,zeroPercent]),
    (positionPart (s.get? 1) 1).getD (ident "auto"),s.get 2 (ident "repeat"),
    s.get 3 (ident "border-box"),clip.getD (ident "border-box"),s.get 5 (ident "add"),
    s.get 6 (ident "match-source")]

def mask : Shorthand :=
  ⟨"mask",
    ["mask-image","mask-position","mask-size","mask-repeat","mask-origin","mask-clip",
     "mask-composite","mask-mode"],fun v => v.layered maskLayer⟩

def isVertical (v : Value) : Bool := v.isIdent "top" || v.isIdent "bottom"

def isHorizontal (v : Value) : Bool := v.isIdent "left" || v.isIdent "right"

def positionEdges (v : Value) : Vector Value 2 :=
  let s := v.share [.sequence [.words ["left","right"],.optional (.type "length-percentage")],
    .sequence [.words ["top","bottom"],.optional (.type "length-percentage")],.keyword "center"]
  #v[s.get 0 (ident "center"),s.get 1 (ident "center")]

def positionAxes (v : Value) : Vector Value 2 :=
  match v.flatten with
  | [] => #v[zeroPercent,zeroPercent]
  | [a] => if isVertical a then #v[ident "center",a] else #v[a,ident "center"]
  | [a,b] => if isVertical a || isHorizontal b then #v[b,a] else #v[a,b]
  | _ => positionEdges v

def backgroundPosition : Shorthand :=
  ⟨"background-position",["background-position-x","background-position-y"],fun v =>
    v.layered positionAxes⟩

/-- The shares of one background: image, position with size, repetition, attachment, origin, clip and
color. -/
def backgroundShares (v : Value) : Shares :=
  v.share [.type "bg-image",positionNotation "bg-position",.type "repeat-style",.type "attachment",
    .type "visual-box",.type "visual-box",.type "color"]

def backgroundLayer (v : Value) : Vector Value 8 :=
  let s := backgroundShares v
  let axes := ((positionPart (s.get? 1) 0).map positionAxes).getD #v[zeroPercent,zeroPercent]
  #v[s.get 0 (ident "none"),axes[0],axes[1],(positionPart (s.get? 1) 1).getD (ident "auto"),
    s.get 2 (ident "repeat"),s.get 3 (ident "scroll"),s.get 4 (ident "padding-box"),
    ((s.get? 5).or (s.get? 4)).getD (ident "border-box")]

def backgroundColor (v : Value) : Value :=
  ((v.layers.filterMap fun layer => (backgroundShares layer).get? 6).getLast?).getD
    (ident "transparent")

def background : Shorthand :=
  ⟨"background",
    ["background-image","background-position-x","background-position-y","background-size",
     "background-repeat","background-attachment","background-origin","background-clip",
     "background-color"],fun v => v.layered backgroundLayer ++ #v[backgroundColor v]⟩

end StyleExpansion.Shorthand
