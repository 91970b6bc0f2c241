import StyleExpansion.Shorthand

/-! # Shorthands of motion

Animations, transitions, motion along a path, and the timelines that drive animations.
-/
namespace StyleExpansion.Shorthand
open Value

/-- One animation. The name is the last alternative, so keywords go to the fields they belong to. -/
def animationLayer (v : Value) : Vector Value 8 :=
  let s := v.share [.type "time",.type "easing-function",.type "time",
    .type "single-animation-iteration-count",.type "single-animation-direction",
    .type "single-animation-fill-mode",.type "single-animation-play-state",
    .oneOf [.keyword "none",.type "keyframes-name"]]
  #v[s.get 7 (ident "none"),s.get 0 (dimension "0" "s"),s.get 1 (ident "ease"),
    s.get 2 (dimension "0" "s"),s.get 3 (number "1"),s.get 4 (ident "normal"),
    s.get 5 (ident "none"),s.get 6 (ident "running")]

def animation : Shorthand :=
  ⟨"animation",
    ["animation-name","animation-duration","animation-timing-function","animation-delay",
     "animation-iteration-count","animation-direction","animation-fill-mode",
     "animation-play-state","animation-timeline","animation-range-start","animation-range-end"],
    fun v => v.layered animationLayer ++ #v[ident "auto",ident "normal",ident "normal"]⟩

def isRangeName (v : Value) : Bool := (Pattern.type "timeline-range-name").accepts v.flatten

def isRangeOffset (v : Value) : Bool := (Pattern.type "length-percentage").accepts v.flatten

/-- The start and the end of one range. The end of a range that only names its start has that name. -/
def rangeLayer (v : Value) : Vector Value 2 :=
  let vs := v.flatten
  let size := match vs with
    | name :: offset :: _ => if isRangeName name && isRangeOffset offset then 2 else 1
    | [_] => 1
    | [] => 0
  let byName := match vs with
    | name :: _ => if isRangeName name then name else ident "normal"
    | [] => ident "normal"
  #v[ofNodes (vs.take size),ofNodesOr (vs.drop size) byName]

def animationRange : Shorthand :=
  ⟨"animation-range",["animation-range-start","animation-range-end"],fun v => v.layered rangeLayer⟩

def transitionLayer (v : Value) : Vector Value 5 :=
  let s := v.share [.type "time",.type "easing-function",.type "time",
    .type "transition-behavior-value",
    .oneOf [.keyword "none",.type "single-transition-property"]]
  #v[s.get 4 (ident "all"),s.get 0 (dimension "0" "s"),s.get 1 (ident "ease"),
    s.get 2 (dimension "0" "s"),s.get 3 (ident "normal")]

def transition : Shorthand :=
  ⟨"transition",
    ["transition-property","transition-duration","transition-timing-function","transition-delay",
     "transition-behavior"],fun v => v.layered transitionLayer⟩

/-- The longest span of a pattern at the start of the nodes as one value, and the nodes after it. -/
def takeLongest (p : Pattern) (vs : List Value) : Option Value × List Value :=
  match longestSpan p.accepts vs with
  | some k => (some (ofNodes (vs.take k)),vs.drop k)
  | none => (none,vs)

/-- A position and a path come first and in this order, the anchor after a slash. -/
def offset : Shorthand :=
  ⟨"offset",["offset-position","offset-path","offset-distance","offset-rotate","offset-anchor"],
    fun v =>
    let parts := v.allSegments "/"
    let position := takeLongest (.property "offset-position") ((parts[0]?.map flatten).getD [])
    let path := takeLongest (.property "offset-path") position.2
    let s := (list path.2).share [.property "offset-distance",.property "offset-rotate"]
    #v[position.1.getD (ident "normal"),path.1.getD (ident "none"),s.get 0 (number "0"),
      s.get 1 (ident "auto"),presentOr parts 1 (ident "auto")]⟩

def scrollTimeline : Shorthand :=
  ⟨"scroll-timeline",["scroll-timeline-name","scroll-timeline-axis"],fun v =>
    v.layered fun layer => #v[layer.nodeOr 0 (ident "none"),layer.nodeOr 1 (ident "block")]⟩

def viewTimelineLayer (v : Value) : Vector Value 3 :=
  let s := (list (v.flatten.drop 1)).share [.words ["block","inline","x","y"],
    .upTo 2 (.oneOf [.keyword "auto",.type "length-percentage"])]
  #v[v.nodeOr 0 (ident "none"),s.get 0 (ident "block"),s.get 1 (ident "auto")]

def viewTimeline : Shorthand :=
  ⟨"view-timeline",["view-timeline-name","view-timeline-axis","view-timeline-inset"],fun v =>
    v.layered viewTimelineLayer⟩

end StyleExpansion.Shorthand
