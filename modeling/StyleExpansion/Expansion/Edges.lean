import StyleExpansion.Shorthand

/-! # Shorthands of edges

Shorthands that set one property for every edge of a box, for both edges of an axis, or for both axes.
-/
namespace StyleExpansion.Shorthand

def ofBox (name : String) (property : String → String) : Shorthand :=
  ⟨name,BoxEdge.all.map fun e => property e.name,fun v => v.boxEdges⟩

def ofAxis (name : String) (property : String → String) : Shorthand :=
  ⟨name,AxisEdge.all.map fun e => property e.name,fun v => v.axisEdges⟩

def ofPair (name first second : String) : Shorthand := ⟨name,[first,second],fun v => v.axisEdges⟩

def boxFamily (name : String) : Shorthand := ofBox name fun e => name ++ "-" ++ e

def borderBoxFamily (kind : String) : Shorthand :=
  ofBox ("border-" ++ kind) fun e => "border-" ++ e ++ "-" ++ kind

def axisFamily (name : String) : Shorthand := ofAxis name fun e => name ++ "-" ++ e

def borderAxisFamily (axis kind : String) : Shorthand :=
  ofAxis ("border-" ++ axis ++ "-" ++ kind) fun e => "border-" ++ axis ++ "-" ++ e ++ "-" ++ kind

def inset : Shorthand := ofBox "inset" id

def boxShorthands : List Shorthand :=
  [boxFamily "margin",boxFamily "padding",inset,boxFamily "scroll-margin",
   boxFamily "scroll-padding",borderBoxFamily "width",borderBoxFamily "style",
   borderBoxFamily "color"]

def axisShorthands : List Shorthand :=
  [axisFamily "margin-inline",axisFamily "margin-block",axisFamily "padding-inline",
   axisFamily "padding-block",axisFamily "inset-inline",axisFamily "inset-block",
   axisFamily "scroll-margin-inline",axisFamily "scroll-margin-block",
   axisFamily "scroll-padding-inline",axisFamily "scroll-padding-block",
   borderAxisFamily "inline" "width",borderAxisFamily "inline" "style",
   borderAxisFamily "inline" "color",borderAxisFamily "block" "width",
   borderAxisFamily "block" "style",borderAxisFamily "block" "color"]

def pairShorthands : List Shorthand :=
  [ofPair "overflow" "overflow-x" "overflow-y",
   ofPair "overscroll-behavior" "overscroll-behavior-x" "overscroll-behavior-y",
   ofPair "gap" "row-gap" "column-gap",
   ofPair "grid-gap" "row-gap" "column-gap"]

end StyleExpansion.Shorthand
