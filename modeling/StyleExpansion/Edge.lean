import StyleExpansion.Value

/-! # Edges

The four edges of a box and the two edges of an axis, and how a value of fewer nodes than edges is
spread over them: a missing edge takes the value of the one opposite to it, and the right edge and the
end of an axis that of the first edge.
-/
namespace StyleExpansion

inductive BoxEdge
  | top
  | right
  | bottom
  | left
deriving Repr,DecidableEq

inductive AxisEdge
  | start
  | ending
deriving Repr,DecidableEq

namespace BoxEdge

def all : List BoxEdge := [top,right,bottom,left]

def name : BoxEdge → String
  | top => "top"
  | right => "right"
  | bottom => "bottom"
  | left => "left"

end BoxEdge

namespace AxisEdge

def all : List AxisEdge := [start,ending]

def name : AxisEdge → String
  | start => "start"
  | ending => "end"

end AxisEdge

namespace Value

def nodeOr (v : Value) (i : Nat) (default : Value) : Value := v.flatten.getD i default

def boxEdges (v : Value) : Vector Value 4 :=
  let top := v.nodeOr 0 empty
  let right := v.nodeOr 1 top
  #v[top,right,v.nodeOr 2 top,v.nodeOr 3 right]

def axisEdges (v : Value) : Vector Value 2 :=
  let start := v.nodeOr 0 empty
  #v[start,v.nodeOr 1 start]

end Value

end StyleExpansion
