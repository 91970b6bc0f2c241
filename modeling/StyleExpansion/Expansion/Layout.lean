import StyleExpansion.Shorthand

/-! # Shorthands of layout

Flexible boxes, columns, grids, alignment, containers and intrinsic sizes.
-/
namespace StyleExpansion.Shorthand
open Value

def flex : Shorthand :=
  ⟨"flex",["flex-grow","flex-shrink","flex-basis"],fun v =>
    if v.soleKeyword == some "auto" then #v[number "1",number "1",ident "auto"]
    else if v.soleKeyword == some "none" then #v[number "0",number "0",ident "auto"]
    else
      let s := v.share [.property "flex-grow",.property "flex-shrink",.property "flex-basis"]
      #v[s.get 0 (number "1"),s.get 1 (number "1"),s.get 2 (number "0")]⟩

def flexFlow : Shorthand :=
  ⟨"flex-flow",["flex-direction","flex-wrap"],fun v =>
    let s := v.share [.property "flex-direction",.property "flex-wrap"]
    #v[s.get 0 (ident "row"),s.get 1 (ident "nowrap")]⟩

def columns : Shorthand :=
  ⟨"columns",["column-width","column-count"],fun v =>
    let s := v.share [.property "column-width",.property "column-count"]
    #v[s.get 0 (ident "auto"),s.get 1 (ident "auto")]⟩

/-- The rows, columns and areas of a grid. Strings before the slash are areas, all else there rows. -/
def gridTemplateParts (v : Value) : Vector Value 3 :=
  let none := ident "none"
  if v.flatten.isEmpty || v.soleKeyword == some "none" then #v[none,none,none]
  else
    let sides := v.segments "/"
    let first := (sides[0]?.map flatten).getD []
    let listOr := fun (vs : List Value) => if vs.isEmpty then none else list vs
    #v[listOr (first.filter fun n => !n.isString),sides.getD 1 none,listOr (first.filter isString)]

def gridTemplate : Shorthand :=
  ⟨"grid-template",["grid-template-rows","grid-template-columns","grid-template-areas"],
    gridTemplateParts⟩

/-- What a side of a grid with automatic tracks says: the flow, and the sizes of the tracks. -/
structure AutoFlow where
  flow : Value
  tracks : Value

def autoFlow (vs : List Value) (axis : String) : Option AutoFlow :=
  if vs.any (isIdent "auto-flow") then
    some ⟨if vs.any (isIdent "dense") then list [ident axis,ident "dense"] else ident axis,
      ofNodesOr (vs.filter fun v => !v.isIdent "auto-flow" && !v.isIdent "dense") (ident "auto")⟩
  else none

def grid : Shorthand :=
  ⟨"grid",
    ["grid-template-rows","grid-template-columns","grid-template-areas","grid-auto-rows",
     "grid-auto-columns","grid-auto-flow"],fun v =>
    let sides := v.segments "/"
    let left := (sides[0]?.map flatten).getD []
    let right := (sides[1]?.map flatten).getD []
    let none := ident "none"
    match autoFlow left "row",autoFlow right "column" with
    | some a,_ => #v[none,ofNodesOr right none,none,a.tracks,ident "auto",a.flow]
    | _,some a => #v[ofNodesOr left none,none,none,ident "auto",a.tracks,a.flow]
    | _,_ => gridTemplateParts v ++ #v[ident "auto",ident "auto",ident "row"]⟩

def gridLine (name : String) : Shorthand :=
  ⟨name,[name ++ "-start",name ++ "-end"],fun v =>
    let parts := v.segments "/"
    #v[presentOr parts 0 (ident "auto"),presentOr parts 1 (ident "auto")]⟩

def gridArea : Shorthand :=
  ⟨"grid-area",["grid-row-start","grid-column-start","grid-row-end","grid-column-end"],fun v =>
    let parts := v.segments "/"
    #v[presentOr parts 0 (ident "auto"),presentOr parts 1 (ident "auto"),
      presentOr parts 2 (ident "auto"),presentOr parts 3 (ident "auto")]⟩

/-- The alignment on both axes. What the first one leaves is the second; if it leaves nothing, both
are alike, except that an aligned baseline is justified to the start where `baselineToStart`. -/
def placement (align : Pattern) (baselineToStart : Bool) (v : Value) : Vector Value 2 :=
  let vs := v.flatten
  let size := (longestSpan align.accepts vs).getD (min vs.length 1)
  let first := ofNodes (vs.take size)
  let rest := vs.drop size
  #v[first,
    if !rest.isEmpty then ofNodes rest
    else if baselineToStart && first.flatten.any (isIdent "baseline") then ident "start"
    else first]

def place (kind : String) (baselineToStart : Bool) : Shorthand :=
  ⟨"place-" ++ kind,["align-" ++ kind,"justify-" ++ kind],
    placement (.property ("align-" ++ kind)) baselineToStart⟩

def container : Shorthand :=
  ⟨"container",["container-name","container-type"],fun v =>
    let parts := v.allSegments "/"
    #v[presentOr parts 0 (ident "none"),presentOr parts 1 (ident "normal")]⟩

/-- The nodes of an intrinsic size, a leading `auto` together with the node that it belongs to. -/
def sizeGroups : List Value → List Value
  | [] => []
  | [v] => [v]
  | v :: w :: vs =>
    if v.isIdent "auto" then list [v,w] :: sizeGroups vs else v :: sizeGroups (w :: vs)

def containIntrinsicSize : Shorthand :=
  ⟨"contain-intrinsic-size",["contain-intrinsic-width","contain-intrinsic-height"],fun v =>
    let groups := sizeGroups v.flatten
    let width := groups.getD 0 empty
    #v[width,groups.getD 1 width]⟩

end StyleExpansion.Shorthand
