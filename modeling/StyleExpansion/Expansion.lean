import StyleExpansion.Expansion.Backgrounds
import StyleExpansion.Expansion.Borders
import StyleExpansion.Expansion.Edges
import StyleExpansion.Expansion.Fonts
import StyleExpansion.Expansion.Layout
import StyleExpansion.Expansion.Motion
import StyleExpansion.Expansion.Texts

/-! # Expansion

The shorthands in their order, and the expansion of a property into longhands, in which a shorthand
that another one sets is expanded in turn. A keyword that every property takes goes to every longhand
as it is, and an empty value unsets them all.
-/
namespace StyleExpansion
open Shorthand

def shorthands : List Shorthand :=
  boxShorthands ++ axisShorthands ++ border :: lines ++
  [outline,borderRadius,borderImage,maskBorder,font,fontSynthesis,fontVariant,flex,flexFlow,
   animation,animationRange,transition,mask,offset,scrollTimeline,viewTimeline,gridTemplate,grid,
   gridLine "grid-row",gridLine "grid-column",gridArea,whiteSpace,textWrap,background,
   backgroundPosition,textDecoration,textEmphasis,columns,listStyle] ++ pairShorthands ++
  [place "content" true,place "items" false,place "self" false,container,containIntrinsicSize,
   caret,positionTry]

namespace Shorthand

def named? (name : String) : Option Shorthand := shorthands.find? fun s => s.name == name

/-- The longhands that a property stands for, within so many levels of shorthands. -/
def longhandsWithin : Nat → String → List String
  | 0,property => [property]
  | n + 1,property =>
    match named? property with
    | none => [property]
    | some s => s.longhands.flatMap (longhandsWithin n)

def depth : Nat := 9

end Shorthand

/-- A property, in any letter case, is a shorthand. -/
def isShorthand (property : String) : Bool := (named? property.toLower).isSome

/-- The longhands that a shorthand sets in the end. -/
def longhandsOf (property : String) : Option (List String) :=
  if isShorthand property then some (longhandsWithin depth property.toLower) else none

/-- The value that all longhands of a shorthand take from it unread, if its value is of that kind. -/
def commonValue : List Value → Option Value
  | [] => some (.ident "unset")
  | [.string text] => if text.isEmpty then some (.ident "unset") else none
  | [v] => if v.isWide then some v else none
  | _ => none

/-- The longhands of a property with their values, within so many levels of shorthands. -/
def expandWithin : Nat → String → Value → List Longhand
  | 0,property,v => [⟨property,v⟩]
  | n + 1,property,v =>
    match named? property.toLower with
    | none => [⟨property,v⟩]
    | some s =>
      match commonValue v.flatten with
      | some w => (longhandsWithin depth s.name).map (⟨·,w⟩)
      | none => (s.expand v).flatMap fun l => expandWithin n l.property l.value

/-- The longhands that a property with a value stands for. -/
def expand (property : String) (v : Value) : List Longhand := expandWithin depth property v

end StyleExpansion
