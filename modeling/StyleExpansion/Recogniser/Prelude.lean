import StyleExpansion.Recogniser.Query

/-! # Preludes of at-rules

The forms of what stands between the name of an at-rule and its block or semicolon, and of the block
that describes a custom property.
-/
namespace StyleExpansion.Prelude
open Component

def isUrlOrString : Component → Bool
  | .plain (.url _) _ => true
  | .plain (.quoted _) _ => true
  | .block (.function name) _ contents _ => Text.sameName name "url" && isSole isQuoted contents
  | _ => false

def reserved : List String := ["initial","inherit","unset","default","revert","revert-layer"]

def isOwnName (name : String) : Bool := !Text.isOneOf reserved name

def isAnimationName : Component → Bool
  | .plain (.quoted _) _ => true
  | c => isIdent (fun name => isOwnName name && !Text.sameName name "none") c

def isRound : Component → Bool
  | .block (.bracket .round) .. => true
  | _ => false

def isDotted : List Component → Bool
  | [.plain (.ident _) _] => true
  | .plain (.ident _) _ :: .plain (.delim '.') _ :: rest => isDotted rest
  | _ => false

/-- The components without comments and without white space at the ends. -/
def trimmed (cs : List Component) : List Component :=
  let inner := (cs.filter fun c => !c.isComment).dropWhile isSkipped
  (inner.reverse.dropWhile isSkipped).reverse

def isLayerName (cs : List Component) : Bool := isDotted (trimmed cs)

def pageStates : List String := ["left","right","first","last","blank"]

def arePageStates : List Component → Bool
  | [] => true
  | .plain .colon _ :: .plain (.ident name) _ :: rest =>
    Text.isOneOf pageStates name && arePageStates rest
  | _ => false

def isPageSelector (cs : List Component) : Bool :=
  match trimmed cs with
  | [] => false
  | .plain (.ident _) _ :: rest => arePageStates rest
  | other => arePageStates other

def isFamily (cs : List Component) : Bool :=
  isSole isQuoted cs || (!allSkipped cs && (meaningful cs).all isName)

def afterLayer? : List Component → Option (List Component)
  | .plain (.ident name) source :: rest =>
    some (if Text.sameName name "layer" then rest else .plain (.ident name) source :: rest)
  | .block (.function name) source contents closed :: rest =>
    if Text.sameName name "layer" then if isLayerName contents then some rest else none
    else some (.block (.function name) source contents closed :: rest)
  | rest => some rest

def afterSupports? : List Component → Option (List Component)
  | .block (.function name) source contents closed :: rest =>
    if Text.sameName name "supports" then
      if isIntact contents && !allSkipped contents then some rest else none
    else some (.block (.function name) source contents closed :: rest)
  | rest => some rest

def isImport (cs : List Component) : Bool :=
  match meaningful cs with
  | [] => false
  | c :: rest => isUrlOrString c &&
    (((afterLayer? rest).bind afterSupports?).map Query.isMediaList).getD false

def isNamespace (cs : List Component) : Bool :=
  match meaningful cs with
  | [c] => isUrlOrString c
  | [.plain (.ident _) _,c] => isUrlOrString c
  | _ => false

def isScope (cs : List Component) : Bool :=
  match meaningful cs with
  | [] => true
  | [c] => isRound c
  | [.plain (.ident name) _,c] => Text.sameName name "to" && isRound c
  | [c,.plain (.ident name) _,d] => Text.sameName name "to" && isRound c && isRound d
  | _ => false

def isAnyDocument : Component → Bool
  | .block (.function name) _ contents _ =>
    Text.sameName name "url-prefix" && (allSkipped contents || isSole isQuoted contents)
  | _ => false

def layerNames (cs : List Component) : List (List Component) :=
  if allSkipped cs then [] else splitAt isComma cs

/-- A descriptor of a custom property: its name and the components of its value. -/
def descriptor? (cs : List Component) : Option (String × List Component) :=
  match meaningful cs with
  | .plain (.ident name) _ :: .plain .colon _ :: value => some (name.toLower,value)
  | _ => none

def isSyntax : List Component → Bool
  | [.plain (.quoted _) _] => true
  | _ => false

def isUniversal : List Component → Bool
  | [.plain (.quoted text) _] => Text.trim text.toList = ['*']
  | _ => false

def isTruth : List Component → Bool
  | [.plain (.ident name) _] => Text.isOneOf ["true","false"] name
  | _ => false

/-- The block of a custom property has a syntax, whether the property inherits, and an initial value
unless every value is allowed. -/
def isDescription (contents : List Component) : Bool :=
  let parts := (splitAt isSemicolon contents).filter fun cs => !allSkipped cs
  let all := parts.filterMap descriptor?
  let value := fun name => (all.reverse.find? fun d => d.1 == name).map (·.2)
  all.length = parts.length &&
    (all.all fun d => ["syntax","inherits","initial-value"].contains d.1) &&
    ((value "syntax").map isSyntax).getD false &&
    ((value "inherits").map isTruth).getD false &&
    (((value "syntax").map isUniversal).getD false || (value "initial-value").isSome)

end StyleExpansion.Prelude
