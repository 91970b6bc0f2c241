import StyleExpansion.Recogniser.Prelude

/-! # At-rules

What an at-rule has before its block or its semicolon, and what its block holds. A name that is not
known, or not known where it stands, is an at-rule without rules of its own.
-/
namespace StyleExpansion

/-- Where a rule stands: the body of a sheet, a group of rules, a style rule, or a block that holds
declarations only, which for a page may include its margin boxes. -/
inductive Level
  | sheet
  | group
  | style
  | page
  | declarations
deriving Repr,DecidableEq

namespace Level

def hasDeclarations : Level → Bool
  | sheet => false
  | group => false
  | _ => true

def hasRules : Level → Bool
  | page => false
  | declarations => false
  | _ => true

end Level

inductive AtRule
  | charset
  | imports
  | namespaces
  | property
  | media
  | supports
  | container
  | layer
  | scope
  | startingStyle
  | document
  | fontFace
  | fontPalette
  | fontFeatures
  | viewTransition
  | keyframes
  | viewport
  | counterStyle
  | page
  | marginBox
  | unknown
deriving Repr,DecidableEq

/-- What the block of an at-rule holds. -/
inductive BlockContent
  | ignored
  | value
  | descriptors
  | rules (level : Level)
deriving Repr,DecidableEq

namespace AtRule
open Component Prelude

def sheetRules : List (String × AtRule) :=
  [("charset",charset),("import",imports),("namespace",namespaces),("property",property)]

def groups : List (String × AtRule) :=
  [("media",media),("supports",supports),("container",container),("layer",layer),("scope",scope),
   ("starting-style",startingStyle),("-moz-document",document)]

def definitions : List (String × AtRule) :=
  [("font-face",fontFace),("font-palette-values",fontPalette),
   ("font-feature-values",fontFeatures),("view-transition",viewTransition),
   ("keyframes",keyframes),("-webkit-keyframes",keyframes),("-moz-keyframes",keyframes),
   ("-o-keyframes",keyframes),("-ms-keyframes",keyframes),("viewport",viewport),
   ("-ms-viewport",viewport),("counter-style",counterStyle),("page",page)]

def marginBoxes : List String :=
  ["top-left-corner","top-left","top-center","top-right","top-right-corner","left-top",
   "left-middle","left-bottom","right-top","right-middle","right-bottom","bottom-left-corner",
   "bottom-left","bottom-center","bottom-right","bottom-right-corner"]

def lookup (table : List (String × AtRule)) (name : String) : Option AtRule :=
  (table.find? fun e => Text.sameName e.1 name).map (·.2)

def ofName? (level : Level) (name : String) : Option AtRule :=
  match level with
  | .sheet =>
    some ((lookup (sheetRules ++ groups ++ definitions) name).getD unknown)
  | .group => some ((lookup (groups ++ definitions) name).getD unknown)
  | .style =>
    if (lookup definitions name).isSome then none else some ((lookup groups name).getD unknown)
  | .page => if Text.isOneOf marginBoxes name then some marginBox else none
  | .declarations => none

/-- The text before the block or the semicolon is well formed; of the other at-rules it is checked
otherwise. -/
def isPrelude (r : AtRule) (cs : List Component) : Bool :=
  match r with
  | charset => isSole isQuoted cs
  | imports => isImport cs
  | namespaces => isNamespace cs
  | property => isSole (isIdent isCustomName) cs
  | media => Query.isMediaList cs
  | supports => Query.isSupports cs
  | container => Query.isContainer cs
  | layer => (layerNames cs).all isLayerName
  | scope => isScope cs
  | document => isSole isAnyDocument cs
  | fontPalette => isSole (isIdent isCustomName) cs
  | fontFeatures => (splitAt isComma cs).all isFamily
  | keyframes => isSole isAnimationName cs
  | counterStyle => isSole (isIdent isOwnName) cs
  | page => allSkipped cs || (splitAt isComma cs).all isPageSelector
  | _ => true

def preludeFault (r : AtRule) (cs : List Component) : Option Fault :=
  match r with
  | unknown => valueFault cs
  | startingStyle => surplus cs
  | fontFace => surplus cs
  | viewTransition => surplus cs
  | viewport => surplus cs
  | marginBox => surplus cs
  | other => if other.isPrelude cs then none else some (faultAt .rulePrelude cs)

/-- What the block holds, if there may be one. A style rule passes its level on to its groups. -/
def content? (r : AtRule) (level : Level) (prelude : List Component) : Option BlockContent :=
  let group := BlockContent.rules (if level = .style then .style else .group)
  match r with
  | charset => none
  | imports => none
  | namespaces => none
  | property => some .descriptors
  | layer => if (layerNames prelude).length ≤ 1 then some group else none
  | fontFace => some .ignored
  | fontPalette => some .ignored
  | fontFeatures => some .ignored
  | viewTransition => some .ignored
  | keyframes => some .ignored
  | viewport => some (.rules .declarations)
  | counterStyle => some (.rules .declarations)
  | marginBox => some (.rules .declarations)
  | page => some (.rules .page)
  | unknown => some .value
  | _ => some group

def isStatement (r : AtRule) (level : Level) (prelude : List Component) : Bool :=
  match r with
  | charset => true
  | imports => true
  | namespaces => true
  | unknown => true
  | layer => level != .style && !(layerNames prelude).isEmpty
  | _ => false

end AtRule

end StyleExpansion
