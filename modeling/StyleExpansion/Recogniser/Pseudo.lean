import StyleExpansion.Selector
import StyleExpansion.Recogniser.Index
import StyleExpansion.Recogniser.Intact

/-! # Pseudo-classes and pseudo-elements

Which pseudo-classes may follow which pseudo-element, and what the arguments of a functional one are.
Names that are not known count as pseudo-classes and pseudo-elements without rules of their own.
-/
namespace StyleExpansion.Selector

/-- A known pseudo-element, by what may follow it. -/
inductive Element
  | ordinary
  | scrollbar
  | part
  | slotted
deriving Repr,DecidableEq

namespace Element

def scrollbars : List String :=
  ["-webkit-scrollbar","-webkit-scrollbar-button","-webkit-scrollbar-track",
   "-webkit-scrollbar-track-piece","-webkit-scrollbar-thumb","-webkit-scrollbar-corner",
   "-webkit-resizer"]

def ordinaries : List String :=
  ["before","after","first-line","first-letter","cue","cue-region","selection","-moz-selection",
   "placeholder","-webkit-input-placeholder","-moz-placeholder","-ms-input-placeholder","marker",
   "backdrop","-webkit-backdrop","file-selector-button","-webkit-file-upload-button","-ms-browse",
   "view-transition"]

def functions : List String :=
  ["cue","cue-region","view-transition-group","view-transition-image-pair","view-transition-old",
   "view-transition-new"]

def ofName? (name : String) : Option Element :=
  if Text.isOneOf scrollbars name then some scrollbar
  else if Text.isOneOf ordinaries name then some ordinary
  else none

def ofCall? (name : String) : Option Element :=
  if Text.sameName name "part" then some part
  else if Text.sameName name "slotted" then some slotted
  else if Text.isOneOf functions name then some ordinary
  else none

def allowsElement : Option Element → Bool
  | none => true
  | some part => true
  | some slotted => true
  | some _ => false

def userActions : List String := ["hover","active","focus","focus-within","focus-visible"]

def scrollbarParts : List String :=
  ["horizontal","vertical","decrement","increment","start","end","double-button","single-button",
   "no-button","corner-present","window-inactive"]

def scrollbarStates : List String := ["enabled","disabled","hover","active"]

def objection? (e : Option Element) (name : String) : Option Cause :=
  match e with
  | some scrollbar =>
    if Text.isOneOf (scrollbarParts ++ scrollbarStates) name then none else some .scrollbarState
  | some ordinary => if Text.isOneOf userActions name then none else some .pseudoClassOrder
  | some slotted => some .selectorState
  | _ => if Text.isOneOf scrollbarParts name then some .scrollbarPart else none

end Element

/-- What a list of selectors may hold. -/
structure Scope where
  relative : Bool
  elements : Bool
  combinators : Bool
  several : Bool
deriving Repr,DecidableEq

namespace Scope

/-- The selectors of a rule, those of a nested rule being relative. -/
def rule (relative : Bool) : Scope := ⟨relative,true,true,true⟩

def inner : Scope := ⟨false,false,true,true⟩

def compound : Scope := ⟨false,false,false,false⟩

def single : Scope := ⟨false,true,true,false⟩

end Scope

/-- What the arguments of a functional pseudo-class or pseudo-element are. -/
inductive Arguments
  | anything
  | intact
  | words
  | listed (isItem : Component → Bool)
  | selectors (scope : Scope)
  | index (hasSelectors : Bool)

namespace Arguments

def forgiving : List String := ["is","where","has","-webkit-any","-moz-any"]

def ofClass (name : String) : Arguments :=
  if Text.isOneOf forgiving name then anything
  else if Text.sameName name "not" then selectors .inner
  else if Text.isOneOf ["nth-child","nth-last-child"] name then index true
  else if Text.isOneOf ["nth-of-type","nth-last-of-type","nth-col","nth-last-col"] name then
    index false
  else if Text.sameName name "host" then selectors .compound
  else if Text.sameName name "lang" then listed fun c => c.isName || c.isQuoted
  else if Text.sameName name "dir" then listed (Component.isIdent (Text.isOneOf ["ltr","rtl"]))
  else intact

def ofElement (name : String) : Arguments :=
  if Text.sameName name "part" then words
  else if Text.sameName name "slotted" then selectors .compound
  else if Text.isOneOf ["cue","cue-region"] name then selectors .single
  else intact

def fault (a : Arguments) (cs : List Component) : Option Fault :=
  match a with
  | intact => Component.broken cs
  | words =>
    match (Component.meaningful cs).find? fun c => !c.isName with
    | some c => some (Component.faultAt (.unexpected c.head) cs)
    | none => if Component.allSkipped cs then some ⟨.unfinished,0⟩ else none
  | listed p =>
    if (splitAt Component.isComma cs).all (Component.isSole p) then none else some ⟨.unfinished,0⟩
  | _ => none

end Arguments

end StyleExpansion.Selector
