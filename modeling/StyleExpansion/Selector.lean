import StyleExpansion.Declaration

/-! # Selectors

A selector counts if it is one class or one type, followed by pseudo-classes and pseudo-elements only,
which make up its state. The selectors of a list, separated by commas, are read one by one.
-/
namespace StyleExpansion

/-- What a selector selects: a class or a type by name, and the state it must be in. -/
structure Target where
  selector : String
  state : Option String
deriving Repr,DecidableEq

/-- A selector of a list: its text, and its target if it is simple enough. -/
structure Selector where
  text : String
  target : Option Target
deriving Repr,DecidableEq

namespace Selector

def oneColonElements : List String := ["before","after","first-line","first-letter"]

def pseudoText (isElement : Bool) (name : String) : List Char :=
  let lower := name.toLower
  (if isElement || oneColonElements.contains lower then [':',':'] else [':']) ++ lower.toList

def callText (arguments : List Component) : List Char :=
  '(' :: Text.trim (Component.textOf arguments) ++ [')']

def readPseudo (isElement : Bool) : Component → Option (List Char)
  | .plain (.ident name) _ => some (pseudoText isElement name)
  | .block (.function name) _ arguments _ => some (pseudoText isElement name ++ callText arguments)
  | _ => none

def targetOf (selector : String) (state : List Char) : Target :=
  ⟨selector,if state.isEmpty then none else some (String.ofList state)⟩

/-- The loop over the components of a selector, with the class or the type found and the state so far. The
end of the selector is an error where a name must follow; anything else out of place gives no target. -/
def scan (types : Bool) : Option String → List Char → List Component → Except Unit (Option Target)
  | base,state,[] => .ok (base.map (targetOf · state))
  | base,state,.plain (.delim '.') _ :: cs =>
    if base.isNone && state.isEmpty then
      match cs with
      | [] => .error ()
      | .plain (.ident name) _ :: rest => scan types (some name) state rest
      | _ => .ok none
    else .ok none
  | base,state,.plain (.ident name) _ :: cs =>
    if base.isNone && state.isEmpty && types then scan types (some name.toLower) state cs else .ok none
  | base,state,.plain .colon _ :: cs =>
    match cs with
    | [] => .error ()
    | .plain .colon _ :: [] => .error ()
    | .plain .colon _ :: c :: rest =>
      match readPseudo true c with
      | some text => scan types base (state ++ text) rest
      | none => .ok none
    | c :: rest =>
      match readPseudo false c with
      | some text => scan types base (state ++ text) rest
      | none => .ok none
  | base,state,.plain .space _ :: cs =>
    if Component.allSkipped cs then .ok (base.map (targetOf · state)) else .ok none
  | _,_,_ => .ok none

/-- The components of a selector from its first one on that is no white space, without comments. -/
def uncommented (cs : List Component) : List Component :=
  (cs.filter fun c => !c.isComment).dropWhile Component.isSkipped

/-- The target of a selector, if the loop finds one. -/
def readTarget (types : Bool) (cs : List Component) : Option Target :=
  (scan types none [] (uncommented cs)).toOption.join

def ofComponents (types : Bool) (cs : List Component) : Selector :=
  ⟨String.ofList (Text.trim (Component.textOf cs)),readTarget types cs⟩

/-- The parts of a list of selectors. What follows the last comma is one only if it is more than white
space and comments. -/
def parts (cs : List Component) : List (List Component) :=
  let all := splitAt Component.isComma cs
  if Component.allSkipped (all.getLast?.getD []) then all.dropLast else all

/-- The selectors of a list; a blank one does not count. -/
def all (types : Bool) (text : String) : List Selector :=
  ((parts (Component.ofText text)).map (ofComponents types)).filter fun s => !s.text.isEmpty

end Selector

end StyleExpansion
