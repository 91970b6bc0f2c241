import StyleExpansion.Declaration
import StyleExpansion.Recogniser.Intact

/-! # Conditions of at-rules

A condition is a part, a negated part, or parts that are all joined by `and` or all by `or`. A part of
a media or container condition is a condition or a feature between round brackets; any intact block or
function is a part of a supports condition.
-/
namespace StyleExpansion

/-- How far a condition has been read. `either` tells whether `or` may occur. -/
inductive Clause
  | start (either : Bool)
  | negated
  | first (either : Bool)
  | wanting (word : String)
  | more (word : String)
  | closed
deriving Repr,DecidableEq

namespace Clause

def part? : Clause → Option Clause
  | start either => some (first either)
  | negated => some closed
  | wanting word => some (more word)
  | _ => none

def word? (c : Clause) (name : String) : Option Clause :=
  match c with
  | start _ => if Text.sameName name "not" then some negated else none
  | first either =>
    if Text.sameName name "and" then some (wanting "and")
    else if either && Text.sameName name "or" then some (wanting "or")
    else none
  | more word => if Text.sameName name word then some (wanting word) else none
  | _ => none

def isWhole : Clause → Bool
  | first _ => true
  | more _ => true
  | closed => true
  | _ => false

end Clause

namespace Query
open Component

def afterValue? : List Component → Option (List Component)
  | .plain (.number _) _ :: .plain (.delim '/') _ :: .plain (.number _) _ :: rest => some rest
  | .plain (.number _) _ :: rest => some rest
  | .plain (.dimension _ _) _ :: rest => some rest
  | .plain (.ident _) _ :: rest => some rest
  | .block (.function _) _ contents _ :: rest => if isIntact contents then some rest else none
  | _ => none

def order? : List Component → Option (Char × List Component)
  | .plain (.delim '<') _ :: .plain (.delim '=') _ :: rest => some ('<',rest)
  | .plain (.delim '>') _ :: .plain (.delim '=') _ :: rest => some ('>',rest)
  | .plain (.delim '<') _ :: rest => some ('<',rest)
  | .plain (.delim '>') _ :: rest => some ('>',rest)
  | .plain (.delim '=') _ :: rest => some ('=',rest)
  | _ => none

def isValue (cs : List Component) : Bool :=
  match afterValue? cs with
  | some [] => true
  | _ => false

def isNamed : List Component → Bool
  | [.plain (.ident _) _] => true
  | .plain (.ident _) _ :: .plain .colon _ :: rest => isValue rest
  | .plain (.ident _) _ :: rest =>
    match order? rest with
    | some (_,value) => isValue value
    | none => false
  | _ => false

def isSecondOrder (mark : Char) (cs : List Component) : Bool :=
  match order? cs with
  | some (other,value) => mark = other && mark != '=' && isValue value
  | none => false

/-- A value compared with a feature, and possibly the feature with another value. -/
def isCompared (cs : List Component) : Bool :=
  match (afterValue? cs).bind order? with
  | some (mark,.plain (.ident _) _ :: rest) => rest.isEmpty || isSecondOrder mark rest
  | _ => false

def isFeature (cs : List Component) : Bool := isNamed (meaningful cs) || isCompared (meaningful cs)

/-- What a condition is about. -/
inductive Subject
  | media
  | container
  | supports
deriving Repr,DecidableEq

def isCondition (about : Subject) (s : Clause) : List Component → Bool
  | [] => s.isWhole
  | .plain t _ :: cs =>
    if t.isSkipped then isCondition about s cs
    else match t with
      | .ident name =>
        match s.word? name with
        | some u => isCondition about u cs
        | none => false
      | _ => false
  | .block kind _ contents _ :: cs =>
    match s.part? with
    | none => false
    | some u =>
      (match about,kind with
        | .supports,.bracket .round => isIntact contents
        | .supports,.function _ => isIntact contents
        | .container,.function name =>
          Text.isOneOf ["style","scroll-state"] name && isIntact contents
        | _,.bracket .round => isCondition about (.start true) contents || isFeature contents
        | _,_ => false) && isCondition about u cs

def isAfterType (cs : List Component) : Bool :=
  match cs with
  | [] => true
  | .plain (.ident word) _ :: rest =>
    Text.sameName word "and" && isCondition .media (.start false) rest
  | _ => false

def isMediaQuery (cs : List Component) : Bool :=
  match meaningful cs with
  | .plain (.ident a) source :: rest =>
    if Text.isOneOf ["not","only"] a then
      match rest with
      | .plain (.ident _) _ :: more => isAfterType more
      | _ => isCondition .media (.start true) (.plain (.ident a) source :: rest)
    else isAfterType rest
  | other => isCondition .media (.start true) other

def isMediaList (cs : List Component) : Bool :=
  allSkipped cs || (splitAt isComma cs).all isMediaQuery

def isSupports (cs : List Component) : Bool := isCondition .supports (.start true) cs

def isContainer (cs : List Component) : Bool :=
  match meaningful cs with
  | .plain (.ident name) source :: rest =>
    if Text.isOneOf ["none","and","or","not"] name then
      isCondition .container (.start true) (.plain (.ident name) source :: rest)
    else rest.isEmpty || isCondition .container (.start true) rest
  | other => isCondition .container (.start true) other

end Query

end StyleExpansion
