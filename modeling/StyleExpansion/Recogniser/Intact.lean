import StyleExpansion.PropertyName
import StyleExpansion.Recogniser.Fault

/-! # Intact text

Text of which nothing is checked but its tokens: no closing bracket without its opening one, no string
with a line break, no broken url. In the text of a value three functions are checked besides: a url
holds one string, a variable begins with a custom name, an environment variable with a name.
-/
namespace StyleExpansion

def Token.isBroken : Token → Bool
  | badString _ => true
  | badUrl _ => true
  | closing _ => true
  | _ => false

def isCustomName (name : String) : Bool := PropertyName.isCustom name.toList

namespace Component

def extentAfter (kind : Opening) (closed : Bool) (cs : List Component) : Nat :=
  (endText kind closed).length + extent cs

def broken : List Component → Option Fault
  | [] => none
  | .plain t source :: cs =>
    if t.isBroken then some (faultAt (.unexpected t) (.plain t source :: cs)) else broken cs
  | .block kind _ contents closed :: cs =>
    match broken contents with
    | some f => some (f.within (extentAfter kind closed cs))
    | none => broken cs

def isIntact (cs : List Component) : Bool := (broken cs).isNone

/-- What comes next is an identifier that passes a test; the components after it. -/
def expectIdent (p : String → Bool) (cs : List Component) : Except Fault (List Component) :=
  match cs.dropWhile isSkipped with
  | [] => .error ⟨.unfinished,0⟩
  | .plain (.ident name) _ :: rest =>
    if p name then .ok rest else .error (faultAt (.unexpected (.ident name)) cs)
  | c :: _ => .error (faultAt (.unexpected c.head) cs)

def commaOrEnd (cs : List Component) : Option Fault :=
  match cs.dropWhile isSkipped with
  | [] => none
  | c :: _ => if c.isComma then none else some (faultAt (.unexpected c.head) cs)

def isWholeNumber : Component → Bool
  | .plain (.number n) _ => n.isInteger
  | _ => false

def oneString (cs : List Component) : Option Fault :=
  match cs.dropWhile isSkipped with
  | [] => some ⟨.unfinished,0⟩
  | .plain (.quoted _) _ :: rest => surplus rest
  | c :: _ => some (faultAt (.unexpected c.head) cs)

def misused (name : String) (arguments : List Component) : Option Fault :=
  if name = "url" then oneString arguments
  else if name = "var" then
    match expectIdent isCustomName arguments with
    | .error f => some f
    | .ok rest => commaOrEnd rest
  else if name = "env" then
    match expectIdent (fun _ => true) arguments with
    | .error f => some f
    | .ok rest => commaOrEnd (rest.dropWhile fun c => c.isSkipped || c.isWholeNumber)
  else none

def valueFault : List Component → Option Fault
  | [] => none
  | .plain t source :: cs =>
    if t.isBroken then some (faultAt (.unexpected t) (.plain t source :: cs)) else valueFault cs
  | .block (.function name) _ contents closed :: cs =>
    match misused name contents <|> valueFault contents with
    | some f => some (f.within (extentAfter (.function name) closed cs))
    | none => valueFault cs
  | .block (.bracket kind) _ contents closed :: cs =>
    match valueFault contents with
    | some f => some (f.within (extentAfter (.bracket kind) closed cs))
    | none => valueFault cs

end Component

end StyleExpansion
