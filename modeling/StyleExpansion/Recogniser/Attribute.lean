import StyleExpansion.Recogniser.Fault
import StyleExpansion.Text.Case

/-! # Attribute selectors

The contents of the square brackets of a selector: a name, which a namespace may qualify, then
possibly a comparison, a value and a letter for its case.
-/
namespace StyleExpansion.Selector

/-- How far an attribute selector has been read. -/
inductive AttributeStage
  | start
  | qualifier
  | star
  | bar
  | named
  | compared
  | valued
  | flagged
deriving Repr,DecidableEq

namespace AttributeStage

def afterName : Token → Except Cause AttributeStage
  | .space => .ok named
  | .delim '=' => .ok compared
  | .comparison _ => .ok compared
  | t => .error (.attributeOperator t)

def next (s : AttributeStage) (t : Token) : Except Cause AttributeStage :=
  match s,t with
  | start,.space => .ok start
  | start,.ident _ => .ok qualifier
  | start,.delim '*' => .ok star
  | start,.delim '|' => .ok bar
  | qualifier,.delim '|' => .ok bar
  | star,.delim '|' => .ok bar
  | bar,.ident _ => .ok named
  | qualifier,t => afterName t
  | named,t => afterName t
  | compared,.space => .ok compared
  | compared,.ident _ => .ok valued
  | compared,.quoted _ => .ok valued
  | compared,t => .error (.attributeValue t)
  | valued,.space => .ok valued
  | valued,.ident name =>
    if Text.isOneOf ["i","s"] name then .ok flagged else .error (.unexpected (.ident name))
  | flagged,.space => .ok flagged
  | valued,t => .error (.unexpected t)
  | flagged,t => .error (.unexpected t)
  | _,t => .error (.attributeName t)

def isWhole : AttributeStage → Bool
  | qualifier => true
  | named => true
  | valued => true
  | flagged => true
  | _ => false

def fault (s : AttributeStage) : List Component → Option Fault
  | [] => if s.isWhole then none else some ⟨.unfinished,0⟩
  | c :: cs =>
    if c.isComment then fault s cs
    else match s.next c.head with
      | .error cause => some (Component.faultAt cause (c :: cs))
      | .ok u => fault u cs

end AttributeStage

def attributeFault (contents : List Component) : Option Fault :=
  AttributeStage.start.fault contents

end StyleExpansion.Selector
