import StyleExpansion.Component
import StyleExpansion.Text.Case

/-! # Index formulas

The argument of a pseudo-class that counts elements: a whole number, the word `odd` or `even`, or a
multiple of `n` with an optional whole number added or subtracted.
-/
namespace StyleExpansion.Selector

/-- How far a formula has been read. -/
inductive Formula
  | start
  | plus
  | step
  | signed
  | complete
deriving Repr,DecidableEq

namespace Formula

def isStepMinus (name : List Char) : Bool :=
  match name with
  | c :: '-' :: d :: ds => c.toLower = 'n' && (d :: ds).all Char.isDigit
  | _ => false

def ofStep? (name : List Char) : Option Formula :=
  if name.map Char.toLower = ['n'] then some step
  else if name.map Char.toLower = ['n','-'] then some signed
  else if isStepMinus name then some complete
  else none

def ofName? (name : List Char) : Option Formula :=
  match name with
  | '-' :: rest => ofStep? rest
  | _ => ofStep? name

/-- The formula after one more token. -/
def next? (f : Formula) (t : Token) : Option Formula :=
  match f,t with
  | start,.number n => if n.isInteger then some complete else none
  | start,.dimension n unit => if n.isInteger then ofStep? unit.toList else none
  | start,.ident name =>
    if Text.isOneOf ["even","odd"] name then some complete else ofName? name.toList
  | start,.delim '+' => some plus
  | start,.space => some start
  | plus,.ident name => ofStep? name.toList
  | step,.delim '+' => some signed
  | step,.delim '-' => some signed
  | step,.number n => if n.isInteger && n.signed then some complete else none
  | step,.space => some step
  | signed,.number n => if n.isInteger && !n.signed then some complete else none
  | signed,.space => some signed
  | complete,.space => some complete
  | _,_ => none

def isWhole : Formula → Bool
  | step => true
  | complete => true
  | _ => false

end Formula

end StyleExpansion.Selector
