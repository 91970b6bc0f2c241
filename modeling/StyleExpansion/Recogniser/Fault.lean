import StyleExpansion.Component
import StyleExpansion.Text.Place

/-! # Faults of a sheet

Why a sheet is rejected as a whole, and where. A place is kept as the number of characters after it,
so that it is known without what stands before it; the end of an enclosing block and the text after
that block are added on the way out.
-/
namespace StyleExpansion

inductive Cause
  | unexpected (token : Token)
  | unfinished
  | className (token : Token)
  | pseudoName (token : Token)
  | emptySelector
  | danglingCombinator
  | afterPseudoElement (token : Token)
  | pseudoClassOrder
  | scrollbarState
  | scrollbarPart
  | selectorState
  | attributeName (token : Token)
  | attributeOperator (token : Token)
  | attributeValue (token : Token)
  | ruleName (name : String)
  | rulePrelude
  | ruleBody
  | lateImport
  | lateNamespace
deriving Repr,DecidableEq

namespace Cause

def message : Cause → String
  | unexpected t => "Unexpected token " ++ t.label
  | unfinished => "Unexpected end of input"
  | className t => "Expected identifier in class selector, got " ++ t.label
  | pseudoName t => "Invalid token in pseudo element: " ++ t.label
  | emptySelector => "Invalid empty selector"
  | danglingCombinator => "Invalid dangling combinator in selector"
  | afterPseudoElement t => "Unexpected selector after pseudo element: " ++ t.label
  | pseudoClassOrder =>
    "Invalid pseudo class after pseudo element, only user action pseudo classes " ++
      "(e.g. :hover, :active) are valid"
  | scrollbarState => "Invalid pseudo class after ::-webkit-scrollbar pseudo element"
  | scrollbarPart => "Pseudo class must be prefixed by a ::-webkit-scrollbar pseudo element"
  | selectorState => "Invalid state"
  | attributeName t => "No qualified name in attribute selector: " ++ t.label ++ "."
  | attributeOperator t => "Unexpected token in attribute selector: " ++ t.label
  | attributeValue t => "Invalid value in attribute selector: " ++ t.label
  | ruleName name => "Unknown at rule: @" ++ name
  | rulePrelude => "Invalid @ rule prelude"
  | ruleBody => "Invalid @ rule body"
  | lateImport =>
    "@import rules must precede all rules aside from @charset and @layer statements"
  | lateNamespace =>
    "@namespaces rules must precede all rules aside from @charset, @import, and @layer statements"

end Cause

structure Fault where
  cause : Cause
  left : Nat
deriving Repr,DecidableEq

namespace Fault

def within (f : Fault) (more : Nat) : Fault := {f with left := f.left + more}

def message (css : String) (f : Fault) : String :=
  let p := Text.Place.before css.toList f.left
  f.cause.message ++ " at :" ++ toString p.line ++ ":" ++ toString p.column

end Fault

namespace Component

def extent (cs : List Component) : Nat := (textOf cs).length

def faultAt (cause : Cause) (cs : List Component) : Fault := ⟨cause,extent cs⟩

def surplus (cs : List Component) : Option Fault :=
  match cs.dropWhile isSkipped with
  | [] => none
  | c :: _ => some (faultAt (.unexpected c.head) cs)

end Component

end StyleExpansion
