import StyleExpansion.Decimal.Written
import StyleExpansion.Text.Blank
import StyleExpansion.Text.Quoted
import StyleExpansion.Value

/-! # Writing values

The text of a value. Nodes are separated by one space, except that a comma follows the node before it
directly; empty lists are left out. A node that no text could stand for is reported instead.
-/
namespace StyleExpansion

/-- Why a value has no text. -/
inductive Unwritable
  | emptyIdentifier
  | notNumeric (text : String)
  | missingUnit (number : String)
  | emptyHash
  | unknownOperator (symbol : String)
  | namelessFunction
deriving Repr,DecidableEq

namespace Unwritable

def message : Unwritable → String
  | emptyIdentifier => "empty identifier"
  | notNumeric text => Text.shown text ++ " is not a number"
  | missingUnit number => "dimension " ++ number ++ " has no unit"
  | emptyHash => "empty hash"
  | unknownOperator symbol => "unsupported operator " ++ Text.shown symbol
  | namelessFunction => "function without a name"

end Unwritable

namespace Value

def operators : List String := ["/",",","+","-","*","=","<",">"]

def isNumeric (text : String) : Bool := (Decimal.Written.read? text).isSome

def quotedChar (c : Char) : List Char :=
  if c = '"' then ['\\','"'] else if c = '\\' then ['\\','\\']
  else if c = '\n' then ['\\','a',' '] else [c]

def quote (text : String) : List Char := '"' :: text.toList.flatMap quotedChar ++ ['"']

/-- A url is written between quotes if it is empty or holds one of these characters. -/
def needsQuotes (c : Char) : Bool :=
  Text.isBlank c || c = '"' || c = '\'' || c = '(' || c = ')' || c = '\\'

def urlBody (text : String) : List Char :=
  if text.isEmpty || text.toList.any needsQuotes then quote text else text.toList

def gap (isFirst : Bool) (v : Value) : List Char :=
  if isFirst || v.isOperator "," then [] else [' ']

def writeNumber (text : String) (unit : List Char) : Except Unwritable (List Char) :=
  if isNumeric text then .ok (text.toList ++ unit) else .error (.notNumeric text)

mutual
def write : Value → Except Unwritable (List Char)
  | ident name => if name.isEmpty then .error .emptyIdentifier else .ok name.toList
  | number text => writeNumber text []
  | dimension text unit =>
    if isNumeric text && unit.isEmpty then .error (.missingUnit text)
    else writeNumber text unit.toList
  | percentage text => writeNumber text ['%']
  | string text => .ok (quote text)
  | hash text => if text.isEmpty then .error .emptyHash else .ok ('#' :: text.toList)
  | url text => .ok (['u','r','l','('] ++ urlBody text ++ [')'])
  | operator symbol =>
    if operators.contains symbol then .ok symbol.toList else .error (.unknownOperator symbol)
  | function name arguments =>
    if name.isEmpty then .error .namelessFunction
    else (writeAll true arguments).map fun s => name.toList ++ '(' :: s ++ [')']
  | parens nodes => (writeAll true nodes).map fun s => '(' :: s ++ [')']
  | brackets nodes => (writeAll true nodes).map fun s => '[' :: s ++ [']']
  | list nodes => writeAll true nodes
def writeAll (isFirst : Bool) : List Value → Except Unwritable (List Char)
  | [] => .ok []
  | v :: vs =>
    if v.isEmpty then writeAll isFirst vs
    else do
      let s ← v.write
      let more ← writeAll false vs
      return gap isFirst v ++ s ++ more
end

def render (v : Value) : Except Unwritable String := v.write.map String.ofList

end Value

end StyleExpansion
