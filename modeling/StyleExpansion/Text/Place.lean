/-! # Places in a text

A place is a line, counted from zero, and a column, counted from one in UTF-16 units. A line ends at
a line feed, a form feed, a carriage return, or a carriage return and line feed together.
-/
namespace StyleExpansion.Text

structure Place where
  line : Nat
  column : Nat
deriving Repr,DecidableEq

namespace Place

def start : Place := ⟨0,1⟩

def units (c : Char) : Nat := if c.toNat < 0x10000 then 1 else 2

/-- The place after reading a text from the given place. -/
def after (p : Place) : List Char → Place
  | [] => p
  | '\r' :: '\n' :: r => after ⟨p.line + 1,1⟩ r
  | c :: r =>
    if c = '\n' || c = '\r' || c = '\x0c' then after ⟨p.line + 1,1⟩ r
    else after ⟨p.line,p.column + units c⟩ r

/-- The place that has `left` characters of the text after it. -/
def before (text : List Char) (left : Nat) : Place :=
  start.after (text.take (text.length - left))

end Place

end StyleExpansion.Text
