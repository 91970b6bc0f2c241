import StyleExpansion.Text.Printable

/-! # Quoted text

Two quotations of a text between double quotes. The visible one, for messages, writes every
character that does not show itself as an escape; the plain one, for log lines, escapes the quote,
the backslash and the three common line controls only.
-/
namespace StyleExpansion.Text

def hexDigits (n : Nat) : List Char := Nat.toDigits 16 n

def visible (c : Char) : List Char :=
  if c = '"' then ['\\','"'] else if c = '\\' then ['\\','\\']
  else if c = '\n' then ['\\','n'] else if c = '\r' then ['\\','r']
  else if c = '\t' then ['\\','t'] else if c = '\x00' then ['\\','0']
  else if isPrintable c then [c]
  else ['\\','u','\x7b'] ++ hexDigits c.toNat ++ ['\x7d']

def visiblyQuoted (s : List Char) : List Char := '"' :: s.flatMap visible ++ ['"']

def shown (s : String) : String := String.ofList (visiblyQuoted s.toList)

def plain (c : Char) : List Char :=
  if c = '\\' then ['\\','\\'] else if c = '"' then ['\\','"']
  else if c = '\n' then ['\\','n'] else if c = '\r' then ['\\','r']
  else if c = '\t' then ['\\','t'] else [c]

def plainlyQuoted (s : List Char) : List Char := '"' :: s.flatMap plain ++ ['"']

/-- The text between double quotes as a log line holds it. -/
def logged (s : String) : String := String.ofList (plainlyQuoted s.toList)

end StyleExpansion.Text
