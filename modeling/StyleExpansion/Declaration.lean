import StyleExpansion.Component
import StyleExpansion.Text.Blank
import StyleExpansion.Text.Case

/-! # Declarations

A block holds declarations separated by semicolons. A declaration is a name, a colon and the text of a
value, which may end with an exclamation mark and the word `important`; anything else between two
semicolons is passed over.
-/
namespace StyleExpansion

def splitAt (p : α → Bool) : List α → List (List α)
  | [] => [[]]
  | a :: as =>
    if p a then [] :: splitAt p as
    else match splitAt p as with
      | r :: rs => (a :: r) :: rs
      | [] => [[a]]

structure Declaration where
  name : String
  value : String
  important : Bool
deriving Repr,DecidableEq

/-- The reading of a value's components. `text` is the text so far and `reach` the part of it up to
the end of the last token that means something; of a block that is its opening only. `mark` is the
reach before the exclamation mark that the importance would begin with. -/
structure ValueScan where
  text : List Char
  reach : List Char
  mark : Option (List Char)
  important : Bool

namespace ValueScan

def start : ValueScan := ⟨[],[],none,false⟩

def isImportance : Component → Bool
  | .plain (.ident name) _ => Text.sameName name "important"
  | _ => false

def step (s : ValueScan) (c : Component) : ValueScan :=
  let text := s.text ++ c.text
  let reach := s.text ++ c.headText
  if c.isSkipped then {s with text := text}
  else if c.isToken (.delim '!') then ⟨text,reach,some s.reach,false⟩
  else if s.mark.isSome && !s.important && isImportance c then ⟨text,reach,s.mark,true⟩
  else ⟨text,reach,none,false⟩

def value (s : ValueScan) : List Char :=
  match s.mark with
  | some before => if s.important then before else s.text
  | none => s.text

end ValueScan

namespace Declaration

def ofValue (name : String) (cs : List Component) : Declaration :=
  let s := cs.foldl ValueScan.step .start
  ⟨name,String.ofList (Text.trim s.value),s.important⟩

/-- The declaration that the components between two semicolons are. -/
def ofComponents? (cs : List Component) : Option Declaration :=
  match cs.dropWhile Component.isSkipped with
  | .plain (.ident name) _ :: rest =>
    match rest.dropWhile Component.isSkipped with
    | .plain .colon _ :: value => some (ofValue name value)
    | _ => none
  | _ => none

def all (block : List Component) : List Declaration :=
  (splitAt Component.isSemicolon block).filterMap ofComponents?

end Declaration

end StyleExpansion
