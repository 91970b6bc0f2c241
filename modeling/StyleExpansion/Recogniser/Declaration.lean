import StyleExpansion.Recogniser.Intact
import StyleExpansion.Declaration
import StyleExpansion.Value.Types

/-! # The form of declarations

A declaration is a name, a colon, an intact value and possibly its importance. Only the value of a
custom property may hold a block in curly brackets.
-/
namespace StyleExpansion.Declaration
open Component

def afterImportance (cs : List Component) : List Component :=
  match cs with
  | .plain (.delim '!') _ :: rest =>
    match rest.dropWhile isSkipped with
    | c :: more => if ValueScan.isImportance c then more else cs
    | [] => cs
  | _ => cs

/-- The value of a declaration ends before an exclamation mark, and unless the property is a custom
one before a block. -/
def endsValue (name : String) : Component → Bool
  | .plain (.delim '!') _ => true
  | .block (.bracket .curly) .. => !isCustomName name
  | _ => false

def wideFault (value : List Component) : Option Fault :=
  match expectIdent (Text.isOneOf Value.wideKeywords) value with
  | .error f => some f
  | .ok rest => surplus rest

def fault (name : String) (cs : List Component) : Option Fault :=
  match cs.dropWhile isSkipped with
  | [] => some ⟨.unfinished,0⟩
  | .plain .colon _ :: value =>
    let text := value.takeWhile fun c => !endsValue name c
    let rest := value.dropWhile fun c => !endsValue name c
    match if Text.sameName name "all" then wideFault text else valueFault text with
    | some f => some (f.within (extent rest))
    | none => surplus (afterImportance rest)
  | c :: _ => some (faultAt (.unexpected c.head) cs)

end StyleExpansion.Declaration
