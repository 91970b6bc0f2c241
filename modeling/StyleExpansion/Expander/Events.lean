import StyleExpansion.Expander
import StyleExpansion.Trace

/-! # Events of an expander

What a log takes note of while an expander works, in the order in which it happens. The records do not
depend on it.
-/
namespace StyleExpansion.Expander

/-- The events of writing longhands: those that have no text. -/
def dropped (ls : List Longhand) : List Event :=
  ls.filterMap fun l =>
    match l.value.generate with
    | .ok _ => none
    | .error cause => some (.longhandDropped l.property cause.message)

def propertyEvents (e : Expander) (property text : String) : List Event :=
  match e.longhands property text with
  | .ok ls => dropped ls
  | .error _ => []

def declarationEvents (e : Expander) (d : Declaration) : List Event :=
  match e.longhands d.name d.value with
  | .ok ls => dropped ls ++ [.declarationExpanded (ls.filterMap e.setting?).length]
  | .error cause => [.declarationSkipped d.name cause.message]

def ruleEvents (e : Expander) (r : StyleRule) : List Event :=
  (e.selectors r).map (fun s => .ruleRead s.text s.target.isSome) ++
    if (e.targets r).isEmpty then [] else (e.declarations r).flatMap e.declarationEvents

def sheetEvents (e : Expander) (gate : Gate) (css : String) : List Event :=
  match gate css with
  | some reason => [.sheetRejected reason]
  | none => (Sheet.rules css).flatMap e.ruleEvents

end StyleExpansion.Expander
