import StyleExpansion.Component
import StyleExpansion.Text.Blank
import StyleExpansion.Text.Case

/-! # Style rules of a sheet

The style rules of a sheet in their order, those inside grouping at-rules among them. Conditions are
not evaluated. The block of any other at-rule is passed over; a style rule that comes next begins
right inside that block, so its prelude holds the text of the block from there on.
-/
namespace StyleExpansion

structure StyleRule where
  prelude : String
  block : List Component

namespace Sheet

def groupingRules : List String := ["media","supports","layer","container"]

/-- What has been read since the last complete rule: nothing but skipped text, an at-rule, or the
beginning of a style rule. -/
inductive Head
  | fresh (skipped : List Char)
  | atRule (name : String)
  | style (prelude : List Char)

def Head.push (h : Head) (c : Component) : Head :=
  match h with
  | fresh skipped =>
    match c.head with
    | .space => fresh (skipped ++ c.text)
    | .comment => fresh (skipped ++ c.text)
    | .atKeyword name => atRule name
    | .semicolon => fresh []
    | .markupOpen => fresh []
    | .markupClose => fresh []
    | _ => style (skipped ++ c.text)
  | atRule name => if c.isSemicolon then fresh [] else atRule name
  | style prelude => style (prelude ++ c.text)

def ruleOf (prelude : List Char) (block : List Component) : StyleRule :=
  ⟨String.ofList (Text.trim prelude),block⟩

/-- The style rules of a list of components, given what has been read before it. -/
def rulesFrom (h : Head) : List Component → List StyleRule
  | [] => []
  | .plain t source :: cs => rulesFrom (h.push (.plain t source)) cs
  | .block kind source contents closed :: cs =>
    match kind,h with
    | .bracket .curly,.fresh skipped => ruleOf skipped contents :: rulesFrom (.fresh []) cs
    | .bracket .curly,.style prelude => ruleOf prelude contents :: rulesFrom (.fresh []) cs
    | .bracket .curly,.atRule name =>
      if Text.isOneOf groupingRules name then
        rulesFrom (.fresh []) contents ++ rulesFrom (.fresh []) cs
      else rulesFrom (.fresh (Component.textOf contents ++ Component.endText kind closed)) cs
    | _,_ => rulesFrom (h.push (.block kind source contents closed)) cs

def rules (css : String) : List StyleRule := rulesFrom (.fresh []) (Component.ofText css)

end Sheet

end StyleExpansion
