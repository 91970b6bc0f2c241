import StyleExpansion.Error
import StyleExpansion.Expansion
import StyleExpansion.PropertyName
import StyleExpansion.Record.Table
import StyleExpansion.Selector
import StyleExpansion.Sheet
import StyleExpansion.Value.Importance

/-! # Expanders

Expansion of text: of a property with a value, of the declarations of a style rule, and of a sheet. A
longhand whose value has no text is left out, a declaration whose value cannot be read sets nothing,
and a sheet that is rejected gives no records. Which sheets are rejected is not decided here.
-/
namespace StyleExpansion

/-- Decides on a sheet as a whole: why it is rejected, if it is. -/
abbrev Gate := String → Option String

/-- What counts as a selector, whether important declarations apply, and the form of property names. -/
structure Expander where
  typeSelectors : Bool := true
  importantDeclarations : Bool := true
  unprefixProperties : Bool := true
  camelCaseProperties : Bool := false
deriving Repr,DecidableEq

structure Setting where
  property : String
  value : String
deriving Repr,DecidableEq

namespace Expander

/-- The form in which a property is looked up. -/
def canonical (e : Expander) (property : String) : String :=
  if e.unprefixProperties then PropertyName.unprefixed property else PropertyName.lowered property

def outward (e : Expander) (property : String) : String :=
  if e.camelCaseProperties then PropertyName.camelCase property else property

/-- The longhands that a property with the text of a value stands for. -/
def longhands (e : Expander) (property text : String) : Except Error (List Longhand) :=
  (Value.parse text).map fun v => expand (e.canonical property) v.withoutImportance

/-- A longhand as text, unless its value has none. -/
def setting? (e : Expander) (l : Longhand) : Option Setting :=
  l.value.generate.toOption.map (⟨e.outward l.property,·⟩)

/-- The settings that a property with the text of a value stands for. -/
def expandProperty (e : Expander) (property text : String) : Except Error (List Setting) :=
  (e.longhands property text).map (List.filterMap e.setting?)

/-- The declarations of a block in the order in which they apply: the important ones last. -/
def applied (e : Expander) (ds : List Declaration) : List Declaration :=
  ds.filter (!·.important) ++ if e.importantDeclarations then ds.filter (·.important) else []

def settings (e : Expander) (d : Declaration) : List Setting :=
  ((e.expandProperty d.name d.value).toOption).getD []

def selectors (e : Expander) (r : StyleRule) : List Selector :=
  Selector.all e.typeSelectors r.prelude

def targets (e : Expander) (r : StyleRule) : List Target := (e.selectors r).filterMap (·.target)

def declarations (e : Expander) (r : StyleRule) : List Declaration :=
  e.applied (Declaration.all r.block)

/-- The records that a style rule sets, one after the other. -/
def ruleRecords (e : Expander) (r : StyleRule) : List Record :=
  let all := (e.declarations r).flatMap e.settings
  (e.targets r).flatMap fun t => all.map fun s => ⟨t.selector,t.state,s.property,s.value⟩

/-- The records that a sheet sets, one after the other. -/
def sheetRecords (e : Expander) (css : String) : List Record :=
  (Sheet.rules css).flatMap e.ruleRecords

def parseSheet (e : Expander) (gate : Gate) (css : String) : List Record :=
  if (gate css).isSome then [] else (Table.empty.putAll (e.sheetRecords css)).records.toList

end Expander

end StyleExpansion
