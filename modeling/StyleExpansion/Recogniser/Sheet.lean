import StyleExpansion.Recogniser.Declaration
import StyleExpansion.Recogniser.Selector
import StyleExpansion.Recogniser.AtRule

/-! # The recogniser of sheets

What the running program decides on sheets with; no theory is built on it. A sheet is accepted or
rejected as a whole, one fault rejects it. The components of a block are taken
in one by one. What begins with an identifier inside a style rule is a declaration, and if it is none,
a nested rule up to its block.
-/
namespace StyleExpansion

/-- The order of rules that must come first: how far a sheet has come. -/
inductive Order
  | untouched
  | start
  | layers
  | imports
  | namespaces
  | body
deriving Repr,DecidableEq

namespace Order

def rank : Order → Nat
  | untouched => 0
  | start => 0
  | layers => 1
  | imports => 2
  | namespaces => 3
  | body => 4

/-- How far a sheet has come after an at-rule without a block. -/
def after (o : Order) : AtRule → Order
  | .charset => if o = untouched then start else o
  | .imports => imports
  | .namespaces => namespaces
  | .layer => if o.rank ≤ layers.rank then layers else body
  | _ => body

def objection? (o : Order) : AtRule → Option Cause
  | .imports => if o.rank ≤ imports.rank then none else some .lateImport
  | .namespaces => if o.rank ≤ namespaces.rank then none else some .lateNamespace
  | _ => none

end Order

namespace Sheet
open Component

/-- What has been read of the item at hand: nothing, the beginning of a text that is passed over up
to a semicolon, or the beginning of an at-rule, a declaration or a rule. -/
inductive Item
  | fresh
  | skipping
  | atRule (name : String) (prelude : List Component)
  | declaration (name : String) (first : Component) (rest : List Component)
  | rule (prelude : List Component)

structure Reader where
  level : Level
  order : Order
  item : Item

namespace Reader

def start (level : Level) : Reader := ⟨level,.untouched,.fresh⟩

def done (r : Reader) (o : Order) : Reader := ⟨r.level,o,.fresh⟩

def on (r : Reader) (i : Item) : Reader := {r with item := i}

def begin (r : Reader) (c : Component) : Except Fault Reader :=
  let other := if r.level.hasRules then .ok (r.on (.rule [c]))
    else .error (faultAt (.unexpected c.head) [c])
  match c.head with
  | .space => .ok r
  | .comment => .ok r
  | .semicolon => if r.level = .sheet then other else .ok r
  | .markupOpen => if r.level = .sheet then .ok r else other
  | .markupClose => if r.level = .sheet then .ok r else other
  | .atKeyword name =>
    if r.level = .sheet && r.order = .untouched && Text.sameName name "charset" then
      .ok ⟨r.level,.start,.skipping⟩
    else .ok (r.on (.atRule name []))
  | .ident name => if r.level.hasDeclarations then .ok (r.on (.declaration name c [])) else other
  | _ => other

/-- The at-rule of a name with the text before its block or semicolon, if it may stand here. -/
def atRule? (r : Reader) (name : String) (prelude : List Component) : Except Fault AtRule :=
  match AtRule.ofName? r.level name with
  | none => .error (faultAt (.ruleName name) prelude)
  | some a =>
    match (r.order.objection? a).map (faultAt · prelude) <|> a.preludeFault prelude with
    | some f => .error f
    | none => .ok a

def closeAtRule (r : Reader) (name : String) (prelude : List Component) : Except Fault Reader :=
  match r.atRule? name prelude with
  | .error f => .error f
  | .ok a =>
    if a.isStatement r.level prelude then .ok (r.done (r.order.after a))
    else .error ⟨.unexpected .semicolon,0⟩

def openAtRule (r : Reader) (name : String) (prelude : List Component) :
    Except Fault BlockContent :=
  match r.atRule? name prelude with
  | .error f => .error f
  | .ok a =>
    match a.content? r.level prelude with
    | some content => .ok content
    | none => .error ⟨.ruleBody,0⟩

/-- A semicolon that ends the item at hand or belongs to it. -/
def semicolon (r : Reader) (c : Component) : Except Fault Reader :=
  match r.item with
  | .fresh => r.begin c
  | .skipping => .ok (r.done r.order)
  | .atRule name prelude => r.closeAtRule name prelude
  | .declaration name _ rest =>
    match Declaration.fault name rest with
    | some f => .error f
    | none => .ok (r.done r.order)
  | .rule prelude =>
    if r.level.hasDeclarations then .error ⟨.unexpected .semicolon,0⟩
    else .ok (r.on (.rule (prelude ++ [c])))

def push (r : Reader) (c : Component) : Except Fault Reader :=
  match r.item with
  | .fresh => r.begin c
  | .skipping => .ok r
  | .atRule name prelude => .ok (r.on (.atRule name (prelude ++ [c])))
  | .declaration name first rest => .ok (r.on (.declaration name first (rest ++ [c])))
  | .rule prelude => .ok (r.on (.rule (prelude ++ [c])))

def finish (r : Reader) : Option Fault :=
  match r.item with
  | .fresh => none
  | .skipping => none
  | .atRule name prelude =>
    match r.closeAtRule name prelude with
    | .error f => some f
    | .ok _ => none
  | .declaration name _ rest => Declaration.fault name rest
  | .rule _ => some ⟨.unfinished,0⟩

/-- What the block of a style rule holds. Such a block cannot stand where no rule can. -/
def openRule (r : Reader) (prelude : List Component) : Except Fault BlockContent :=
  if r.level.hasRules then
    match Selector.listFault (r.level = .style) prelude with
    | some f => .error f
    | none => .ok (.rules .style)
  else .error ⟨.unexpected (.opening (.bracket .curly)),0⟩

/-- What a block in curly brackets holds if it completes the item at hand. A declaration counts as the
beginning of a rule. -/
def openBlock (r : Reader) : Except Fault BlockContent :=
  match r.item with
  | .fresh => r.openRule []
  | .skipping => .ok .ignored
  | .atRule name prelude => r.openAtRule name prelude
  | .declaration _ first rest => r.openRule (first :: rest)
  | .rule prelude => r.openRule prelude

def pass (r : Reader) (block : Component) : Reader :=
  match r.item with
  | .skipping => r
  | .declaration name first rest => r.on (.declaration name first (rest ++ [block]))
  | _ => r.done .body

def isBeforeSemicolon (c : Component) : Bool := !c.isSemicolon

/-- The fault of the declaration at hand if it goes on with the given components. -/
def declarationFault (r : Reader) (more : List Component) : Option Fault :=
  match r.item with
  | .declaration name _ rest =>
    (Declaration.fault name (rest ++ more.takeWhile isBeforeSemicolon)).map
      (·.within (extent (more.dropWhile isBeforeSemicolon)))
  | _ => none

def keepsBlock (r : Reader) (more : List Component) : Bool :=
  match r.item with
  | .skipping => true
  | .declaration .. => (r.declarationFault more).isNone
  | _ => false

def fault (r : Reader) : List Component → Option Fault
  | [] => r.finish
  | .plain t source :: cs =>
    match if t = .semicolon then r.semicolon (.plain t source) else r.push (.plain t source) with
    | .error f => some (f.within (extent cs))
    | .ok s => fault s cs
  | .block kind source contents closed :: cs =>
    let block := .block kind source contents closed
    if kind ≠ .bracket .curly then
      match r.push block with
      | .error f => some (f.within (extent cs))
      | .ok s => fault s cs
    else if r.keepsBlock (block :: cs) then fault (r.pass block) cs
    else
      let declared := r.declarationFault (block :: cs)
      match r.openBlock with
      | .error f => some (declared.getD (f.within (extent (block :: cs))))
      | .ok content =>
        let inside := match content with
          | .ignored => none
          | .value => valueFault contents
          | .descriptors =>
            if Prelude.isDescription contents then none else some ⟨.ruleBody,0⟩
          | .rules level => fault (start level) contents
        match inside with
        | some f => some (declared.getD (f.within (extentAfter kind closed cs)))
        | none => fault (r.done .body) cs

end Reader

def fault? (css : String) : Option Fault := (Reader.start .sheet).fault (Component.ofText css)

end Sheet

end StyleExpansion
