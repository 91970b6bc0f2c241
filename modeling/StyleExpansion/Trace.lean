import StyleExpansion.Text.Quoted

/-! # Logs

What an expander notes while it works. A log takes lines, and keeps counters under their keys. A
summary writes all counters in the order of their keys and clears them. Lines stay in a buffer until
it is flushed.
-/
namespace StyleExpansion

/-- What a log is asked to do. -/
inductive Entry
  | line (text : String)
  | count (key : String) (amount : Nat)
deriving Repr,DecidableEq

inductive Event
  | sheetRejected (reason : String)
  | ruleRead (selector : String) (isTarget : Bool)
  | declarationExpanded (longhands : Nat)
  | declarationSkipped (property reason : String)
  | longhandDropped (property reason : String)
deriving Repr,DecidableEq

namespace Event

/-- An object of the log with the given fields, of which the texts are already quoted. -/
def object (fields : List (String × String)) : String :=
  "\x7b" ++ ",".intercalate (fields.map fun f => Text.logged f.1 ++ ":" ++ f.2) ++ "\x7d"

def typed (kind : String) (fields : List (String × String)) : String :=
  object (("type",Text.logged kind) :: fields)

def entries : Event → List Entry
  | sheetRejected reason =>
    [.line (typed "css.stylesheet.failed" [("reason",Text.logged reason)]),
      .count "css.stylesheet_failed" 1]
  | ruleRead selector isTarget =>
    .line (typed "css.rule" [("selector",Text.logged selector),
      ("parsed",if isTarget then "true" else "false")]) ::
      if isTarget then [] else [.count "css.selector_unparsed" 1]
  | declarationExpanded n => [.count "css.declarations" 1,.count "css.longhands" n]
  | declarationSkipped property reason =>
    [.line (typed "css.declaration.skipped"
      [("property",Text.logged property),("reason",Text.logged reason)]),
      .count "css.declaration_skipped" 1]
  | longhandDropped property reason =>
    [.line (typed "css.longhand.dropped"
      [("property",Text.logged property),("reason",Text.logged reason)]),
      .count "css.longhand.dropped" 1]

end Event

/-- The lines that wait to be flushed, and the counters in the order in which they were first raised. -/
structure Log where
  buffer : List String
  counters : List (String × Nat)
deriving Repr,DecidableEq

namespace Log

def empty : Log := ⟨[],[]⟩

def saturated (n : Nat) : Nat := min n (Nat.pow 2 64 - 1)

def raise (key : String) (amount : Nat) : List (String × Nat) → List (String × Nat)
  | [] => [(key,saturated amount)]
  | (k,n) :: cs =>
    if k = key then (k,saturated (n + amount)) :: cs else (k,n) :: raise key amount cs

def enter (log : Log) : Entry → Log
  | .line text => {log with buffer := log.buffer ++ [text]}
  | .count key amount => {log with counters := raise key amount log.counters}

def enterAll (log : Log) (entries : List Entry) : Log := entries.foldl enter log

/-- The line of a summary. -/
def summary (context : String) (counts : List (String × Nat)) : String :=
  Event.typed "debug.summary" [("context",Text.logged context),
    ("counts",Event.object (counts.map fun c => (c.1,toString c.2)))]

def sortedCounters (log : Log) : List (String × Nat) :=
  log.counters.mergeSort fun a b => decide (a.1 ≤ b.1)

def summarize (log : Log) (context : String) : Log :=
  ⟨log.buffer ++ [summary context log.sortedCounters],[]⟩

def flush (log : Log) : List String × Log := (log.buffer,{log with buffer := []})

end Log

end StyleExpansion
