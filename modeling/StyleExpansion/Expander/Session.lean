import StyleExpansion.Expander.Events

/-! # Sessions

An expander at work with a log. A run over sheets ends with a summary, with which the buffer of the log
is flushed; the lines and the counts of a single expansion wait for the next run. What decides on sheets
and what creates files are given from outside.
-/
namespace StyleExpansion

inductive Request
  | parseCss (css : String)
  | parseStylesheets (sheets : List String)
  | expandProperty (property value : String)
deriving Repr,DecidableEq

inductive Answer
  | records (rs : List Record)
  | sheets (rss : List (List Record))
  | settings (result : Except Error (List Setting))

namespace Request

def result (gate : Gate) (e : Expander) : Request → Answer
  | parseCss css => .records (e.parseSheet gate css)
  | parseStylesheets sheets => .sheets (sheets.map (e.parseSheet gate))
  | expandProperty property value => .settings (e.expandProperty property value)

def events (gate : Gate) (e : Expander) : Request → List Event
  | parseCss css => e.sheetEvents gate css
  | parseStylesheets sheets => sheets.flatMap (e.sheetEvents gate)
  | expandProperty property value => e.propertyEvents property value

def entries (gate : Gate) (e : Expander) (r : Request) : List Entry :=
  (r.events gate e).flatMap Event.entries

def context? : Request → Option String
  | parseCss _ => some "parse_css"
  | parseStylesheets _ => some "parse_stylesheets"
  | expandProperty _ _ => none

end Request

structure Session where
  gate : Gate
  expander : Expander
  log : Log

namespace Session

def opened (gate : Gate) (e : Expander) : Session := ⟨gate,e,.empty⟩

/-- Opens a session with its log in a new file. `obstacle` says why a file cannot be created at a path,
if it cannot. -/
def create (obstacle : String → Option FileFault) (gate : Gate) (e : Expander) (path : String) :
    Except Error Session :=
  if path.isEmpty then .error .emptyLogPath
  else match obstacle path with
    | some fault => .error (.file fault)
    | none => .ok (opened gate e)

/-- The lines that reach the file while a request makes these entries, and the session after it. -/
def record (s : Session) (r : Request) (entries : List Entry) : List String × Session :=
  let log := s.log.enterAll entries
  match r.context? with
  | some context =>
    let flushed := (log.summarize context).flush
    (flushed.1,{s with log := flushed.2})
  | none => ([],{s with log})

def run (s : Session) (r : Request) : List String × Session :=
  s.record r (r.entries s.gate s.expander)

def logs (s : Session) : List Request → List (List String)
  | [] => []
  | r :: rs => (s.run r).1 :: logs (s.run r).2 rs

end Session

end StyleExpansion
