import StyleExpansion.Expander.Session
import StyleExpansion.Recogniser.Sheet

/-! # Sessions of the running program

The program decides on sheets with the recogniser. No other module but that of the log paths is built on
this one.
-/
namespace StyleExpansion

def recogniser : Gate := fun css => (Sheet.fault? css).map (·.message css)

def Request.answer (e : Expander) (r : Request) : Answer := r.result recogniser e

def Session.start (e : Expander) : Session := .opened recogniser e

end StyleExpansion
