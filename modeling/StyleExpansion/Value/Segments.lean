import StyleExpansion.Value

/-! # Segments of a value

Splitting the nodes of a value at an operator, and joining values with one. Splitting keeps empty
segments, of which there is one more than there are operators; some readers drop them afterwards.
-/
namespace StyleExpansion.Value

/-- The runs of nodes between the operators of one symbol. -/
def runs (symbol : String) : List Value → List (List Value)
  | [] => [[]]
  | v :: vs =>
    if v.isOperator symbol then [] :: runs symbol vs
    else match runs symbol vs with
      | r :: rs => (v :: r) :: rs
      | [] => [[v]]

/-- The segments of a value between the operators of one symbol, the empty ones among them. -/
def allSegments (symbol : String) (v : Value) : List Value := (runs symbol v.flatten).map list

/-- The segments of a value that are not empty. -/
def segments (symbol : String) (v : Value) : List Value :=
  (allSegments symbol v).filter fun s => !s.isEmpty

def interleave (symbol : String) : List Value → List Value
  | [] => []
  | [v] => [v]
  | v :: w :: vs => v :: operator symbol :: interleave symbol (w :: vs)

def join (symbol : String) (vs : List Value) : Value := list (interleave symbol vs)

theorem runs_ne_nil (symbol : String) (vs : List Value) : runs symbol vs ≠ [] := by
  cases vs with
  | nil => simp [runs]
  | cons v vs =>
    rw [runs]
    split
    · simp
    · split <;> simp

end StyleExpansion.Value
