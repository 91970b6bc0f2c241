import StyleExpansion.Text.Case

/-! # Values

The tree of component values. Numbers are kept as text. A list may stand anywhere and has no
brackets of its own, so two values that flatten to the same nodes are written alike.
-/
namespace StyleExpansion

inductive Value
  | ident (name : String)
  | number (text : String)
  | dimension (text unit : String)
  | percentage (text : String)
  | string (text : String)
  | hash (text : String)
  | url (text : String)
  | operator (symbol : String)
  | function (name : String) (arguments : List Value)
  | parens (nodes : List Value)
  | brackets (nodes : List Value)
  | list (nodes : List Value)
deriving Repr,Inhabited

namespace Value

def identName? : Value → Option String
  | ident name => some name
  | _ => none

/-- The value is the identifier, in any letter case. -/
def isIdent (name : String) : Value → Bool
  | ident found => Text.sameName found name
  | _ => false

def isOperator (symbol : String) : Value → Bool
  | operator found => found == symbol
  | _ => false

def isString : Value → Bool
  | string _ => true
  | _ => false

def functionName? : Value → Option String
  | function name _ => some name
  | _ => none

def isCallOf (names : List String) : Value → Bool
  | function name _ => Text.isOneOf names name
  | _ => false

mutual
/-- A list that has no node but such lists. -/
def isEmpty : Value → Bool
  | list nodes => allEmpty nodes
  | _ => false
def allEmpty : List Value → Bool
  | [] => true
  | v :: vs => v.isEmpty && allEmpty vs
end

mutual
/-- The nodes of the value in order, none of them a list. -/
def flatten : Value → List Value
  | list nodes => flattenAll nodes
  | v => [v]
def flattenAll : List Value → List Value
  | [] => []
  | v :: vs => v.flatten ++ flattenAll vs
end

def empty : Value := list []

def ofNodes : List Value → Value
  | [v] => v
  | vs => list vs

theorem isOperator_iff {symbol : String} {v : Value} :
    v.isOperator symbol = true ↔ v = operator symbol := by
  cases v with
  | operator found => simp [isOperator]
  | _ => simp [isOperator]

theorem flattenAll_eq_flatMap (vs : List Value) : flattenAll vs = vs.flatMap flatten := by
  induction vs with
  | nil => rfl
  | cons v vs ih => simp [flattenAll,ih]

theorem flatten_list (vs : List Value) : (list vs).flatten = flattenAll vs := by rw [flatten]

theorem flatten_ofNodes (vs : List Value) : (ofNodes vs).flatten = flattenAll vs := by
  unfold ofNodes
  split
  · simp [flattenAll]
  · exact flatten_list vs

/-- A value is a list, or its own only node. -/
theorem list_or_node (v : Value) :
    (∃ nodes, v = list nodes) ∨ (∀ nodes, v ≠ list nodes) ∧ v.flatten = [v] := by
  cases v with
  | list nodes => exact Or.inl ⟨nodes,rfl⟩
  | _ => exact Or.inr ⟨nofun,by simp [flatten]⟩

/-- What holds of nodes, and of lists of values of which it holds, holds of all values. -/
@[elab_as_elim]
theorem list_induction {motive : Value → Prop}
    (node : ∀ v, (∀ nodes, v ≠ list nodes) → v.flatten = [v] → motive v)
    (lists : ∀ vs, (∀ v ∈ vs, motive v) → motive (list vs)) (v : Value) : motive v := by
  rcases list_or_node v with ⟨vs,hv⟩ | ⟨hlist,hnode⟩
  · rw [hv]
    exact lists vs fun w hw => list_induction node lists w
  · exact node v hlist hnode
termination_by sizeOf v
decreasing_by
  have := List.sizeOf_lt_of_mem hw
  rw [hv,list.sizeOf_spec]
  omega

theorem isEmpty_iff (v : Value) : v.isEmpty = true ↔ v.flatten = [] := by
  induction v using list_induction with
  | node v hlist hnode =>
    rw [hnode,isEmpty.eq_2 v hlist]
    simp
  | lists vs ih =>
    rw [isEmpty,flatten_list]
    induction vs with
    | nil => simp [allEmpty,flattenAll]
    | cons v vs ihs =>
      rw [allEmpty,flattenAll,Bool.and_eq_true,List.append_eq_nil_iff,ih v List.mem_cons_self,
        ihs fun w hw => ih w (List.mem_cons_of_mem v hw)]

end Value

end StyleExpansion
