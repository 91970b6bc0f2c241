/-! # Records

The outcome of a sheet: for each selector, state and property the value that was set last, in the order
in which the keys were set first.
-/
namespace StyleExpansion

structure Record where
  selector : String
  state : Option String
  property : String
  value : String
deriving Repr,DecidableEq

namespace Record

def key (r : Record) : String × Option String × String := (r.selector,r.state,r.property)

def put : List Record → Record → List Record
  | [],r => [r]
  | s :: rs,r => if s.key = r.key then {s with value := r.value} :: rs else s :: put rs r

def putAll (rs : List Record) (new : List Record) : List Record := new.foldl put rs

theorem put_key (rs : List Record) (r : Record) :
    (put rs r).map key = if r.key ∈ rs.map key then rs.map key else rs.map key ++ [r.key] := by
  induction rs with
  | nil => simp [put]
  | cons s rs ih =>
    rw [put]
    by_cases h : s.key = r.key
    · simp [h]
      exact h
    · have h' : r.key ≠ s.key := fun e => h e.symm
      simp only [h,if_false,List.map_cons,ih,List.mem_cons,h',false_or]
      split <;> simp

end Record

end StyleExpansion
