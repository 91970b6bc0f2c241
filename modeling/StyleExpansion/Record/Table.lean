import StyleExpansion.Record

/-! # Tables of records

The records that were set, with an index by which the place of a key is found.
-/
namespace StyleExpansion

structure Table where
  records : Array Record
  index : List ((String × Option String × String) × Nat)
deriving Repr

namespace Table

def empty : Table := ⟨#[],[]⟩

def place? (t : Table) (key : String × Option String × String) : Option Nat :=
  (t.index.find? fun e => e.1 == key).map (·.2)

def put (t : Table) (r : Record) : Table :=
  match t.place? r.key with
  | some i => {t with records := t.records.modify i fun s => {s with value := r.value}}
  | none => ⟨t.records.push r,(r.key,t.records.size) :: t.index⟩

def putAll (t : Table) (rs : List Record) : Table := rs.foldl put t

end Table

end StyleExpansion
