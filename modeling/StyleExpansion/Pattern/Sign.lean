import StyleExpansion.Text.Blank

/-! # Signs of the pattern notation

The words and marks that a pattern is written with. Blanks separate signs and mean nothing else. A
numeric range inside a type reference is allowed and has no effect.
-/
namespace StyleExpansion.Pattern

inductive Sign
  | keyword (word : String)
  | type (name : String)
  | property (name : String)
  | function (name : String)
  | literal (symbol : String)
  | groupOpen
  | groupClose (required : Bool)
  | callClose
  | bar
  | doubleBar
  | doubleAmpersand
  | question
  | star
  | plus
  | hash
  | range (least : Nat) (most : Option Nat)
deriving Repr,DecidableEq

namespace Sign

def isWordChar (c : Char) : Bool := c.isAlphanum || c = '-' || c = '_'

def countLimit : Nat := Nat.pow 2 64

def readCount (s : List Char) : Option Nat :=
  let t := Text.trim s
  let ds := if t.head? = some '+' then t.drop 1 else t
  if ds.isEmpty || !ds.all Char.isDigit then none
  else
    let n := ds.foldl (fun n c => 10 * n + (c.toNat - 48)) 0
    if n < countLimit then some n else none

/-- The range between curly brackets: one count, or a least and a greatest one that may be missing. -/
def readRange (s : List Char) : Option Sign :=
  let low := s.takeWhile (· ≠ ',')
  match s.dropWhile (· ≠ ',') with
  | [] => (readCount low).map fun n => range n (some n)
  | _ :: high =>
    if (Text.trim high).isEmpty then (readCount low).map fun n => range n none
    else do
      let most ← readCount high
      let least ← readCount low
      return range least (some most)

def dropQuotes (s : List Char) : List Char := (s.reverse.dropWhile (· = '\'')).reverse

/-- The reference between angle brackets: a property between quotation marks, or a type. -/
def readReference (s : List Char) : Sign :=
  match Text.trim s with
  | '\'' :: r => property (String.ofList (dropQuotes r))
  | t => type (String.ofList (Text.firstWord t))

def readWord (s : List Char) : Sign × List Char :=
  let word := String.ofList (s.takeWhile isWordChar)
  match s.dropWhile isWordChar with
  | '(' :: r => (function word,r)
  | r => (keyword word,r)

/-- The sign that a text begins with, given its first character and the others, and the rest. -/
def next (c : Char) (r : List Char) : Option (Sign × List Char) :=
  match c,r with
  | '[',_ => some (groupOpen,r)
  | ']','!' :: t => some (groupClose true,t)
  | ']',_ => some (groupClose false,r)
  | ')',_ => some (callClose,r)
  | '|','|' :: t => some (doubleBar,t)
  | '|',_ => some (bar,r)
  | '&','&' :: t => some (doubleAmpersand,t)
  | '?',_ => some (question,r)
  | '*',_ => some (star,r)
  | '+',_ => some (plus,r)
  | '#',_ => some (hash,r)
  | '/',_ => some (literal "/",r)
  | ',',_ => some (literal ",",r)
  | '<',_ =>
    match r.dropWhile (· ≠ '>') with
    | [] => none
    | _ :: t => some (readReference (r.takeWhile (· ≠ '>')),t)
  | '\x7b',_ =>
    (readRange (r.takeWhile (· ≠ '\x7d'))).map fun x => (x,(r.dropWhile (· ≠ '\x7d')).drop 1)
  | _,_ => if isWordChar c then some (readWord (c :: r)) else none

theorem readWord_shorter {c : Char} {r : List Char} (h : isWordChar c = true) :
    (readWord (c :: r)).2.length ≤ r.length := by
  have hd : ((c :: r).dropWhile isWordChar).length ≤ r.length := by
    rw [List.dropWhile_cons_of_pos h]
    exact (List.dropWhile_suffix _).length_le
  simp only [readWord]
  split
  · rename_i t ht
    rw [ht,List.length_cons] at hd
    exact Nat.le_of_succ_le hd
  · exact hd

/-- Every sign takes at least one character. -/
theorem next_shorter {c : Char} {r : List Char} {x : Sign × List Char} (h : next c r = some x) :
    x.2.length ≤ r.length := by
  unfold next at h
  split at h
  case h_14 =>
    split at h
    · cases h
    · rename_i d t ht
      obtain rfl := Option.some.inj h
      have hl := (List.dropWhile_suffix (· ≠ '>') (l := r)).length_le
      rw [ht,List.length_cons] at hl
      exact Nat.le_of_succ_le hl
  case h_15 =>
    obtain ⟨s,_,rfl⟩ := Option.map_eq_some_iff.1 h
    exact ((List.drop_suffix _ _).trans (List.dropWhile_suffix _)).length_le
  case h_16 =>
    split at h
    · rename_i hc
      obtain rfl := Option.some.inj h
      exact readWord_shorter hc
    · cases h
  all_goals
    obtain rfl := Option.some.inj h
    simp

def read (s : List Char) : Option (List Sign) :=
  match s with
  | [] => some []
  | c :: r =>
    if Text.isBlank c then read r
    else
      match _h : next c r with
      | none => none
      | some x => (read x.2).map (x.1 :: ·)
termination_by s.length
decreasing_by
  · exact Nat.lt_succ_self _
  · exact Nat.lt_succ_of_le (next_shorter _h)

end Sign

end StyleExpansion.Pattern
