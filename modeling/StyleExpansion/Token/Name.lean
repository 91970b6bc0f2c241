/-! # Names and escapes

Names are made of letters, digits, the underscore, the hyphen, all characters beyond ASCII and
escaped characters. Every reader returns what it read and the rest of the text, a suffix of it.
-/
namespace StyleExpansion.Token

def isNewline (c : Char) : Bool := c = '\n' || c = '\r' || c = '\x0c'

/-- White space of style text, a narrower set than the blanks of text in general. -/
def isSpace (c : Char) : Bool := c = ' ' || c = '\t' || isNewline c

def isHexDigit (c : Char) : Bool :=
  c.isDigit || ('a' ≤ c && c ≤ 'f') || ('A' ≤ c && c ≤ 'F')

/-- A character that a name may begin with; the null character counts as the replacement. -/
def isNameStart (c : Char) : Bool := c.isAlpha || c = '_' || c = '\x00' || 0x80 ≤ c.toNat

def isNameChar (c : Char) : Bool := isNameStart c || c.isDigit || c = '-'

def replacement : Char := '\ufffd'

def legible (c : Char) : Char := if c = '\x00' then replacement else c

def startsNewline : List Char → Bool
  | [] => false
  | c :: _ => isNewline c

def dropNewline : List Char → List Char
  | '\r' :: '\n' :: r => r
  | c :: r => if isNewline c then r else c :: r
  | [] => []

def dropOneSpace : List Char → List Char
  | c :: r => if c = ' ' || c = '\t' then r else dropNewline (c :: r)
  | [] => []

def hexValue (c : Char) : Nat :=
  if c.isDigit then c.toNat - 48 else if 'a' ≤ c then c.toNat - 87 else c.toNat - 55

def ofCode (n : Nat) : Char := if n ≠ 0 ∧ n.isValidChar then Char.ofNat n else replacement

/-- What follows a backslash: up to six hexadecimal digits, or any one character. -/
def readEscape : List Char → Char × List Char
  | [] => (replacement,[])
  | c :: r =>
    if isHexDigit c then
      let ds := ((c :: r).take 6).takeWhile isHexDigit
      (ofCode (ds.foldl (fun n d => 16 * n + hexValue d) 0),dropOneSpace ((c :: r).drop ds.length))
    else (legible c,r)

theorem dropNewline_suffix (s : List Char) : dropNewline s <:+ s := by
  unfold dropNewline
  split
  · exact (List.suffix_cons _ _).trans (List.suffix_cons _ _)
  · split
    · exact List.suffix_cons _ _
    · exact List.suffix_refl _
  · exact List.suffix_refl _

theorem dropOneSpace_suffix (s : List Char) : dropOneSpace s <:+ s := by
  unfold dropOneSpace
  split
  · split
    · exact List.suffix_cons _ _
    · exact dropNewline_suffix _
  · exact List.suffix_refl _

theorem readEscape_suffix (s : List Char) : (readEscape s).2 <:+ s := by
  unfold readEscape
  split
  · exact List.suffix_refl _
  · split
    · exact (dropOneSpace_suffix _).trans (List.drop_suffix _ _)
    · exact List.suffix_cons _ _

/-- The longest name at the start of a text. A backslash before a line end is not part of it. -/
def readName (s : List Char) : List Char × List Char :=
  match s with
  | [] => ([],[])
  | c :: r =>
    if isNameChar c then
      let rest := readName r
      (legible c :: rest.1,rest.2)
    else if c = '\\' && !startsNewline r then
      let e := readEscape r
      let rest := readName e.2
      (e.1 :: rest.1,rest.2)
    else ([],c :: r)
termination_by s.length
decreasing_by
  · exact Nat.lt_succ_self _
  · exact Nat.lt_succ_of_le (readEscape_suffix r).length_le

theorem readName_suffix (s : List Char) : (readName s).2 <:+ s := by
  fun_induction readName s with
  | case1 => exact List.suffix_refl _
  | case2 c r _ _ ih => exact ih.trans (List.suffix_cons _ _)
  | case3 c r _ _ e _ ih => exact (ih.trans (readEscape_suffix r)).trans (List.suffix_cons _ _)
  | case4 => exact List.suffix_refl _

def startsIdent : List Char → Bool
  | [] => false
  | c :: r =>
    if c = '-' then
      match r with
      | [] => false
      | d :: _ => isNameStart d || d = '-' || d = '\\'
    else isNameStart c || (c = '\\' && !startsNewline r)

end StyleExpansion.Token
