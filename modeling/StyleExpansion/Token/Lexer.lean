import StyleExpansion.Token
import StyleExpansion.Token.Number
import StyleExpansion.Token.Text

/-! # Reading tokens

The tokens of a text, each with its source. Every token takes at least one character and the rest
is a suffix, so the sources put together are the text.
-/
namespace StyleExpansion.Token

def isUrlName (name : List Char) : Bool := name.map Char.toLower == ['u','r','l']

def startsQuote : List Char → Bool
  | c :: _ => c = '"' || c = '\''
  | [] => false

def urlToken (s : List Char) : Token × List Char :=
  let body := s.dropWhile isSpace
  match readUrl body with
  | (some text,rest) => (url (String.ofList text),rest)
  | (none,rest) =>
    let stop := toUrlEnd rest
    (badUrl (String.ofList (body.take (body.length - stop.length))),stop.drop 1)

def identToken (s : List Char) : Token × List Char :=
  let name := readName s
  match name.2 with
  | '(' :: r =>
    if isUrlName name.1 && !startsQuote (r.dropWhile isSpace) then urlToken r
    else (opening (.function (String.ofList name.1)),r)
  | rest => (ident (String.ofList name.1),rest)

def quotedToken (quote : Char) (s : List Char) : Token × List Char :=
  let run := readQuoted quote s
  (if run.complete then quoted (String.ofList run.text) else badString (String.ofList run.text),
    run.rest)

def numericToken (s : List Char) : Token × List Char :=
  let n := readNumeral s
  match n.2 with
  | '%' :: r => (percentage n.1,r)
  | rest =>
    if startsIdent rest then
      let unit := readName rest
      (dimension n.1 (String.ofList unit.1),unit.2)
    else (number n.1,rest)

def hashToken (s : List Char) : Token × List Char :=
  if startsIdent s then (hash (String.ofList (readName s).1) true,(readName s).2)
  else match s with
    | c :: _ =>
      if c.isDigit || c = '-' then (hash (String.ofList (readName s).1) false,(readName s).2)
      else (delim '#',s)
    | [] => (delim '#',s)

def atToken (s : List Char) : Token × List Char :=
  if startsIdent s then (atKeyword (String.ofList (readName s).1),(readName s).2) else (delim '@',s)

def comparisonOf (c : Char) : Option Comparison :=
  if c = '~' then some .includes else if c = '|' then some .dash
  else if c = '^' then some .start else if c = '$' then some .ending
  else if c = '*' then some .substring else none

def markToken (c : Char) : Token :=
  if c = ':' then colon else if c = ';' then semicolon else if c = ',' then comma
  else if c = '(' then opening (.bracket .round) else if c = '[' then opening (.bracket .square)
  else if c = '\x7b' then opening (.bracket .curly)
  else if c = ')' then closing .round else if c = ']' then closing .square
  else if c = '\x7d' then closing .curly else delim c

def punctuationToken (c : Char) (r : List Char) : Token × List Char :=
  match c,r with
  | '/','*' :: t => (comment,afterComment t)
  | '<','!' :: '-' :: '-' :: t => (markupOpen,t)
  | _,'=' :: t =>
    match comparisonOf c with
    | some kind => (comparison kind,t)
    | none => (markToken c,'=' :: t)
  | _,_ => (markToken c,r)

/-- The token that a text begins with, given its first character and the others, and the rest. -/
def next (c : Char) (r : List Char) : Token × List Char :=
  if isSpace c then (space,r.dropWhile isSpace)
  else if c = '"' || c = '\'' then quotedToken c r
  else if startsNumber (c :: r) then numericToken (c :: r)
  else if ['-','-','>'].isPrefixOf (c :: r) then (markupClose,(c :: r).drop 3)
  else if startsIdent (c :: r) then identToken (c :: r)
  else if c = '#' then hashToken r
  else if c = '@' then atToken r
  else punctuationToken c r

theorem urlToken_suffix (s : List Char) : (urlToken s).2 <:+ s := by
  have h := (readUrl_suffix (s.dropWhile isSpace)).trans (List.dropWhile_suffix _)
  simp only [urlToken]
  split
  · rename_i hu
    rw [hu] at h
    exact h
  · rename_i rest hu
    rw [hu] at h
    exact ((List.drop_suffix _ _).trans (toUrlEnd_suffix rest)).trans h

theorem quotedToken_suffix (quote : Char) (s : List Char) : (quotedToken quote s).2 <:+ s :=
  readQuoted_suffix quote s

theorem numericToken_suffix {c : Char} {r : List Char} (h : startsNumber (c :: r) = true) :
    (numericToken (c :: r)).2 <:+ r := by
  have hn := readNumeral_shorter h
  unfold numericToken
  simp only
  split
  · rename_i t ht
    exact (List.suffix_cons _ _).trans (ht ▸ hn)
  · split
    · exact (readName_suffix _).trans hn
    · exact hn

/-- Reading a name takes at least one character from a text that begins with an identifier. -/
theorem readName_shorter {c : Char} {r : List Char} (h : startsIdent (c :: r) = true) :
    (readName (c :: r)).2 <:+ r := by
  unfold readName
  split
  · exact readName_suffix r
  · split
    · exact (readName_suffix _).trans (readEscape_suffix r)
    · rename_i hc he
      exfalso
      simp only [startsIdent] at h
      by_cases hd : c = '-'
      · exact hc (by simp [isNameChar,hd])
      · rw [if_neg hd,Bool.or_eq_true] at h
        rcases h with h | h
        · exact hc (by simp [isNameChar,h])
        · exact he (by simpa using h)

theorem identToken_suffix {c : Char} {r : List Char} (h : startsIdent (c :: r) = true) :
    (identToken (c :: r)).2 <:+ r := by
  have hn := readName_shorter h
  unfold identToken
  simp only
  split
  · rename_i t ht
    have htail : t <:+ r := (List.suffix_cons _ _).trans (ht ▸ hn)
    split
    · exact (urlToken_suffix t).trans htail
    · exact htail
  · exact hn

theorem hashToken_suffix (s : List Char) : (hashToken s).2 <:+ s := by
  unfold hashToken
  split
  · exact readName_suffix s
  · split
    · split
      · exact readName_suffix _
      · exact List.suffix_refl _
    · exact List.suffix_refl _

theorem atToken_suffix (s : List Char) : (atToken s).2 <:+ s := by
  unfold atToken
  split
  · exact readName_suffix s
  · exact List.suffix_refl _

theorem punctuationToken_suffix (c : Char) (r : List Char) : (punctuationToken c r).2 <:+ r := by
  unfold punctuationToken
  split
  · exact (afterComment_suffix _).trans (List.suffix_cons _ _)
  · exact ⟨['!','-','-'],rfl⟩
  · split
    · exact List.suffix_cons _ _
    · exact List.suffix_refl _
  · exact List.suffix_refl _

/-- Every token takes at least the first character, and the rest is a suffix of the text. -/
theorem next_suffix (c : Char) (r : List Char) : (next c r).2 <:+ r := by
  unfold next
  split
  · exact List.dropWhile_suffix _
  · split
    · exact quotedToken_suffix c r
    · split
      · rename_i h
        exact numericToken_suffix h
      · split
        · exact List.drop_suffix 2 r
        · split
          · rename_i h
            exact identToken_suffix h
          · split
            · exact hashToken_suffix r
            · split
              · exact atToken_suffix r
              · exact punctuationToken_suffix c r

end StyleExpansion.Token

namespace StyleExpansion

def consumed (s rest : List Char) : List Char := s.take (s.length - rest.length)

theorem consumed_append {s rest : List Char} (h : rest <:+ s) : consumed s rest ++ rest = s := by
  obtain ⟨t,rfl⟩ := h
  simp [consumed]

/-- The tokens of a text with their sources. -/
def lexemes (s : List Char) : List Lexeme :=
  match s with
  | [] => []
  | c :: r =>
    let t := Token.next c r
    ⟨t.1,consumed (c :: r) t.2⟩ :: lexemes t.2
termination_by s.length
decreasing_by exact Nat.lt_succ_of_le (Token.next_suffix c r).length_le

/-- The sources of the tokens, put together, are the text. -/
theorem lexemes_source (s : List Char) : (lexemes s).flatMap Lexeme.source = s := by
  fun_induction lexemes s with
  | case1 => rfl
  | case2 c r t ih =>
    rw [List.flatMap_cons,ih]
    exact consumed_append ((Token.next_suffix c r).trans (List.suffix_cons _ _))

end StyleExpansion
