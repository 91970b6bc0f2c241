import StyleExpansion.Token.Name

/-! # Strings, urls and comments

The tokens that run to a closing mark. A string ends early before a line end; a url that holds a
quote, a round bracket, a control character or inner white space is bad as a whole. At the end of
the text each of them is complete.
-/
namespace StyleExpansion.Token

/-- The result of reading a string: its text, whether it is complete, and the rest. -/
structure QuotedRun where
  text : List Char
  complete : Bool
  rest : List Char

def readQuoted (quote : Char) (s : List Char) : QuotedRun :=
  match s with
  | [] => ⟨[],true,[]⟩
  | c :: r =>
    if c = quote then ⟨[],true,r⟩
    else if isNewline c then ⟨[],false,c :: r⟩
    else if c = '\\' then
      if r.isEmpty then ⟨[],true,[]⟩
      else if startsNewline r then readQuoted quote (dropNewline r)
      else
        let e := readEscape r
        let more := readQuoted quote e.2
        {more with text := e.1 :: more.text}
    else
      let more := readQuoted quote r
      {more with text := legible c :: more.text}
termination_by s.length
decreasing_by
  · exact Nat.lt_succ_of_le (dropNewline_suffix r).length_le
  · exact Nat.lt_succ_of_le (readEscape_suffix r).length_le
  · exact Nat.lt_succ_self _

def spoilsUrl (c : Char) : Bool :=
  c = '"' || c = '\'' || c = '(' || c.toNat < 0x20 || c = '\x7f'

/-- After the white space at the end of a url only its closing bracket may follow. -/
def closeUrl : List Char → Option (List Char) × List Char
  | [] => (some [],[])
  | c :: r => if c = ')' then (some [],r) else (none,r)

/-- Reads a url after its opening blanks: its text unless it is bad, and the rest. The rest of a bad
url begins where the search for its end begins. -/
def readUrl (s : List Char) : Option (List Char) × List Char :=
  match s with
  | [] => (some [],[])
  | c :: r =>
    if c = ')' then (some [],r)
    else if isSpace c then closeUrl (r.dropWhile isSpace)
    else if c = '\\' then
      if startsNewline r then (none,r)
      else
        let e := readEscape r
        let more := readUrl e.2
        (more.1.map (e.1 :: ·),more.2)
    else if spoilsUrl c && c ≠ '\x00' then (none,r)
    else
      let more := readUrl r
      (more.1.map (legible c :: ·),more.2)
termination_by s.length
decreasing_by
  · exact Nat.lt_succ_of_le (readEscape_suffix r).length_le
  · exact Nat.lt_succ_self _

def toUrlEnd : List Char → List Char
  | [] => []
  | ')' :: r => ')' :: r
  | '\\' :: ')' :: r => toUrlEnd r
  | '\\' :: '\\' :: r => toUrlEnd r
  | _ :: r => toUrlEnd r

def afterComment : List Char → List Char
  | [] => []
  | '*' :: '/' :: r => r
  | _ :: r => afterComment r

theorem readQuoted_suffix (quote : Char) (s : List Char) : (readQuoted quote s).rest <:+ s := by
  fun_induction readQuoted quote s with
  | case1 => exact List.suffix_refl _
  | case2 => exact List.suffix_cons _ _
  | case3 => exact List.suffix_refl _
  | case4 => exact List.nil_suffix
  | case5 r _ _ _ _ ih => exact (ih.trans (dropNewline_suffix r)).trans (List.suffix_cons _ _)
  | case6 r _ _ _ _ e _ ih => exact (ih.trans (readEscape_suffix r)).trans (List.suffix_cons _ _)
  | case7 c r _ _ _ _ ih => exact ih.trans (List.suffix_cons _ _)

theorem closeUrl_suffix (s : List Char) : (closeUrl s).2 <:+ s := by
  unfold closeUrl
  split
  · exact List.suffix_refl _
  · split <;> exact List.suffix_cons _ _

theorem readUrl_suffix (s : List Char) : (readUrl s).2 <:+ s := by
  fun_induction readUrl s with
  | case1 => exact List.suffix_refl _
  | case2 => exact List.suffix_cons _ _
  | case3 c r _ _ =>
    exact ((closeUrl_suffix _).trans (List.dropWhile_suffix _)).trans (List.suffix_cons _ _)
  | case4 => exact List.suffix_cons _ _
  | case5 r _ _ _ e _ ih => exact (ih.trans (readEscape_suffix r)).trans (List.suffix_cons _ _)
  | case6 => exact List.suffix_cons _ _
  | case7 c r _ _ _ _ _ ih => exact ih.trans (List.suffix_cons _ _)

theorem toUrlEnd_suffix (s : List Char) : toUrlEnd s <:+ s := by
  fun_induction toUrlEnd s with
  | case1 => exact List.suffix_refl _
  | case2 => exact List.suffix_refl _
  | case3 r ih => exact (ih.trans (List.suffix_cons _ _)).trans (List.suffix_cons _ _)
  | case4 r ih => exact (ih.trans (List.suffix_cons _ _)).trans (List.suffix_cons _ _)
  | case5 c r _ _ _ ih => exact ih.trans (List.suffix_cons _ _)

theorem afterComment_suffix (s : List Char) : afterComment s <:+ s := by
  fun_induction afterComment s with
  | case1 => exact List.suffix_refl _
  | case2 => exact (List.suffix_cons _ _).trans (List.suffix_cons _ _)
  | case3 c r _ ih => exact ih.trans (List.suffix_cons _ _)

end StyleExpansion.Token
