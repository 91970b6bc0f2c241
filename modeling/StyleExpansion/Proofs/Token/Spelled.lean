import StyleExpansion.Proofs.Token.Sealed
import StyleExpansion.Value.Writer

/-! # Tokens as they are written

What is written for a token is that token again before any end: a hash, a numeral with its percent sign or
its unit, a string between quotes, a url without them, a mark. So are the names and the brackets that open
a block, whatever is in it.
-/
namespace StyleExpansion
open Token

/-! ## Hashes -/

theorem spells_hash {n : List Char} (hne : n ≠ [])
    (h : ∀ c ∈ n, isNameChar c = true ∧ c ≠ '\x00') :
    Spells ('#' :: n) (.hash (String.ofList n) (startsIdent n)) := by
  refine ⟨'#',n,rfl,?_⟩
  intro u hu
  have hname := readName_word h hu.edges.readName
  have hident : startsIdent (n ++ u) = startsIdent n := by
    apply startsIdent_append hu.edges
    rintro rfl
    exact absurd (h '\\' (by simp)).1 (by decide)
  have hstart : startsIdent n = false → (startsDigit n || startsMinus n) = true := by
    obtain ⟨c,r,rfl⟩ := List.exists_cons_of_ne_nil hne
    intro hi
    have hc := (h c (by simp)).1
    by_cases hminus : c = '-'
    · simp [startsMinus,hminus]
    · rw [startsIdent.eq_def] at hi
      simp only [hminus,if_false,Bool.or_eq_false_iff] at hi
      simpa [isNameChar,hi.1,hminus,startsDigit,startsMinus] using hc
  have htoken : hashToken (n ++ u) = (.hash (String.ofList n) (startsIdent n),u) := by
    obtain ⟨c,r,rfl⟩ := List.exists_cons_of_ne_nil hne
    rw [hashToken_eq,hident,hname]
    cases hi : startsIdent (c :: r) with
    | true => rfl
    | false =>
      have hs := hstart hi
      simp only [startsDigit,startsMinus] at hs
      simp [startsDigit,startsMinus,hs]
  have hnumber : startsNumber ('#' :: (n ++ u)) = false := rfl
  have hmarkup : ['-','-','>'].isPrefixOf ('#' :: (n ++ u)) = false := rfl
  have hnot : startsIdent ('#' :: (n ++ u)) = false := by simp [startsIdent,isNameStart]
  rw [next,if_neg (by decide),if_neg (by decide),if_neg (by simp [hnumber]),if_neg (by simp [hmarkup]),
    if_neg (by simp [hnot]),if_pos rfl,htoken]

/-! ## Numerals -/

structure IsNumeral (s : List Char) : Prop where
  starts : startsNumber s = true
  whole : (readNumeral s).2 = []

instance (s : List Char) : Decidable (IsNumeral s) :=
  decidable_of_iff (startsNumber s = true ∧ (readNumeral s).2 = [])
    ⟨fun h => ⟨h.1,h.2⟩,fun h => ⟨h.starts,h.whole⟩⟩

theorem startsDigit_mono {s : List Char} (h : startsDigit s = true) (u : List Char) :
    startsDigit (s ++ u) = true := by
  cases s with
  | nil => cases h
  | cons c r => exact h

theorem dropSign_cons_append (c : Char) (r u : List Char) :
    dropSign (c :: r ++ u) = dropSign (c :: r) ++ u := by
  rw [List.cons_append,dropSign,dropSign]
  split <;> rfl

/-- A text that begins like a number does so whatever follows. -/
theorem startsNumber_mono {s : List Char} (h : startsNumber s = true) (u : List Char) :
    startsNumber (s ++ u) = true := by
  cases s with
  | nil => cases h
  | cons c r =>
    rw [startsNumber,Bool.or_eq_true] at h
    rw [startsNumber,dropSign_cons_append,Bool.or_eq_true]
    refine h.imp (startsDigit_mono · u) ?_
    intro hf
    cases ht : dropSign (c :: r) with
    | nil =>
      rw [ht] at hf
      cases hf
    | cons d t =>
      rw [ht,startsFraction,Bool.and_eq_true] at hf
      rw [List.cons_append,startsFraction,hf.1,startsDigit_mono hf.2 u]
      rfl

theorem readExponent_append {s u : List Char} (h : (readExponent s).2 = []) (hu : EndsNumeral u) :
    readExponent (s ++ u) = ((readExponent s).1,u) := by
  cases s with
  | nil => rw [List.nil_append,readExponent,hu.exponent]; rfl
  | cons c r =>
    cases hs : startsExponent (c :: r) with
    | false =>
      rw [readExponent,hs] at h
      cases h
    | true =>
      rw [readExponent,if_pos hs] at h
      have hparts := hs
      rw [startsExponent,Bool.and_eq_true] at hparts
      obtain ⟨hmark,hdigit⟩ := hparts
      cases r with
      | nil => cases hdigit
      | cons d t =>
        have hs' : startsExponent (c :: d :: t ++ u) = true := by
          rw [List.cons_append,startsExponent,hmark,dropSign_cons_append,startsDigit_mono hdigit u]
          rfl
        have hrest : (dropSign (d :: t) ++ u).dropWhile Char.isDigit = u := by
          have hend : (dropSign (d :: t)).dropWhile Char.isDigit = [] := h
          rw [dropWhile_append hu.isDigit,hend,List.nil_append]
        have hdigits : digitsOf (dropSign (d :: t ++ u)) = digitsOf (dropSign (d :: t)) := by
          rw [dropSign_cons_append,digitsOf_append hu]
        have hminus : startsMinus (d :: t ++ u) = startsMinus (d :: t) := rfl
        rw [readExponent,if_pos hs',readExponent,if_pos hs]
        simp only [List.cons_append,List.drop_one,List.tail_cons]
        rw [← List.cons_append,hdigits,hminus,dropSign_cons_append,hrest]

/-- A numeral is read alike before any text with which it does not go on. -/
theorem IsNumeral.readNumeral_append {s u : List Char} (h : IsNumeral s) (hu : EndsNumeral u) :
    readNumeral (s ++ u) = ((readNumeral s).1,u) := by
  have hwhole := h.whole
  cases s with
  | nil => cases h.starts
  | cons c r =>
    have hsign : startsPlus (c :: r ++ u) = startsPlus (c :: r) ∧
        startsMinus (c :: r ++ u) = startsMinus (c :: r) := ⟨rfl,rfl⟩
    simp only [readNumeral] at hwhole ⊢
    rw [dropSign_cons_append,dropWhile_append hu.isDigit,readFraction_halts hu,
      readExponent_append hwhole hu,digitsOf_append hu,hsign.1,hsign.2]

theorem next_numeral {c : Char} {r : List Char} (h : startsNumber (c :: r) = true) :
    next c r = numericToken (c :: r) := by
  have hspace : isSpace c = false := by
    rw [Bool.eq_false_iff]
    intro hs
    have hu := (ends_cons (isStop_of_isSpace hs).toIsEnd r).edges
    rw [startsNumber,hu.dropSign,hu.startsDigit,hu.startsFraction] at h
    cases h
  have hquote : ¬(decide (c = '"') || decide (c = '\'')) = true := by
    intro hq
    rw [Bool.or_eq_true,decide_eq_true_eq,decide_eq_true_eq] at hq
    rcases hq with rfl | rfl <;> cases h
  rw [next,if_neg (by simp [hspace]),if_neg hquote,if_pos h]

namespace IsNumeral
variable {s : List Char} (h : IsNumeral s)
include h

/-- A numeral and what belongs to it are the token that the numeral makes of them. -/
theorem spells_of {rest : List Char} {t : Token}
    (ht : ∀ u, Ends u → numericToken (s ++ (rest ++ u)) = (t,u)) : Spells (s ++ rest) t := by
  cases s with
  | nil => cases h.starts
  | cons c r =>
    refine ⟨c,r ++ rest,rfl,?_⟩
    intro u hu
    have hstart := startsNumber_mono h.starts (rest ++ u)
    rw [List.append_assoc,← ht u hu]
    exact next_numeral hstart

theorem spells_number : Spells s (.number (readNumeral s).1) := by
  rw [← List.append_nil s]
  refine h.spells_of ?_
  intro u hu
  have hread := h.readNumeral_append hu.edges.numeral
  rw [List.nil_append,numericToken_plain (by rw [hread]; exact hu.ne_cons (by decide)),hread]
  simp [hu.edges.startsIdent]

theorem spells_percentage : Spells (s ++ ['%']) (.percentage (readNumeral s).1) := by
  refine h.spells_of ?_
  intro u _
  have hread := h.readNumeral_append (u := '%' :: u) ⟨rfl,rfl,rfl⟩
  have hrest : (readNumeral (s ++ (['%'] ++ u))).2 = '%' :: u := by
    rw [List.singleton_append,hread]
  rw [numericToken_percent hrest,List.singleton_append,hread]

theorem spells_dimension {unit : List Char} (hw : IsWord unit) (he : startsExponent unit = false) :
    Spells (s ++ unit) (.dimension (readNumeral s).1 (String.ofList unit)) := by
  refine h.spells_of ?_
  intro u hu
  have hends : EndsNumeral (unit ++ u) := by
    refine ⟨?_,?_,by rw [startsExponent_append hu.edges,he]⟩
    · rcases hw.head with ⟨c,r,rfl,hc,_⟩ | ⟨d,r,rfl,_⟩
      · exact not_digit_of_nameStart hc
      · rfl
    · obtain ⟨c,r,rfl⟩ := List.exists_cons_of_ne_nil hw.ne_nil
      have hpoint : c ≠ '.' := hw.ne (by simp) (by decide)
      simp [startsFraction,hpoint]
  have hread := h.readNumeral_append hends
  have hplain : ∀ r, (readNumeral (s ++ (unit ++ u))).2 ≠ '%' :: r := by
    rw [hread]
    obtain ⟨c,r,rfl⟩ := List.exists_cons_of_ne_nil hw.ne_nil
    have hpercent : c ≠ '%' := hw.ne (by simp) (by decide)
    simp [hpercent]
  rw [numericToken_plain hplain,hread]
  simp [hw.startsIdent_append u,readName_word hw.chars hu.edges.readName]

end IsNumeral

/-! ## Strings -/

def isQuotable (c : Char) : Bool := c ≠ '\x00' && c ≠ '\r' && c ≠ '\x0c'

theorem readQuoted_quotedChar {c : Char} (hc : isQuotable c = true) (r : List Char) :
    readQuoted '"' (Value.quotedChar c ++ r) =
      {readQuoted '"' r with text := c :: (readQuoted '"' r).text} := by
  simp only [isQuotable,Bool.and_eq_true,decide_eq_true_eq] at hc
  by_cases hdouble : c = '"'
  · subst hdouble
    rw [show Value.quotedChar '"' = ['\\','"'] from rfl,List.cons_append,readQuoted]
    simp [isNewline,startsNewline,readEscape,isHexDigit,legible]
  by_cases hslash : c = '\\'
  · subst hslash
    rw [show Value.quotedChar '\\' = ['\\','\\'] from rfl,List.cons_append,readQuoted]
    simp [isNewline,startsNewline,readEscape,isHexDigit,legible]
  by_cases hline : c = '\n'
  · subst hline
    have hescape : readEscape ('a' :: ' ' :: r) = ('\n',r) := by
      simp [readEscape,isHexDigit,dropOneSpace,ofCode,hexValue]
    rw [show Value.quotedChar '\n' = ['\\','a',' '] from rfl,List.cons_append,readQuoted]
    simp [isNewline,startsNewline,hescape]
  · have hnewline : isNewline c = false := by simp [isNewline,hline,hc]
    rw [Value.quotedChar,if_neg hdouble,if_neg hslash,if_neg hline,List.singleton_append,readQuoted]
    simp [hdouble,hnewline,hslash,legible,hc]

theorem readQuoted_quote {text : List Char} (h : ∀ c ∈ text, isQuotable c = true) (u : List Char) :
    readQuoted '"' (text.flatMap Value.quotedChar ++ '"' :: u) = ⟨text,true,u⟩ := by
  induction text with
  | nil => simp [readQuoted]
  | cons c r ih =>
    obtain ⟨hc,hr⟩ := List.forall_mem_cons.1 h
    rw [List.flatMap_cons,List.append_assoc,readQuoted_quotedChar hc,ih hr]

theorem next_quote {text : String} (h : ∀ c ∈ text.toList, isQuotable c = true) (u : List Char) :
    next '"' (text.toList.flatMap Value.quotedChar ++ '"' :: u) = (.quoted text,u) := by
  have hread := readQuoted_quote h u
  rw [next,if_neg (by decide),if_pos (by decide),quotedToken,hread]
  simp

/-! ## Urls -/

def isUrlChar (c : Char) : Bool := !Value.needsQuotes c && 0x20 ≤ c.toNat && c ≠ '\x7f'

theorem ne_low_of_isUrlChar {c d : Char} (h : isUrlChar c = true) (hd : d.toNat < 0x20) : c ≠ d := by
  rintro rfl
  simp only [isUrlChar,Bool.and_eq_true,decide_eq_true_eq] at h
  omega

theorem isSpace_of_isUrlChar {c : Char} (h : isUrlChar c = true) : isSpace c = false := by
  have hblank : c ≠ ' ' := by
    rintro rfl
    exact absurd h (by decide)
  simp [isSpace,isNewline,hblank,ne_low_of_isUrlChar h (d := '\t') (by decide),
    ne_low_of_isUrlChar h (d := '\n') (by decide),ne_low_of_isUrlChar h (d := '\r') (by decide),
    ne_low_of_isUrlChar h (d := '\x0c') (by decide)]

theorem readUrl_text {text : List Char} (h : ∀ c ∈ text, isUrlChar c = true) (u : List Char) :
    readUrl (text ++ ')' :: u) = (some text,u) := by
  induction text with
  | nil => simp [readUrl]
  | cons c r ih =>
    obtain ⟨hc,hr⟩ := List.forall_mem_cons.1 h
    have hspace := isSpace_of_isUrlChar hc
    have hnull := ne_low_of_isUrlChar hc (d := '\x00') (by decide)
    simp only [isUrlChar,Value.needsQuotes,Bool.and_eq_true,Bool.not_eq_true',Bool.or_eq_false_iff,
      decide_eq_false_iff_not,decide_eq_true_eq] at hc
    obtain ⟨⟨⟨⟨⟨⟨⟨_,hdouble⟩,hsingle⟩,hopen⟩,hclose⟩,hslash⟩,hlow⟩,hdelete⟩ := hc
    have hspoils : spoilsUrl c = false := by
      simp [spoilsUrl,hdouble,hsingle,hopen,hdelete,hlow]
    rw [List.cons_append,readUrl]
    simp [hclose,hspace,hslash,hspoils,ih hr,legible,hnull]

/-! ## Openings -/

namespace IsWord
variable {n : List Char} (h : IsWord n)
include h

theorem readName_round (t : List Char) : readName (n ++ '(' :: t) = (n,'(' :: t) := by
  apply readName_word h.chars
  rw [readName]
  simp [isNameChar,isNameStart]

/-- A word and a round bracket open a function, if they do not begin a url. -/
theorem next_call {c : Char} {r : List Char} (hn : n = c :: r) {t : List Char}
    (ht : isUrlName n = true → startsQuote (t.dropWhile isSpace) = true) :
    next c (r ++ '(' :: t) = (opening (.function (String.ofList n)),t) := by
  have hread := h.readName_round t
  have hname : (isUrlName n && !startsQuote (t.dropWhile isSpace)) = false := by
    cases hurl : isUrlName n with
    | false => rfl
    | true => rw [ht hurl]; rfl
  rw [h.next_append hn (by simp),identToken_call (by rw [hread]),hread]
  simp [hname]

end IsWord

theorem spells_url {text : List Char} (h : ∀ c ∈ text, isUrlChar c = true) :
    Spells (['u','r','l','('] ++ text ++ [')']) (.url (String.ofList text)) := by
  refine ⟨'u',['r','l','('] ++ text ++ [')'],rfl,?_⟩
  intro u _
  have hname : IsWord ['u','r','l'] := by decide
  have hbody : (text ++ ')' :: u).dropWhile isSpace = text ++ ')' :: u := by
    cases text with
    | nil => rfl
    | cons c r =>
      have hc := isSpace_of_isUrlChar (h c (by simp))
      rw [List.cons_append,List.dropWhile_cons_of_neg (by simp [hc])]
  have hquote : startsQuote (text ++ ')' :: u) = false := by
    cases text with
    | nil => rfl
    | cons c r =>
      have hc := h c (by simp)
      simp only [isUrlChar,Value.needsQuotes,Bool.and_eq_true,Bool.not_eq_true',
        Bool.or_eq_false_iff,decide_eq_false_iff_not] at hc
      simp [startsQuote,hc]
  have hread := hname.readName_round (text ++ ')' :: u)
  have htoken : urlToken (text ++ ')' :: u) = (.url (String.ofList text),u) := by
    rw [urlToken_text (by rw [hbody,readUrl_text h]),hbody,readUrl_text h]
  have hsplit : ['r','l','('] ++ text ++ [')'] ++ u = ['r','l'] ++ '(' :: (text ++ ')' :: u) := by
    simp
  rw [hsplit,hname.next_append rfl (by simp),identToken_call (by rw [hread]),hread,hbody,hquote,htoken]
  rfl

/-! ## Marks -/

theorem punctuationToken_ends (c : Char) {u : List Char} (hu : Ends u) :
    punctuationToken c u = (markToken c,u) := by
  rw [punctuationToken]
  · exact hu.ne_cons (by decide)
  · exact fun t _ => hu.ne_cons (by decide) t
  · exact fun t _ => hu.ne_cons (by decide) _

theorem spells_punctuation {c : Char} (h : c ∈ punctuation) : Spells [c] (markToken c) := by
  refine ⟨c,[],rfl,?_⟩
  intro u hu
  rw [List.nil_append,next_punctuation h,punctuationToken_ends c hu]

theorem spells_sign {c : Char} (h : c = '+' ∨ c = '-') : Spells [c] (.delim c) := by
  refine ⟨c,[],rfl,?_⟩
  intro u hu
  rw [List.nil_append]
  obtain ⟨hspace,hquote,hhash,hat,hmark⟩ : isSpace c = false ∧
      (decide (c = '"') || decide (c = '\'')) = false ∧ c ≠ '#' ∧ c ≠ '@' ∧
      markToken c = .delim c := by
    rcases h with rfl | rfl <;> decide
  have hsign : dropSign (c :: u) = u := by simp [dropSign,h]
  have hnumber : startsNumber (c :: u) = false := by
    rw [startsNumber,hsign,hu.edges.startsDigit,hu.edges.startsFraction]
    rfl
  have hmarkup : ['-','-','>'].isPrefixOf (c :: u) = false := by
    cases u with
    | nil => simp [List.isPrefixOf]
    | cons d t => simp [List.isPrefixOf,((hu.edges _ _ rfl).ne_name (c := '-') (by decide)).symm]
  have hident : startsIdent (c :: u) = false := by
    have halone : startsIdent [c] = false := by rcases h with rfl | rfl <;> decide
    rw [← halone]
    exact startsIdent_append (s := [c]) hu.edges fun hc => by
      rcases h with rfl | rfl <;> cases hc
  simp [next,hspace,hquote,hnumber,hmarkup,hident,hhash,hat,punctuationToken_ends c hu,hmark]

theorem spells_comma : Spells [','] .comma :=
  ⟨',',[],rfl,fun u _ => next_mark (by decide) u⟩

end StyleExpansion
