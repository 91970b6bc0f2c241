import StyleExpansion.Proofs.Token.Follows

/-! # Scanners at the end of a text

Scanner by scanner: it is open at the end of a text, so that it takes in any break that comes next, or it
stops there, and what it reads does not depend on the text that follows.
-/
namespace StyleExpansion.Token

def Open {α : Type} (scan : List Char → α × List Char) (s : List Char) : Prop :=
  (scan s).2 = [] ∧ ∀ d, IsBreak d → (scan (s ++ [d])).2 = []

def Halts {α : Type} (scan : List Char → α × List Char) (s : List Char) : Prop :=
  ∀ u, Follows u → scan (s ++ u) = ((scan s).1,(scan s).2 ++ u)

def Stops {α : Type} (scan : List Char → α × List Char) (s : List Char) : Prop :=
  ∀ u, Follows u → ∃ v, Left (scan s).2 u v ∧ scan (s ++ u) = ((scan s).1,(scan s).2 ++ v)

section Stopping
variable {α : Type} {scan : List Char → α × List Char} {s : List Char}

theorem Halts.stops (h : Halts scan s) : Stops scan s := fun u hu => ⟨u,Left.refl _ u,h u hu⟩

/-- A scanner that stops before the end of the text leaves what follows. -/
theorem Stops.halts (h : Stops scan s) (hne : (scan s).2 ≠ []) : Halts scan s := by
  intro u hu
  obtain ⟨v,rfl | ⟨hnil,_⟩,hscan⟩ := h u hu
  · exact hscan
  · exact absurd hnil hne

theorem Stops.begins (h : Stops scan s) {d : Char} (hd : IsBreak d) (t : List Char) :
    scan (s ++ d :: t) = ((scan s).1,(scan s).2 ++ d :: t) := by
  obtain ⟨v,hleft,hscan⟩ := h _ (.begins hd t)
  rw [hscan,hleft.eq_of_break hd]

end Stopping

/-! ## Characters of one class -/

section Class
variable {p : Char → Bool} {u : List Char} (h : ∀ {d t}, u = d :: t → p d = false)
include h

theorem dropWhile_append (s : List Char) : (s ++ u).dropWhile p = s.dropWhile p ++ u := by
  have hu : u.dropWhile p = u := by
    cases u with
    | nil => rfl
    | cons d t => rw [List.dropWhile_cons_of_neg (by simp [h rfl])]
  rw [List.dropWhile_append,hu]
  by_cases hs : s.dropWhile p = []
  · simp [hs]
  · simp [hs]

theorem takeWhile_append (s : List Char) : (s ++ u).takeWhile p = s.takeWhile p := by
  induction s with
  | nil =>
    cases u with
    | nil => rfl
    | cons d t => simp [h rfl]
  | cons c r ih => rw [List.cons_append,List.takeWhile_cons,List.takeWhile_cons,ih]

theorem takeWhile_take_append (n : Nat) (s : List Char) :
    ((s ++ u).take n).takeWhile p = (s.take n).takeWhile p := by
  rw [List.take_append]
  apply takeWhile_append
  intro d t hd
  obtain ⟨r,hr⟩ := List.take_prefix (n - s.length) u
  rw [hd] at hr
  exact h hr.symm

end Class

section Scanners
variable {u : List Char} (hu : Follows u)

/-! ## White space -/

theorem startsNewline_append {s : List Char} (hs : s ≠ []) (u : List Char) :
    startsNewline (s ++ u) = startsNewline s := by
  obtain ⟨c,r,rfl⟩ := List.exists_cons_of_ne_nil hs
  rfl

theorem startsNewline_break {d : Char} (hd : IsBreak d) (s t : List Char) :
    startsNewline (s ++ d :: t) = startsNewline s := by
  cases s with
  | nil =>
    have hs := hd.space
    rw [isSpace,Bool.or_eq_false_iff] at hs
    exact hs.2
  | cons c r => rfl

theorem dropSpace_append (s u : List Char) :
    ∃ v, Left (s.dropWhile isSpace) u v ∧
      (s ++ u).dropWhile isSpace = s.dropWhile isSpace ++ v := by
  rw [List.dropWhile_append]
  by_cases hnil : s.dropWhile isSpace = []
  · refine ⟨u.dropWhile isSpace,Or.inr ⟨hnil,u.takeWhile isSpace,?_,?_⟩,by simp [hnil]⟩
    · exact List.all_eq_true.1 List.all_takeWhile
    · rw [List.takeWhile_append_dropWhile]
  · exact ⟨u,Left.refl _ u,by simp [hnil]⟩

theorem isSpace_of_isNewline {c : Char} (h : isNewline c = true) : isSpace c = true := by
  rw [isSpace,h,Bool.or_true]

theorem exists_dropNewline (u : List Char) :
    ∃ p, (∀ c ∈ p, isSpace c = true) ∧ u = p ++ dropNewline u := by
  unfold dropNewline
  split
  · exact ⟨['\r','\n'],by simp [isSpace,isNewline],rfl⟩
  · next c r _ =>
    split
    · next hc => exact ⟨[c],by simp [isSpace_of_isNewline hc],rfl⟩
    · exact ⟨[],by simp,rfl⟩
  · exact ⟨[],by simp,rfl⟩

theorem exists_dropOneSpace (u : List Char) :
    ∃ p, (∀ c ∈ p, isSpace c = true) ∧ u = p ++ dropOneSpace u := by
  cases u with
  | nil => exact ⟨[],by simp,rfl⟩
  | cons c r =>
    rw [dropOneSpace]
    split
    · next hc =>
      have hspace : isSpace c = true := by rw [isSpace,hc,Bool.true_or]
      exact ⟨[c],by simp [hspace],rfl⟩
    · exact exists_dropNewline (c :: r)

theorem dropNewline_append (s u : List Char) :
    ∃ v, Left (dropNewline s) u v ∧ dropNewline (s ++ u) = dropNewline s ++ v := by
  match s with
  | [] => exact ⟨_,Or.inr ⟨rfl,exists_dropNewline u⟩,rfl⟩
  | [c] =>
    by_cases hc : c = '\r' ∧ ∃ t, u = '\n' :: t
    · obtain ⟨rfl,t,rfl⟩ := hc
      exact ⟨t,Or.inr ⟨rfl,['\n'],by simp [isSpace,isNewline],rfl⟩,rfl⟩
    · refine ⟨u,Left.refl _ u,?_⟩
      rw [List.singleton_append,dropNewline,dropNewline]
      · split <;> rfl
      · simp
      · exact fun t h ht => hc ⟨h,t,ht⟩
  | c :: b :: r =>
    refine ⟨u,Left.refl _ u,?_⟩
    by_cases hc : c = '\r' ∧ b = '\n'
    · obtain ⟨rfl,rfl⟩ := hc
      rfl
    · rw [List.cons_append,List.cons_append,dropNewline,dropNewline]
      · split <;> rfl
      · exact fun t h ht => hc ⟨h,(List.cons.inj ht).1⟩
      · exact fun t h ht => hc ⟨h,(List.cons.inj ht).1⟩

theorem dropOneSpace_append (s u : List Char) :
    ∃ v, Left (dropOneSpace s) u v ∧ dropOneSpace (s ++ u) = dropOneSpace s ++ v := by
  cases s with
  | nil => exact ⟨_,Or.inr ⟨rfl,exists_dropOneSpace u⟩,rfl⟩
  | cons c r =>
    rw [List.cons_append,dropOneSpace,dropOneSpace]
    split
    · exact ⟨u,Left.refl _ u,rfl⟩
    · exact dropNewline_append (c :: r) u

/-! ## Escapes and names -/

/-- An escape takes in a break only if there is nothing else after the backslash. -/
theorem readEscape_stops {s : List Char} (hs : s ≠ []) : Stops readEscape s := by
  intro u hu
  obtain ⟨c,r,rfl⟩ := List.exists_cons_of_ne_nil hs
  rw [List.cons_append,readEscape,readEscape]
  split
  · have htake := takeWhile_take_append hu.hex 6 (c :: r)
    have hle : (((c :: r).take 6).takeWhile isHexDigit).length ≤ (c :: r).length :=
      Nat.le_trans (List.takeWhile_sublist _).length_le (List.length_take_le' _ _)
    obtain ⟨v,hleft,hdrop⟩ := dropOneSpace_append
      ((c :: r).drop (((c :: r).take 6).takeWhile isHexDigit).length) u
    refine ⟨v,hleft,?_⟩
    rw [List.cons_append] at htake
    simp only [htake]
    rw [← List.cons_append,List.drop_append_of_le_length hle,hdrop]
  · exact ⟨u,Left.refl _ u,rfl⟩

theorem readEscape_open : Open readEscape [] := by
  refine ⟨rfl,?_⟩
  intro d hd
  simp [readEscape,hd.toIsEnd.edge.hex]

theorem readName_nil : readName [] = ([],[]) := by rw [readName]

theorem readName_open_or_stops (s : List Char) : Open readName s ∨ Stops readName s := by
  induction s using readName.induct with
  | case1 =>
    right
    intro u hu
    exact ⟨u,Left.refl _ u,by rw [List.nil_append,hu.edges.readName,readName_nil]; rfl⟩
  | case2 c r hc ih =>
    refine ih.imp ?_ ?_
    · rintro ⟨hend,ho⟩
      refine ⟨by rwa [readName,if_pos hc],?_⟩
      intro d hd
      rw [List.cons_append,readName,if_pos hc]
      exact ho d hd
    · intro hstop u hu
      obtain ⟨v,hleft,hread⟩ := hstop u hu
      rw [List.cons_append,readName,if_pos hc,readName,if_pos hc,hread]
      exact ⟨v,hleft,rfl⟩
  | case3 c r hc hslash e ih =>
    have hkeep : ∀ d, IsBreak d → (decide (c = '\\') && !startsNewline (r ++ [d])) = true := by
      intro d hd
      rw [startsNewline_break hd]
      exact hslash
    by_cases hr : r = []
    · left
      subst hr
      refine ⟨by rw [readName,if_neg hc,if_pos hslash]; simp only [readEscape_open.1,readName_nil],?_⟩
      intro d hd
      rw [List.cons_append,readName,if_neg hc,if_pos (hkeep d hd)]
      have he := readEscape_open.2 d hd
      simp only [he,readName_nil]
    · have hescape := readEscape_stops hr
      refine ih.imp ?_ ?_
      · rintro ⟨hend,ho⟩
        refine ⟨by rwa [readName,if_neg hc,if_pos hslash],?_⟩
        intro d hd
        rw [List.cons_append,readName,if_neg hc,if_pos (hkeep d hd),hescape.begins hd []]
        exact ho d hd
      · intro hstop u hu
        obtain ⟨v,hleft,he⟩ := hescape u hu
        obtain ⟨w,hleft',hread⟩ := hstop v (hleft.follows hu)
        have hnil : (readEscape r).2 = [] → (readName (readEscape r).2).2 = [] := by
          intro h
          rw [h,readName_nil]
        refine ⟨w,?_,?_⟩
        · rw [readName,if_neg hc,if_pos hslash]
          exact hleft.trans hnil hleft'
        · have hrest : readName ((readEscape r).2 ++ v) =
              ((readName (readEscape r).2).1,(readName (readEscape r).2).2 ++ w) := hread
          rw [List.cons_append,readName,if_neg hc,if_pos (by rwa [startsNewline_append hr]),readName,
            if_neg hc,if_pos hslash,he]
          simp only [hrest]
  | case4 c r hc hslash =>
    right
    intro u hu
    refine ⟨u,Left.refl _ u,?_⟩
    have hkeep : ¬(decide (c = '\\') && !startsNewline (r ++ u)) = true := by
      by_cases hr : r = []
      · subst hr
        intro h
        rw [Bool.and_eq_true] at h
        exact hslash (by simp [h.1,startsNewline])
      · rwa [startsNewline_append hr]
    rw [List.cons_append,readName,if_neg hc,if_neg hkeep,readName,if_neg hc,if_neg hslash]
    rfl

theorem ne_backslash_of_stops {s : List Char} (h : Stops readName s) : s ≠ ['\\'] := by
  rintro rfl
  have hbreak : IsBreak ';' := isBreak_of_mark (by decide)
  have hboth := h.begins hbreak []
  have hescape : (readEscape [';']).2 = [] := readEscape_open.2 ';' hbreak
  have hrest : (readName ['\\',';']).2 = [] := by
    rw [readName,if_neg (by decide),if_pos (by decide)]
    simp only [hescape,readName_nil]
  rw [List.singleton_append] at hboth
  rw [hboth] at hrest
  exact absurd hrest (by simp)

/-- Only a backslash at the end begins an identifier or not by what follows. -/
theorem startsIdent_append {s u : List Char} (hu : Edges u)
    (hs : s = ['\\'] → startsNewline u = false) : startsIdent (s ++ u) = startsIdent s := by
  match s with
  | [] => exact hu.startsIdent
  | [c] =>
    by_cases hc : c = '-'
    · subst hc
      cases u with
      | nil => rfl
      | cons d t =>
        have hd := hu _ _ rfl
        simp [startsIdent,hd.nameStart,hd.ne_name (c := '-') (by decide),
          hd.ne_binder (c := '\\') (by decide)]
    · by_cases hslash : c = '\\'
      · subst hslash
        have hend : startsNewline [] = false := rfl
        rw [List.singleton_append,startsIdent.eq_def,startsIdent.eq_def]
        simp [hs rfl,hend]
      · simp [startsIdent.eq_def,hc,hslash]
  | c :: b :: r => rfl

theorem startsIdent_break {d : Char} (hd : IsBreak d) (s t : List Char) :
    startsIdent (s ++ d :: t) = startsIdent s :=
  startsIdent_append (ends_cons hd.toIsEnd t).edges fun _ => startsNewline_break hd [] t

end Scanners

/-! ## Numbers -/

section Numbers
variable {u : List Char}

section
variable (hu : EndsNumeral u)
include hu

theorem startsDigit_append (s : List Char) : startsDigit (s ++ u) = startsDigit s := by
  cases s with
  | nil => exact hu.digit
  | cons c r => rfl

theorem startsFraction_append (s : List Char) : startsFraction (s ++ u) = startsFraction s := by
  cases s with
  | nil => exact hu.fraction
  | cons c r => rw [List.cons_append,startsFraction,startsFraction,startsDigit_append hu]

theorem digitsOf_append (s : List Char) : digitsOf (s ++ u) = digitsOf s := by
  rw [digitsOf,takeWhile_append hu.isDigit,digitsOf]

theorem readFraction_halts (s : List Char) :
    readFraction (s ++ u) = ((readFraction s).1,(readFraction s).2 ++ u) := by
  rw [readFraction,readFraction,startsFraction_append hu]
  cases s with
  | nil => rfl
  | cons c r =>
    split
    · simp only [List.cons_append,List.drop_one,List.tail_cons,digitsOf_append hu,
        dropWhile_append hu.isDigit]
    · rfl

end

section
variable (hu : Edges u)
include hu

theorem dropSign_append (s : List Char) : dropSign (s ++ u) = dropSign s ++ u := by
  cases s with
  | nil => exact hu.dropSign
  | cons c r =>
    rw [List.cons_append,dropSign,dropSign]
    split <;> rfl

theorem startsNumber_append (s : List Char) : startsNumber (s ++ u) = startsNumber s := by
  rw [startsNumber,startsNumber,dropSign_append hu,startsDigit_append hu.numeral,
    startsFraction_append hu.numeral]

theorem startsExponent_append (s : List Char) : startsExponent (s ++ u) = startsExponent s := by
  cases s with
  | nil => exact hu.startsExponent
  | cons c r =>
    rw [List.cons_append,startsExponent,startsExponent,dropSign_append hu,
      startsDigit_append hu.numeral]

theorem startsMinus_append (s : List Char) : startsMinus (s ++ u) = startsMinus s := by
  cases s with
  | nil => exact hu.startsMinus
  | cons c r => rfl

theorem startsPlus_append (s : List Char) : startsPlus (s ++ u) = startsPlus s := by
  cases s with
  | nil => exact hu.startsPlus
  | cons c r => rfl

theorem readExponent_halts (s : List Char) :
    readExponent (s ++ u) = ((readExponent s).1,(readExponent s).2 ++ u) := by
  rw [readExponent,readExponent,startsExponent_append hu]
  cases s with
  | nil => rfl
  | cons c r =>
    split
    · simp only [List.cons_append,List.drop_one,List.tail_cons,dropSign_append hu,
        digitsOf_append hu.numeral,startsMinus_append hu,dropWhile_append hu.numeral.isDigit]
    · rfl

theorem readNumeral_halts (s : List Char) :
    readNumeral (s ++ u) = ((readNumeral s).1,(readNumeral s).2 ++ u) := by
  simp only [readNumeral,dropSign_append hu,dropWhile_append hu.numeral.isDigit,
    readFraction_halts hu.numeral,readExponent_halts hu,digitsOf_append hu.numeral,
    startsPlus_append hu,startsMinus_append hu]

end

end Numbers

theorem append_ne_cons {u : List Char} {c : Char} (hu : ∀ r, u ≠ c :: r) {s : List Char}
    (h : ∀ r, s ≠ c :: r) (r : List Char) : s ++ u ≠ c :: r := by
  cases s with
  | nil => exact hu r
  | cons b s =>
    have hb : b ≠ c := fun hb => h s (by rw [hb])
    simp [hb]

theorem numericToken_percent {s r : List Char} (h : (readNumeral s).2 = '%' :: r) :
    numericToken s = (percentage (readNumeral s).1,r) := by
  simp only [numericToken,h]

theorem numericToken_plain {s : List Char} (h : ∀ r, (readNumeral s).2 ≠ '%' :: r) :
    numericToken s = if startsIdent (readNumeral s).2 then
      (dimension (readNumeral s).1 (String.ofList (readName (readNumeral s).2).1),
        (readName (readNumeral s).2).2) else (number (readNumeral s).1,(readNumeral s).2) := by
  simp only [numericToken]

theorem numericToken_open_or_stops (s : List Char) :
    Open numericToken s ∨ Stops numericToken s := by
  by_cases hp : ∃ r, (readNumeral s).2 = '%' :: r
  · obtain ⟨r,hr⟩ := hp
    right
    refine Halts.stops ?_
    intro u hu
    have hn := readNumeral_halts hu.edges s
    have hr' : (readNumeral (s ++ u)).2 = '%' :: (r ++ u) := by
      rw [hn,hr]
      rfl
    rw [numericToken_percent hr',numericToken_percent hr,hn]
  · have hp : ∀ r, (readNumeral s).2 ≠ '%' :: r := fun r hr => hp ⟨r,hr⟩
    have hplain : ∀ u, Follows u → ∀ r, (readNumeral (s ++ u)).2 ≠ '%' :: r := by
      intro u hu r
      rw [readNumeral_halts hu.edges]
      exact append_ne_cons (hu.ne_binder (by decide)) hp r
    cases hi : startsIdent (readNumeral s).2 with
    | false =>
      right
      refine Halts.stops ?_
      intro u hu
      have hsame : startsIdent ((readNumeral s).2 ++ u) = false := by
        rw [startsIdent_append hu.edges,hi]
        intro h
        rw [h] at hi
        cases hi
      rw [numericToken_plain (hplain u hu),numericToken_plain hp,readNumeral_halts hu.edges]
      simp [hsame,hi]
    | true =>
      refine (readName_open_or_stops (readNumeral s).2).imp ?_ ?_
      · rintro ⟨hend,ho⟩
        refine ⟨by simpa [numericToken_plain hp,hi] using hend,?_⟩
        intro d hd
        have hu : Follows [d] := .begins hd []
        rw [numericToken_plain (hplain [d] hu),readNumeral_halts hu.edges]
        simpa [startsIdent_break hd,hi] using ho d hd
      · intro hstop u hu
        obtain ⟨v,hleft,hread⟩ := hstop u hu
        have hsame : startsIdent ((readNumeral s).2 ++ u) = true := by
          rw [startsIdent_append hu.edges fun h => absurd h (ne_backslash_of_stops hstop),hi]
        refine ⟨v,?_,?_⟩
        · rw [numericToken_plain hp,hi]
          exact hleft
        · rw [numericToken_plain (hplain u hu),numericToken_plain hp,readNumeral_halts hu.edges]
          simp [hsame,hi,hread]

/-! ## Strings -/

section Escapes
variable {quote : Char} {r : List Char} (hq : '\\' ≠ quote) (hr : r ≠ [])
include hq hr

/-- A line end behind a backslash is passed over, whatever stands after it. -/
theorem readQuoted_lineEnd (hnew : startsNewline r = true) (u : List Char) :
    readQuoted quote ('\\' :: r ++ u) = readQuoted quote (dropNewline (r ++ u)) := by
  have hn : isNewline '\\' = false := rfl
  rw [List.cons_append,readQuoted]
  simp [hq,hn,hr,startsNewline_append hr,hnew]

theorem readQuoted_escape (hnew : startsNewline r = false) (u : List Char) :
    readQuoted quote ('\\' :: r ++ u) =
      {readQuoted quote (readEscape (r ++ u)).2 with
        text := (readEscape (r ++ u)).1 :: (readQuoted quote (readEscape (r ++ u)).2).text} := by
  have hn : isNewline '\\' = false := rfl
  rw [List.cons_append,readQuoted]
  simp [hq,hn,hr,startsNewline_append hr,hnew]

end Escapes

theorem readQuoted_open_or_halts {quote : Char} (hq : quote ∈ joiners) (s : List Char) :
    ((readQuoted quote s).rest = [] ∧
      ∀ d, IsBreak d → (readQuoted quote (s ++ [d])).rest = []) ∨
    ∀ u, Follows u → readQuoted quote (s ++ u) =
      {readQuoted quote s with rest := (readQuoted quote s).rest ++ u} := by
  have hnone : (readQuoted quote []).rest = [] := by rw [readQuoted]
  have hend : ∀ d, IsBreak d → (readQuoted quote [d]).rest = [] := by
    intro d hd
    have hnewline : isNewline d = false := startsNewline_break hd [] []
    rw [readQuoted]
    simp [hd.ne hq,hnewline,hd.ne (c := '\\') (by decide),readQuoted]
  induction s using readQuoted.induct quote with
  | case1 => exact Or.inl ⟨hnone,hend⟩
  | case2 r =>
    right
    intro u _
    simp [readQuoted]
  | case3 c r hc hn =>
    right
    intro u _
    simp [readQuoted,hc,hn]
  | case4 r hr hc hn =>
    left
    refine ⟨by rw [readQuoted]; simp [hc,hn,hr],?_⟩
    intro d hd
    have he := readEscape_open.2 d hd
    have hnewline : startsNewline [d] = false := startsNewline_break hd [] []
    rw [List.nil_append] at he
    rw [List.isEmpty_iff.1 hr,List.cons_append,readQuoted]
    simp [hc,hn,hnewline,he,readQuoted]
  | case5 r hr hnew hc hn ih =>
    have hr : r ≠ [] := by simpa using hr
    have hstep := readQuoted_lineEnd hc hr hnew
    have hself : readQuoted quote ('\\' :: r) = readQuoted quote (dropNewline r) := by
      simpa using hstep []
    by_cases hnil : dropNewline r = []
    · left
      refine ⟨by rw [hself,hnil]; exact hnone,?_⟩
      intro d hd
      obtain ⟨v,hleft,hdrop⟩ := dropNewline_append r [d]
      rw [hstep,hdrop,hleft.eq_of_break hd,hnil]
      exact hend d hd
    · have hdrop : ∀ u, Follows u → dropNewline (r ++ u) = dropNewline r ++ u := by
        intro u hu
        obtain ⟨v,rfl | ⟨h,_⟩,hdrop⟩ := dropNewline_append r u
        · exact hdrop
        · exact absurd h hnil
      rw [hself]
      refine ih.imp ?_ ?_
      · rintro ⟨hrest,ho⟩
        refine ⟨hrest,?_⟩
        intro d hd
        rw [hstep,hdrop _ (.begins hd [])]
        exact ho d hd
      · intro hstop u hu
        rw [hstep,hdrop u hu]
        exact hstop u hu
  | case6 r hr hnew e hc hn ih =>
    have hr : r ≠ [] := by simpa using hr
    have hescape := readEscape_stops hr
    have hstep := readQuoted_escape hc hr (by simpa using hnew)
    have hself := hstep []
    rw [List.append_nil,List.append_nil] at hself
    by_cases hnil : (readEscape r).2 = []
    · left
      refine ⟨by rw [hself,hnil]; exact hnone,?_⟩
      intro d hd
      rw [hstep,hescape.begins hd [],hnil]
      exact hend d hd
    · have hhalts := hescape.halts hnil
      rw [hself]
      refine ih.imp ?_ ?_
      · rintro ⟨hrest,ho⟩
        refine ⟨hrest,?_⟩
        intro d hd
        rw [hstep,hescape.begins hd []]
        exact ho d hd
      · intro hstop u hu
        have hrest : readQuoted quote ((readEscape r).2 ++ u) =
            {readQuoted quote (readEscape r).2 with
              rest := (readQuoted quote (readEscape r).2).rest ++ u} := hstop u hu
        rw [hstep,hhalts u hu,hrest]
  | case7 c r hc hn hs ih =>
    refine ih.imp ?_ ?_
    · rintro ⟨hrest,ho⟩
      refine ⟨by rw [readQuoted]; simpa [hc,hn,hs] using hrest,?_⟩
      intro d hd
      rw [List.cons_append,readQuoted]
      simpa [hc,hn,hs] using ho d hd
    · intro hstop u hu
      rw [List.cons_append,readQuoted,readQuoted]
      simp [hc,hn,hs,hstop u hu]

end StyleExpansion.Token
