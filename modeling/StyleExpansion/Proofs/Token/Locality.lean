import StyleExpansion.Proofs.Token.Scanners

/-! # Tokens at the end of a text

A token is open at the end of a text, or it is the same before any text that follows.
-/
namespace StyleExpansion.Token

/-! ## Urls and comments -/

theorem closeUrl_open : Open closeUrl [] := by
  refine ⟨rfl,?_⟩
  intro d hd
  simp [closeUrl,hd.ne (c := ')') (by decide)]

theorem closeUrl_halts {s : List Char} (hs : s ≠ []) : Halts closeUrl s := by
  intro u _
  obtain ⟨c,r,rfl⟩ := List.exists_cons_of_ne_nil hs
  rw [List.cons_append,closeUrl,closeUrl]
  split <;> rfl

theorem readUrl_open : Open readUrl [] := by
  refine ⟨by rw [readUrl],?_⟩
  intro d hd
  rw [List.nil_append,readUrl]
  simp only [hd.ne (c := ')') (by decide),hd.space,hd.ne (c := '\\') (by decide),if_false,
    Bool.false_eq_true]
  split
  · rfl
  · rw [readUrl]

theorem dropSpace_break {d : Char} (hd : IsBreak d) (s : List Char) :
    (s ++ [d]).dropWhile isSpace = s.dropWhile isSpace ++ [d] := by
  apply dropWhile_append
  intro c t h
  cases h
  exact hd.space

theorem dropSpace_of_ne_nil {s : List Char} (h : s.dropWhile isSpace ≠ []) (u : List Char) :
    (s ++ u).dropWhile isSpace = s.dropWhile isSpace ++ u := by
  rw [List.dropWhile_append]
  simp [h]

theorem readUrl_escape {r : List Char} (hr : r ≠ []) (hnew : startsNewline r = false) (u : List Char) :
    readUrl ('\\' :: r ++ u) =
      ((readUrl (readEscape (r ++ u)).2).1.map ((readEscape (r ++ u)).1 :: ·),
        (readUrl (readEscape (r ++ u)).2).2) := by
  have hround : '\\' ≠ ')' := by decide
  have hspace : isSpace '\\' = false := rfl
  rw [List.cons_append,readUrl]
  simp [hround,hspace,startsNewline_append hr,hnew]

theorem readUrl_open_or_halts (s : List Char) : Open readUrl s ∨ Halts readUrl s := by
  induction s using readUrl.induct with
  | case1 => exact Or.inl readUrl_open
  | case2 r =>
    right
    intro u _
    simp [readUrl]
  | case3 c r hc hs =>
    by_cases hr : r.dropWhile isSpace = []
    · left
      refine ⟨by rw [readUrl,if_neg hc,if_pos hs,hr]; exact closeUrl_open.1,?_⟩
      intro d hd
      rw [List.cons_append,readUrl,if_neg hc,if_pos hs,dropSpace_break hd,hr]
      exact closeUrl_open.2 d hd
    · right
      intro u hu
      rw [List.cons_append,readUrl,if_neg hc,if_pos hs,dropSpace_of_ne_nil hr,closeUrl_halts hr u hu,
        readUrl,if_neg hc,if_pos hs]
  | case4 r hn hc hs =>
    right
    intro u _
    have hr : r ≠ [] := by
      rintro rfl
      cases hn
    rw [List.cons_append,readUrl,readUrl]
    simp [hc,hs,startsNewline_append hr,hn]
  | case5 r hn e hc hs ih =>
    by_cases hr : r = []
    · left
      subst hr
      have hnone : startsNewline [] = false := rfl
      refine ⟨by rw [readUrl]; simp [hc,hs,hnone,readEscape_open.1,readUrl],?_⟩
      intro d hd
      have he := readEscape_open.2 d hd
      have hnewline : startsNewline [d] = false := startsNewline_break hd [] []
      rw [List.nil_append] at he
      rw [List.cons_append,readUrl]
      simp [hc,hs,hnewline,he,readUrl]
    · have hescape := readEscape_stops hr
      have hstep := readUrl_escape hr (by simpa using hn)
      have hself := hstep []
      rw [List.append_nil,List.append_nil] at hself
      by_cases hnil : (readEscape r).2 = []
      · left
        refine ⟨by rw [hself,hnil]; exact readUrl_open.1,?_⟩
        intro d hd
        rw [hstep,hescape.begins hd [],hnil]
        exact readUrl_open.2 d hd
      · have hhalts := hescape.halts hnil
        refine ih.imp ?_ ?_
        · rintro ⟨hend,ho⟩
          refine ⟨by rw [hself]; exact hend,?_⟩
          intro d hd
          rw [hstep,hescape.begins hd []]
          exact ho d hd
        · intro hhalt u hu
          have hrest : readUrl ((readEscape r).2 ++ u) =
              ((readUrl (readEscape r).2).1,(readUrl (readEscape r).2).2 ++ u) := hhalt u hu
          rw [hstep,hhalts u hu,hself]
          simp only [hrest]
  | case6 c r hc hs he hbad =>
    right
    intro u _
    rw [List.cons_append,readUrl,if_neg hc,if_neg hs,if_neg he,if_pos hbad,readUrl,if_neg hc,
      if_neg hs,if_neg he,if_pos hbad]
  | case7 c r hc hs he hbad ih =>
    refine ih.imp ?_ ?_
    · rintro ⟨hend,ho⟩
      refine ⟨by rwa [readUrl,if_neg hc,if_neg hs,if_neg he,if_neg hbad],?_⟩
      intro d hd
      rw [List.cons_append,readUrl,if_neg hc,if_neg hs,if_neg he,if_neg hbad]
      exact ho d hd
    · intro hhalt u hu
      rw [List.cons_append,readUrl,if_neg hc,if_neg hs,if_neg he,if_neg hbad,readUrl,if_neg hc,
        if_neg hs,if_neg he,if_neg hbad]
      simp only [hhalt u hu]

/-- The search for the end of a bad url goes through a break, unless it has come to its end before. -/
theorem toUrlEnd_open_or_halts (s : List Char) :
    (toUrlEnd s = [] ∧ ∀ d, IsBreak d → toUrlEnd (s ++ [d]) = []) ∨
    (toUrlEnd s ≠ [] ∧ ∀ u, Follows u → toUrlEnd (s ++ u) = toUrlEnd s ++ u) := by
  have hskip : ∀ d, IsBreak d → toUrlEnd [d] = [] := by
    intro d hd
    rw [toUrlEnd,toUrlEnd]
    · exact fun h => absurd h (hd.ne (by decide))
    · exact fun _ h => absurd h (hd.ne (by decide))
    · exact fun _ h => absurd h (hd.ne (by decide))
  induction s using toUrlEnd.induct with
  | case1 => exact Or.inl ⟨rfl,hskip⟩
  | case2 r =>
    right
    exact ⟨by simp [toUrlEnd],fun u _ => by simp [toUrlEnd]⟩
  | case3 r ih => simpa [toUrlEnd] using ih
  | case4 r ih => simpa [toUrlEnd] using ih
  | case5 c r hc hbracket hslash ih =>
    have hstep : toUrlEnd (c :: r) = toUrlEnd r := by rw [toUrlEnd] <;> assumption
    have hsteps : ∀ u, Follows u → toUrlEnd (c :: r ++ u) = toUrlEnd (r ++ u) := by
      intro u hu
      rw [List.cons_append,toUrlEnd]
      · exact hc
      · exact fun t h ht => append_ne_cons hu.ne_round (fun v hv => hbracket v h hv) t ht
      · exact fun t h ht => append_ne_cons (hu.ne_binder (by decide)) (fun v hv => hslash v h hv) t ht
    rw [hstep]
    refine ih.imp ?_ ?_
    · rintro ⟨hend,ho⟩
      refine ⟨hend,?_⟩
      intro d hd
      rw [hsteps [d] (.begins hd [])]
      exact ho d hd
    · rintro ⟨hne,hhalt⟩
      refine ⟨hne,?_⟩
      intro u hu
      rw [hsteps u hu]
      exact hhalt u hu

theorem afterComment_open_or_halts (s : List Char) :
    (afterComment s = [] ∧ ∀ d, IsBreak d → afterComment (s ++ [d]) = []) ∨
    ∀ u, Follows u → afterComment (s ++ u) = afterComment s ++ u := by
  have hskip : ∀ d, IsBreak d → afterComment [d] = [] := by
    intro d hd
    rw [afterComment,afterComment]
    exact fun _ h => absurd h (hd.ne (by decide))
  induction s using afterComment.induct with
  | case1 => exact Or.inl ⟨rfl,hskip⟩
  | case2 r =>
    right
    intro u _
    simp [afterComment]
  | case3 c r hend ih =>
    have hstep : afterComment (c :: r) = afterComment r := by rw [afterComment]; exact hend
    rw [hstep]
    by_cases hr : r = []
    · subst hr
      refine Or.inl ⟨rfl,?_⟩
      intro d hd
      rw [List.singleton_append,afterComment]
      · exact hskip d hd
      · exact fun _ _ h => absurd (List.cons.inj h).1 (hd.ne (by decide))
    · have hmore : ∀ u, afterComment (c :: r ++ u) = afterComment (r ++ u) := by
        intro u
        obtain ⟨b,t,rfl⟩ := List.exists_cons_of_ne_nil hr
        rw [List.cons_append,afterComment]
        intro v h hv
        cases hv
        exact hend t h rfl
      refine ih.imp ?_ ?_
      · rintro ⟨hend,ho⟩
        refine ⟨hend,?_⟩
        intro d hd
        rw [hmore [d]]
        exact ho d hd
      · intro hhalt u hu
        rw [hmore u]
        exact hhalt u hu

theorem urlToken_text {s text : List Char} (h : (readUrl (s.dropWhile isSpace)).1 = some text) :
    urlToken s = (url (String.ofList text),(readUrl (s.dropWhile isSpace)).2) := by
  rcases hu : readUrl (s.dropWhile isSpace) with ⟨o,rest⟩
  rw [hu] at h
  cases h
  simp only [urlToken,hu]

theorem urlToken_bad {s : List Char} (h : (readUrl (s.dropWhile isSpace)).1 = none) :
    urlToken s =
      (badUrl (String.ofList ((s.dropWhile isSpace).take ((s.dropWhile isSpace).length -
        (toUrlEnd (readUrl (s.dropWhile isSpace)).2).length))),
        (toUrlEnd (readUrl (s.dropWhile isSpace)).2).drop 1) := by
  rcases hu : readUrl (s.dropWhile isSpace) with ⟨o,rest⟩
  rw [hu] at h
  cases h
  simp only [urlToken,hu]

/-- A url token takes in all of a text if its url does. -/
theorem urlToken_rest {s : List Char} (h : (readUrl (s.dropWhile isSpace)).2 = []) :
    (urlToken s).2 = [] := by
  cases hread : (readUrl (s.dropWhile isSpace)).1 with
  | some text => rw [urlToken_text hread,h]
  | none =>
    rw [urlToken_bad hread,h]
    rfl

theorem urlToken_open {s : List Char} (h : Open readUrl (s.dropWhile isSpace)) : Open urlToken s := by
  refine ⟨urlToken_rest h.1,?_⟩
  intro d hd
  apply urlToken_rest
  rw [dropSpace_break hd s]
  exact h.2 d hd

theorem urlToken_open_or_halts (s : List Char) : Open urlToken s ∨ Halts urlToken s := by
  by_cases hnil : s.dropWhile isSpace = []
  · left
    apply urlToken_open
    rw [hnil]
    exact readUrl_open
  have hbody := dropSpace_of_ne_nil hnil
  rcases readUrl_open_or_halts (s.dropWhile isSpace) with ho | hhalt
  · exact Or.inl (urlToken_open ho)
  have hread : ∀ u, Follows u → readUrl ((s ++ u).dropWhile isSpace) =
      ((readUrl (s.dropWhile isSpace)).1,(readUrl (s.dropWhile isSpace)).2 ++ u) := by
    intro u hu
    rw [hbody u,hhalt u hu]
  cases hurl : (readUrl (s.dropWhile isSpace)).1 with
  | some text =>
    right
    intro u hu
    rw [urlToken_text (by rw [hread u hu]; exact hurl),urlToken_text hurl,hread u hu]
  | none =>
    refine (toUrlEnd_open_or_halts (readUrl (s.dropWhile isSpace)).2).imp ?_ ?_
    · rintro ⟨hend,ho⟩
      refine ⟨by rw [urlToken_bad hurl,hend]; rfl,?_⟩
      intro d hd
      have hd' : Follows [d] := .begins hd []
      rw [urlToken_bad (by rw [hread [d] hd']; exact hurl),hread [d] hd']
      simp only [ho d hd]
      rfl
    · rintro ⟨hne,hend⟩ u hu
      obtain ⟨c,stop,hc⟩ := List.exists_cons_of_ne_nil hne
      have hlen : (s.dropWhile isSpace ++ u).length - (c :: stop ++ u).length =
          (s.dropWhile isSpace).length - (c :: stop).length := by
        simp only [List.length_append,List.length_cons]
        omega
      rw [urlToken_bad (by rw [hread u hu]; exact hurl),urlToken_bad hurl,hread u hu,hbody u]
      simp only [hend u hu,hc]
      rw [hlen,List.take_append_of_le_length (Nat.sub_le _ _)]
      rfl

/-! ## Tokens -/

theorem quotedToken_open_or_stops {quote : Char} (hq : quote ∈ joiners) (s : List Char) :
    Open (quotedToken quote) s ∨ Stops (quotedToken quote) s := by
  refine (readQuoted_open_or_halts hq s).imp ?_ ?_
  · rintro ⟨hend,ho⟩
    exact ⟨hend,fun d hd => ho d hd⟩
  · intro hhalt
    refine Halts.stops ?_
    intro u hu
    simp only [quotedToken,hhalt u hu]

theorem identToken_call {s r : List Char} (h : (readName s).2 = '(' :: r) :
    identToken s = if isUrlName (readName s).1 && !startsQuote (r.dropWhile isSpace) then urlToken r
      else (opening (.function (String.ofList (readName s).1)),r) := by
  simp only [identToken,h]

theorem identToken_plain {s : List Char} (h : ∀ r, (readName s).2 ≠ '(' :: r) :
    identToken s = (ident (String.ofList (readName s).1),(readName s).2) := by
  simp only [identToken]

theorem startsQuote_dropSpace {u : List Char} (hu : Follows u) (r : List Char) :
    startsQuote ((r ++ u).dropWhile isSpace) = startsQuote (r.dropWhile isSpace) := by
  obtain ⟨v,hleft,hdrop⟩ := dropSpace_append r u
  rw [hdrop]
  cases r.dropWhile isSpace with
  | nil => exact (hleft.follows hu).startsQuote
  | cons c t => rfl

theorem identToken_open_or_stops (s : List Char) : Open identToken s ∨ Stops identToken s := by
  rcases readName_open_or_stops s with ⟨hend,ho⟩ | hstop
  · left
    refine ⟨by rwa [identToken_plain (by simp [hend])],?_⟩
    intro d hd
    have hrest := ho d hd
    rw [identToken_plain (by simp [hrest])]
    exact hrest
  by_cases hp : ∃ r, (readName s).2 = '(' :: r
  · obtain ⟨r,hr⟩ := hp
    have hhalt : Halts readName s := hstop.halts (by simp [hr])
    have hname : ∀ u, Follows u → readName (s ++ u) = ((readName s).1,'(' :: (r ++ u)) := by
      intro u hu
      rw [hhalt u hu,hr]
      rfl
    have hcall : ∀ u, Follows u → identToken (s ++ u) =
        if isUrlName (readName s).1 && !startsQuote (r.dropWhile isSpace) then urlToken (r ++ u)
        else (opening (.function (String.ofList (readName s).1)),r ++ u) := by
      intro u hu
      rw [identToken_call (by rw [hname u hu]),hname u hu,startsQuote_dropSpace hu]
    cases hurl : isUrlName (readName s).1 && !startsQuote (r.dropWhile isSpace) with
    | false =>
      right
      refine Halts.stops ?_
      intro u hu
      rw [hcall u hu,identToken_call hr,hurl]
      rfl
    | true =>
      refine (urlToken_open_or_halts r).imp ?_ ?_
      · rintro ⟨hend,ho⟩
        refine ⟨by rw [identToken_call hr,hurl]; exact hend,?_⟩
        intro d hd
        rw [hcall [d] (.begins hd []),hurl]
        exact ho d hd
      · intro hh
        refine Halts.stops ?_
        intro u hu
        rw [hcall u hu,identToken_call hr,hurl]
        exact hh u hu
  · have hp : ∀ r, (readName s).2 ≠ '(' :: r := fun r hr => hp ⟨r,hr⟩
    right
    intro u hu
    obtain ⟨v,hleft,hread⟩ := hstop u hu
    have hplain : ∀ r, (readName (s ++ u)).2 ≠ '(' :: r := by
      intro r
      rw [hread]
      exact append_ne_cons ((hleft.follows hu).ne_binder (by decide)) hp r
    rw [identToken_plain hplain,identToken_plain hp,hread]
    exact ⟨v,hleft,rfl⟩

theorem hashToken_eq (s : List Char) : hashToken s =
    if startsIdent s then (hash (String.ofList (readName s).1) true,(readName s).2)
    else if startsDigit s || startsMinus s then
      (hash (String.ofList (readName s).1) false,(readName s).2)
    else (delim '#',s) := by
  cases s with
  | nil => rfl
  | cons c r =>
    unfold hashToken
    rfl

theorem hashToken_open_or_stops (s : List Char) : Open hashToken s ∨ Stops hashToken s := by
  have heq : ∀ u, Follows u → (s = ['\\'] → startsNewline u = false) → hashToken (s ++ u) =
      if startsIdent s then
        (hash (String.ofList (readName (s ++ u)).1) true,(readName (s ++ u)).2)
      else if startsDigit s || startsMinus s then
        (hash (String.ofList (readName (s ++ u)).1) false,(readName (s ++ u)).2)
      else (delim '#',s ++ u) := by
    intro u hu hs
    rw [hashToken_eq,startsIdent_append hu.edges hs,startsDigit_append hu.edges.numeral,
      startsMinus_append hu.edges]
  by_cases hname : (startsIdent s || (startsDigit s || startsMinus s)) = true
  · refine (readName_open_or_stops s).imp ?_ ?_
    · rintro ⟨hend,ho⟩
      constructor
      · rw [hashToken_eq]
        split
        · exact hend
        · next hi =>
          rw [if_pos (by simpa [hi] using hname)]
          exact hend
      · intro d hd
        have hrest := ho d hd
        rw [heq [d] (.begins hd []) fun _ => startsNewline_break hd [] []]
        split
        · exact hrest
        · next hi =>
          rw [if_pos (by simpa [hi] using hname)]
          exact hrest
    · intro hstop u hu
      obtain ⟨v,hleft,hread⟩ := hstop u hu
      rw [heq u hu fun h => absurd h (ne_backslash_of_stops hstop),hread,hashToken_eq]
      split
      · exact ⟨v,hleft,rfl⟩
      · next hi =>
        rw [if_pos (by simpa [hi] using hname),if_pos (by simpa [hi] using hname)]
        exact ⟨v,hleft,rfl⟩
  · right
    refine Halts.stops ?_
    intro u hu
    have hs : s ≠ ['\\'] := by
      rintro rfl
      exact hname rfl
    simp only [Bool.or_eq_true,not_or] at hname
    rw [heq u hu fun h => absurd h hs,hashToken_eq]
    simp [hname]

theorem atToken_open_or_stops (s : List Char) : Open atToken s ∨ Stops atToken s := by
  cases hi : startsIdent s with
  | true =>
    refine (readName_open_or_stops s).imp ?_ ?_
    · rintro ⟨hend,ho⟩
      refine ⟨by rwa [atToken,hi],?_⟩
      intro d hd
      rw [atToken,startsIdent_break hd,hi]
      exact ho d hd
    · intro hstop u hu
      obtain ⟨v,hleft,hread⟩ := hstop u hu
      have hsame : startsIdent (s ++ u) = true := by
        rw [startsIdent_append hu.edges fun h => absurd h (ne_backslash_of_stops hstop),hi]
      rw [atToken,atToken,hsame,hi,hread]
      exact ⟨v,hleft,rfl⟩
  | false =>
    right
    refine Halts.stops ?_
    intro u hu
    have hs : s ≠ ['\\'] := by
      rintro rfl
      cases hi
    have hsame : startsIdent (s ++ u) = false := by
      rw [startsIdent_append hu.edges fun h => absurd h hs,hi]
    simp [atToken,hsame,hi]

theorem append_ne_markup {u : List Char} (hu : Follows u) {s : List Char}
    (h : ∀ t, s ≠ '!' :: '-' :: '-' :: t) (t : List Char) : s ++ u ≠ '!' :: '-' :: '-' :: t := by
  intro he
  have hyphen : ∀ d r, u = d :: r → d ≠ '-' :=
    fun d r hd => (hu.edges d r hd).ne_name (by decide)
  match s with
  | [] => exact hu.ne_markup t he
  | [a] => exact hyphen _ _ (List.cons.inj he).2 rfl
  | [a,b] => exact hyphen _ _ (List.cons.inj (List.cons.inj he).2).2 rfl
  | a :: b :: c :: r =>
    simp only [List.cons_append,List.cons.injEq] at he
    obtain ⟨rfl,rfl,rfl,_⟩ := he
    exact h r rfl

theorem punctuationToken_open_or_stops (c : Char) (s : List Char) :
    Open (punctuationToken c) s ∨ Stops (punctuationToken c) s := by
  by_cases hcomment : c = '/' ∧ ∃ t, s = '*' :: t
  · obtain ⟨rfl,t,rfl⟩ := hcomment
    refine (afterComment_open_or_halts t).imp ?_ ?_
    · rintro ⟨hend,ho⟩
      exact ⟨hend,fun d hd => ho d hd⟩
    · intro hhalt
      refine Halts.stops ?_
      intro u hu
      rw [List.cons_append,punctuationToken,punctuationToken,hhalt u hu]
  right
  refine Halts.stops ?_
  by_cases hmarkup : c = '<' ∧ ∃ t, s = '!' :: '-' :: '-' :: t
  · obtain ⟨rfl,t,rfl⟩ := hmarkup
    intro u _
    rfl
  by_cases hequals : ∃ t, s = '=' :: t
  · obtain ⟨t,rfl⟩ := hequals
    intro u _
    rw [List.cons_append,punctuationToken,punctuationToken]
    split <;> rfl
  · intro u hu
    rw [punctuationToken,punctuationToken]
    · exact fun t hs => hequals ⟨t,hs⟩
    · exact fun t hc hs => hcomment ⟨hc,t,hs⟩
    · exact fun t hc hs => hmarkup ⟨hc,t,hs⟩
    · exact fun t => append_ne_cons (hu.ne_binder (by decide)) (fun t hs => hequals ⟨t,hs⟩) t
    · exact fun t hc => append_ne_cons (hu.ne_binder (by decide)) (fun t hs => hcomment ⟨hc,t,hs⟩) t
    · exact fun t hc => append_ne_markup hu (fun t hs => hmarkup ⟨hc,t,hs⟩) t

/-- A scanner that another one carries on from some text on behaves as that one does. -/
theorem open_or_stops_of {α : Type} {f g : List Char → α × List Char} {s t : List Char}
    (h : Open f t ∨ Stops f t) (hs : g s = f t) (hb : ∀ u, Follows u → g (s ++ u) = f (t ++ u)) :
    Open g s ∨ Stops g s := by
  refine h.imp ?_ ?_
  · rintro ⟨hend,ho⟩
    refine ⟨by rw [hs]; exact hend,?_⟩
    intro d hd
    rw [hb [d] (.begins hd [])]
    exact ho d hd
  · intro hstop u hu
    rw [hb u hu,hs]
    exact hstop u hu

theorem markupClose_append {u : List Char} (hu : Follows u) (c : Char) (s : List Char) :
    ['-','-','>'].isPrefixOf (c :: (s ++ u)) = ['-','-','>'].isPrefixOf (c :: s) := by
  have hhead : ∀ d t, u = d :: t → '-' ≠ d ∧ '>' ≠ d :=
    fun d t h =>
      ⟨((hu.edges d t h).ne_name (by decide)).symm,((hu.edges d t h).ne_binder (by decide)).symm⟩
  match s with
  | [] =>
    cases u with
    | nil => rfl
    | cons d t => simp [List.isPrefixOf,(hhead d t rfl).1]
  | [a] =>
    cases u with
    | nil => rfl
    | cons d t => simp [List.isPrefixOf,(hhead d t rfl).2]
  | a :: b :: r => rfl

/-- A backslash at the end is an identifier, which goes on with any break. -/
theorem next_open_backslash : Open (next '\\') [] := by
  refine ⟨by decide +kernel,?_⟩
  intro d hd
  have hident : startsIdent ['\\',d] = true := startsIdent_break hd ['\\'] []
  have hnumber : startsNumber ['\\',d] = false := startsNumber_append (ends_cons hd.toIsEnd []).edges ['\\']
  have hclose : ['-','-','>'].isPrefixOf ['\\',d] = false :=
    markupClose_append (.begins hd []) '\\' []
  have hescape : (readEscape [d]).2 = [] := readEscape_open.2 d hd
  have hnewline : startsNewline [d] = false := startsNewline_break hd [] []
  have hname : (readName ['\\',d]).2 = [] := by
    rw [readName,if_neg (by decide),if_pos (by simp [hnewline])]
    simp only [hescape,readName_nil]
  rw [List.nil_append,next,if_neg (by decide),if_neg (by decide),if_neg (by simp [hnumber]),
    if_neg (by simp [hclose]),if_pos hident,identToken_plain (by simp [hname]),hname]

theorem next_stops_of_isSpace {c : Char} (h : isSpace c = true) (s : List Char) :
    Stops (next c) s := by
  intro u _
  obtain ⟨v,hleft,hdrop⟩ := dropSpace_append s u
  rw [next,if_pos h,next,if_pos h,hdrop]
  exact ⟨v,hleft,rfl⟩

/-- What a text begins with is open at its end, or it is the same before any text that follows. -/
theorem next_open_or_stops (c : Char) (s : List Char) : Open (next c) s ∨ Stops (next c) s := by
  by_cases hspace : isSpace c = true
  · exact Or.inr (next_stops_of_isSpace hspace s)
  by_cases hquote : (decide (c = '"') || decide (c = '\'')) = true
  · have hjoin : c ∈ joiners := by
      rw [Bool.or_eq_true,decide_eq_true_eq,decide_eq_true_eq] at hquote
      rcases hquote with rfl | rfl <;> decide
    have hnext : ∀ t, next c t = quotedToken c t := by
      intro t
      rw [next,if_neg hspace,if_pos hquote]
    exact open_or_stops_of (quotedToken_open_or_stops hjoin s) (hnext s) fun u _ => hnext _
  by_cases hslash : c = '\\' ∧ s = []
  · obtain ⟨rfl,rfl⟩ := hslash
    exact Or.inl next_open_backslash
  have hkind : ∀ u, Follows u → next c (s ++ u) =
      if startsNumber (c :: s) then numericToken (c :: s ++ u)
      else if ['-','-','>'].isPrefixOf (c :: s) then (markupClose,(c :: s ++ u).drop 3)
      else if startsIdent (c :: s) then identToken (c :: s ++ u)
      else if c = '#' then hashToken (s ++ u)
      else if c = '@' then atToken (s ++ u)
      else punctuationToken c (s ++ u) := by
    intro u hu
    have hident := startsIdent_append (s := c :: s) hu.edges
      fun h => absurd ⟨(List.cons.inj h).1,(List.cons.inj h).2⟩ hslash
    rw [next,if_neg hspace,if_neg hquote,markupClose_append hu,← List.cons_append,
      startsNumber_append hu.edges,hident]
  have hself : next c s =
      if startsNumber (c :: s) then numericToken (c :: s)
      else if ['-','-','>'].isPrefixOf (c :: s) then (markupClose,(c :: s).drop 3)
      else if startsIdent (c :: s) then identToken (c :: s)
      else if c = '#' then hashToken s
      else if c = '@' then atToken s
      else punctuationToken c s := by
    rw [next,if_neg hspace,if_neg hquote]
  by_cases hnumber : startsNumber (c :: s) = true
  · simp only [hnumber,if_true] at hself hkind
    exact open_or_stops_of (numericToken_open_or_stops (c :: s)) hself hkind
  simp only [hnumber,Bool.false_eq_true,if_false] at hself hkind
  by_cases hclose : ['-','-','>'].isPrefixOf (c :: s) = true
  · simp only [hclose,if_true] at hself hkind
    right
    refine Halts.stops ?_
    intro u hu
    have hlen : 3 ≤ (c :: s).length := (List.isPrefixOf_iff_prefix.1 hclose).length_le
    rw [hkind u hu,hself,List.drop_append_of_le_length hlen]
  simp only [hclose,Bool.false_eq_true,if_false] at hself hkind
  by_cases hident : startsIdent (c :: s) = true
  · simp only [hident,if_true] at hself hkind
    exact open_or_stops_of (identToken_open_or_stops (c :: s)) hself hkind
  simp only [hident,Bool.false_eq_true,if_false] at hself hkind
  by_cases hhash : c = '#'
  · simp only [hhash,if_true] at hself hkind
    rw [hhash]
    exact open_or_stops_of (hashToken_open_or_stops s) hself hkind
  simp only [hhash,if_false] at hself hkind
  by_cases hat : c = '@'
  · simp only [hat,if_true] at hself hkind
    rw [hat]
    exact open_or_stops_of (atToken_open_or_stops s) hself hkind
  simp only [hat,if_false] at hself hkind
  exact open_or_stops_of (punctuationToken_open_or_stops c s) hself hkind

end StyleExpansion.Token
