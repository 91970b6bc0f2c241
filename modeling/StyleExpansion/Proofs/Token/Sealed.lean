import StyleExpansion.Proofs.Token.Kinds

/-! # Sealed texts

A text is sealed if nothing in it is open at its end: no string, url or comment, and no escape. Its tokens
are then the first tokens of any longer text in which a break comes next.
-/
namespace StyleExpansion
open Token

/-- Before any break, the text has tokens of its own. -/
def Sealed (s : List Char) : Prop :=
  ∀ d t, IsBreak d → lexemes (s ++ d :: t) = lexemes s ++ lexemes (d :: t)

theorem consumed_append_right (s rest t : List Char) :
    consumed (s ++ t) (rest ++ t) = consumed s rest := by
  have hlen : (s ++ t).length - (rest ++ t).length = s.length - rest.length := by
    simp only [List.length_append]
    omega
  rw [consumed,consumed,hlen,List.take_append_of_le_length (Nat.sub_le _ _)]

theorem consumed_of_append (s rest : List Char) : consumed (s ++ rest) rest = s := by
  simp [consumed]

theorem consumed_space (c : Char) (r : List Char) :
    consumed (c :: r) (r.dropWhile isSpace) = c :: r.takeWhile isSpace := by
  have hpart := consumed_of_append (c :: r.takeWhile isSpace) (r.dropWhile isSpace)
  rwa [List.cons_append,List.takeWhile_append_dropWhile] at hpart

theorem lexemes_cons (c : Char) (r : List Char) : lexemes (c :: r) =
    ⟨(next c r).1,consumed (c :: r) (next c r).2⟩ :: lexemes (next c r).2 := by
  rw [lexemes]

theorem lexemes_source_ne_nil (s : List Char) : ∀ x ∈ lexemes s, x.source ≠ [] := by
  fun_induction lexemes s with
  | case1 => simp
  | case2 c r t ih =>
    refine List.forall_mem_cons.2 ⟨?_,ih⟩
    intro h
    have hlen := congrArg List.length h
    have hle : t.2.length ≤ r.length := (Token.next_suffix c r).length_le
    simp only [consumed,List.length_take,List.length_cons,List.length_nil] at hlen
    omega

theorem lexemes_ne_nil {s : List Char} (h : s ≠ []) : lexemes s ≠ [] := by
  obtain ⟨c,r,rfl⟩ := List.exists_cons_of_ne_nil h
  rw [lexemes_cons]
  exact List.cons_ne_nil _ _

/-- A token that stops before breaks is the first of any text that it begins. -/
theorem lexemes_stops {c : Char} {r : List Char} (h : Stops (next c) r) {d : Char} (t : List Char)
    (hd : IsBreak d) : lexemes (c :: r ++ d :: t) =
      ⟨(next c r).1,consumed (c :: r) (next c r).2⟩ :: lexemes ((next c r).2 ++ d :: t) := by
  have hconsumed := consumed_append_right (c :: r) (next c r).2 (d :: t)
  rw [List.cons_append] at hconsumed ⊢
  rw [lexemes_cons,h.begins hd t,hconsumed]

/-- A text is sealed if its first token stops before breaks and the rest is sealed. -/
theorem sealed_cons {c : Char} {r : List Char} (h : Stops (next c) r) (hrest : Sealed (next c r).2) :
    Sealed (c :: r) := by
  intro d t hd
  rw [lexemes_stops h t hd,hrest d t hd,lexemes_cons c r]
  rfl

theorem sealed_nil : Sealed [] := by
  intro d t _
  rw [lexemes]
  rfl

/-- A text is sealed if one break after it is a token of its own. -/
theorem sealed_of_last {s : List Char} {d : Char} (hd : IsBreak d) {xs : List Lexeme} {x : Lexeme}
    (h : lexemes (s ++ [d]) = xs ++ [x]) (hx : x.source = [d]) : Sealed s := by
  fun_induction lexemes s generalizing xs with
  | case1 => exact sealed_nil
  | case2 c r =>
    rename_i ih
    rcases next_open_or_stops c r with ho | hstop
    · exfalso
      have hrest := ho.2 d hd
      rw [List.cons_append,lexemes_cons,hrest,lexemes] at h
      have hlast := congrArg List.getLast? h
      simp only [List.getLast?_singleton,List.getLast?_concat,Option.some.injEq] at hlast
      rw [← hlast] at hx
      have hlen := congrArg List.length hx
      simp [consumed] at hlen
    · rw [lexemes_stops hstop [] hd] at h
      have hne : lexemes ((Token.next c r).2 ++ [d]) ≠ [] := lexemes_ne_nil (by simp)
      obtain ⟨ys,y,hys⟩ :=
        (List.eq_nil_or_concat (lexemes ((Token.next c r).2 ++ [d]))).resolve_left hne
      rw [List.concat_eq_append] at hys
      rw [hys,← List.cons_append] at h
      obtain ⟨_,hy⟩ := List.append_inj' h rfl
      cases hy
      exact sealed_cons hstop (ih hys)

/-- The first token of a sealed text stops at the end of the text, and the rest is sealed. -/
theorem Sealed.rest {c : Char} {r : List Char} (h : Sealed (c :: r)) :
    Stops (next c) r ∧ Sealed (next c r).2 := by
  rcases next_open_or_stops c r with ho | hstop
  · exfalso
    have hd : IsBreak ';' := isBreak_of_mark (by decide)
    have hboth := congrArg List.length (h ';' [] hd)
    rw [List.cons_append,lexemes_cons,ho.2 ';' hd,lexemes,lexemes_cons c r,List.length_append] at hboth
    have hmark : 0 < (lexemes [';']).length := List.length_pos_iff.2 (lexemes_ne_nil (by simp))
    simp only [List.length_cons,List.length_nil] at hboth
    omega
  · refine ⟨hstop,?_⟩
    intro d t hd
    have hboth := h d t hd
    rw [lexemes_stops hstop t hd,lexemes_cons c r,List.cons_append] at hboth
    exact (List.cons.inj hboth).2

/-- A text that is not sealed ends inside its last token, which takes in one break more. -/
theorem exists_open_of_not_sealed {s : List Char} (h : ¬Sealed s) : ∃ xs c r, Open (next c) r ∧
    lexemes s = xs ++ lexemes (c :: r) ∧
    ∀ d, IsBreak d → lexemes (s ++ [d]) = xs ++ lexemes (c :: (r ++ [d])) := by
  fun_induction lexemes s with
  | case1 => exact absurd sealed_nil h
  | case2 c r =>
    rename_i ih
    rcases next_open_or_stops c r with ho | hstop
    · exact ⟨[],c,r,ho,by rw [lexemes_cons]; rfl,fun _ _ => rfl⟩
    · have hrest : ¬Sealed (next c r).2 := fun hs => h (sealed_cons hstop hs)
      obtain ⟨xs,b,t,ho,hself,hbreak⟩ := ih hrest
      refine ⟨⟨(next c r).1,consumed (c :: r) (next c r).2⟩ :: xs,b,t,ho,?_,?_⟩
      · rw [List.cons_append,← hself]
      · intro d hd
        rw [lexemes_stops hstop [] hd,hbreak d hd,List.cons_append]

/-- A token that takes in all of a text is the only one. -/
theorem lexemes_of_rest_nil {c : Char} {r : List Char} (h : (next c r).2 = []) :
    lexemes (c :: r) = [⟨(next c r).1,c :: r⟩] := by
  rw [lexemes_cons,h,lexemes]
  simp [consumed]

/-! ## Marks -/

theorem next_mark {c : Char} (h : c ∈ marks) (t : List Char) : next c t = (markToken c,t) := by
  have hd := isBreak_of_mark h
  have hu : Follows (c :: t) := .begins hd t
  obtain ⟨hhash,hat,hslash,hless,hcomp⟩ :
      c ≠ '#' ∧ c ≠ '@' ∧ c ≠ '/' ∧ c ≠ '<' ∧ comparisonOf c = none := by
    simp only [marks,List.mem_cons,List.not_mem_nil,or_false] at h
    rcases h with rfl | rfl | rfl | rfl | rfl | rfl | rfl <;> decide
  have hnumber : startsNumber (c :: t) = false := by
    rw [startsNumber,hu.edges.dropSign,hu.edges.startsDigit,hu.edges.startsFraction]
    rfl
  have hclose : ['-','-','>'].isPrefixOf (c :: t) = false := by
    simp [List.isPrefixOf,(hd.border.ne_name (c := '-') (by decide)).symm]
  have hmark : punctuationToken c t = (markToken c,t) := by
    unfold punctuationToken
    split
    · exact absurd rfl hslash
    · exact absurd rfl hless
    · rw [hcomp]
    · rfl
  simp only [next,hd.space,hd.ne (c := '"') (by decide),hd.ne (c := '\'') (by decide),hnumber,hclose,
    hu.edges.startsIdent,hhash,hat,hmark]
  simp

theorem lexemes_mark {c : Char} (h : c ∈ marks) (t : List Char) :
    lexemes (c :: t) = ⟨markToken c,[c]⟩ :: lexemes t := by
  have hsource : consumed (c :: t) t = [c] := by simp [consumed]
  rw [lexemes_cons,next_mark h,hsource]

theorem lexemes_semicolon (s : List Char) :
    ∀ x ∈ lexemes s, x.token = .semicolon → x.source = [';'] := by
  fun_induction lexemes s with
  | case1 => simp
  | case2 c r t ih =>
    refine List.forall_mem_cons.2 ⟨?_,ih⟩
    intro h
    obtain ⟨hr,rfl⟩ := next_semicolon h
    have hsource : consumed (';' :: r) t.2 = [';'] := by
      rw [show t.2 = r from hr]
      simp [consumed]
    exact hsource

/-- A token is what the text begins with at its place, and its source the characters from there on up to
the rest. -/
theorem exists_next_of_mem_lexemes {s : List Char} {x : Lexeme} (h : x ∈ lexemes s) :
    ∃ c t rest, x.source = c :: t ∧ next c (t ++ rest) = (x.token,rest) := by
  fun_induction lexemes s with
  | case1 => cases h
  | case2 c r t ih =>
    rcases List.mem_cons.1 h with rfl | h
    · obtain ⟨u,hu⟩ := next_suffix c r
      have hsource : consumed (c :: r) t.2 = c :: u := by
        rw [← hu,← List.cons_append]
        exact consumed_of_append _ _
      exact ⟨c,u,t.2,hsource,by rw [show u ++ t.2 = r from hu]⟩
    · exact ih h

/-- The source of white space is white space, and that of a comment begins with a slash. -/
theorem lexemes_skipped (s : List Char) : ∀ x ∈ lexemes s, x.token.isSkipped = true →
    x.token = .space ∧ (∀ c ∈ x.source, isSpace c = true) ∨
      x.token = .comment ∧ ∃ t, x.source = '/' :: t := by
  intro x hx h
  obtain ⟨c,t,rest,hsource,hnext⟩ := exists_next_of_mem_lexemes hx
  have hskipped : (next c (t ++ rest)).1.isSkipped = true := by rw [hnext]; exact h
  rcases next_skipped hskipped with ⟨hc,hn⟩ | ⟨hcomment,rfl⟩
  · rw [hnext,Prod.mk.injEq] at hn
    have ht : (t ++ rest).takeWhile isSpace = t := by
      have hboth := List.takeWhile_append_dropWhile (p := isSpace) (l := t ++ rest)
      rw [← hn.2] at hboth
      exact List.append_cancel_right hboth
    refine Or.inl ⟨hn.1,?_⟩
    rw [hsource,← ht]
    exact List.forall_mem_cons.2 ⟨hc,List.all_eq_true.1 List.all_takeWhile⟩
  · rw [hnext] at hcomment
    exact Or.inr ⟨hcomment,t,hsource⟩

/-- Two sealed texts with a mark between them have their own tokens and that of the mark. -/
theorem lexemes_append_mark {s t : List Char} (hs : Sealed s) {c : Char} (h : c ∈ marks) :
    lexemes (s ++ c :: t) = lexemes s ++ ⟨markToken c,[c]⟩ :: lexemes t := by
  rw [hs c t (isBreak_of_mark h),lexemes_mark h]

theorem Sealed.append_mark {s t : List Char} (hs : Sealed s) (ht : Sealed t) {c : Char}
    (h : c ∈ marks) : Sealed (s ++ c :: t) := by
  intro d u hd
  rw [List.append_assoc,List.cons_append,lexemes_append_mark hs h,ht d u hd,lexemes_append_mark hs h,
    List.append_assoc,List.cons_append]

/-- The tokens of a text that ends with a mark as its last token do not depend on what follows. -/
theorem lexemes_append_of_last {s : List Char} {c : Char} (hc : c ∈ marks) {xs : List Lexeme}
    {x : Lexeme} (h : lexemes (s ++ [c]) = xs ++ [x]) (hx : x.source = [c]) (t : List Char) :
    lexemes (s ++ c :: t) = lexemes (s ++ [c]) ++ lexemes t := by
  have hs := sealed_of_last (isBreak_of_mark hc) h hx
  rw [lexemes_append_mark hs hc,lexemes_append_mark hs hc,lexemes,List.append_assoc]
  rfl

/-! ## White space -/

def meaningfulTokens (s : List Char) : List Token :=
  ((lexemes s).map Lexeme.token).filter fun t => !t.isSkipped

theorem meaningfulTokens_dropSpace (t : List Char) :
    meaningfulTokens (t.dropWhile isSpace) = meaningfulTokens t := by
  cases t with
  | nil => rfl
  | cons c r =>
    by_cases hc : isSpace c = true
    · have hnext : next c r = (.space,r.dropWhile isSpace) := by rw [next,if_pos hc]
      rw [List.dropWhile_cons_of_pos hc,meaningfulTokens,meaningfulTokens,lexemes_cons c r,hnext]
      rfl
    · rw [List.dropWhile_cons_of_neg hc]

theorem meaningfulTokens_space_append {sp : List Char} (h : ∀ c ∈ sp, isSpace c = true)
    (t : List Char) : meaningfulTokens (sp ++ t) = meaningfulTokens t := by
  rw [← meaningfulTokens_dropSpace,List.dropWhile_append_of_pos h,meaningfulTokens_dropSpace]

theorem Sealed.meaningfulTokens_append_space {s sp : List Char} (hs : Sealed s)
    (h : ∀ c ∈ sp, isSpace c = true) : meaningfulTokens (s ++ sp) = meaningfulTokens s := by
  fun_induction lexemes s generalizing sp with
  | case1 => simpa using meaningfulTokens_space_append h []
  | case2 c r =>
    rename_i ih
    obtain ⟨hstop,hrest⟩ := hs.rest
    obtain ⟨v,hleft,hnext⟩ := hstop sp (.blank h)
    have hv : ∀ c ∈ v, isSpace c = true := by
      rcases hleft with rfl | ⟨_,p,_,rfl⟩
      · exact h
      · exact fun c hc => h c (List.mem_append_right p hc)
    have hmore := ih hrest hv
    simp only [meaningfulTokens,List.cons_append,lexemes_cons,hnext,List.map_cons,
      List.filter_cons] at hmore ⊢
    rw [hmore]

theorem Sealed.dropSpace {t : List Char} (ht : Sealed t) : Sealed (t.dropWhile isSpace) := by
  cases t with
  | nil => exact sealed_nil
  | cons c r =>
    by_cases hc : isSpace c = true
    · have hrest := ht.rest.2
      rw [next,if_pos hc] at hrest
      rwa [List.dropWhile_cons_of_pos hc]
    · rwa [List.dropWhile_cons_of_neg hc]

theorem Sealed.space_append {sp t : List Char} (ht : Sealed t) (h : ∀ c ∈ sp, isSpace c = true) :
    Sealed (sp ++ t) := by
  cases sp with
  | nil => exact ht
  | cons c r =>
    obtain ⟨hc,hr⟩ := List.forall_mem_cons.1 h
    have hdrop : (r ++ t).dropWhile isSpace = t.dropWhile isSpace := List.dropWhile_append_of_pos hr
    rw [List.cons_append]
    refine sealed_cons (next_stops_of_isSpace hc (r ++ t)) ?_
    rw [next,if_pos hc,hdrop]
    exact ht.dropSpace

theorem Sealed.append_space {s sp : List Char} (hs : Sealed s) (h : ∀ c ∈ sp, isSpace c = true) :
    Sealed (s ++ sp) := by
  fun_induction lexemes s generalizing sp with
  | case1 =>
    rw [List.nil_append,← List.append_nil sp]
    exact sealed_nil.space_append h
  | case2 c r =>
    rename_i ih
    obtain ⟨hstop,hrest⟩ := hs.rest
    obtain ⟨v,hleft,hnext⟩ := hstop sp (.blank h)
    have hv : ∀ c ∈ v, isSpace c = true := by
      rcases hleft with rfl | ⟨_,p,_,rfl⟩
      · exact h
      · exact fun c hc => h c (List.mem_append_right p hc)
    have hmore : Stops (next c) (r ++ sp) := by
      refine (next_open_or_stops c (r ++ sp)).resolve_left ?_
      rintro ⟨_,ho⟩
      have hbreak : IsBreak ';' := isBreak_of_mark (by decide)
      have hend := ho ';' hbreak
      obtain ⟨w,hleft',hnext'⟩ :=
        hstop (sp ++ [';']) (.space_append h (.begins hbreak []))
      rw [List.append_assoc,hnext',List.append_eq_nil_iff] at hend
      obtain ⟨_,rfl⟩ := hend
      rcases hleft' with hw | ⟨_,p,hp,hw⟩
      · simp at hw
      · have hmem : ';' ∈ p := by
          rw [List.append_nil] at hw
          rw [← hw]
          simp
        exact absurd (hp _ hmem) (by decide)
    rw [List.cons_append]
    refine sealed_cons hmore ?_
    rw [hnext]
    exact ih hrest hv

/-! ## A place between tokens -/

/-- Of what follows nothing is taken in by a token that is no longer than the text before it. -/
theorem Token.Left.eq_of_consumed {k rest u v : List Char} (h : Left rest u v)
    (hlen : (consumed (k ++ u) (rest ++ v)).length ≤ k.length) : v = u := by
  rcases h with rfl | ⟨rfl,p,_,rfl⟩
  · rfl
  · simp only [consumed,List.nil_append,List.length_take,List.length_append] at hlen
    have hp : p = [] := List.eq_nil_of_length_eq_zero (by omega)
    rw [hp,List.nil_append]

/-- Where a sealed text ends with a token of a longer text, and the text there may follow it, the tokens
up to there are those of the sealed text. -/
theorem Sealed.lexemes_eq {k u : List Char} (hk : Sealed k) (hu : Follows u) {xs ys : List Lexeme}
    (h : lexemes (k ++ u) = xs ++ ys) (hx : xs.flatMap Lexeme.source = k) : lexemes k = xs := by
  fun_induction lexemes k generalizing xs u with
  | case1 =>
    cases xs with
    | nil => rfl
    | cons x xs =>
      exfalso
      have hne : x.source ≠ [] := lexemes_source_ne_nil u x (by rw [List.nil_append] at h; simp [h])
      rw [List.flatMap_cons,List.append_eq_nil_iff] at hx
      exact hne hx.1
  | case2 c r =>
    rename_i ih
    obtain ⟨hstop,hrest⟩ := hk.rest
    obtain ⟨v,hleft,hnext⟩ := hstop u hu
    rw [List.cons_append,lexemes_cons,hnext] at h
    cases xs with
    | nil => cases hx
    | cons x xs =>
      rw [List.cons_append,List.cons.injEq] at h
      obtain ⟨rfl,h⟩ := h
      rw [List.flatMap_cons] at hx
      have hlen : (consumed (c :: r ++ u) ((next c r).2 ++ v)).length ≤ (c :: r).length := by
        have hboth := congrArg List.length hx
        rw [List.length_append] at hboth
        exact Nat.le_of_add_right_le (Nat.le_of_eq hboth)
      have hv : v = u := hleft.eq_of_consumed hlen
      subst hv
      have hsource : consumed (c :: (r ++ v)) ((next c r).2 ++ v) = consumed (c :: r) (next c r).2 :=
        consumed_append_right (c :: r) (next c r).2 v
      rw [hsource] at hx
      have hself := consumed_append ((next_suffix c r).trans (List.suffix_cons c r))
      have hxs : xs.flatMap Lexeme.source = (next c r).2 := List.append_cancel_left (hx.trans hself.symm)
      have hmore : lexemes (next c r).2 = xs := ih hrest hu h hxs
      rw [hmore,hsource]

/-! ## Spelled tokens -/

def Spells (s : List Char) (t : Token) : Prop :=
  ∃ c r, s = c :: r ∧ ∀ u, Ends u → next c (r ++ u) = (t,u)

theorem Spells.lexemes_append {s : List Char} {t : Token} (h : Spells s t) {u : List Char}
    (hu : Ends u) : lexemes (s ++ u) = ⟨t,s⟩ :: lexemes u := by
  obtain ⟨c,r,rfl,hnext⟩ := h
  have hsource : consumed (c :: (r ++ u)) u = c :: r := consumed_of_append (c :: r) u
  rw [List.cons_append,lexemes_cons,hnext u hu,hsource]

/-! ## Words -/

structure IsWord (n : List Char) : Prop where
  starts : startsIdent n = true
  chars : ∀ c ∈ n, isNameChar c = true ∧ c ≠ '\x00'

instance (n : List Char) : Decidable (IsWord n) :=
  decidable_of_iff (startsIdent n = true ∧ (n.all fun c => isNameChar c && c ≠ '\x00') = true)
    ⟨fun h => ⟨h.1,by simpa using h.2⟩,fun h => ⟨h.starts,by simpa using h.chars⟩⟩

/-- A word of ASCII characters. -/
structure IsAsciiWord (n : List Char) : Prop extends IsWord n where
  ascii : ∀ c ∈ n, c.toNat < 0x80

instance (n : List Char) : Decidable (IsAsciiWord n) :=
  decidable_of_iff (IsWord n ∧ (n.all fun c => c.toNat < 0x80) = true)
    ⟨fun h => ⟨h.1,by simpa using h.2⟩,fun h => ⟨h.toIsWord,by simpa using h.ascii⟩⟩

theorem readName_word {n u : List Char} (hn : ∀ c ∈ n, isNameChar c = true ∧ c ≠ '\x00')
    (hu : readName u = ([],u)) : readName (n ++ u) = (n,u) := by
  induction n with
  | nil => exact hu
  | cons c r ih =>
    obtain ⟨hc,hr⟩ := List.forall_mem_cons.1 hn
    rw [List.cons_append,readName,if_pos hc.1]
    simp [ih hr,legible,hc.2]

theorem not_digit_of_nameStart {c : Char} (h : isNameStart c = true) : c.isDigit = false := by
  rw [Bool.eq_false_iff]
  intro hd
  have hlow : '0'.val.toNat = 48 ∧ '9'.val.toNat = 57 := ⟨rfl,rfl⟩
  have hletters : 'A'.val.toNat = 65 ∧ 'a'.val.toNat = 97 := ⟨rfl,rfl⟩
  have hnat : c.toNat = c.val.toNat := rfl
  simp only [Char.isDigit,Bool.and_eq_true,decide_eq_true_eq,ge_iff_le,UInt32.le_iff_toNat_le] at hd
  simp only [isNameStart,Bool.or_eq_true,decide_eq_true_eq] at h
  rcases h with ((h | rfl) | rfl) | h
  · have hcase : (c.isUpper || c.isLower) = true := h
    rw [Bool.or_eq_true] at hcase
    rcases hcase with hc | hc
    · have hupper : 'A'.val ≤ c.val ∧ c.val ≤ 'Z'.val := of_decide_eq_true hc
      simp only [UInt32.le_iff_toNat_le] at hupper
      omega
    · have hlower : (decide ('a'.val ≤ c.val) && decide (c.val ≤ 'z'.val)) = true := hc
      simp only [Bool.and_eq_true,decide_eq_true_eq,UInt32.le_iff_toNat_le] at hlower
      omega
  · exact absurd hd (by decide)
  · exact absurd hd (by decide)
  · omega

/-- No character of a name is a space, a quote, a sign of a number or a mark. -/
theorem ne_of_isNameChar {c d : Char} (h : isNameChar c = true) (hd : isNameChar d = false) :
    c ≠ d := by
  rintro rfl
  rw [h] at hd
  cases hd

theorem not_space_of_isNameChar {c : Char} (h : isNameChar c = true) : isSpace c = false := by
  rw [Bool.eq_false_iff]
  intro hs
  rw [(isStop_of_isSpace hs).name] at h
  cases h

namespace IsWord
variable {n : List Char} (h : IsWord n)
include h

theorem ne_nil : n ≠ [] := by
  rintro rfl
  cases h.starts

theorem ne {c d : Char} (hc : c ∈ n) (hd : isNameChar d = false) : c ≠ d :=
  ne_of_isNameChar (h.chars c hc).1 hd

/-- A word begins with a letter, or with a hyphen and a letter or another hyphen. -/
theorem head : (∃ c r, n = c :: r ∧ isNameStart c = true ∧ c ≠ '-') ∨
    ∃ d r, n = '-' :: d :: r ∧ (isNameStart d = true ∨ d = '-') := by
  have hs := h.starts
  have hslash : ∀ c ∈ n, c ≠ '\\' := fun c hc => h.ne hc (by decide)
  match n with
  | [] => cases hs
  | c :: r =>
    by_cases hc : c = '-'
    · subst hc
      match r with
      | [] => cases hs
      | d :: r =>
        right
        exact ⟨d,r,rfl,by simpa [startsIdent,hslash d (by simp)] using hs⟩
    · left
      rw [startsIdent.eq_def] at hs
      exact ⟨c,r,rfl,by simpa [hc,hslash c (by simp)] using hs,hc⟩

theorem startsIdent_append (u : List Char) : startsIdent (n ++ u) = true := by
  rcases h.head with ⟨c,r,rfl,hc,hne⟩ | ⟨d,r,rfl,hd⟩
  · rw [List.cons_append,startsIdent.eq_def]
    simp [hne,hc]
  · rcases hd with hd | rfl
    · simp [startsIdent,hd]
    · rfl

theorem startsNumber_append (u : List Char) : startsNumber (n ++ u) = false := by
  rcases h.head with ⟨c,r,rfl,hc,hne⟩ | ⟨d,r,rfl,hd⟩
  · have hplus : c ≠ '+' := h.ne (by simp) (by decide)
    have hpoint : c ≠ '.' := h.ne (by simp) (by decide)
    simp [startsNumber,dropSign,hplus,hne,startsDigit,startsFraction,hpoint,
      not_digit_of_nameStart hc]
  · have hpoint : d ≠ '.' := h.ne (by simp) (by decide)
    have hdigit : d.isDigit = false := by
      rcases hd with hd | rfl
      · exact not_digit_of_nameStart hd
      · rfl
    simp [startsNumber,dropSign,startsDigit,startsFraction,hpoint,hdigit]

/-- The end of markup is no word, unless its last mark follows. -/
theorem not_markup_append {u : List Char} (hu : ∀ t, u ≠ '>' :: t) :
    ['-','-','>'].isPrefixOf (n ++ u) = false := by
  rw [Bool.eq_false_iff]
  intro hp
  obtain ⟨t,ht⟩ := List.isPrefixOf_iff_prefix.1 hp
  match n with
  | [] => exact h.ne_nil rfl
  | [c] =>
    cases ht
    exact absurd h.starts (by decide)
  | [c,d] =>
    cases ht
    exact hu _ rfl
  | c :: d :: e :: r =>
    simp only [List.cons_append,List.cons.injEq] at ht
    exact h.ne (c := e) (by simp) (by decide) ht.2.2.1.symm

/-- A text that begins with a word begins with an identifier, a function or a url. -/
theorem next_append {c : Char} {r u : List Char} (hn : n = c :: r) (hu : ∀ t, u ≠ '>' :: t) :
    next c (r ++ u) = identToken (n ++ u) := by
  have hspace := not_space_of_isNameChar (h.chars c (by simp [hn])).1
  have hdouble : c ≠ '"' := h.ne (by simp [hn]) (by decide)
  have hsingle : c ≠ '\'' := h.ne (by simp [hn]) (by decide)
  have hnumber := h.startsNumber_append u
  have hmarkup := h.not_markup_append hu
  have hident := h.startsIdent_append u
  rw [hn,List.cons_append] at hnumber hmarkup hident
  rw [next,if_neg (by simp [hspace]),if_neg (by simp [hdouble,hsingle]),if_neg (by simp [hnumber]),
    if_neg (by simp [hmarkup]),if_pos hident,hn,List.cons_append]

theorem spells : Spells n (.ident (String.ofList n)) := by
  obtain ⟨c,r,hn⟩ := List.exists_cons_of_ne_nil h.ne_nil
  refine ⟨c,r,hn,?_⟩
  intro u hu
  have hname := readName_word h.chars hu.edges.readName
  have hplain : ∀ t, (readName (n ++ u)).2 ≠ '(' :: t := by
    rw [hname]
    exact hu.ne_cons (by decide)
  rw [h.next_append hn (hu.ne_cons (by decide)),identToken_plain hplain,hname]

theorem lexemes_self : lexemes n = [⟨.ident (String.ofList n),n⟩] := by
  have h := h.spells.lexemes_append ends_nil
  rwa [List.append_nil,lexemes] at h

theorem isSealed : Sealed n := by
  intro d t hd
  rw [h.spells.lexemes_append (ends_cons hd.toIsEnd t),h.lexemes_self]
  rfl

end IsWord

end StyleExpansion
