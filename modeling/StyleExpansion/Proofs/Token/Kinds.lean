import StyleExpansion.Proofs.Token.Locality

/-! # Kinds of tokens

Which scanner a token comes from settles what it can be. Only names and brackets open blocks, only white
space and marks are separators, and a mark that stands for itself is one character.
-/
namespace StyleExpansion.Token

def isLiteral : Token → Bool
  | quoted _ | badString _ | number _ | percentage _ | dimension _ _ | markupClose => true
  | _ => false

theorem not_skipped_of_isLiteral {t : Token} (h : t.isLiteral = true) : t.isSkipped = false := by
  cases t with
  | space | comment => cases h
  | _ => rfl

theorem next_cases (c : Char) (r : List Char) :
    isSpace c = true ∧ next c r = (space,r.dropWhile isSpace) ∨ (next c r).1.isLiteral = true ∨
      next c r = identToken (c :: r) ∨ c = '#' ∧ next c r = hashToken r ∨
      c = '@' ∧ next c r = atToken r ∨ isSpace c = false ∧ next c r = punctuationToken c r := by
  have hquoted : ∀ quote s, (quotedToken quote s).1.isLiteral = true := by
    intro quote s
    simp only [quotedToken]
    split <;> rfl
  have hnumeric : ∀ s, (numericToken s).1.isLiteral = true := by
    intro s
    simp only [numericToken]
    split
    · rfl
    · split <;> rfl
  generalize hn : next c r = n
  unfold next at hn
  repeat' split at hn
  all_goals subst hn
  · next hspace => exact Or.inl ⟨hspace,rfl⟩
  · exact Or.inr (Or.inl (hquoted c r))
  · exact Or.inr (Or.inl (hnumeric (c :: r)))
  · exact Or.inr (Or.inl rfl)
  · exact Or.inr (Or.inr (Or.inl rfl))
  · next hc => exact Or.inr (Or.inr (Or.inr (Or.inl ⟨hc,rfl⟩)))
  · next hc => exact Or.inr (Or.inr (Or.inr (Or.inr (Or.inl ⟨hc,rfl⟩))))
  · next hspace _ _ _ _ _ _ =>
    exact Or.inr (Or.inr (Or.inr (Or.inr (Or.inr ⟨Bool.eq_false_iff.2 hspace,rfl⟩))))

theorem identToken_opening {s : List Char} {kind : Opening} (h : (identToken s).1 = opening kind) :
    '(' :: (identToken s).2 <:+ s := by
  by_cases hp : ∃ r, (readName s).2 = '(' :: r
  · obtain ⟨r,hr⟩ := hp
    rw [identToken_call hr] at h ⊢
    split
    · next hurl =>
      rw [if_pos hurl] at h
      unfold urlToken at h
      simp only at h
      split at h <;> cases h
    · rw [← hr]
      exact readName_suffix s
  · rw [identToken_plain fun r hr => hp ⟨r,hr⟩] at h
    cases h

theorem markToken_opening {c : Char} {kind : Opening} (h : markToken c = opening kind) :
    c ∈ ['(','[','\x7b'] := by
  unfold markToken at h
  repeat' split at h
  all_goals simp_all

theorem next_opening {c : Char} {r : List Char} {kind : Opening} (h : (next c r).1 = opening kind) :
    ∃ b ∈ ['(','[','\x7b'], b :: (next c r).2 <:+ c :: r := by
  rcases next_cases c r with ⟨-,hn⟩ | hn | hn | ⟨-,hn⟩ | ⟨-,hn⟩ | ⟨-,hn⟩
  · rw [hn] at h
    cases h
  · rw [h] at hn
    cases hn
  · rw [hn] at h ⊢
    exact ⟨'(',by simp,identToken_opening h⟩
  · rw [hn,hashToken_eq] at h
    repeat' split at h
    all_goals cases h
  · rw [hn] at h
    unfold atToken at h
    split at h <;> cases h
  · rw [hn] at h ⊢
    unfold punctuationToken at h ⊢
    split at h
    · cases h
    · cases h
    · split at h
      · cases h
      · exact ⟨c,markToken_opening h,List.suffix_refl _⟩
    · exact ⟨c,markToken_opening h,List.suffix_refl _⟩

def punctuation : List Char := ['(',')','/','*','=','<','>']

theorem next_punctuation {c : Char} (h : c ∈ punctuation) (t : List Char) :
    next c t = punctuationToken c t := by
  simp only [punctuation,List.mem_cons,List.not_mem_nil,or_false] at h
  obtain ⟨hspace,hquote,hhash,hat⟩ : isSpace c = false ∧
      (decide (c = '"') || decide (c = '\'')) = false ∧ c ≠ '#' ∧ c ≠ '@' := by
    rcases h with rfl | rfl | rfl | rfl | rfl | rfl | rfl <;> decide
  have hnumber : startsNumber (c :: t) = false := by
    rcases h with rfl | rfl | rfl | rfl | rfl | rfl | rfl <;> rfl
  have hmarkup : ['-','-','>'].isPrefixOf (c :: t) = false := by
    rcases h with rfl | rfl | rfl | rfl | rfl | rfl | rfl <;> rfl
  have hident : startsIdent (c :: t) = false := by
    rcases h with rfl | rfl | rfl | rfl | rfl | rfl | rfl <;> simp [startsIdent,isNameStart]
  simp [next,hspace,hquote,hnumber,hmarkup,hident,hhash,hat]

theorem next_round {c : Char} (h : c = '(' ∨ c = ')') (t : List Char) : next c t = (markToken c,t) := by
  have hmark : punctuationToken c t = (markToken c,t) := by
    unfold punctuationToken
    split
    · rcases h with h | h <;> cases h
    · rcases h with h | h <;> cases h
    · rcases h with rfl | rfl <;> rfl
    · rfl
  rw [next_punctuation (by rcases h with rfl | rfl <;> decide),hmark]

/-- White space, comments and semicolons come from white space or from a mark. -/
theorem next_of_separator {c : Char} {r : List Char}
    (h : (next c r).1.isSkipped = true ∨ (next c r).1 = semicolon) :
    isSpace c = true ∧ next c r = (space,r.dropWhile isSpace) ∨
      isSpace c = false ∧ next c r = punctuationToken c r := by
  rcases next_cases c r with hn | hn | hn | ⟨-,hn⟩ | ⟨-,hn⟩ | hn
  · exact Or.inl hn
  · rcases h with h | h
    · rw [not_skipped_of_isLiteral hn] at h
      cases h
    · rw [h] at hn
      cases hn
  · rw [hn] at h
    unfold identToken urlToken at h
    simp only at h
    repeat' split at h
    all_goals rcases h with h | h <;> cases h
  · rw [hn,hashToken_eq] at h
    repeat' split at h
    all_goals rcases h with h | h <;> cases h
  · rw [hn] at h
    unfold atToken at h
    split at h <;> rcases h with h | h <;> cases h
  · exact Or.inr hn

theorem next_semicolon {c : Char} {r : List Char} (h : (next c r).1 = semicolon) :
    (next c r).2 = r ∧ c = ';' := by
  have hmark : markToken c = semicolon → c = ';' := by
    intro h
    unfold markToken at h
    repeat' split at h
    all_goals simp_all
  rcases next_of_separator (Or.inr h) with ⟨-,hn⟩ | ⟨-,hn⟩
  · rw [hn] at h
    cases h
  · rw [hn] at h ⊢
    unfold punctuationToken at h ⊢
    split at h
    · cases h
    · cases h
    · split at h
      · cases h
      · exact ⟨by simp,hmark h⟩
    · exact ⟨rfl,hmark h⟩

theorem markToken_delim {c d : Char} (h : markToken c = delim d) : c = d := by
  unfold markToken at h
  repeat' split at h
  all_goals simp_all

theorem identToken_ne_delim (s : List Char) (d : Char) : (identToken s).1 ≠ delim d := by
  unfold identToken urlToken
  simp only
  repeat' split
  all_goals exact fun h => by cases h

theorem hashToken_delim {s : List Char} {d : Char} (h : (hashToken s).1 = delim d) :
    (hashToken s).2 = s ∧ '#' = d := by
  rw [hashToken_eq] at h ⊢
  repeat' split at h
  · cases h
  · cases h
  · next hi hd =>
    rw [if_neg hi,if_neg hd]
    exact ⟨rfl,delim.inj h⟩

theorem atToken_delim {s : List Char} {d : Char} (h : (atToken s).1 = delim d) :
    (atToken s).2 = s ∧ '@' = d := by
  unfold atToken at h ⊢
  split at h
  · cases h
  · next hi =>
    rw [if_neg hi]
    exact ⟨rfl,delim.inj h⟩

theorem punctuationToken_delim {c d : Char} {r : List Char} (h : (punctuationToken c r).1 = delim d) :
    (punctuationToken c r).2 = r ∧ c = d := by
  unfold punctuationToken at h ⊢
  split at h
  · cases h
  · cases h
  · split at h
    · cases h
    · exact ⟨by simp,markToken_delim h⟩
  · exact ⟨rfl,markToken_delim h⟩

/-- A mark that is no token of its own kind is a token of one character. -/
theorem next_delim {c d : Char} {r : List Char} (h : (next c r).1 = delim d) :
    (next c r).2 = r ∧ c = d := by
  rcases next_cases c r with ⟨-,hn⟩ | hn | hn | ⟨rfl,hn⟩ | ⟨rfl,hn⟩ | ⟨-,hn⟩
  · rw [hn] at h
    cases h
  · rw [h] at hn
    cases hn
  · rw [hn] at h
    exact absurd h (identToken_ne_delim _ d)
  · rw [hn] at h ⊢
    exact hashToken_delim h
  · rw [hn] at h ⊢
    exact atToken_delim h
  · rw [hn] at h ⊢
    exact punctuationToken_delim h

/-- An identifier that begins with a hyphen has the hyphen in its name. -/
theorem next_ident_hyphen {r : List Char} {name : String} (h : (next '-' r).1 = ident name) :
    ∃ t, name = String.ofList ('-' :: t) := by
  have hname : (readName ('-' :: r)).1 = '-' :: (readName r).1 := by
    rw [readName,if_pos (by decide)]
    rfl
  rcases next_cases '-' r with ⟨-,hn⟩ | hn | hn | ⟨hc,-⟩ | ⟨hc,-⟩ | ⟨-,hn⟩
  · rw [hn] at h
    cases h
  · rw [h] at hn
    cases hn
  · rw [hn] at h
    unfold identToken urlToken at h
    simp only at h
    repeat' split at h
    all_goals cases h
    exact ⟨_,congrArg String.ofList hname⟩
  · exact absurd hc (by decide)
  · exact absurd hc (by decide)
  · rw [hn] at h
    unfold punctuationToken markToken at h
    repeat' split at h
    all_goals simp_all

/-- A token that is skipped is white space, or a comment, which begins with a slash. -/
theorem next_skipped {c : Char} {r : List Char} (h : (next c r).1.isSkipped = true) :
    isSpace c = true ∧ next c r = (space,r.dropWhile isSpace) ∨
      (next c r).1 = comment ∧ c = '/' := by
  have hmark : (markToken c).isSkipped = false := by
    unfold markToken
    repeat' split
    all_goals rfl
  rcases next_of_separator (Or.inl h) with hn | ⟨-,hn⟩
  · exact Or.inl hn
  · rw [hn] at h ⊢
    unfold punctuationToken at h ⊢
    split at h
    · exact Or.inr ⟨rfl,rfl⟩
    · cases h
    · split at h
      · cases h
      · rw [hmark] at h
        cases h
    · rw [hmark] at h
      cases h

end StyleExpansion.Token
