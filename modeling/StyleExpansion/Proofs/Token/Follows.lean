import StyleExpansion.Token.Lexer

/-! # What may follow a token

An edge is a character that goes on with no token before it, except that an exclamation mark does after a
less-than sign if two hyphens come next, and a slash after the star of an open comment. An end is any other
edge: a closing round bracket, which only a url takes in, or a stop. A stop is white space, or a break such
as a semicolon, a comma, a square or curly bracket. Only what is open takes in a break: a string, a url, a
comment, or a backslash at the end. White space is taken in by an escape too, and by other white space; so
of a text that follows a token, some of the white space that it begins with may go to the token.
-/
namespace StyleExpansion.Token

def openers : List Char := ['\\','"','\'','(','*','/','=','>','!','%','.','+']

def joiners : List Char := ')' :: openers

def binders : List Char := ['\\','"','\'','(','*','=','>','%','.','+']

structure IsEdge (d : Char) : Prop where
  name : isNameChar d = false
  binder : d ∉ binders

structure IsEnd (d : Char) : Prop where
  name : isNameChar d = false
  opener : d ∉ openers

structure IsStop (d : Char) : Prop extends IsEnd d where
  round : d ≠ ')'

structure IsBreak (d : Char) : Prop extends IsStop d where
  space : isSpace d = false

def marks : List Char := ['\x7b','\x7d','[',']',';',',',':']

theorem isBreak_of_mark {d : Char} (h : d ∈ marks) : IsBreak d := by
  simp only [marks,List.mem_cons,List.not_mem_nil,or_false] at h
  rcases h with rfl | rfl | rfl | rfl | rfl | rfl | rfl <;>
    exact ⟨⟨⟨by decide,by decide⟩,by decide⟩,by decide⟩

theorem isEnd_closeRound : IsEnd ')' := ⟨by decide,by decide⟩

theorem isStop_of_isSpace {d : Char} (h : isSpace d = true) : IsStop d := by
  simp only [isSpace,isNewline,Bool.or_eq_true,decide_eq_true_eq] at h
  rcases h with (rfl | rfl) | (rfl | rfl) | rfl <;> exact ⟨⟨by decide,by decide⟩,by decide⟩

theorem IsEnd.ne_opener {d : Char} (h : IsEnd d) {c : Char} (hc : c ∈ openers) : d ≠ c := by
  rintro rfl
  exact h.opener hc

theorem IsEnd.edge {d : Char} (h : IsEnd d) : IsEdge d := by
  have hsub : binders ⊆ openers := by simp [binders,openers]
  exact ⟨h.name,fun hd => h.opener (hsub hd)⟩

theorem IsStop.ne {d : Char} (h : IsStop d) {c : Char} (hc : c ∈ joiners) : d ≠ c := by
  rcases List.mem_cons.1 hc with rfl | hc
  · exact h.round
  · exact h.ne_opener hc

namespace IsEdge
variable {d : Char} (h : IsEdge d)
include h

theorem ne_binder {c : Char} (hc : c ∈ binders) : d ≠ c := by
  rintro rfl
  exact h.binder hc

theorem ne_name {c : Char} (hc : isNameChar c = true) : d ≠ c := by
  rintro rfl
  rw [h.name] at hc
  cases hc

theorem nameStart : isNameStart d = false := by
  have hn := h.name
  rw [isNameChar,Bool.or_eq_false_iff,Bool.or_eq_false_iff] at hn
  exact hn.1.1

theorem digit : d.isDigit = false := by
  have hn := h.name
  rw [isNameChar,Bool.or_eq_false_iff,Bool.or_eq_false_iff] at hn
  exact hn.1.2

theorem alpha : d.isAlpha = false := by
  have hn := h.nameStart
  simp only [isNameStart,Bool.or_eq_false_iff] at hn
  exact hn.1.1.1

theorem hex : isHexDigit d = false := by
  have ha : (d.isUpper || d.isLower) = false := h.alpha
  rw [Bool.or_eq_false_iff] at ha
  have hupper : ¬('A' ≤ d ∧ d ≤ 'Z') := of_decide_eq_false ha.1
  have hlower : (decide ('a' ≤ d) && decide (d ≤ 'z')) = false := ha.2
  rw [Bool.eq_false_iff]
  simp only [isHexDigit,h.digit,Bool.false_or,ne_eq,Bool.or_eq_true,Bool.and_eq_true,
    decide_eq_true_eq]
  rintro (⟨hlow,hhigh⟩ | ⟨hlow,hhigh⟩)
  · have hz : d ≤ 'z' := UInt32.le_trans hhigh (by decide)
    simp [hlow,hz] at hlower
  · exact hupper ⟨hlow,UInt32.le_trans hhigh (by decide)⟩

end IsEdge

/-! ## Texts that follow -/

def Ends (u : List Char) : Prop := ∀ d t, u = d :: t → IsEnd d

def Edges (u : List Char) : Prop := ∀ d t, u = d :: t → IsEdge d

theorem ends_nil : Ends [] := nofun

theorem ends_cons {d : Char} (h : IsEnd d) (t : List Char) : Ends (d :: t) := by
  intro e r he
  cases he
  exact h

theorem Ends.ne_cons {u : List Char} (hu : Ends u) {c : Char} (hc : c ∈ openers) (t : List Char) :
    u ≠ c :: t :=
  fun h => (hu _ _ h).ne_opener hc rfl

theorem Ends.edges {u : List Char} (hu : Ends u) : Edges u := fun d t h => (hu d t h).edge

namespace Edges
variable {u : List Char} (hu : Edges u)
include hu

theorem startsDigit : startsDigit u = false := by
  cases u with
  | nil => rfl
  | cons d t => exact (hu _ _ rfl).digit

theorem readName : readName u = ([],u) := by
  cases u with
  | nil => rw [Token.readName]
  | cons d t =>
    have hd := hu _ _ rfl
    rw [Token.readName]
    simp [hd.name,hd.ne_binder (c := '\\') (by decide)]

theorem startsIdent : startsIdent u = false := by
  cases u with
  | nil => rfl
  | cons d t =>
    have hd := hu _ _ rfl
    simp [Token.startsIdent,hd.ne_name (c := '-') (by decide),hd.nameStart,
      hd.ne_binder (c := '\\') (by decide)]

theorem dropSign : dropSign u = u := by
  cases u with
  | nil => rfl
  | cons d t =>
    have hd := hu _ _ rfl
    simp [Token.dropSign,hd.ne_binder (c := '+') (by decide),hd.ne_name (c := '-') (by decide)]

theorem startsFraction : startsFraction u = false := by
  cases u with
  | nil => rfl
  | cons d t => simp [Token.startsFraction,(hu _ _ rfl).ne_binder (c := '.') (by decide)]

theorem startsExponent : startsExponent u = false := by
  cases u with
  | nil => rfl
  | cons d t =>
    have hd := hu _ _ rfl
    simp [Token.startsExponent,hd.ne_name (c := 'e') (by decide),hd.ne_name (c := 'E') (by decide)]

theorem startsMinus : startsMinus u = false := by
  cases u with
  | nil => rfl
  | cons d t => simp [Token.startsMinus,(hu _ _ rfl).ne_name (c := '-') (by decide)]

theorem startsPlus : startsPlus u = false := by
  cases u with
  | nil => rfl
  | cons d t => simp [Token.startsPlus,(hu _ _ rfl).ne_binder (c := '+') (by decide)]

end Edges

structure EndsNumeral (u : List Char) : Prop where
  digit : startsDigit u = false
  fraction : startsFraction u = false
  exponent : startsExponent u = false

theorem Edges.numeral {u : List Char} (hu : Edges u) : EndsNumeral u :=
  ⟨hu.startsDigit,hu.startsFraction,hu.startsExponent⟩

theorem EndsNumeral.isDigit {u : List Char} (hu : EndsNumeral u) {d : Char} {t : List Char}
    (h : u = d :: t) : d.isDigit = false := by
  subst h
  exact hu.digit

structure IsBorder (d : Char) : Prop extends IsEdge d where
  round : d ≠ ')'
  space : isSpace d = false

theorem IsBreak.border {d : Char} (h : IsBreak d) : IsBorder d :=
  ⟨h.toIsEnd.edge,h.round,h.space⟩

theorem isBorder_exclamation : IsBorder '!' := ⟨⟨by decide,by decide⟩,by decide,by decide⟩

theorem isBorder_slash : IsBorder '/' := ⟨⟨by decide,by decide⟩,by decide,by decide⟩

/-- A text that is empty or begins with white space or a border, but not with what makes a less-than
sign before it the beginning of markup. -/
inductive Follows : List Char → Prop
  | nil : Follows []
  | border {d : Char} (h : IsBorder d) {t : List Char}
    (hmarkup : d = '!' → ∀ r, t ≠ '-' :: '-' :: r) : Follows (d :: t)
  | space {d : Char} (h : isSpace d = true) {t : List Char} (ht : Follows t) : Follows (d :: t)

theorem Follows.begins {d : Char} (h : IsBreak d) (t : List Char) : Follows (d :: t) :=
  .border h.border fun he => absurd he (h.ne (by decide))

theorem Follows.space_append {p u : List Char} (h : ∀ c ∈ p, isSpace c = true) (hu : Follows u) :
    Follows (p ++ u) := by
  induction p with
  | nil => exact hu
  | cons c p ih =>
    obtain ⟨hc,hp⟩ := List.forall_mem_cons.1 h
    exact .space hc (ih hp)

theorem Follows.blank {u : List Char} (h : ∀ c ∈ u, isSpace c = true) : Follows u := by
  rw [← List.append_nil u]
  exact .space_append h .nil

/-- What is left of a text that follows after some white space follows too. -/
theorem Follows.of_space_append {p u : List Char} (h : ∀ c ∈ p, isSpace c = true)
    (hu : Follows (p ++ u)) : Follows u := by
  induction p with
  | nil => exact hu
  | cons c p ih =>
    obtain ⟨hc,hp⟩ := List.forall_mem_cons.1 h
    cases hu with
    | border hd => exact absurd hd.space (by simp [hc])
    | space _ ht => exact ih hp ht

namespace Follows
variable {u : List Char} (hu : Follows u)
include hu

theorem edges : Edges u := by
  rintro d t rfl
  cases hu with
  | border hd => exact hd.toIsEdge
  | space hs => exact (isStop_of_isSpace hs).edge

theorem hex {d : Char} {t : List Char} (h : u = d :: t) : isHexDigit d = false := (hu.edges _ _ h).hex

theorem ne_round (t : List Char) : u ≠ ')' :: t := by
  rintro rfl
  cases hu with
  | border hd => exact hd.round rfl
  | space hs => exact absurd hs (by decide)

theorem ne_binder {c : Char} (hc : c ∈ binders) (t : List Char) : u ≠ c :: t :=
  fun h => (hu.edges _ _ h).ne_binder hc rfl

theorem ne_markup (t : List Char) : u ≠ '!' :: '-' :: '-' :: t := by
  rintro rfl
  cases hu with
  | border _ hmarkup => exact hmarkup rfl t rfl
  | space hs => exact absurd hs (by decide)

theorem startsQuote : startsQuote u = false := by
  cases u with
  | nil => rfl
  | cons d t =>
    have hd := hu.edges _ _ rfl
    simp [Token.startsQuote,hd.ne_binder (c := '"') (by decide),hd.ne_binder (c := '\'') (by decide)]

end Follows

/-! ## What is left of them -/

/-- What is left of a text that follows, by a scanner that would stop at the rest without it: all of the
text, or at the end what comes after some of its white space. -/
def Left (rest u v : List Char) : Prop :=
  v = u ∨ rest = [] ∧ ∃ p, (∀ c ∈ p, isSpace c = true) ∧ u = p ++ v

namespace Left
variable {rest rest' u v w : List Char}

theorem refl (rest u : List Char) : Left rest u u := Or.inl rfl

theorem follows (h : Left rest u v) (hu : Follows u) : Follows v := by
  rcases h with rfl | ⟨_,p,hp,rfl⟩
  · exact hu
  · exact hu.of_space_append hp

theorem trans (h : Left rest u v) (hr : rest = [] → rest' = []) (h' : Left rest' v w) :
    Left rest' u w := by
  rcases h with rfl | ⟨hrest,p,hp,rfl⟩
  · exact h'
  · refine Or.inr ⟨hr hrest,?_⟩
    rcases h' with rfl | ⟨_,q,hq,rfl⟩
    · exact ⟨p,hp,rfl⟩
    · exact ⟨p ++ q,List.forall_mem_append.2 ⟨hp,hq⟩,by rw [List.append_assoc]⟩

theorem eq_of_break {d : Char} {t : List Char} (h : Left rest (d :: t) v) (hd : IsBreak d) :
    v = d :: t := by
  rcases h with rfl | ⟨_,p,hp,he⟩
  · rfl
  · cases p with
    | nil => exact he.symm
    | cons c p =>
      cases he
      have hspace := hp d List.mem_cons_self
      rw [hd.space] at hspace
      cases hspace

end Left

end StyleExpansion.Token
