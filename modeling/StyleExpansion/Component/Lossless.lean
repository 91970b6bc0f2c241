import StyleExpansion.Component

/-! # Components lose nothing

The text of the components of a text is that text: every lexeme goes into exactly one component, and
only a block that the text closes ends with its closing bracket.
-/
namespace StyleExpansion

namespace Token

theorem urlToken_ne_closing (s : List Char) (b : Bracket) : (urlToken s).1 ≠ closing b := by
  simp only [urlToken]
  split <;> simp

theorem identToken_ne_closing (s : List Char) (b : Bracket) : (identToken s).1 ≠ closing b := by
  simp only [identToken]
  split
  · split
    · exact urlToken_ne_closing _ b
    · simp
  · simp

theorem quotedToken_ne_closing (quote : Char) (s : List Char) (b : Bracket) :
    (quotedToken quote s).1 ≠ closing b := by
  simp only [quotedToken]
  split <;> simp

theorem numericToken_ne_closing (s : List Char) (b : Bracket) :
    (numericToken s).1 ≠ closing b := by
  simp only [numericToken]
  split
  · simp
  · split <;> simp

theorem hashToken_ne_closing (s : List Char) (b : Bracket) : (hashToken s).1 ≠ closing b := by
  simp only [hashToken]
  split
  · simp
  · split
    · split <;> simp
    · simp

theorem atToken_ne_closing (s : List Char) (b : Bracket) : (atToken s).1 ≠ closing b := by
  simp only [atToken]
  split <;> simp

theorem markToken_closing {c : Char} {b : Bracket} (h : markToken c = closing b) :
    [c] = Component.closingText b := by
  unfold markToken at h
  repeat' split at h
  all_goals
    subst_vars
    simp at h
  all_goals
    subst h
    rfl

theorem punctuationToken_closing {c : Char} {r : List Char} {b : Bracket}
    (h : (punctuationToken c r).1 = closing b) :
    (punctuationToken c r).2 = r ∧ [c] = Component.closingText b := by
  unfold punctuationToken at h ⊢
  split at h
  · cases h
  · cases h
  · split at h
    · cases h
    · exact ⟨by simp,markToken_closing h⟩
  · exact ⟨rfl,markToken_closing h⟩

/-- A closing bracket is a token of one character. -/
theorem next_closing {c : Char} {r : List Char} {b : Bracket} (h : (next c r).1 = closing b) :
    (next c r).2 = r ∧ [c] = Component.closingText b := by
  unfold next at h ⊢
  split at h
  · cases h
  rename_i h1
  rw [if_neg h1]
  split at h
  · exact absurd h (quotedToken_ne_closing _ _ _)
  rename_i h2
  rw [if_neg h2]
  split at h
  · exact absurd h (numericToken_ne_closing _ _)
  rename_i h3
  rw [if_neg h3]
  split at h
  · cases h
  rename_i h4
  rw [if_neg h4]
  split at h
  · exact absurd h (identToken_ne_closing _ _)
  rename_i h5
  rw [if_neg h5]
  split at h
  · exact absurd h (hashToken_ne_closing _ _)
  rename_i h6
  rw [if_neg h6]
  split at h
  · exact absurd h (atToken_ne_closing _ _)
  rename_i h7
  rw [if_neg h7]
  exact punctuationToken_closing h

end Token

/-- The source of a closing bracket is the bracket. -/
theorem lexemes_closing (s : List Char) :
    ∀ x ∈ lexemes s, ∀ b, x.token = .closing b → x.source = Component.closingText b := by
  fun_induction lexemes s with
  | case1 => simp
  | case2 c r t ih =>
    intro x hx b hb
    rcases List.mem_cons.1 hx with rfl | hx
    · obtain ⟨hr,hc⟩ := Token.next_closing hb
      rw [← hc]
      change (c :: r).take ((c :: r).length - (Token.next c r).2.length) = [c]
      rw [hr]
      simp
    · exact ih x hx b hb

namespace Nesting

def openText : List Frame → List Char
  | [] => []
  | f :: fs => openText fs ++ f.source ++ Component.textOf f.contents.reverse

/-- The text read so far. -/
def text (n : Nesting) : List Char := Component.textOf n.outermost.reverse ++ openText n.frames

theorem text_add (n : Nesting) (c : Component) : (n.add c).text = n.text ++ c.text := by
  obtain ⟨frames,outermost⟩ := n
  cases frames with
  | nil => simp [add,text,openText,Component.textOf_append,Component.textOf]
  | cons f fs => simp [add,text,openText,Component.textOf_append,Component.textOf]

theorem text_close_false (n : Nesting) : (n.close false).text = n.text := by
  obtain ⟨frames,outermost⟩ := n
  cases frames with
  | nil => rfl
  | cons f fs =>
    simp only [close,text_add,Component.text,Component.endText]
    simp [text,openText]

theorem text_close_true (n : Nesting) {b : Bracket} (h : n.endsInnermost b = true) :
    (n.close true).text = n.text ++ Component.closingText b := by
  obtain ⟨frames,outermost⟩ := n
  cases frames with
  | nil => simp [endsInnermost] at h
  | cons f fs =>
    have hb : f.kind.closer = b := by simpa [endsInnermost] using h
    simp only [close,text_add,Component.text,Component.endText,hb]
    simp [text,openText]

theorem text_components (n : Nesting) : Component.textOf n.components = n.text := by
  have closed : ∀ (fs : List Frame) (m : Nesting), m.frames.length ≤ fs.length →
      (fs.foldl (fun m _ => m.close false) m).text = m.text ∧
        (fs.foldl (fun m _ => m.close false) m).frames = [] := by
    intro fs
    induction fs with
    | nil =>
      intro m hm
      exact ⟨rfl,List.eq_nil_of_length_eq_zero (Nat.le_zero.1 hm)⟩
    | cons f fs ih =>
      intro m hm
      have hl : (m.close false).frames.length ≤ fs.length := by
        obtain ⟨frames,outermost⟩ := m
        cases frames with
        | nil => simp [close]
        | cons g gs =>
          cases gs with
          | nil => simp [close,add]
          | cons _ _ => simpa [close,add] using hm
      obtain ⟨h1,h2⟩ := ih _ hl
      exact ⟨by rw [List.foldl_cons,h1,text_close_false],by rw [List.foldl_cons,h2]⟩
  obtain ⟨h1,h2⟩ := closed n.frames n (Nat.le_refl _)
  rw [text,h2] at h1
  simpa [components,openText] using h1

/-- A lexeme adds its source to the text. -/
theorem text_push (n : Nesting) {x : Lexeme}
    (hx : ∀ b, x.token = .closing b → x.source = Component.closingText b) :
    (n.push x).text = n.text ++ x.source := by
  unfold push
  split
  · simp [text,openText,Component.textOf]
  · rename_i b hb
    split
    · rename_i h
      rw [text_close_true n h,hx b hb]
    · rw [text_add,Component.text]
  · rw [text_add,Component.text]

theorem text_foldl (n : Nesting) {xs : List Lexeme}
    (hx : ∀ x ∈ xs, ∀ b, x.token = .closing b → x.source = Component.closingText b) :
    (xs.foldl push n).text = n.text ++ xs.flatMap Lexeme.source := by
  induction xs generalizing n with
  | nil => simp
  | cons x xs ih =>
    rw [List.foldl_cons,ih _ fun y hy => hx y (List.mem_cons_of_mem _ hy),
      text_push n (hx x List.mem_cons_self),List.flatMap_cons,List.append_assoc]

end Nesting

namespace Component

/-- The text of the components of a text is that text. -/
theorem textOf_parse (s : List Char) : textOf (parse s) = s := by
  rw [parse,ofLexemes,Nesting.text_components,Nesting.text_foldl _ (lexemes_closing s),
    lexemes_source]
  rfl

end Component

end StyleExpansion
