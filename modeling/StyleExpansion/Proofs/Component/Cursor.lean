import StyleExpansion.Proofs.Component.Append

/-! # Readers of a text

A reader stands at a place of a text: some lexemes are ahead of it, and it may have read the opening of a
block without entering it. It passes over the blocks that it does not enter, and does not read beyond the
end of the block that it is in. Wherever it breaks off reading a part of the text, passing over the rest of
the part leads to the same place.
-/
namespace StyleExpansion

namespace Token

def nest (around : List Bracket) : Token → List Bracket
  | opening kind => kind.closer :: around
  | closing b => if around.head? = some b then around.tail else around
  | _ => around

def closer? : Token → Option Bracket
  | opening kind => some kind.closer
  | _ => none

/-- The token ends the block that is closed by the bracket. -/
def ends (block : Option Bracket) (t : Token) : Bool := block.any fun b => t == closing b

def halts (block : Option Bracket) (marks : List Token) (t : Token) : Bool :=
  ends block t || marks.contains t

def isMeaningful (t : Token) : Bool := !t.isSkipped

theorem nest_nil (t : Token) : t.nest [] = t.closer?.toList := by
  cases t <;> simp [nest,closer?]

theorem ends_some {b : Bracket} {t : Token} : ends (some b) t = true ↔ t = closing b := by
  simp [ends]

theorem isMeaningful_of_ends {block : Option Bracket} {t : Token} (h : ends block t = true) :
    isMeaningful t = true := by
  cases block with
  | none => cases h
  | some b =>
    rw [ends_some.1 h]
    rfl

theorem halts_of_ends {block : Option Bracket} {t : Token} (h : ends block t = true)
    (marks : List Token) : halts block marks t = true := by
  rw [halts,h]
  rfl

theorem halts_eq_false {block : Option Bracket} {marks : List Token} {t : Token} :
    halts block marks t = false ↔ ends block t = false ∧ t ∉ marks := by
  rw [halts,Bool.or_eq_false_iff,← Bool.not_eq_true (marks.contains t),List.contains_iff_mem]

theorem isMeaningful_of_halts {block : Option Bracket} {marks : List Token} {t : Token}
    (hmarks : ∀ u ∈ marks, isMeaningful u = true) (h : halts block marks t = true) :
    isMeaningful t = true := by
  rcases Bool.or_eq_true_iff.1 h with h | h
  · exact isMeaningful_of_ends h
  · exact hmarks t (List.contains_iff_mem.1 h)

/-- A block around all others changes nothing until its own bracket. -/
theorem nest_concat (around : List Bracket) (b : Bracket) (t : Token) :
    around = [] ∧ t = closing b ∨
    (around.isEmpty && ends (some b) t) = false ∧ t.nest (around ++ [b]) = t.nest around ++ [b] := by
  by_cases h : around = [] ∧ t = closing b
  · exact Or.inl h
  · refine Or.inr ⟨?_,?_⟩
    · rw [← Bool.not_eq_true,Bool.and_eq_true,List.isEmpty_iff,ends_some]
      exact h
    · cases t with
      | closing d =>
        cases around with
        | nil =>
          have hne : b ≠ d := fun he => h ⟨rfl,by rw [he]⟩
          simp [nest,hne]
        | cons e around => by_cases hed : e = d <;> simp [nest,hed]
      | _ => rfl

theorem nest_closing (b : Bracket) : (closing b).nest [b] = [] := by simp [nest]

end Token

namespace Lexeme
open Token

/-- The lexemes before the first one that a reader stops at, outside of the blocks around. -/
def before (stops : Token → Bool) (around : List Bracket) : List Lexeme → List Lexeme
  | [] => []
  | x :: xs =>
    if around.isEmpty && stops x.token then [] else x :: before stops (x.token.nest around) xs

def onward (stops : Token → Bool) (around : List Bracket) : List Lexeme → List Lexeme
  | [] => []
  | x :: xs => if around.isEmpty && stops x.token then x :: xs else onward stops (x.token.nest around) xs

section
variable {stops : Token → Bool}

theorem before_append_onward (stops : Token → Bool) (around : List Bracket) (xs : List Lexeme) :
    before stops around xs ++ onward stops around xs = xs := by
  induction xs generalizing around with
  | nil => rfl
  | cons x xs ih =>
    rw [before,onward]
    split
    · rfl
    · rw [List.cons_append,ih]

theorem onward_suffix (around : List Bracket) (xs : List Lexeme) : onward stops around xs <:+ xs :=
  ⟨_,before_append_onward stops around xs⟩

theorem before_isPrefix (around : List Bracket) (xs : List Lexeme) : before stops around xs <+: xs :=
  ⟨_,before_append_onward stops around xs⟩

theorem stops_of_onward {around : List Bracket} {xs ys : List Lexeme} {y : Lexeme}
    (h : onward stops around xs = y :: ys) : stops y.token = true := by
  induction xs generalizing around with
  | nil => cases h
  | cons x xs ih =>
    rw [onward] at h
    split at h
    · next hx =>
      cases h
      exact (Bool.and_eq_true _ _ ▸ hx).2
    · exact ih h

theorem onward_cons {x : Lexeme} (h : stops x.token = false) (xs : List Lexeme) :
    onward stops [] (x :: xs) = onward stops x.token.closer?.toList xs := by
  rw [onward,h,nest_nil]
  rfl

theorem before_cons {x : Lexeme} (h : stops x.token = false) (xs : List Lexeme) :
    before stops [] (x :: xs) = x :: before stops x.token.closer?.toList xs := by
  rw [before,h,nest_nil]
  rfl

theorem onward_of_stops {x : Lexeme} (h : stops x.token = true) (xs : List Lexeme) :
    onward stops [] (x :: xs) = x :: xs := by
  rw [onward,h]
  rfl

theorem before_of_stops {x : Lexeme} (h : stops x.token = true) (xs : List Lexeme) :
    before stops [] (x :: xs) = [] := by
  rw [before,h]
  rfl

/-- Inside a block a reader comes to the end of the block first. -/
theorem onward_concat (stops : Token → Bool) (around : List Bracket) (b : Bracket) (xs : List Lexeme) :
    onward stops (around ++ [b]) xs = onward stops [] ((onward (ends (some b)) around xs).drop 1) := by
  induction xs generalizing around with
  | nil => rfl
  | cons x xs ih =>
    rw [onward,onward]
    rcases nest_concat around b x.token with ⟨rfl,hx⟩ | ⟨hgo,hx⟩
    · simp [hx,nest_closing,ends]
    · rw [hx,ih,hgo]
      simp

theorem before_concat (stops : Token → Bool) (around : List Bracket) (b : Bracket) (xs : List Lexeme) :
    before stops (around ++ [b]) xs = before (ends (some b)) around xs ++
      ((onward (ends (some b)) around xs).take 1 ++
        before stops [] ((onward (ends (some b)) around xs).drop 1)) := by
  induction xs generalizing around with
  | nil => rfl
  | cons x xs ih =>
    rw [before,before,onward]
    rcases nest_concat around b x.token with ⟨rfl,hx⟩ | ⟨hgo,hx⟩
    · simp [hx,nest_closing,ends]
    · rw [hx,ih,hgo]
      simp

theorem onward_onward {more : Token → Bool} (h : ∀ t, stops t = true → more t = true)
    (around : List Bracket) (xs : List Lexeme) :
    onward stops [] (onward more around xs) = onward stops around xs := by
  induction xs generalizing around with
  | nil => rfl
  | cons x xs ih =>
    rw [onward]
    split
    · next hx =>
      rw [Bool.and_eq_true,List.isEmpty_iff] at hx
      rw [hx.1]
    · next hx =>
      have hgo : ¬(around.isEmpty && stops x.token) = true := by
        rw [Bool.and_eq_true] at hx ⊢
        exact fun hs => hx ⟨hs.1,h _ hs.2⟩
      rw [ih,onward,if_neg hgo]

theorem before_onward {more : Token → Bool} (h : ∀ t, stops t = true → more t = true)
    (around : List Bracket) (xs : List Lexeme) :
    before stops around xs = before more around xs ++ before stops [] (onward more around xs) := by
  induction xs generalizing around with
  | nil => rfl
  | cons x xs ih =>
    rw [before,before,onward]
    split
    · next hs =>
      rw [Bool.and_eq_true] at hs
      rw [if_pos (by rw [hs.1,h _ hs.2]; rfl),if_pos (by rw [hs.1,h _ hs.2]; rfl),
        before_of_stops hs.2]
      rfl
    · next hs =>
      split
      · next hx =>
        rw [Bool.and_eq_true,List.isEmpty_iff] at hx
        rw [hx.1] at hs ⊢
        rw [List.nil_append,before,if_neg hs]
      · rw [List.cons_append,← ih]

end

theorem onward_anything (xs : List Lexeme) : onward (fun _ => true) [] xs = xs := by
  cases xs <;> rfl

theorem before_anything (xs : List Lexeme) : before (fun _ => true) [] xs = [] := by
  cases xs <;> rfl

/-- Outside of blocks a reader stops at the end of the text only. -/
theorem onward_ends_none (around : List Bracket) (xs : List Lexeme) :
    onward (ends none) around xs = [] := by
  induction xs generalizing around with
  | nil => rfl
  | cons x xs ih =>
    rw [onward,ends,Option.any_none,Bool.and_false]
    exact ih _

theorem before_ends_none (around : List Bracket) (xs : List Lexeme) :
    before (ends none) around xs = xs := by
  have h := before_append_onward (ends none) around xs
  rwa [onward_ends_none,List.append_nil] at h

end Lexeme

/-! ## Components -/

namespace Nesting
open Token Lexeme

def closers (n : Nesting) : List Bracket := n.frames.map fun f => f.kind.closer

def heads (n : Nesting) : List Token :=
  (n.frames.getLast?.map fun f => opening f.kind).toList ++ n.outermost.map Component.head

theorem closers_add (n : Nesting) (c : Component) : (n.add c).closers = n.closers := by
  obtain ⟨frames,outermost⟩ := n
  cases frames <;> rfl

theorem closers_push (n : Nesting) (x : Lexeme) : (n.push x).closers = x.token.nest n.closers := by
  obtain ⟨frames,outermost⟩ := n
  obtain ⟨token,source⟩ := x
  cases token with
  | opening kind => rfl
  | closing b =>
    cases frames with
    | nil => rfl
    | cons f fs =>
      by_cases hb : f.kind.closer = b
      · have hpush : push ⟨f :: fs,outermost⟩ ⟨.closing b,source⟩ = close ⟨f :: fs,outermost⟩ true := by
          simp [push,endsInnermost,hb]
        rw [hpush,close,closers_add]
        simp [closers,nest,hb]
      · have hpush : push ⟨f :: fs,outermost⟩ ⟨.closing b,source⟩ =
            add ⟨f :: fs,outermost⟩ (.plain (.closing b) source) := by
          simp [push,endsInnermost,hb]
        rw [hpush,closers_add]
        simp [closers,nest,hb]
  | _ => exact closers_add _ _

theorem heads_close (n : Nesting) (closed : Bool) : (n.close closed).heads = n.heads := by
  obtain ⟨frames,outermost⟩ := n
  rcases frames with _ | ⟨f,_ | ⟨g,gs⟩⟩
  · rfl
  · rfl
  · simp only [close,add,heads,List.getLast?_cons_cons]
    cases gs <;> rfl

theorem heads_push (n : Nesting) (x : Lexeme) :
    (n.push x).heads = if n.frames = [] then x.token :: n.heads else n.heads := by
  have hadd : ∀ c : Component, c.head = x.token → (n.add c).heads =
      if n.frames = [] then x.token :: n.heads else n.heads := by
    obtain ⟨frames,outermost⟩ := n
    rintro c hc
    rcases frames with _ | ⟨f,_ | ⟨g,gs⟩⟩
    · simp [add,heads,hc]
    · rfl
    · simp [add,heads]
  unfold push
  split
  · next kind hx =>
    obtain ⟨frames,outermost⟩ := n
    cases frames with
    | nil => simp [heads,hx]
    | cons f fs => simp [heads]
  · next b hx =>
    split
    · next hends =>
      have hn : n.frames ≠ [] := by
        intro hn
        simp [endsInnermost,hn] at hends
      rw [heads_close,if_neg hn]
    · exact hadd _ rfl
  · exact hadd _ rfl

/-- The tokens outside of all blocks are those that the components begin with. -/
theorem map_head_components (n : Nesting) : n.components.map Component.head = n.heads.reverse := by
  have hclose : ∀ (fs : List Frame) (m : Nesting), m.frames.length ≤ fs.length →
      (fs.foldl (fun m _ => m.close false) m).outermost.map Component.head = m.heads := by
    intro fs
    induction fs with
    | nil =>
      intro m hm
      have hnone := List.eq_nil_of_length_eq_zero (Nat.le_zero.1 hm)
      simp [heads,hnone]
    | cons f fs ih =>
      intro m hm
      have hlen : (m.close false).frames.length ≤ fs.length := by
        obtain ⟨frames,outermost⟩ := m
        rcases frames with _ | ⟨g,_ | ⟨h,hs⟩⟩
        · exact Nat.zero_le _
        · exact Nat.zero_le _
        · simpa [close,add] using hm
      rw [List.foldl_cons,ih _ hlen,heads_close]
  rw [components,List.map_reverse,hclose n.frames n (Nat.le_refl _)]

variable {stops : Token → Bool}

theorem closers_before {xs : List Lexeme} {n : Nesting} (h : onward stops n.closers xs ≠ []) :
    ((before stops n.closers xs).foldl push n).closers = [] := by
  induction xs generalizing n with
  | nil => exact absurd rfl h
  | cons x xs ih =>
    rw [before]
    rw [onward] at h
    split
    · next hx => exact List.isEmpty_iff.1 (Bool.and_eq_true _ _ ▸ hx).1
    · next hx =>
      rw [if_neg hx,← closers_push] at h
      rw [List.foldl_cons,← closers_push]
      exact ih h

/-- A reader has passed no token that it stops at outside of all blocks. -/
theorem heads_before (xs : List Lexeme) {n : Nesting} (h : ∀ t ∈ n.heads, stops t = false) :
    ∀ t ∈ ((before stops n.closers xs).foldl push n).heads, stops t = false := by
  induction xs generalizing n with
  | nil => exact h
  | cons x xs ih =>
    rw [before]
    split
    · exact h
    · next hx =>
      rw [List.foldl_cons,← closers_push]
      apply ih
      rw [heads_push]
      split
      · next hn =>
        have hstops : stops x.token = false := by simpa [closers,hn] using hx
        exact List.forall_mem_cons.2 ⟨hstops,h⟩
      · exact h

end Nesting

namespace Component
open Token Lexeme

variable {stops : Token → Bool}

theorem isMeaningful_head (c : Component) : isMeaningful c.head = !c.isSkipped := by cases c <;> rfl

theorem complete_before {xs : List Lexeme} (h : onward stops [] xs ≠ []) :
    Complete (before stops [] xs) := by
  have hclosers := Nesting.closers_before (n := .empty) h
  exact List.map_eq_nil_iff.1 hclosers

/-- The components that a reader passes begin with no token that it stops at. -/
theorem head_of_mem_before {xs : List Lexeme} {c : Component}
    (hc : c ∈ ofLexemes (before stops [] xs)) : stops c.head = false := by
  have hempty : ∀ t ∈ Nesting.empty.heads, stops t = false := List.forall_mem_nil _
  apply Nesting.heads_before xs hempty
  rw [← List.mem_reverse]
  have hmap := Nesting.map_head_components ((before stops [] xs).foldl Nesting.push .empty)
  have hmem := List.mem_map_of_mem (f := head) hc
  rw [ofLexemes,hmap] at hmem
  exact hmem

/-- The components that a reader passes are those that it passes up to a place on its way, and those after
that. -/
theorem ofLexemes_before {more : Token → Bool} (h : ∀ t, stops t = true → more t = true)
    (xs : List Lexeme) : ofLexemes (before stops [] xs) =
      ofLexemes (before more [] xs) ++ ofLexemes (before stops [] (onward more [] xs)) := by
  rw [before_onward h]
  by_cases hrest : onward more [] xs = []
  · rw [hrest,before,List.append_nil]
    exact (List.append_nil _).symm
  · exact ofLexemes_append (complete_before hrest) _

/-- A lexeme that opens no block is a component by itself where no block is open. -/
theorem ofLexemes_unopened {x : Lexeme} (h : x.token.closer? = none) (xs : List Lexeme) :
    ofLexemes (x :: xs) = .plain x.token x.source :: ofLexemes xs := by
  have hpush : Nesting.empty.push x = ⟨[],[.plain x.token x.source]⟩ := by
    unfold Nesting.push
    split
    · next kind hx =>
      rw [hx] at h
      cases h
    · rfl
    · rfl
  have hcomplete : Complete [x] := by
    rw [Complete,List.foldl_cons,hpush]
    rfl
  rw [← List.singleton_append,ofLexemes_append hcomplete,ofLexemes,List.foldl_cons,hpush]
  rfl

/-- A bracket opens a block, which goes on to the bracket that closes it or to the end. -/
theorem ofLexemes_opening (stops : Token → Bool) (kind : Opening) (source : List Char)
    (xs : List Lexeme) : ofLexemes (⟨.opening kind,source⟩ :: before stops [kind.closer] xs) =
      .block kind source (ofLexemes (before (ends (some kind.closer)) [] xs))
        (!(onward (ends (some kind.closer)) [] xs).isEmpty) ::
      ofLexemes (before stops [] ((onward (ends (some kind.closer)) [] xs).drop 1)) := by
  have hfree : ∀ c ∈ ofLexemes (before (ends (some kind.closer)) [] xs),
      c.isToken (.closing kind.closer) = false := by
    intro c hc
    have hhead := head_of_mem_before hc
    cases c with
    | plain t source => exact hhead
    | block => rfl
  have hconcat := before_concat stops [] kind.closer xs
  rw [List.nil_append] at hconcat
  rw [hconcat]
  cases hrest : onward (ends (some kind.closer)) [] xs with
  | nil =>
    rw [List.take_nil,List.drop_nil,before,List.append_nil,List.append_nil]
    exact ofLexemes_open_block hfree source
  | cons y ys =>
    obtain ⟨t,closing⟩ := y
    have hy : t = .closing kind.closer := ends_some.1 (stops_of_onward hrest)
    have hcomplete : Complete (before (ends (some kind.closer)) [] xs) :=
      complete_before (by rw [hrest]; simp)
    rw [hy]
    exact ofLexemes_block hcomplete hfree source closing _

/-- What a reader passes begins with the next token, or with the block that it opens. -/
theorem exists_ofLexemes_before {x : Lexeme} (h : stops x.token = false) (xs : List Lexeme) :
    ∃ k ks, ofLexemes (before stops [] (x :: xs)) = k :: ks ∧ k.head = x.token := by
  rw [before_cons h]
  obtain ⟨t,source⟩ := x
  cases t with
  | opening kind => exact ⟨_,_,ofLexemes_opening stops kind source xs,rfl⟩
  | _ => exact ⟨_,_,ofLexemes_unopened rfl _,rfl⟩

def ClosingSpelled (xs : List Lexeme) : Prop :=
  ∀ x ∈ xs, ∀ b, x.token = .closing b → x.source = closingText b

theorem ClosingSpelled.mono {xs ys : List Lexeme} (h : ClosingSpelled xs) (hys : ys ⊆ xs) :
    ClosingSpelled ys := fun x hx => h x (hys hx)

theorem textOf_ofLexemes {xs : List Lexeme} (h : ClosingSpelled xs) :
    textOf (ofLexemes xs) = xs.flatMap Lexeme.source := by
  rw [ofLexemes,Nesting.text_components,Nesting.text_foldl _ h]
  rfl

end Component

/-! ## Places -/

/-- A place of a reader: the lexemes ahead of it, and the bracket that closes the block whose opening it
has just read, if it has not entered that block. -/
structure Cursor where
  rest : List Lexeme
  pending : Option Bracket

namespace Cursor
open Token Lexeme

def goTo (stops : Token → Bool) (c : Cursor) : Cursor := ⟨onward stops c.pending.toList c.rest,none⟩

def passed (stops : Token → Bool) (c : Cursor) : List Lexeme := before stops c.pending.toList c.rest

def settled (c : Cursor) : List Lexeme := (c.goTo fun _ => true).rest

/-- The lexemes from the first one on that means something. -/
def ahead (c : Cursor) : List Lexeme := (c.goTo isMeaningful).rest

/-- The lexemes from the end of the block on that a reader is in. Without a block, or if the block is not
closed, that is the end of the text. -/
def limit (block : Option Bracket) (c : Cursor) : List Lexeme := (c.goTo (ends block)).rest

/-- The next token that means something, unless the reader stops at it, and the place behind it. -/
def next? (stops : Token → Bool) (c : Cursor) : Option (Token × Cursor) :=
  match c.ahead with
  | [] => none
  | x :: xs => if stops x.token then none else some (x.token,⟨xs,x.token.closer?⟩)

def leave (b : Bracket) (c : Cursor) : Cursor := ⟨onward (fun _ => true) [b] c.settled,none⟩

/-- The place is further in the text than another one. -/
def IsPast (d c : Cursor) : Prop := d.rest <:+ c.rest ∧ d.rest.length < c.rest.length

/-- What a reader can have read that stops at some tokens: it reads one token after the other, and the
blocks that it enters it may read in part. -/
inductive Reads : (Token → Bool) → Cursor → Cursor → Prop
  | stay {stops : Token → Bool} (c : Cursor) : Reads stops c c
  | token {stops : Token → Bool} {c d : Cursor} {x : Lexeme} {xs : List Lexeme}
    (h : c.settled = x :: xs) (hx : stops x.token = false)
    (hd : Reads stops ⟨xs,x.token.closer?⟩ d) : Reads stops c d
  | block {stops : Token → Bool} {xs : List Lexeme} {b : Bracket} {inner d : Cursor}
    (h : Reads (ends (some b)) ⟨xs,none⟩ inner) (hd : Reads stops (inner.leave b) d) :
    Reads stops ⟨xs,some b⟩ d

section
variable {stops : Token → Bool} {block : Option Bracket} {marks : List Token} {c d : Cursor}

/-- A reader that goes on from where one stops that stops more often. -/
theorem goTo_goTo {more : Token → Bool} (h : ∀ t, stops t = true → more t = true) (c : Cursor) :
    (c.goTo more).goTo stops = c.goTo stops :=
  congrArg (Cursor.mk · none) (onward_onward h _ _)

theorem settled_none (xs : List Lexeme) : settled ⟨xs,none⟩ = xs := onward_anything xs

theorem settled_some (xs : List Lexeme) (b : Bracket) :
    settled ⟨xs,some b⟩ = ((⟨xs,none⟩ : Cursor).limit (some b)).drop 1 :=
  (onward_concat (fun _ => true) [] b xs).trans (onward_anything _)

/-- A reader passes over the block that is not entered first. -/
theorem goTo_settled (stops : Token → Bool) (c : Cursor) :
    (⟨c.settled,none⟩ : Cursor).goTo stops = c.goTo stops :=
  goTo_goTo (fun _ _ => rfl) c

theorem onward_settled (stops : Token → Bool) (c : Cursor) :
    onward stops [] c.settled = (c.goTo stops).rest :=
  congrArg rest (goTo_settled stops c)

theorem goTo_suffix (stops : Token → Bool) (c : Cursor) : (c.goTo stops).rest <:+ c.rest :=
  onward_suffix _ _

theorem limit_settled (block : Option Bracket) (c : Cursor) :
    (⟨c.settled,none⟩ : Cursor).limit block = c.limit block :=
  congrArg rest (goTo_settled _ c)

theorem limit_ahead (block : Option Bracket) (c : Cursor) :
    (⟨c.ahead,none⟩ : Cursor).limit block = c.limit block :=
  congrArg rest (goTo_goTo (fun _ => isMeaningful_of_ends) c)

theorem limit_goTo (block : Option Bracket) (marks : List Token) (c : Cursor) :
    (c.goTo (halts block marks)).limit block = c.limit block :=
  congrArg rest (goTo_goTo (fun _ h => halts_of_ends h marks) c)

theorem limit_limit (block : Option Bracket) (c : Cursor) :
    (⟨c.limit block,none⟩ : Cursor).limit block = c.limit block :=
  congrArg rest (goTo_goTo (fun _ h => h) c)

theorem limit_none (c : Cursor) : c.limit none = [] := onward_ends_none _ _

/-- Reading a token that does not end the block leads no nearer to another end. -/
theorem limit_cons {x : Lexeme} (h : ends block x.token = false) (xs : List Lexeme) :
    (⟨x :: xs,none⟩ : Cursor).limit block = (⟨xs,x.token.closer?⟩ : Cursor).limit block :=
  onward_cons h xs

/-- Wherever a reader stops inside a block, it leaves the block at its end. -/
theorem leave_eq (b : Bracket) (c : Cursor) : c.leave b = ⟨(c.limit (some b)).drop 1,none⟩ := by
  have hsettled : c.leave b = ⟨(⟨c.settled,some b⟩ : Cursor).settled,none⟩ := rfl
  rw [hsettled,settled_some,limit_settled]

theorem leave_of_limit {b : Bracket} {xs : List Lexeme}
    (h : c.limit (some b) = (⟨xs,none⟩ : Cursor).limit (some b)) :
    c.leave b = ⟨(⟨xs,some b⟩ : Cursor).settled,none⟩ := by
  rw [leave_eq,h,settled_some]

/-- Wherever a reader breaks off, the rest of what it reads ends at the same place. -/
theorem Reads.goTo_eq (h : Reads stops c d) : d.goTo stops = c.goTo stops := by
  induction h with
  | stay => rfl
  | @token stops c d x xs h hx _ ih =>
    have hread : (⟨xs,x.token.closer?⟩ : Cursor).goTo stops = (⟨x :: xs,none⟩ : Cursor).goTo stops :=
      congrArg (Cursor.mk · none) (onward_cons hx xs).symm
    rw [ih,hread,← h,goTo_settled]
  | block _ _ ih ihd => rw [ihd,leave_of_limit (congrArg rest ih),goTo_settled]

theorem next?_of_ahead {x : Lexeme} {xs : List Lexeme} (h : c.ahead = x :: xs)
    (hx : stops x.token = false) : c.next? stops = some (x.token,⟨xs,x.token.closer?⟩) := by
  rw [next?,h]
  simp [hx]

theorem next?_eq_some {t : Token} (h : c.next? stops = some (t,d)) :
    ∃ x xs, c.ahead = x :: xs ∧ stops x.token = false ∧ t = x.token ∧ d = ⟨xs,x.token.closer?⟩ := by
  unfold next? at h
  split at h
  · cases h
  · next x xs hahead =>
    split at h
    · cases h
    · next hx =>
      cases h
      exact ⟨x,xs,hahead,by simpa using hx,rfl,rfl⟩

/-- A reader finds no token if and only if nothing but white space and comments is left before the end of
the block that it is in. -/
theorem next?_eq_none : c.next? (ends block) = none ↔ c.ahead = c.limit block := by
  rw [← limit_ahead]
  cases hahead : c.ahead with
  | nil =>
    rw [next?,hahead]
    exact iff_of_true rfl rfl
  | cons x xs =>
    cases hx : ends block x.token with
    | true =>
      rw [next?,hahead]
      exact iff_of_true (if_pos hx) (onward_of_stops hx xs).symm
    | false =>
      refine iff_of_false (by simp [next?_of_ahead hahead hx]) ?_
      intro h
      have hle : ((⟨xs,x.token.closer?⟩ : Cursor).limit block).length ≤ xs.length :=
        (goTo_suffix (ends block) ⟨xs,x.token.closer?⟩).length_le
      rw [limit_cons hx] at h
      rw [← h,List.length_cons] at hle
      exact absurd hle (Nat.not_succ_le_self _)

theorem limit_of_next? {t : Token} (h : c.next? (ends block) = some (t,d)) :
    d.limit block = c.limit block := by
  obtain ⟨x,xs,hahead,hx,_,rfl⟩ := next?_eq_some h
  rw [← limit_ahead block c,hahead,limit_cons hx]

theorem isPast_of_next? {t : Token} (h : c.next? stops = some (t,d)) : d.IsPast c := by
  obtain ⟨x,xs,hahead,_,_,rfl⟩ := next?_eq_some h
  have hsuffix : x :: xs <:+ c.rest := hahead ▸ goTo_suffix isMeaningful c
  exact ⟨(List.suffix_cons x xs).trans hsuffix,Nat.lt_of_lt_of_le (Nat.lt_succ_self _) hsuffix.length_le⟩

theorem IsPast.of_suffix {e : Cursor} (h : d.IsPast c) (he : e.rest <:+ d.rest) : e.IsPast c :=
  ⟨he.trans h.1,Nat.lt_of_le_of_lt he.length_le h.2⟩

/-- The end of the block is further on than any token before it. -/
theorem isPast_limit (h : c.next? (ends block) ≠ none) : IsPast ⟨c.limit block,none⟩ c := by
  obtain ⟨⟨t,d⟩,hnext⟩ := Option.ne_none_iff_exists'.1 h
  have hlimit : c.limit block <:+ d.rest := limit_of_next? hnext ▸ goTo_suffix (ends block) d
  exact (isPast_of_next? hnext).of_suffix hlimit

/-- At a place where a reader stops that passes over a part, there is one of the marks behind which it
goes on, or the end of the block. -/
theorem goTo_cases (block : Option Bracket) (marks : List Token) (c : Cursor) :
    c.goTo (halts block marks) = ⟨c.limit block,none⟩ ∨
    ∃ y ys, c.goTo (halts block marks) = ⟨y :: ys,none⟩ ∧ ends block y.token = false ∧
      y.token ∈ marks := by
  have hlimit : (c.goTo (halts block marks)).limit block = c.limit block := limit_goTo block marks c
  cases hrest : (c.goTo (halts block marks)).rest with
  | nil =>
    have hgo : c.goTo (halts block marks) = ⟨[],none⟩ := congrArg (Cursor.mk · none) hrest
    left
    rw [← hlimit,hgo]
    rfl
  | cons y ys =>
    have hgo : c.goTo (halts block marks) = ⟨y :: ys,none⟩ := congrArg (Cursor.mk · none) hrest
    have hy : halts block marks y.token = true := stops_of_onward hrest
    cases hends : ends block y.token with
    | true =>
      left
      rw [← hlimit,hgo]
      exact congrArg (Cursor.mk · none) (onward_of_stops hends ys).symm
    | false =>
      rw [halts,hends,Bool.false_or,List.contains_iff_mem] at hy
      exact Or.inr ⟨y,ys,hgo,hends,hy⟩

section
variable {y : Lexeme} {ys : List Lexeme}

theorem limit_of_goTo (h : c.goTo (halts block marks) = ⟨y :: ys,none⟩)
    (hy : ends block y.token = false) :
    (⟨ys,y.token.closer?⟩ : Cursor).limit block = c.limit block := by
  rw [← limit_cons hy,← h,limit_goTo]

theorem isPast_of_goTo (h : c.goTo stops = ⟨y :: ys,none⟩) (pending : Option Bracket) :
    IsPast ⟨ys,pending⟩ c := by
  have hrest : (c.goTo stops).rest = y :: ys := congrArg rest h
  have hsuffix : y :: ys <:+ c.rest := hrest ▸ goTo_suffix stops c
  exact ⟨(List.suffix_cons y ys).trans hsuffix,
    Nat.lt_of_lt_of_le (Nat.lt_succ_self _) hsuffix.length_le⟩

/-- Behind a mark a reader goes on with the mark, and at the end of its block it finds no token. -/
theorem next?_of_goTo (h : c.goTo (halts block marks) = ⟨y :: ys,none⟩)
    (hy : ends block y.token = false) (hmeaning : isMeaningful y.token = true) :
    (c.goTo (halts block marks)).next? (ends block) = some (y.token,⟨ys,y.token.closer?⟩) := by
  rw [h]
  exact next?_of_ahead (onward_of_stops hmeaning ys) hy

end

theorem ahead_limit (block : Option Bracket) (c : Cursor) :
    (⟨c.limit block,none⟩ : Cursor).ahead = c.limit block := by
  cases hlimit : c.limit block with
  | nil => rfl
  | cons x xs => exact onward_of_stops (isMeaningful_of_ends (stops_of_onward hlimit)) xs

theorem next?_limit (block : Option Bracket) (c : Cursor) :
    (⟨c.limit block,none⟩ : Cursor).next? (ends block) = none := by
  rw [next?_eq_none,ahead_limit,limit_limit]

/-! ## What is ahead -/

def text (c : Cursor) : List Char := c.rest.flatMap Lexeme.source

theorem IsPast.text_lt {s : List Char} (h : d.IsPast c) (hc : c.rest <:+ lexemes s) :
    d.text.length < c.text.length := by
  obtain ⟨⟨passed,hpassed⟩,hlen⟩ := h
  cases passed with
  | nil =>
    rw [← hpassed] at hlen
    exact absurd hlen (Nat.lt_irrefl _)
  | cons x passed =>
    have hmem : x ∈ lexemes s := hc.subset (hpassed ▸ List.mem_cons_self)
    have hsource : 0 < x.source.length := List.length_pos_iff.2 (lexemes_source_ne_nil s x hmem)
    rw [text,text,← hpassed,List.cons_append,List.flatMap_cons,List.flatMap_append,List.length_append,
      List.length_append]
    omega

/-- The components before the end of the block that a reader is in. -/
def content (block : Option Bracket) (c : Cursor) : List Component :=
  Component.ofLexemes (before (ends block) [] c.settled)

def pendingText (c : Cursor) : List Char := (c.passed fun _ => true).flatMap Lexeme.source

theorem pendingText_none (xs : List Lexeme) : pendingText ⟨xs,none⟩ = [] :=
  congrArg (List.flatMap Lexeme.source) (before_anything xs)

theorem content_settled (block : Option Bracket) (c : Cursor) :
    (⟨c.settled,none⟩ : Cursor).content block = c.content block := by
  rw [content,settled_none,content]

theorem content_none (block : Option Bracket) (xs : List Lexeme) :
    (⟨xs,none⟩ : Cursor).content block = Component.ofLexemes (before (ends block) [] xs) := by
  rw [content,settled_none]

theorem content_whole (xs : List Lexeme) :
    (⟨xs,none⟩ : Cursor).content none = Component.ofLexemes xs := by
  rw [content_none,before_ends_none]

theorem content_limit (block : Option Bracket) (c : Cursor) :
    (⟨c.limit block,none⟩ : Cursor).content block = [] := by
  rw [content_none]
  cases hlimit : c.limit block with
  | nil => rfl
  | cons x xs =>
    rw [before_of_stops (stops_of_onward hlimit)]
    rfl

theorem content_cons {x : Lexeme} (h : ends block x.token = false) (hx : x.token.closer? = none)
    (xs : List Lexeme) : (⟨x :: xs,none⟩ : Cursor).content block =
      .plain x.token x.source :: (⟨xs,none⟩ : Cursor).content block := by
  rw [content_none,content_none,before_cons h,hx]
  exact Component.ofLexemes_unopened hx _

theorem content_opening (block : Option Bracket) (kind : Opening) (source : List Char)
    (xs : List Lexeme) : (⟨⟨.opening kind,source⟩ :: xs,none⟩ : Cursor).content block =
      .block kind source ((⟨xs,none⟩ : Cursor).content (some kind.closer))
        (!((⟨xs,none⟩ : Cursor).limit (some kind.closer)).isEmpty) ::
      (⟨xs,some kind.closer⟩ : Cursor).content block := by
  have hends : ends block (.opening kind) = false := by
    cases block <;> rfl
  rw [content_none,content_none,before_cons hends,content,settled_some]
  exact Component.ofLexemes_opening (ends block) kind source xs

/-- Components ahead are those that a reader passes on its way to some place, and those ahead of there. -/
theorem content_goTo {more : Token → Bool} (h : ∀ t, ends block t = true → more t = true) (c : Cursor) :
    c.content block =
      Component.ofLexemes (before more [] c.settled) ++ (c.goTo more).content block := by
  have hgo : c.goTo more = ⟨onward more [] c.settled,none⟩ := (goTo_settled more c).symm
  rw [content,Component.ofLexemes_before h,hgo,content_none]

/-- The text that a reader passes is that of the block that it does not enter and of the components
after that. -/
theorem text_passed (stops : Token → Bool) (h : Component.ClosingSpelled c.rest) :
    (c.passed stops).flatMap Lexeme.source =
      c.pendingText ++ Component.textOf (Component.ofLexemes (before stops [] c.settled)) := by
  have hpassed : c.passed stops = c.passed (fun _ => true) ++ before stops [] c.settled :=
    before_onward (fun _ _ => rfl) _ _
  have hbefore : Component.ClosingSpelled (before stops [] c.settled) :=
    h.mono fun x hx => (goTo_suffix _ c).subset ((before_isPrefix [] c.settled).subset hx)
  rw [hpassed,List.flatMap_append,Component.textOf_ofLexemes hbefore,pendingText]

/-- The text of a block after its opening is that of its components and its end. -/
theorem pendingText_some (kind : Opening) {xs : List Lexeme} (h : Component.ClosingSpelled xs) :
    pendingText ⟨xs,some kind.closer⟩ =
      Component.textOf ((⟨xs,none⟩ : Cursor).content (some kind.closer)) ++
        Component.endText kind (!((⟨xs,none⟩ : Cursor).limit (some kind.closer)).isEmpty) := by
  have hxs := before_append_onward (ends (some kind.closer)) [] xs
  have hbefore : Component.ClosingSpelled (before (ends (some kind.closer)) [] xs) :=
    h.mono (before_isPrefix [] xs).subset
  have hpending : pendingText ⟨xs,some kind.closer⟩ =
      (before (fun _ => true) ([] ++ [kind.closer]) xs).flatMap Lexeme.source := rfl
  have hlimit : (⟨xs,none⟩ : Cursor).limit (some kind.closer) =
      onward (ends (some kind.closer)) [] xs := rfl
  rw [hpending,before_concat,before_anything,List.append_nil,List.flatMap_append,content_none,
    Component.textOf_ofLexemes hbefore,hlimit]
  cases hrest : onward (ends (some kind.closer)) [] xs with
  | nil => rfl
  | cons y ys =>
    have hmem : y ∈ xs := by
      rw [← hxs,hrest]
      exact List.mem_append_right _ List.mem_cons_self
    have hy : y.source = Component.closingText kind.closer :=
      h y hmem _ (ends_some.1 (stops_of_onward hrest))
    simp [hy,Component.endText]

end

end Cursor

end StyleExpansion
