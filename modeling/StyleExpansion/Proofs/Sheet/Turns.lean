import StyleExpansion.Proofs.Component.Cursor
import StyleExpansion.Proofs.Declaration.Recovery
import StyleExpansion.Proofs.Expander.SelectorLists

/-! # Loops over items

Declarations and selectors are read item by item, and what is not read of an item is passed over. Every turn
of such a loop leaves the reader further in the text than before, and the loop ends at the end of its block
and nowhere else. Its items are the parts between the separators.
-/
namespace StyleExpansion

/-! ## Parts that count -/

/-- The parts of a list between the separators. What follows the last one is a part only if it is more
than white space and comments. -/
def items (sep : Token) (cs : List Component) : List (List Component) :=
  let all := splitAt (Component.isToken sep) cs
  if Component.allSkipped (all.getLast?.getD []) then all.dropLast else all

section
open Component
variable {sep : Token} {cs ds : List Component}

theorem isToken_of_head {c : Component} (h : c.head ≠ sep) : c.isToken sep = false := by
  cases c with
  | plain t source => exact beq_eq_false_iff_ne.2 h
  | block => rfl

theorem items_of_free (h : ∀ c ∈ cs, c.isToken sep = false) :
    items sep cs = if allSkipped cs then [] else [cs] := by
  rw [items,splitAt_of_free h]
  rfl

theorem items_append_cons (h : ∀ c ∈ cs, c.isToken sep = false) (source : List Char) :
    items sep (cs ++ .plain sep source :: ds) = cs :: items sep ds := by
  have hsep : isToken sep (.plain sep source) = true := BEq.rfl
  obtain ⟨parts,part,hparts⟩ := exists_splitAt_concat (isToken sep) ds
  rw [items,splitAt_append_cons hsep,splitAt_of_free h,items,hparts]
  simp only [List.singleton_append,List.getLast?_cons,List.getLast?_concat,Option.getD_some]
  split
  · rw [← List.cons_append,List.dropLast_concat,List.dropLast_concat]
  · rfl

theorem items_of_allSkipped (hsep : sep.isMeaningful = true) (h : allSkipped cs = true) :
    items sep cs = [] := by
  have hfree : ∀ c ∈ cs, c.isToken sep = false := by
    intro c hc
    have hskip : c.isSkipped = true := List.all_eq_true.1 h c hc
    apply isToken_of_head
    rintro rfl
    rw [isMeaningful_head,hskip] at hsep
    cases hsep
  rw [items_of_free hfree,if_pos h]

/-- What follows the last semicolon of a block is a declaration only if it is more than white space and
comments. -/
theorem Declaration.all_eq (cs : List Component) :
    Declaration.all cs = (items .semicolon cs).filterMap ofComponents? := by
  obtain ⟨parts,part,hparts⟩ := exists_splitAt_concat isSemicolon cs
  have hitems : items .semicolon cs =
      if allSkipped part then parts else parts ++ [part] := by
    have hsplit : splitAt (isToken .semicolon) cs = parts ++ [part] := hparts
    rw [items,hsplit,List.getLast?_concat,Option.getD_some,List.dropLast_concat]
  rw [all,hparts,hitems]
  split
  · next hskip =>
    have hnone : ofComponents? part = none := Malformed.ofComponents? (.unnamed (.nothing hskip))
    rw [List.filterMap_append,List.filterMap_cons_none hnone,List.filterMap_nil,List.append_nil]
  · rfl

end

namespace Cursor
open Token Lexeme

/-! ## Turns -/

def skip (block : Option Bracket) (c : Cursor) : Cursor :=
  match c.rest with
  | [] => c
  | x :: xs => if ends block x.token then c else ⟨xs,x.token.closer?⟩

def item (sep : Token) (block : Option Bracket) (c : Cursor) : List Lexeme :=
  c.passed (halts block [sep])

def behind (sep : Token) (block : Option Bracket) (c : Cursor) : Cursor :=
  (c.goTo (halts block [sep])).skip block

/-- One turn of a loop over items: an item is read, perhaps not to its end, and what is left of it and the
separator are passed over. -/
inductive Turn (sep : Token) (block : Option Bracket) (c : Cursor) : List Lexeme → Cursor → Prop
  | read {d : Cursor} (h : c.next? (ends block) ≠ none) (hd : Reads (halts block [sep]) c d) :
    Turn sep block c (c.item sep block) (d.behind sep block)

/-- The turns of a loop, which ends where a reader finds no token. -/
inductive Turns (sep : Token) (block : Option Bracket) : Cursor → List (List Lexeme) → Cursor → Prop
  | done {c : Cursor} (h : c.next? (ends block) = none) : Turns sep block c [] c
  | more {c d e : Cursor} {row : List Lexeme} {rows : List (List Lexeme)} (h : Turn sep block c row d)
    (hs : Turns sep block d rows e) : Turns sep block c (row :: rows) e

section
variable {sep : Token} {block : Option Bracket} {c d e : Cursor}

/-- At its end a block is not left by passing over a separator. -/
theorem skip_limit (block : Option Bracket) (c : Cursor) :
    (⟨c.limit block,none⟩ : Cursor).skip block = ⟨c.limit block,none⟩ := by
  unfold skip
  split
  · rfl
  · next x xs h =>
    have hends : ends block x.token = true := stops_of_onward h
    rw [if_pos hends]

/-- An item goes on to a separator or to the end of the block. -/
theorem behind_cases (sep : Token) (block : Option Bracket) (c : Cursor) :
    c.goTo (halts block [sep]) = ⟨c.limit block,none⟩ ∧ c.behind sep block = ⟨c.limit block,none⟩ ∨
    ∃ y ys, c.goTo (halts block [sep]) = ⟨y :: ys,none⟩ ∧ ends block y.token = false ∧
      y.token = sep ∧ c.behind sep block = ⟨ys,y.token.closer?⟩ := by
  rcases goTo_cases block [sep] c with hgo | ⟨y,ys,hgo,hends,hy⟩
  · rw [behind,hgo,skip_limit]
    exact Or.inl ⟨rfl,rfl⟩
  · refine Or.inr ⟨y,ys,hgo,hends,List.mem_singleton.1 hy,?_⟩
    rw [behind,hgo,skip]
    exact if_neg (by simp [hends])

theorem Turn.of_next? (sep : Token) (h : c.next? (ends block) ≠ none) :
    Turn sep block c (c.item sep block) (c.behind sep block) :=
  .read h (.stay c)

/-- A turn ends where it does wherever the reading of its item breaks off. -/
theorem turn_iff {row : List Lexeme} : Turn sep block c row d ↔
    c.next? (ends block) ≠ none ∧ row = c.item sep block ∧ d = c.behind sep block := by
  constructor
  · rintro ⟨h,hd⟩
    exact ⟨h,rfl,by rw [behind,hd.goTo_eq,behind]⟩
  · rintro ⟨h,rfl,rfl⟩
    exact .of_next? sep h

theorem Turn.isPast {row : List Lexeme} (h : Turn sep block c row d) : d.IsPast c := by
  obtain ⟨hnext,_,rfl⟩ := turn_iff.1 h
  rcases behind_cases sep block c with ⟨_,hd⟩ | ⟨y,ys,hgo,_,_,hd⟩
  · rw [hd]
    exact isPast_limit hnext
  · rw [hd]
    exact isPast_of_goTo hgo _

theorem Turn.limit_eq {row : List Lexeme} (h : Turn sep block c row d) :
    d.limit block = c.limit block := by
  obtain ⟨_,_,rfl⟩ := turn_iff.1 h
  rcases behind_cases sep block c with ⟨_,hd⟩ | ⟨y,ys,hgo,hends,_,hd⟩
  · rw [hd,limit_limit]
  · rw [hd,limit_of_goTo hgo hends]

/-- A loop over items comes to an end, which is that of its block, and it takes one way only. -/
theorem turns_total (sep : Token) (block : Option Bracket) (c : Cursor) :
    ∃ rows e, e.ahead = c.limit block ∧
      ∀ rows' e', Turns sep block c rows' e' ↔ rows' = rows ∧ e' = e := by
  induction hn : c.rest.length using Nat.strongRecOn generalizing c with
  | ind n ih =>
    subst hn
    by_cases hnext : c.next? (ends block) = none
    · refine ⟨[],c,next?_eq_none.1 hnext,?_⟩
      intro rows' e'
      constructor
      · intro h
        cases h with
        | done => exact ⟨rfl,rfl⟩
        | more hturn _ => exact absurd hnext (turn_iff.1 hturn).1
      · rintro ⟨rfl,rfl⟩
        exact .done hnext
    · have hturn := Turn.of_next? sep hnext
      obtain ⟨rows,e,hend,hall⟩ := ih _ hturn.isPast.2 _ rfl
      refine ⟨c.item sep block :: rows,e,hend.trans hturn.limit_eq,?_⟩
      intro rows' e'
      constructor
      · intro h
        cases h with
        | done h => exact absurd h hnext
        | more hturn' hs =>
          obtain ⟨_,rfl,rfl⟩ := turn_iff.1 hturn'
          obtain ⟨rfl,rfl⟩ := (hall _ _).1 hs
          exact ⟨rfl,rfl⟩
      · rintro ⟨rfl,rfl⟩
        exact .more hturn ((hall _ _).2 ⟨rfl,rfl⟩)

theorem Turns.ahead_eq {rows : List (List Lexeme)} (h : Turns sep block c rows e) :
    e.ahead = c.limit block := by
  obtain ⟨_,_,hend,hall⟩ := turns_total sep block c
  obtain ⟨_,rfl⟩ := (hall _ _).1 h
  exact hend

theorem Turns.limit_eq {rows : List (List Lexeme)} (h : Turns sep block c rows e) :
    e.limit block = c.limit block := by
  rw [← limit_ahead block e,h.ahead_eq,limit_limit]

/-! ## Items of a text -/

/-- The components before the next token that means something are white space and comments. -/
theorem skipped_before (xs : List Lexeme) :
    ∀ k ∈ Component.ofLexemes (before isMeaningful [] xs), k.isSkipped = true := by
  intro k hk
  have hhead : isMeaningful k.head = false := Component.head_of_mem_before hk
  rw [Component.isMeaningful_head] at hhead
  simpa using hhead

/-- A reader finds no token if and only if nothing but white space and comments is ahead. -/
theorem allSkipped_content : Component.allSkipped (c.content block) = true ↔
    c.next? (ends block) = none := by
  have hgo : c.goTo isMeaningful = ⟨c.ahead,none⟩ := rfl
  rw [content_goTo (fun _ => isMeaningful_of_ends) c,
    Sheet.allSkipped_append (skipped_before c.settled),hgo]
  cases hnext : c.next? (ends block) with
  | none =>
    rw [next?_eq_none.1 hnext,content_limit]
    exact iff_of_true rfl rfl
  | some found =>
    obtain ⟨t,d⟩ := found
    obtain ⟨x,xs,hahead,hx,_,_⟩ := next?_eq_some hnext
    obtain ⟨k,ks,hcontent,hk⟩ := Component.exists_ofLexemes_before hx xs
    have hmeaning : isMeaningful x.token = true := stops_of_onward hahead
    rw [← hk,Component.isMeaningful_head] at hmeaning
    rw [hahead,content_none,hcontent,Component.allSkipped,List.all_cons]
    exact iff_of_false (by simp_all) (by simp)

/-- The items that a loop reads are the parts between the separators. -/
theorem Turns.items_eq {rows : List (List Lexeme)} (h : Turns sep block c rows e)
    (hpending : c.pending = none) (hopen : sep.closer? = none) (hmeaning : isMeaningful sep = true) :
    rows.map Component.ofLexemes = items sep (c.content block) := by
  induction h with
  | done h =>
    rw [items_of_allSkipped hmeaning (allSkipped_content.2 h)]
    rfl
  | @more c d e row rows h hs ih =>
    obtain ⟨xs,pending⟩ := c
    subst hpending
    obtain ⟨hnext,rfl,rfl⟩ := turn_iff.1 h
    have hfree : ∀ k ∈ Component.ofLexemes (before (halts block [sep]) [] xs),
        k.isToken sep = false := by
      intro k hk
      have hsep := (halts_eq_false.1 (Component.head_of_mem_before hk)).2
      exact isToken_of_head (List.ne_of_not_mem_cons hsep)
    have hcontent : (⟨xs,none⟩ : Cursor).content block =
        Component.ofLexemes (before (halts block [sep]) [] xs) ++
          ((⟨xs,none⟩ : Cursor).goTo (halts block [sep])).content block := by
      rw [content_goTo (fun _ h => halts_of_ends h [sep]) ⟨xs,none⟩,settled_none]
    rcases behind_cases sep block ⟨xs,none⟩ with ⟨hgo,hd⟩ | ⟨y,ys,hgo,hends,rfl,hd⟩
    · have hsome : ¬Component.allSkipped ((⟨xs,none⟩ : Cursor).content block) = true :=
        fun hskip => hnext (allSkipped_content.1 hskip)
      have hnone : rows.map Component.ofLexemes = [] := by
        rw [ih (by rw [hd]),hd,content_limit]
        exact items_of_allSkipped hmeaning rfl
      rw [hgo,content_limit,List.append_nil] at hcontent
      rw [hcontent] at hsome ⊢
      rw [items_of_free hfree,if_neg hsome,List.map_cons,hnone]
      rfl
    · rw [hopen] at hd
      rw [hgo,content_cons hends hopen] at hcontent
      rw [hcontent,items_append_cons hfree,List.map_cons,ih (by rw [hd]),hd]
      rfl

theorem Turns.declarations {xs : List Lexeme} {rows : List (List Lexeme)}
    (h : Turns .semicolon block ⟨xs,none⟩ rows e) :
    rows.filterMap (fun row => Declaration.ofComponents? (Component.ofLexemes row)) =
      Declaration.all ((⟨xs,none⟩ : Cursor).content block) := by
  rw [Declaration.all_eq,← h.items_eq rfl rfl rfl,List.filterMap_map]
  rfl

theorem Turns.selectors {text : String} {rows : List (List Lexeme)}
    (h : Turns .comma none ⟨lexemes text.toList,none⟩ rows e) (types : Bool) :
    (rows.map fun row => Selector.ofComponents types (Component.ofLexemes row)).filter
      (fun s => !s.text.isEmpty) = Selector.all types text := by
  have hparts : Selector.parts (Component.ofText text) = rows.map Component.ofLexemes := by
    rw [h.items_eq rfl rfl rfl,content_whole]
    rfl
  rw [Selector.all,hparts,List.map_map]
  rfl

end

end Cursor

end StyleExpansion
