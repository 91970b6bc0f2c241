import Mathlib.Data.List.DropRight
import Mathlib.Data.List.TakeWhile
import StyleExpansion.Expander
import StyleExpansion.Proofs.Component.Append
import StyleExpansion.Proofs.Sheet.Walk

/-! # White space and comments before a rule

What stands between two rules counts as the beginning of the prelude of the second one. It adds no target
to that rule and takes none from it, unless the prelude itself begins with a blank that is not white space
of the sheet: such a character is cut off where it comes first, and is a name behind a comment.
-/
namespace StyleExpansion.Sheet
open Component Token

inductive IsFiller : List Char → Prop
  | nil : IsFiller []
  | space {c : Char} {s : List Char} (h : isSpace c = true) (hs : IsFiller s) : IsFiller (c :: s)
  | comment {body s : List Char} (h : ¬['*','/'] <:+: body) (hs : IsFiller s) :
    IsFiller ('/' :: '*' :: (body ++ '*' :: '/' :: s))

/-! ## Components -/

theorem afterComment_body {body : List Char} (h : ¬['*','/'] <:+: body) (t : List Char) :
    afterComment (body ++ '*' :: '/' :: t) = t := by
  induction body with
  | nil => rfl
  | cons c r ih =>
    have hr : ¬['*','/'] <:+: r := fun hr => h (hr.trans (List.suffix_cons c r).isInfix)
    rw [List.cons_append,afterComment,ih hr]
    rintro t rfl ht
    cases r with
    | nil => cases ht
    | cons b r =>
      cases ht
      exact h ⟨[],r,rfl⟩

theorem parse_comment {body : List Char} (h : ¬['*','/'] <:+: body) (t : List Char) :
    parse ('/' :: '*' :: (body ++ '*' :: '/' :: t)) =
      .plain .comment ('/' :: '*' :: (body ++ ['*','/'])) :: parse t := by
  have hnext : next '/' ('*' :: (body ++ '*' :: '/' :: t)) = (comment,t) := by
    have hident : startsIdent ('/' :: '*' :: (body ++ '*' :: '/' :: t)) = false := by
      simp [startsIdent,isNameStart]
    have hnumber : startsNumber ('/' :: '*' :: (body ++ '*' :: '/' :: t)) = false := rfl
    have hmarkup : ['-','-','>'].isPrefixOf ('/' :: '*' :: (body ++ '*' :: '/' :: t)) = false := rfl
    simp [next,hident,hnumber,hmarkup,punctuationToken,afterComment_body h,
      show isSpace '/' = false by decide]
  have hsource : consumed ('/' :: '*' :: (body ++ '*' :: '/' :: t)) t =
      '/' :: '*' :: (body ++ ['*','/']) := by
    have hsplit : '/' :: '*' :: (body ++ '*' :: '/' :: t) =
        '/' :: '*' :: (body ++ ['*','/']) ++ t := by simp
    rw [hsplit,consumed_of_append]
  rw [parse,lexemes_cons,hnext,hsource]
  exact ofLexemes_plain (by simp) (by simp) _ _

theorem parse_space {c : Char} (h : isSpace c = true) (r : List Char) : parse (c :: r) =
    .plain .space (c :: r.takeWhile isSpace) :: parse (r.dropWhile isSpace) := by
  have hnext : next c r = (space,r.dropWhile isSpace) := by rw [next,if_pos h]
  rw [parse,lexemes_cons,hnext,consumed_space]
  exact ofLexemes_plain (by simp) (by simp) _ _

/-- White space before a text is one component at most. -/
theorem parse_dropSpace (t : List Char) : ∃ fs : List Component, (∀ c ∈ fs, c.isSkipped = true) ∧
    textOf fs = t.takeWhile isSpace ∧ parse t = fs ++ parse (t.dropWhile isSpace) := by
  cases t with
  | nil => exact ⟨[],by simp,rfl,rfl⟩
  | cons c r =>
    by_cases hc : isSpace c = true
    · refine ⟨[.plain .space (c :: r.takeWhile isSpace)],by simp [Component.isSkipped,Token.isSkipped],?_,?_⟩
      · simp [textOf,text,hc]
      · rw [parse_space hc,List.dropWhile_cons_of_pos hc]
        rfl
    · exact ⟨[],by simp,by simp [textOf,hc],by rw [List.dropWhile_cons_of_neg hc]; rfl⟩

theorem IsFiller.dropSpace {f : List Char} (hf : IsFiller f) : IsFiller (f.dropWhile isSpace) := by
  induction hf with
  | nil => exact .nil
  | space h _ ih => rwa [List.dropWhile_cons_of_pos h]
  | comment h hs _ =>
    rw [List.dropWhile_cons_of_neg (by decide)]
    exact .comment h hs

/-- Filler and the white space after it are components that mean nothing. -/
theorem parse_filler {f : List Char} (hf : IsFiller f) (t : List Char) :
    ∃ fs : List Component, (∀ c ∈ fs, c.isSkipped = true) ∧
      textOf fs = f ++ t.takeWhile isSpace ∧ parse (f ++ t) = fs ++ parse (t.dropWhile isSpace) := by
  induction hn : f.length using Nat.strongRecOn generalizing f with
  | ind n ih =>
    subst hn
    cases hf with
    | nil => exact parse_dropSpace t
    | @space c s h hs =>
      by_cases hnil : s.dropWhile isSpace = []
      · have hspace := List.dropWhile_eq_nil_iff.1 hnil
        refine ⟨[.plain .space (c :: (s ++ t.takeWhile isSpace))],
          by simp [Component.isSkipped,Token.isSkipped],by simp [textOf,text],?_⟩
        rw [List.cons_append,parse_space h,List.takeWhile_append_of_pos hspace,
          List.dropWhile_append_of_pos hspace]
        rfl
      · have hlen : (s.dropWhile isSpace).length < (c :: s).length :=
          Nat.lt_succ_of_le (List.dropWhile_suffix _).length_le
        obtain ⟨fs,hskip,htext,hparse⟩ := ih _ hlen hs.dropSpace rfl
        refine ⟨.plain .space (c :: s.takeWhile isSpace) :: fs,
          List.forall_mem_cons.2 ⟨rfl,hskip⟩,?_,?_⟩
        · rw [textOf,htext,text,← List.append_assoc,List.cons_append,List.takeWhile_append_dropWhile]
        · have htake : (s ++ t).takeWhile isSpace = s.takeWhile isSpace := by
            have hboth : s.takeWhile isSpace ++ s.dropWhile isSpace = s :=
              List.takeWhile_append_dropWhile
            have hlen := congrArg List.length hboth
            have hpos := List.length_pos_iff.2 hnil
            rw [List.length_append] at hlen
            rw [List.takeWhile_append,if_neg (by omega)]
          rw [List.cons_append,parse_space h,List.dropWhile_append]
          simp [hnil,hparse,htake]
    | @comment body s h hs =>
      have hlen : s.length < ('/' :: '*' :: (body ++ '*' :: '/' :: s)).length := by
        simp only [List.length_cons,List.length_append]
        omega
      obtain ⟨fs,hskip,htext,hparse⟩ := ih _ hlen hs rfl
      refine ⟨.plain .comment ('/' :: '*' :: (body ++ ['*','/'])) :: fs,
        List.forall_mem_cons.2 ⟨rfl,hskip⟩,?_,?_⟩
      · rw [textOf,htext,text]
        simp
      · have hassoc : '/' :: '*' :: (body ++ '*' :: '/' :: s) ++ t =
            '/' :: '*' :: (body ++ '*' :: '/' :: (s ++ t)) := by simp
        rw [hassoc,parse_comment h,hparse]
        rfl

/-! ## Rules -/

theorem rulesFrom_skipped {fs : List Component} (h : ∀ c ∈ fs, c.isSkipped = true) (x : List Char)
    (cs : List Component) :
    rulesFrom (.fresh x) (fs ++ cs) = rulesFrom (.fresh (x ++ textOf fs)) cs := by
  induction fs generalizing x with
  | nil => rw [List.nil_append,textOf,List.append_nil]
  | cons c fs ih =>
    obtain ⟨hc,hfs⟩ := List.forall_mem_cons.1 h
    cases c with
    | block => cases hc
    | plain t source =>
      have hpush : (Head.fresh x).push (.plain t source) = .fresh (x ++ source) := by
        cases t <;> first | rfl | cases hc
      rw [List.cons_append,rulesFrom,hpush,ih hfs,textOf,text,List.append_assoc]

theorem rulesFrom_filler {f : List Char} (hf : IsFiller f) (x t : List Char) :
    rulesFrom (.fresh x) (parse (f ++ t)) = rulesFrom (.fresh (x ++ f)) (parse t) := by
  obtain ⟨fs,hskip,htext,hparse⟩ := parse_filler hf t
  obtain ⟨gs,hskip',htext',hparse'⟩ := parse_dropSpace t
  rw [hparse,hparse',rulesFrom_skipped hskip,rulesFrom_skipped hskip',htext,htext',List.append_assoc]

/-! ## Blanks at the ends -/

theorem isBlank_of_isSpace {c : Char} (h : isSpace c = true) : Text.isBlank c = true := by
  simp only [isSpace,isNewline,Bool.or_eq_true,decide_eq_true_eq] at h
  rcases h with (rfl | rfl) | (rfl | rfl) | rfl <;> decide

theorem IsFiller.append {f g : List Char} (hf : IsFiller f) (hg : IsFiller g) : IsFiller (f ++ g) := by
  induction hf with
  | nil => exact hg
  | space h _ ih => exact .space h ih
  | comment h _ ih =>
    rw [List.cons_append,List.cons_append,List.append_assoc]
    exact .comment h ih

theorem isFiller_of_isSpace {s : List Char} (h : ∀ c ∈ s, isSpace c = true) : IsFiller s := by
  induction s with
  | nil => exact .nil
  | cons c r ih =>
    obtain ⟨hc,hr⟩ := List.forall_mem_cons.1 h
    exact .space hc (ih hr)

theorem IsFiller.dropBlank {f : List Char} (hf : IsFiller f) : IsFiller (f.dropWhile Text.isBlank) := by
  induction hf with
  | nil => exact .nil
  | space h _ ih => rwa [List.dropWhile_cons_of_pos (isBlank_of_isSpace h)]
  | comment h hs _ =>
    rw [List.dropWhile_cons_of_neg (by decide)]
    exact .comment h hs

theorem rdropWhile_append {α : Type} (p : α → Bool) (s t : List α) : (s ++ t).rdropWhile p =
    if t.rdropWhile p = [] then s.rdropWhile p else s ++ t.rdropWhile p := by
  simp only [List.rdropWhile,List.reverse_append,List.dropWhile_append,List.reverse_eq_nil_iff,
    List.isEmpty_iff]
  split <;> simp

theorem IsFiller.rdropBlank {f : List Char} (hf : IsFiller f) :
    IsFiller (f.rdropWhile Text.isBlank) := by
  induction hf with
  | nil => exact .nil
  | @space c s h _ ih =>
    rw [← List.singleton_append,rdropWhile_append]
    split
    · rw [List.rdropWhile_singleton,if_pos (isBlank_of_isSpace h)]
      exact .nil
    · exact .space h ih
  | @comment body s h _ ih =>
    have hsplit : '/' :: '*' :: (body ++ '*' :: '/' :: s) =
        ('/' :: '*' :: (body ++ ['*']) ++ ['/']) ++ s := by simp
    rw [hsplit,rdropWhile_append]
    split
    · rw [List.rdropWhile_concat_neg _ _ _ (by decide)]
      simpa using IsFiller.comment h .nil
    · simpa using IsFiller.comment h ih

/-- What is first in a text, other than white space of a sheet, is no blank of another kind. -/
def BeginsPlainly (s : List Char) : Prop :=
  ∀ c r, s.dropWhile isSpace = c :: r → Text.isBlank c = false

/-- Trimming takes white space off a text, and off filler before it what is blank. -/
theorem trim_filler {f q : List Char} (hf : IsFiller f) (hq : BeginsPlainly q) :
    ∃ g, IsFiller g ∧ Text.trim (f ++ q) = g ++ Text.trim q := by
  have hblank : (q.dropWhile isSpace).dropWhile Text.isBlank = q.dropWhile isSpace := by
    cases h : q.dropWhile isSpace with
    | nil => rfl
    | cons c r => rw [List.dropWhile_cons_of_neg (by simp [hq c r h])]
  have hsplit : q = q.takeWhile isSpace ++ q.dropWhile isSpace :=
    List.takeWhile_append_dropWhile.symm
  have hspace : ∀ c ∈ q.takeWhile isSpace, isSpace c = true := fun _ hc => List.mem_takeWhile_imp hc
  generalize q.takeWhile isSpace = sp at hsplit hspace
  generalize q.dropWhile isSpace = r at hsplit hblank
  subst hsplit
  have hdrop : ∀ g : List Char, (g ++ r).dropWhile Text.isBlank = g.dropWhile Text.isBlank ++ r := by
    intro g
    rw [List.dropWhile_append,hblank]
    split
    · next h => rw [List.isEmpty_iff.1 h,List.nil_append]
    · rfl
  have htrim : ∀ g : List Char,
      Text.trim (g ++ r) = (g.dropWhile Text.isBlank ++ r).rdropWhile Text.isBlank := by
    intro g
    rw [Text.trim,hdrop]
    rfl
  have hsp : sp.dropWhile Text.isBlank = [] :=
    List.dropWhile_eq_nil_iff.2 fun c hc => isBlank_of_isSpace (hspace c hc)
  have hg := (hf.append (isFiller_of_isSpace hspace)).dropBlank
  rw [← List.append_assoc,htrim,htrim,hsp,List.nil_append,rdropWhile_append]
  split
  · next h => exact ⟨_,hg.rdropBlank,by rw [h,List.append_nil]⟩
  · exact ⟨_,hg,rfl⟩

/-- Blanks before a text are trimmed with those of the text. -/
theorem trim_blank {f : List Char} (hf : ∀ c ∈ f, isSpace c = true) (q : List Char) :
    Text.trim (f ++ q) = Text.trim q := by
  rw [Text.trim,List.dropWhile_append_of_pos fun c hc => isBlank_of_isSpace (hf c hc),Text.trim]

theorem not_blank_of_trim {s : List Char} {c : Char} {r : List Char} (h : Text.trim s = c :: r) :
    Text.isBlank c = false := by
  have hpart : Text.trim s <+: s.dropWhile Text.isBlank := List.rdropWhile_prefix _ _
  rw [h] at hpart
  obtain ⟨t,ht⟩ := hpart
  have hhead := List.head?_dropWhile_not Text.isBlank s
  rw [← ht] at hhead
  simpa using hhead

theorem trim_ne_nil {s : List Char} {c : Char} (hc : c ∈ s) (h : Text.isBlank c = false) :
    Text.trim s ≠ [] := by
  intro htrim
  have hall : ∀ d ∈ s.dropWhile Text.isBlank, Text.isBlank d = true :=
    List.rdropWhile_eq_nil_iff.1 htrim
  have hhead := List.head?_dropWhile_not Text.isBlank s
  cases hdrop : s.dropWhile Text.isBlank with
  | nil => simp [List.dropWhile_eq_nil_iff.1 hdrop c hc] at h
  | cons d r =>
    rw [hdrop] at hhead hall
    simp [hall d List.mem_cons_self] at hhead

/-! ## Targets -/

theorem exists_splitAt {α : Type} (p : α → Bool) (as : List α) :
    ∃ a rest, splitAt p as = a :: rest ∧ a <+: as := by
  induction as with
  | nil => exact ⟨[],[],rfl,List.nil_prefix⟩
  | cons a as ih =>
    obtain ⟨b,rest,hsplit,hpart⟩ := ih
    rw [splitAt,hsplit]
    split
    · exact ⟨[],_,rfl,List.nil_prefix⟩
    · exact ⟨_,_,rfl,(List.prefix_append_right_inj [a]).2 hpart⟩

theorem splitAt_append {α : Type} {p : α → Bool} {fs : List α} (h : ∀ a ∈ fs, p a = false)
    {as a : List α} {rest : List (List α)} (has : splitAt p as = a :: rest) :
    splitAt p (fs ++ as) = (fs ++ a) :: rest := by
  induction fs with
  | nil => exact has
  | cons b fs ih =>
    obtain ⟨hb,hfs⟩ := List.forall_mem_cons.1 h
    rw [List.cons_append,splitAt,ih hfs,hb]
    rfl

theorem allSkipped_append {fs : List Component} (h : ∀ c ∈ fs, c.isSkipped = true)
    (cs : List Component) : allSkipped (fs ++ cs) = allSkipped cs := by
  rw [allSkipped,List.all_append,List.all_eq_true.2 h]
  rfl

theorem parts_skipped {fs : List Component} (h : ∀ c ∈ fs, c.isSkipped = true)
    (cs : List Component) : Selector.parts (fs ++ cs) = [] ∧ Selector.parts cs = [] ∨
    ∃ part rest, Selector.parts (fs ++ cs) = (fs ++ part) :: rest ∧
      Selector.parts cs = part :: rest ∧ part <+: cs := by
  obtain ⟨part,rest,hsplit,hpart⟩ := exists_splitAt isComma cs
  have hcomma : ∀ c ∈ fs, c.isComma = false := by
    intro c hc
    have hskip := h c hc
    cases c with
    | block => rfl
    | plain t source => cases t <;> first | rfl | cases hskip
  have hboth := splitAt_append hcomma hsplit
  cases rest with
  | nil =>
    simp only [Selector.parts,hboth,hsplit,List.getLast?_singleton,Option.getD_some,
      allSkipped_append h]
    split
    · exact Or.inl ⟨rfl,rfl⟩
    · exact Or.inr ⟨part,[],rfl,rfl,hpart⟩
  | cons other rest =>
    simp only [Selector.parts,hboth,hsplit,List.getLast?_cons_cons]
    split
    · exact Or.inr ⟨part,(other :: rest).dropLast,rfl,rfl,hpart⟩
    · exact Or.inr ⟨part,other :: rest,rfl,rfl,hpart⟩

theorem readTarget_skipped {fs : List Component} (h : ∀ c ∈ fs, c.isSkipped = true) (types : Bool)
    (cs : List Component) : Selector.readTarget types (fs ++ cs) = Selector.readTarget types cs := by
  have hdrop : Selector.uncommented (fs ++ cs) = Selector.uncommented cs := by
    rw [Selector.uncommented,List.filter_append]
    exact List.dropWhile_append_of_pos fun c hc => h c (List.mem_of_mem_filter hc)
  rw [Selector.readTarget,hdrop,← Selector.readTarget]

/-- A selector that begins with a visible character is no blank one, with filler before it or not. -/
theorem ofComponents_text_ne {cs : List Component} {c : Char} (hc : c ∈ textOf cs)
    (h : Text.isBlank c = false) (types : Bool) :
    (Selector.ofComponents types cs).text.isEmpty = false := by
  rw [Bool.eq_false_iff]
  intro hempty
  rw [String.isEmpty_iff] at hempty
  exact trim_ne_nil hc h (by simpa [Selector.ofComponents] using hempty)

/-- Filler before a list of selectors changes no target. -/
theorem targets_filler {g t : List Char} (hg : IsFiller g)
    (ht : ∀ c r, t = c :: r → Text.isBlank c = false) (types : Bool) :
    (Selector.all types (String.ofList (g ++ t))).filterMap (·.target) =
      (Selector.all types (String.ofList t)).filterMap (·.target) := by
  have hdrop : t.dropWhile isSpace = t := by
    cases t with
    | nil => rfl
    | cons c r =>
      refine List.dropWhile_cons_of_neg fun hs => ?_
      have hb := ht c r rfl
      rw [isBlank_of_isSpace hs] at hb
      cases hb
  obtain ⟨fs,hskip,-,hparse⟩ := parse_filler hg t
  rw [hdrop] at hparse
  have hof : ∀ s : List Char, Component.ofText (String.ofList s) = parse s := by
    intro s
    rw [Component.ofText,String.toList_ofList]
  rw [Selector.all,Selector.all,hof,hof,hparse]
  rcases parts_skipped hskip (parse t) with ⟨hboth,hself⟩ | ⟨part,rest,hboth,hself,hpart⟩
  · rw [hboth,hself]
  · have htarget : (Selector.ofComponents types (fs ++ part)).target =
        (Selector.ofComponents types part).target := readTarget_skipped hskip types part
    rw [hboth,hself]
    simp only [List.map_cons,List.filter_cons]
    cases part with
    | nil =>
      have hnone : (Selector.ofComponents types []).target = none := rfl
      have hnone' := htarget.trans hnone
      rw [List.append_nil] at hnone' ⊢
      split <;> split <;> simp [hnone,hnone']
    | cons c more =>
      have hmem : c ∈ parse t := hpart.subset List.mem_cons_self
      obtain ⟨d,r,hd⟩ := List.exists_cons_of_ne_nil (text_ne_nil_of_mem_parse hmem)
      obtain ⟨after,hafter⟩ := hpart
      have htext : t = d :: (r ++ textOf (more ++ after)) := by
        rw [← textOf_parse t,← hafter,List.cons_append,textOf,hd]
        rfl
      have hvisible := ht d _ htext
      have hin : d ∈ textOf (c :: more) := by simp [textOf,hd]
      have hin' : d ∈ textOf (fs ++ c :: more) := by
        rw [textOf_append]
        exact List.mem_append_right _ hin
      rw [ofComponents_text_ne hin hvisible,ofComponents_text_ne hin' hvisible]
      simp only [Bool.not_false,if_true,List.filterMap_cons,htarget]

end StyleExpansion.Sheet
