import Mathlib
import StyleExpansion.Error
import StyleExpansion.Proofs.Sheet.SingleRule
import StyleExpansion.Proofs.Value.Importance

/-! # Importance in declarations and in values

Importance is read twice. A declaration reads it off the components of its value and keeps the text before
it, and a value reads it off its last two nodes. Both see the same: components are marked if they end with
an exclamation mark and the word, with only white space and comments between and after them, and then
these are the last two nodes. What is kept is read as the other nodes if its text has by itself the tokens
that it has in place. It has not if it ends with a block, of which only the opening is kept, or if
something is open where it is cut or trimmed.
-/
namespace StyleExpansion
open Token Component

/-! ## Marked components -/

def Marked (cs body : List Component) : Prop :=
  ∃ bang between name word after,
    cs = body ++ .plain (.delim '!') bang :: (between ++ .plain (.ident name) word :: after) ∧
      Text.sameName name "important" = true ∧ allSkipped between = true ∧ allSkipped after = true

def Banged (cs body : List Component) : Prop :=
  ∃ bang between, cs = body ++ .plain (.delim '!') bang :: between ∧ allSkipped between = true

theorem Marked.append_skipped {cs body : List Component} (h : Marked cs body) {c : Component}
    (hc : c.isSkipped = true) : Marked (cs ++ [c]) body := by
  obtain ⟨bang,between,name,word,after,rfl,hname,hbetween,hafter⟩ := h
  exact ⟨bang,between,name,word,after ++ [c],by simp,hname,hbetween,
    by simpa [allSkipped,hc] using hafter⟩

theorem Banged.append_skipped {cs body : List Component} (h : Banged cs body) {c : Component}
    (hc : c.isSkipped = true) : Banged (cs ++ [c]) body := by
  obtain ⟨bang,between,rfl,hbetween⟩ := h
  exact ⟨bang,between ++ [c],by simp,by simpa [allSkipped,hc] using hbetween⟩

theorem Banged.marked {cs body : List Component} (h : Banged cs body) {c : Component}
    (hc : ValueScan.isImportance c = true) : Marked (cs ++ [c]) body := by
  obtain ⟨bang,between,rfl,hbetween⟩ := h
  obtain ⟨name,word,rfl,hname⟩ : ∃ name word, c = .plain (.ident name) word ∧
      Text.sameName name "important" = true := by
    unfold ValueScan.isImportance at hc
    split at hc
    · next name word => exact ⟨name,word,rfl,hc⟩
    · cases hc
  exact ⟨bang,between,name,word,[],by simp,hname,hbetween,rfl⟩

namespace ValueScan

theorem foldl_step_text (cs : List Component) (s : ValueScan) :
    (cs.foldl step s).text = s.text ++ textOf cs := by
  induction cs generalizing s with
  | nil => simp [textOf]
  | cons c cs ih =>
    have hstep : (s.step c).text = s.text ++ c.text := by
      unfold step
      simp only
      repeat' split
      all_goals rfl
    rw [List.foldl_cons,ih,hstep,textOf,List.append_assoc]

theorem foldl_step_skipped {cs : List Component} (h : allSkipped cs = true) (s : ValueScan) :
    cs.foldl step s = {s with text := s.text ++ textOf cs} := by
  induction cs generalizing s with
  | nil => simp [textOf]
  | cons c cs ih =>
    obtain ⟨hc,hcs⟩ := List.forall_mem_cons.1 (List.all_eq_true.1 h)
    have hstep : s.step c = {s with text := s.text ++ c.text} := by simp [step,hc]
    rw [List.foldl_cons,hstep,ih (List.all_eq_true.2 hcs),textOf,List.append_assoc]

/-- The text up to the end of what was read last, of a block only the opening. -/
theorem foldl_step_reach (cs : List Component) {c : Component} (hc : c.isSkipped = false)
    (s : ValueScan) : ((cs ++ [c]).foldl step s).reach = s.text ++ textOf cs ++ c.headText := by
  rw [List.foldl_append,← foldl_step_text]
  generalize cs.foldl step s = t
  simp only [List.foldl_cons,List.foldl_nil,step,hc]
  repeat' split
  all_goals first | rfl | contradiction

/-- The reading of marked components sees the mark, and keeps what was reached before it. -/
theorem important_of_marked {cs body : List Component} (h : Marked cs body) :
    (cs.foldl step start).important = true ∧
      (cs.foldl step start).value = (body.foldl step start).reach := by
  obtain ⟨bang,between,name,word,after,rfl,hname,hbetween,hafter⟩ := h
  have hbang : ∀ s : ValueScan, s.step (.plain (.delim '!') bang) =
      ⟨s.text ++ bang,s.text ++ bang,some s.reach,false⟩ := fun _ => rfl
  have hword : ∀ text reach before,
      (⟨text,reach,some before,false⟩ : ValueScan).step (.plain (.ident name) word) =
        ⟨text ++ word,text ++ word,some before,true⟩ := by
    intro text reach before
    simp [step,Component.isSkipped,Token.isSkipped,isToken,isImportance,hname,Component.text,headText]
  rw [List.foldl_append,List.foldl_cons,hbang,List.foldl_append,foldl_step_skipped hbetween,
    List.foldl_cons,hword,foldl_step_skipped hafter]
  exact ⟨rfl,rfl⟩

theorem marked_of_important (cs : List Component) :
    ((cs.foldl step start).important = true → ∃ body, Marked cs body) ∧
    ((cs.foldl step start).important = false → (cs.foldl step start).mark.isSome = true →
      ∃ body, Banged cs body) := by
  induction cs using List.reverseRecOn with
  | nil => exact ⟨(absurd · Bool.false_ne_true),fun _ => (absurd · Bool.false_ne_true)⟩
  | append_singleton cs c ih =>
    rw [List.foldl_append,List.foldl_cons,List.foldl_nil]
    generalize cs.foldl step start = s at ih ⊢
    obtain ⟨hmarked,hbanged⟩ := ih
    by_cases hskip : c.isSkipped = true
    · have hstep : s.step c = {s with text := s.text ++ c.text} := by simp [step,hskip]
      rw [hstep]
      exact ⟨fun h => (hmarked h).imp fun _ hb => hb.append_skipped hskip,
        fun h hm => (hbanged h hm).imp fun _ hb => hb.append_skipped hskip⟩
    by_cases hbang : c.isToken (.delim '!') = true
    · have hstep : s.step c = ⟨s.text ++ c.text,s.text ++ c.headText,some s.reach,false⟩ := by
        simp [step,hskip,hbang]
      rw [hstep]
      refine ⟨(absurd · Bool.false_ne_true),fun _ _ => ⟨cs,?_⟩⟩
      cases c with
      | block => cases hbang
      | plain t source =>
        have ht : t = .delim '!' := by simpa [isToken] using hbang
        exact ⟨source,[],by rw [ht],rfl⟩
    by_cases hword : (s.mark.isSome && !s.important && isImportance c) = true
    · have hstep : s.step c = ⟨s.text ++ c.text,s.text ++ c.headText,s.mark,true⟩ := by
        simp only [step,hskip,hbang,hword]
        rfl
      simp only [Bool.and_eq_true,Bool.not_eq_true'] at hword
      rw [hstep]
      exact ⟨fun _ => (hbanged hword.1.2 hword.1.1).imp fun _ hb => hb.marked hword.2,
        (absurd · Bool.false_ne_true.symm)⟩
    · have hstep : s.step c = ⟨s.text ++ c.text,s.text ++ c.headText,none,false⟩ := by
        simp only [step,hskip,hbang,hword]
        rfl
      rw [hstep]
      exact ⟨(absurd · Bool.false_ne_true),fun _ => (absurd · Bool.false_ne_true)⟩

theorem important_iff {cs : List Component} :
    (cs.foldl step start).important = true ↔ ∃ body, Marked cs body :=
  ⟨(marked_of_important cs).1,fun ⟨_,h⟩ => (important_of_marked h).1⟩

theorem value_of_not_important {s : ValueScan} (h : s.important = false) : s.value = s.text := by
  unfold value
  split <;> simp [h]

end ValueScan

namespace Value

/-- Of components that are marked, the last two nodes are the mark. -/
theorem dropImportance?_of_marked {cs body : List Component} {vs : List Value} (h : Marked cs body)
    (hvs : readComponents cs = .ok vs) :
    ∃ us, readComponents body = .ok us ∧ dropImportance? vs = some us := by
  obtain ⟨bang,between,name,word,after,rfl,hname,hbetween,hafter⟩ := h
  obtain ⟨us,ws,hus,hws,rfl⟩ := readComponents_append_eq_ok.1 hvs
  refine ⟨us,hus,?_⟩
  have htail : readComponents (.plain (.delim '!') bang :: (between ++ .plain (.ident name) word :: after)) =
      .ok [operator "!",ident name] :=
    readComponents_cons_eq_ok.2 ⟨some (operator "!"),[ident name],rfl,
      readComponents_append_eq_ok.2 ⟨[],[ident name],readComponents_of_allSkipped hbetween,
        readComponents_cons_eq_ok.2 ⟨some (ident name),[],rfl,readComponents_of_allSkipped hafter,rfl⟩,rfl⟩,
      rfl⟩
  rw [hws] at htail
  cases htail
  exact dropImportance?_append us rfl hname

/-- If the last two nodes are the mark, the components are marked. -/
theorem marked_of_dropImportance? {cs : List Component} {vs us : List Value}
    (hvs : readComponents cs = .ok vs) (h : dropImportance? vs = some us) : ∃ body, Marked cs body := by
  obtain ⟨mark,word,rfl,hmark,hword⟩ := dropImportance?_eq_some h
  rw [show us ++ [mark,word] = us ++ [mark] ++ [word] by simp] at hvs
  obtain ⟨front,c,after,rfl,hfront,hc,hafter⟩ := exists_last_of_readComponents hvs
  obtain ⟨body,b,between,rfl,_,hb,hbetween⟩ := exists_last_of_readComponents hfront
  obtain ⟨bang,rfl⟩ := eq_bang_of_readComponent hb hmark
  obtain ⟨name,source,rfl,hname⟩ := eq_word_of_readComponent hc hword
  exact ⟨body,bang,between,name,source,after,by simp,hname,hbetween,hafter⟩

end Value

/-! ## What is kept -/

theorem exists_last_meaningful (cs : List Component) : ∃ kept skipped, cs = kept ++ skipped ∧
    allSkipped skipped = true ∧ ∀ c ∈ kept.getLast?, c.isSkipped = false := by
  induction cs using List.reverseRecOn with
  | nil => exact ⟨[],[],rfl,rfl,nofun⟩
  | append_singleton cs c ih =>
    cases hc : c.isSkipped with
    | true =>
      obtain ⟨kept,skipped,rfl,hskipped,hkept⟩ := ih
      exact ⟨kept,skipped ++ [c],by simp,by simpa [allSkipped,hc] using hskipped,hkept⟩
    | false => exact ⟨cs ++ [c],[],by simp,rfl,by simp [hc]⟩

namespace Declaration

/-- What a declaration keeps of the components of its value: those up to the last before the mark that
means something, or all if they are not marked. -/
inductive Keeps (cs : List Component) : Bool → List Component → Prop
  | upTo {kept skipped : List Component} (h : Marked cs (kept ++ skipped))
    (hskipped : allSkipped skipped = true) (hlast : ∀ c ∈ kept.getLast?, c.isSkipped = false) :
    Keeps cs true kept
  | all (h : ∀ body, ¬Marked cs body) : Keeps cs false cs

/-- The text that is kept. Before a mark, a block at the end is kept up to its opening. -/
def keptText (important : Bool) (kept : List Component) : List Char :=
  if important then textOf kept.dropLast ++ (kept.getLast?.map headText).getD [] else textOf kept

theorem reach_eq_keptText {kept skipped : List Component} (hskipped : allSkipped skipped = true)
    (hlast : ∀ c ∈ kept.getLast?, c.isSkipped = false) :
    ((kept ++ skipped).foldl ValueScan.step .start).reach = keptText true kept := by
  rw [List.foldl_append,ValueScan.foldl_step_skipped hskipped]
  rcases List.eq_nil_or_concat kept with rfl | ⟨front,c,rfl⟩
  · rfl
  · rw [List.concat_eq_append] at hlast ⊢
    have hreach := ValueScan.foldl_step_reach front (hlast c (by simp)) .start
    simpa [keptText,ValueScan.start] using hreach

theorem exists_keeps (cs : List Component) : ∃ important kept, Keeps cs important kept := by
  by_cases h : ∃ body, Marked cs body
  · obtain ⟨body,hbody⟩ := h
    obtain ⟨kept,skipped,rfl,hskipped,hlast⟩ := exists_last_meaningful body
    exact ⟨true,kept,.upTo hbody hskipped hlast⟩
  · exact ⟨false,cs,.all fun body hbody => h ⟨body,hbody⟩⟩

/-- The reading of the components finds what is kept, and trims its text. -/
theorem Keeps.ofValue {cs kept : List Component} {important : Bool} (h : Keeps cs important kept)
    (name : String) :
    Declaration.ofValue name cs = ⟨name,String.ofList (Text.trim (keptText important kept)),important⟩ := by
  cases h with
  | upTo h hskipped hlast =>
    obtain ⟨himportant,hvalue⟩ := ValueScan.important_of_marked h
    rw [Declaration.ofValue,himportant,hvalue,reach_eq_keptText hskipped hlast]
  | all h =>
    have himportant : (cs.foldl ValueScan.step .start).important = false := by
      rw [Bool.eq_false_iff]
      intro hi
      obtain ⟨body,hbody⟩ := ValueScan.important_iff.1 hi
      exact h body hbody
    rw [Declaration.ofValue,himportant,ValueScan.value_of_not_important himportant,
      ValueScan.foldl_step_text]
    rfl

/-- What is kept is read as the nodes without the mark. -/
theorem Keeps.readComponents {cs kept : List Component} {important : Bool} {vs : List Value}
    (h : Keeps cs important kept) (hvs : Value.readComponents cs = .ok vs) :
    important = (Value.dropImportance? vs).isSome ∧
      Value.readComponents kept = .ok ((Value.dropImportance? vs).getD vs) := by
  cases h with
  | upTo h hskipped hlast =>
    obtain ⟨us,hus,hdrop⟩ := Value.dropImportance?_of_marked h hvs
    obtain ⟨ws,rest,hws,hrest,rfl⟩ := Value.readComponents_append_eq_ok.1 hus
    rw [Value.readComponents_of_allSkipped hskipped] at hrest
    cases hrest
    rw [hdrop,List.append_nil]
    exact ⟨rfl,hws⟩
  | all h =>
    cases hdrop : Value.dropImportance? vs with
    | none => exact ⟨rfl,hvs⟩
    | some us =>
      obtain ⟨body,hbody⟩ := Value.marked_of_dropImportance? hvs hdrop
      exact absurd hbody (h body)

end Declaration

/-! ## The text of what is kept -/

/-- White space is spaces, and a comment begins with a slash. -/
theorem text_of_isSkipped {s : List Char} {c : Component} (hc : c ∈ parse s) (h : c.isSkipped = true) :
    (∀ d ∈ c.text, isSpace d = true) ∨ ∃ t, c.text = '/' :: t := by
  cases c with
  | block => cases h
  | plain t source =>
    rcases lexemes_skipped s _ (mem_lexemes_of_mem_parse hc) h with ⟨-,hs⟩ | ⟨-,hs⟩
    · exact Or.inl hs
    · exact Or.inr hs

theorem follows_skipped_append {s : List Char} {cs : List Component} (hcs : cs ⊆ parse s)
    (h : allSkipped cs = true) {u : List Char} (hu : Follows u) : Follows (textOf cs ++ u) := by
  induction cs with
  | nil => exact hu
  | cons c cs ih =>
    obtain ⟨hc,hrest⟩ := List.forall_mem_cons.1 (List.all_eq_true.1 h)
    have hmore := ih (List.subset_of_cons_subset hcs) (List.all_eq_true.2 hrest)
    rw [textOf,List.append_assoc]
    rcases text_of_isSkipped (hcs List.mem_cons_self) hc with hs | ⟨t,ht⟩
    · exact .space_append hs hmore
    · rw [ht]
      exact .border isBorder_slash fun he => absurd he (by decide)

theorem eq_of_bang_mem_parse {s source : List Char} (h : .plain (.delim '!') source ∈ parse s) :
    source = ['!'] := by
  obtain ⟨c,t,rest,hsource,hnext⟩ := exists_next_of_mem_lexemes (mem_lexemes_of_mem_parse h)
  obtain ⟨hrest,rfl⟩ := next_delim (c := c) (r := t ++ rest) (congrArg Prod.fst hnext)
  have ht : t = [] := by
    rw [hnext] at hrest
    exact List.append_left_eq_self.1 hrest.symm
  exact hsource.trans (by rw [ht])

/-- The word of importance does not begin with a hyphen. -/
theorem word_ne_hyphen {s source : List Char} {name : String}
    (h : .plain (.ident name) source ∈ parse s) (hname : Text.sameName name "important" = true) :
    ∃ c t, source = c :: t ∧ c ≠ '-' := by
  obtain ⟨c,t,rest,hsource,hnext⟩ := exists_next_of_mem_lexemes (mem_lexemes_of_mem_parse h)
  refine ⟨c,t,hsource,?_⟩
  rintro rfl
  obtain ⟨n,hn⟩ := next_ident_hyphen (congrArg Prod.fst hnext)
  have hbytes : Text.lowerBytes name = Text.lowerBytes "important" := beq_iff_eq.1 hname
  have hfirst : (Text.lowerBytes "important").head? = some 105 := by decide +kernel
  have hhyphen : (Text.lowerBytes name).head? = some 45 := by
    rw [hn,Text.lowerBytes,Text.bytes_eq_flatMap,String.toList_ofList,List.flatMap_cons]
    rfl
  rw [hbytes,hfirst] at hhyphen
  exact absurd hhyphen (by decide)

/-- White space, comments and then the mark may follow a token. -/
theorem follows_of_marked {s : List Char} {kept skipped : List Component}
    (h : Marked (parse s) (kept ++ skipped)) (hskipped : allSkipped skipped = true) :
    ∃ ds, parse s = kept ++ ds ∧ ds ≠ [] ∧ Follows (textOf ds) := by
  obtain ⟨bang,between,name,word,after,hparse,hname,hbetween,-⟩ := h
  have hmem : ∀ c ∈ skipped ++ .plain (.delim '!') bang :: (between ++ .plain (.ident name) word :: after),
      c ∈ parse s := by
    intro c hc
    rw [hparse,List.append_assoc]
    exact List.mem_append_right kept hc
  refine ⟨skipped ++ .plain (.delim '!') bang :: (between ++ .plain (.ident name) word :: after),
    by rw [hparse,List.append_assoc],by simp,?_⟩
  rw [textOf_append]
  refine follows_skipped_append (fun c hc => hmem c (List.mem_append_left _ hc)) hskipped ?_
  have hbang : bang = ['!'] := eq_of_bang_mem_parse (hmem _ (by simp))
  rw [textOf,Component.text,hbang]
  refine .border isBorder_exclamation fun _ r hr => ?_
  cases between with
  | nil =>
    obtain ⟨c,t,rfl,hc⟩ := word_ne_hyphen (hmem (.plain (.ident name) word) (by simp)) hname
    exact hc (List.cons.inj hr).1
  | cons b between =>
    have hb := hmem b (by simp)
    obtain ⟨d,t,hd⟩ := List.exists_cons_of_ne_nil (text_ne_nil_of_mem_parse hb)
    have hhead : d = '-' := by
      rw [List.cons_append,textOf,hd] at hr
      exact (List.cons.inj hr).1
    subst hhead
    rcases text_of_isSkipped hb (List.all_eq_true.1 hbetween b List.mem_cons_self) with hs | ⟨u,hu⟩
    · exact absurd (hs '-' (by simp [hd])) (by decide)
    · rw [hd] at hu
      cases hu

/-- What is kept has the components that it has in place, if nothing is open at its end. -/
theorem Declaration.Keeps.parse_textOf {s : List Char} {kept : List Component} {important : Bool}
    (h : Keeps (parse s) important kept) (hsealed : important = true → Sealed (textOf kept)) :
    parse (textOf kept) = kept := by
  cases h with
  | upTo h hskipped =>
    obtain ⟨ds,hparse,hds,hfollows⟩ := follows_of_marked h hskipped
    exact Component.parse_textOf hparse hds (hsealed rfl) hfollows
  | all => rw [textOf_parse]

/-- A text that is what is kept, up to white space around it, is read as the nodes of what is kept, if
nothing is open where it is cut. -/
theorem Declaration.Keeps.parse_value {w value : String} {kept : List Component} {important : Bool}
    {us : List Value} (h : Keeps (ofText w) important kept)
    (hus : Value.readComponents kept = .ok us) {before after : List Char}
    (hbefore : ∀ c ∈ before, isSpace c = true) (hafter : ∀ c ∈ after, isSpace c = true)
    (htext : textOf kept = before ++ value.toList ++ after)
    (hopen : Sealed value.toList ∨ important = false ∧ after = []) :
    ∃ m, Value.parse value = .ok m ∧ m.flatten = us := by
  have hsealed : important = true → Sealed (textOf kept) := by
    rintro rfl
    have hvalue : Sealed value.toList := hopen.resolve_right nofun
    rw [htext]
    exact (hvalue.space_append hbefore).append_space hafter
  have htokens : meaningfulTokens (String.ofList (textOf kept)).toList =
      meaningfulTokens value.toList := by
    rw [String.toList_ofList,htext,List.append_assoc,meaningfulTokens_space_append hbefore]
    rcases hopen with hvalue | ⟨-,rfl⟩
    · exact hvalue.meaningfulTokens_append_space hafter
    · rw [List.append_nil]
  have hread : Value.read (String.ofList (textOf kept)) = .ok (.list us) := by
    rw [Value.read,ofText,String.toList_ofList,h.parse_textOf hsealed,hus]
    rfl
  have hsame := Value.read_congr htokens
  rw [hread] at hsame
  cases hvalue : Value.read value with
  | error m =>
    rw [hvalue] at hsame
    cases hsame
  | ok m =>
    rw [hvalue] at hsame
    cases hsame
    exact ⟨_,by rw [Value.parse,hvalue]; rfl,(Value.areNodes_of_readComponents hus).flatten_list⟩

/-! ## Declarations -/

namespace Declaration

/-- The text before the colon of a declaration: a name, with white space and comments around it. -/
def IsNamePart (s : List Char) (name : String) : Prop :=
  ∃ before source after, parse (s ++ [':']) =
      before ++ .plain (.ident name) source :: (after ++ [.plain .colon [':']]) ∧
    allSkipped before = true ∧ allSkipped after = true

theorem IsNamePart.parse_append {s : List Char} {name : String} (h : IsNamePart s name)
    (t : List Char) : ∃ before source after, parse (s ++ ':' :: t) =
      before ++ .plain (.ident name) source :: (after ++ .plain .colon [':'] :: parse t) ∧
        allSkipped before = true ∧ allSkipped after = true := by
  obtain ⟨before,source,after,hparse,hbefore,hafter⟩ := h
  have hlast : parse (s ++ [':']) =
      (before ++ .plain (.ident name) source :: after) ++ [.plain .colon [':']] := by
    rw [hparse]
    simp
  obtain ⟨hcomplete,ys,hys⟩ := eq_concat_of_plain (by simp) hlast
  have happend := parse_append_of_last (by decide) hys rfl hcomplete t
  refine ⟨before,source,after,?_,hbefore,hafter⟩
  rw [List.append_assoc,List.singleton_append] at happend
  rw [happend,hparse]
  simp

theorem not_semicolon_of_allSkipped {cs : List Component} (h : allSkipped cs = true) :
    ∀ c ∈ cs, c.isSemicolon = false := by
  intro c hc
  have hskipped := List.all_eq_true.1 h c hc
  cases c with
  | block => rfl
  | plain t source => cases t <;> first | rfl | cases hskipped

/-- White space and comments around the name are passed over. -/
theorem ofComponents?_named {before after : List Component} (hbefore : allSkipped before = true)
    (hafter : allSkipped after = true) (name : String) (source colon : List Char)
    (value : List Component) :
    ofComponents? (before ++ .plain (.ident name) source :: (after ++ .plain .colon colon :: value)) =
      some (ofValue name value) := by
  have hname : (before ++ .plain (.ident name) source :: (after ++ .plain .colon colon :: value)).dropWhile
      Component.isSkipped = .plain (.ident name) source :: (after ++ .plain .colon colon :: value) := by
    rw [List.dropWhile_append_of_pos (List.all_eq_true.1 hbefore)]
    rfl
  have hcolon : (after ++ .plain .colon colon :: value).dropWhile Component.isSkipped =
      .plain .colon colon :: value := by
    rw [List.dropWhile_append_of_pos (List.all_eq_true.1 hafter)]
    rfl
  rw [ofComponents?,hname]
  simp only [hcolon]

/-- A text without semicolons is the value of the declaration that it makes with a name. -/
theorem all_of_isNamePart {s t : List Char} {name : String} (hs : IsNamePart s name)
    (ht : ∀ c ∈ parse t, c.isSemicolon = false) :
    all (parse (s ++ ':' :: t)) = [ofValue name (parse t)] := by
  obtain ⟨before,source,after,hparse,hbefore,hafter⟩ := hs.parse_append t
  have hfree : ∀ c ∈ parse (s ++ ':' :: t), c.isSemicolon = false := by
    rw [hparse]
    refine List.forall_mem_append.2 ⟨not_semicolon_of_allSkipped hbefore,?_⟩
    refine List.forall_mem_cons.2 ⟨rfl,List.forall_mem_append.2 ⟨?_,List.forall_mem_cons.2 ⟨rfl,ht⟩⟩⟩
    exact not_semicolon_of_allSkipped hafter
  have hread : ofComponents? (parse (s ++ ':' :: t)) = some (ofValue name (parse t)) := by
    rw [hparse]
    exact ofComponents?_named hbefore hafter name source [':'] (parse t)
  rw [all,splitAt_of_free hfree,List.filterMap_cons_some hread]
  rfl

/-- A declaration with a value that can be read is important if and only if the value is, and keeps what
is read as the value without its importance. Its own value is the trimmed text of that, of a block at
the end only the opening. It is read as the same nodes if this takes no more than white space off the
ends of the text that is kept, and nothing is then open at its end. -/
theorem all_of_parse {s : List Char} {name w : String} {n : Value} (hs : IsNamePart s name)
    (hn : Value.parse w = .ok n) : ∃ d, all (parse (s ++ ':' :: w.toList)) = [d] ∧ d.name = name ∧
      d.important = (Value.dropImportance? n.flatten).isSome ∧
      (∃ kept, Keeps (ofText w) d.important kept) ∧
      ∀ kept, Keeps (ofText w) d.important kept →
        Value.readComponents kept = .ok n.withoutImportance.flatten ∧
        d.value = String.ofList (Text.trim (keptText d.important kept)) ∧
        ∀ before after : List Char, (∀ c ∈ before, isSpace c = true) →
          (∀ c ∈ after, isSpace c = true) → textOf kept = before ++ d.value.toList ++ after →
          (Sealed d.value.toList ∨ d.important = false ∧ after = []) →
          ∃ m, Value.parse d.value = .ok m ∧ m.flatten = n.withoutImportance.flatten := by
  obtain ⟨vs,hvs,rfl⟩ := Value.map_eq_ok.1 (Value.mapError_eq_ok.1 hn)
  have hflatten : (Value.list vs).flatten = vs := (Value.areNodes_of_readComponents hvs).flatten_list
  obtain ⟨important,found,hfound⟩ := exists_keeps (ofText w)
  have hdeclaration := all_of_isNamePart hs (Value.isToken_of_readComponents hvs rfl rfl)
  rw [← ofText,hfound.ofValue name] at hdeclaration
  refine ⟨_,hdeclaration,rfl,?_,⟨found,hfound⟩,?_⟩
  · rw [hflatten]
    exact (hfound.readComponents hvs).1
  intro kept hkeeps
  have hkept := (hkeeps.readComponents hvs).2
  have hvalue := hkeeps.ofValue name
  rw [hfound.ofValue name,Declaration.mk.injEq] at hvalue
  rw [Value.flatten_withoutImportance,hflatten]
  refine ⟨hkept,hvalue.2.1,?_⟩
  intro before after hbefore hafter htext hopen
  exact hkeeps.parse_value hkept hbefore hafter htext hopen

/-- Two words, with white space and a comment before the mark. -/
theorem all_of_parse_display : ∃ n, IsNamePart "display ".toList "display" ∧
    Value.parse " inline flow/**/ ! Important " = .ok n ∧
    all (parse ("display ".toList ++ ':' :: " inline flow/**/ ! Important ".toList)) =
      [⟨"display","inline flow",true⟩] ∧
    ∃ m, Value.parse "inline flow" = .ok m ∧ m.flatten = n.withoutImportance.flatten := by
  have hname : IsNamePart "display ".toList "display" :=
    ⟨[],"display".toList,[.plain .space [' ']],by cbv,rfl,rfl⟩
  have hcomponents : ofText " inline flow/**/ ! Important " =
      [.plain .space [' '],.plain (.ident "inline") "inline".toList,.plain .space [' '],
       .plain (.ident "flow") "flow".toList,.plain .comment "/**/".toList,.plain .space [' '],
       .plain (.delim '!') ['!'],.plain .space [' '],.plain (.ident "Important") "Important".toList,
       .plain .space [' ']] := by cbv
  have hparse : Value.parse " inline flow/**/ ! Important " =
      .ok (.list [.ident "inline",.ident "flow",.operator "!",.ident "Important"]) := by
    rw [Value.parse,Value.read,hcomponents]
    rfl
  have hall : all (parse ("display ".toList ++ ':' :: " inline flow/**/ ! Important ".toList)) =
      [⟨"display","inline flow",true⟩] := by cbv
  have hkeeps : Keeps (ofText " inline flow/**/ ! Important ") true
      [.plain .space [' '],.plain (.ident "inline") "inline".toList,.plain .space [' '],
       .plain (.ident "flow") "flow".toList] := by
    have hmarked : Marked (ofText " inline flow/**/ ! Important ")
        ([.plain .space [' '],.plain (.ident "inline") "inline".toList,.plain .space [' '],
          .plain (.ident "flow") "flow".toList] ++ [.plain .comment "/**/".toList,.plain .space [' ']]) :=
      ⟨['!'],[.plain .space [' ']],"Important","Important".toList,[.plain .space [' ']],hcomponents,
        by decide +kernel,rfl,rfl⟩
    refine .upTo hmarked rfl ?_
    rintro c ⟨⟩
    rfl
  have hlexemes : lexemes ("inline flow".toList ++ [';']) =
      [⟨.ident "inline","inline".toList⟩,⟨.space,[' ']⟩,⟨.ident "flow","flow".toList⟩] ++
        [⟨.semicolon,[';']⟩] := by cbv
  obtain ⟨d,hd,-,-,-,hkept⟩ := all_of_parse hname hparse
  rw [hall] at hd
  obtain rfl : ⟨"display","inline flow",true⟩ = d := (List.cons.inj hd).1
  refine ⟨_,hname,hparse,hall,?_⟩
  exact (hkept _ hkeeps).2.2 [' '] [] (by simp [isSpace]) (by simp) rfl
    (Or.inl (sealed_of_last (isBreak_of_mark (by decide)) hlexemes rfl))

/-- Of a block before the mark only the opening is kept. -/
example : all (parse "color:rgb(1,2,3)!important".toList) = [⟨"color","rgb(",true⟩] := by cbv

end Declaration

end StyleExpansion
