import Mathlib
import StyleExpansion.Expander
import StyleExpansion.Proofs.Component.Append
import StyleExpansion.Proofs.Expander.Settings
import StyleExpansion.Proofs.Record.Table
import StyleExpansion.Proofs.Value.Reader

/-! # Sheets of one declaration

A sheet of one class with one declaration is read by way of its components: the prelude is the class, the
block is the name, a colon and the components of the value by itself. So the sheet gives the settings of
the property with the trimmed text of the value.
-/
namespace StyleExpansion
open Token Component

/-! ## The components -/

theorem next_point {n u : List Char} (h : IsWord n) : next '.' (n ++ u) = (.delim '.',n ++ u) := by
  have hdigit : startsDigit (n ++ u) = false := by
    have hn := h.startsNumber_append u
    rcases h.head with ⟨c,r,rfl,hc,_⟩ | ⟨d,r,rfl,_⟩
    · exact not_digit_of_nameStart hc
    · rfl
  have hnumber : startsNumber ('.' :: (n ++ u)) = false := by
    have hsign : dropSign ('.' :: (n ++ u)) = '.' :: (n ++ u) := rfl
    rw [startsNumber,hsign,startsFraction,hdigit]
    rfl
  have hmark : punctuationToken '.' (n ++ u) = (.delim '.',n ++ u) := by
    obtain ⟨c,r,rfl⟩ := List.exists_cons_of_ne_nil h.ne_nil
    have hc : c ≠ '=' := h.ne (by simp) (by decide)
    rw [List.cons_append,punctuationToken]
    · rfl
    · exact fun _ he => absurd (List.cons.inj he).1 hc
    · exact fun _ he => absurd he (by decide)
    · exact fun _ he => absurd he (by decide)
  have hident : startsIdent ('.' :: (n ++ u)) = false := by
    rw [startsIdent.eq_def]
    simp [isNameStart]
  rw [next,if_neg (by decide),if_neg (by decide),if_neg (by simp [hnumber]),
    if_neg (by simp [List.isPrefixOf]),if_neg (by simp [hident]),if_neg (by decide),
    if_neg (by decide),hmark]

theorem lexemes_class {n u : List Char} (h : IsWord n) (hu : Ends u) :
    lexemes ('.' :: (n ++ u)) =
      ⟨.delim '.',['.']⟩ :: ⟨.ident (String.ofList n),n⟩ :: lexemes u := by
  have hsource : consumed ('.' :: (n ++ u)) (n ++ u) = ['.'] := by simp [consumed]
  rw [lexemes_cons,next_point h,hsource,h.spells.lexemes_append hu]

theorem parse_class {n u : List Char} (h : IsWord n) (hu : Ends u) :
    parse ('.' :: (n ++ u)) =
      .plain (.delim '.') ['.'] :: .plain (.ident (String.ofList n)) n :: parse u := by
  rw [parse,lexemes_class h hu,ofLexemes_plain (by simp) (by simp),ofLexemes_plain (by simp) (by simp)]
  rfl

/-- A declaration is its name, a colon and the components of its value. -/
theorem parse_declaration {n v : List Char} (h : IsWord n) :
    parse (n ++ ':' :: v) =
      .plain (.ident (String.ofList n)) n :: .plain .colon [':'] :: parse v := by
  have hlexemes : lexemes (n ++ ':' :: v) =
      ⟨.ident (String.ofList n),n⟩ :: ⟨.colon,[':']⟩ :: lexemes v := by
    rw [lexemes_append_mark h.isSealed (by decide),h.lexemes_self]
    rfl
  rw [parse,hlexemes,ofLexemes_plain (by simp) (by simp),ofLexemes_plain (by simp) (by simp)]
  rfl

theorem Component.Enclosable.declaration {n v : List Char} (hn : IsWord n) (hv : Enclosable v) :
    Enclosable (n ++ ':' :: v) := by
  refine ⟨hn.isSealed.append_mark hv.isSealed (by decide),?_,?_⟩
  · rw [parse_declaration hn]
    exact List.forall_mem_cons.2 ⟨rfl,List.forall_mem_cons.2 ⟨rfl,hv.closed⟩⟩
  · rw [parse_declaration hn]
    exact List.forall_mem_cons.2 ⟨rfl,List.forall_mem_cons.2 ⟨rfl,hv.free⟩⟩

def singleSheet (c p v : String) : String := "." ++ c ++ "\x7b" ++ p ++ ":" ++ v ++ "\x7d"

theorem ofText_singleSheet {c p v : String} (hc : IsWord c.toList) (hp : IsWord p.toList)
    (hv : Enclosable v.toList) :
    Component.ofText (singleSheet c p v) =
      [.plain (.delim '.') ['.'],.plain (.ident c) c.toList,
       .block (.bracket .curly) ['\x7b']
        (.plain (.ident p) p.toList :: .plain .colon [':'] :: Component.ofText v) true] := by
  have hlist : (singleSheet c p v).toList =
      '.' :: (c.toList ++ '\x7b' :: ((p.toList ++ ':' :: v.toList) ++ '\x7d' :: [])) := by
    simp [singleSheet]
  have hblock := parse_block (Enclosable.declaration hp hv) []
  have hempty : parse [] = [] := by
    rw [parse,lexemes]
    rfl
  rw [Component.ofText,hlist,parse_class hc (ends_cons (isBreak_of_mark (by decide)).toIsEnd _),hblock,
    parse_declaration hp,hempty]
  simp [Component.ofText]

/-! ## The target -/

theorem IsAsciiWord.not_blank {n : List Char} (h : IsAsciiWord n) :
    ∀ c ∈ n, Text.isBlank c = false := by
  intro c hc
  have hascii := h.ascii c hc
  have hspaces : ∀ k ∈ [9,10,11,12,13,32], isNameChar (Char.ofNat k) = false := by decide
  rw [Bool.eq_false_iff]
  intro hb
  simp only [Text.isBlank,Text.blankRanges,List.any_cons,List.any_nil,Bool.or_eq_true,Bool.and_eq_true,
    decide_eq_true_eq,Bool.or_false] at hb
  have hmem : c.toNat ∈ [9,10,11,12,13,32] := by
    simp only [List.mem_cons,List.not_mem_nil,or_false]
    omega
  have hname := hspaces c.toNat hmem
  rw [Char.ofNat_toNat,(h.chars c hc).1] at hname
  cases hname

theorem all_class {c : String} (h : IsAsciiWord c.toList) (types : Bool) :
    Selector.all types (String.ofList ('.' :: c.toList)) =
      [⟨String.ofList ('.' :: c.toList),some ⟨c,none⟩⟩] := by
  have hparse : Component.ofText (String.ofList ('.' :: c.toList)) =
      [.plain (.delim '.') ['.'],.plain (.ident c) c.toList] := by
    have hclass := parse_class h.toIsWord ends_nil
    have hempty : parse [] = [] := by
      rw [parse,lexemes]
      rfl
    rw [List.append_nil,hempty,String.ofList_toList] at hclass
    rw [Component.ofText,String.toList_ofList,hclass]
  have htrim : Text.trim ('.' :: c.toList) = '.' :: c.toList := by
    apply Text.trim_of_not_blank
    exact List.forall_mem_cons.2 ⟨by decide,h.not_blank⟩
  have htext : Component.textOf [.plain (.delim '.') ['.'],.plain (.ident c) c.toList] =
      '.' :: c.toList := by
    simp [Component.textOf,Component.text]
  have hparts : Selector.parts [.plain (.delim '.') ['.'],.plain (.ident c) c.toList] =
      [[.plain (.delim '.') ['.'],.plain (.ident c) c.toList]] := rfl
  have htarget : Selector.readTarget types [.plain (.delim '.') ['.'],.plain (.ident c) c.toList] =
      some ⟨c,none⟩ := rfl
  rw [Selector.all,hparse,hparts,List.map_singleton,Selector.ofComponents,htext,htrim,htarget]
  simp

/-! ## The declaration -/

theorem splitAt_of_free {α : Type} {p : α → Bool} {as : List α} (h : ∀ a ∈ as, p a = false) :
    splitAt p as = [as] := by
  induction as with
  | nil => rfl
  | cons a as ih =>
    obtain ⟨ha,has⟩ := List.forall_mem_cons.1 h
    rw [splitAt,ha,ih has]
    rfl

/-- Without an exclamation mark, all of the text is the value. -/
theorem foldl_step_of_free {cs : List Component} (h : ∀ c ∈ cs, c.isToken (.delim '!') = false)
    {s : ValueScan} (hm : s.mark = none) (hi : s.important = false) :
    (cs.foldl ValueScan.step s).value = s.text ++ textOf cs ∧
      (cs.foldl ValueScan.step s).important = false := by
  induction cs generalizing s with
  | nil => simp [ValueScan.value,hm,hi,textOf]
  | cons c cs ih =>
    obtain ⟨hc,hcs⟩ := List.forall_mem_cons.1 h
    have hstep : (s.step c).mark = none ∧ (s.step c).important = false ∧
        (s.step c).text = s.text ++ c.text := by
      unfold ValueScan.step
      simp only [hc,hm,Option.isSome_none,Bool.false_and,Bool.false_eq_true,if_false]
      split
      · exact ⟨rfl,hi,rfl⟩
      · exact ⟨rfl,rfl,rfl⟩
    obtain ⟨hmark,himportant,htext⟩ := hstep
    rw [List.foldl_cons,textOf,← List.append_assoc,← htext]
    exact ih hcs hmark himportant

/-- The block of a single declaration, whose value has no semicolon and no exclamation mark. -/
theorem declaration_all {p v : String}
    (h : ∀ c ∈ Component.ofText v, c.isSemicolon = false ∧ c.isToken (.delim '!') = false)
    (source : List Char) :
    Declaration.all (.plain (.ident p) source :: .plain .colon [':'] :: Component.ofText v) =
      [⟨p,Text.trimmed v,false⟩] := by
  have hsplit : splitAt Component.isSemicolon
      (.plain (.ident p) source :: .plain .colon [':'] :: Component.ofText v) =
      [.plain (.ident p) source :: .plain .colon [':'] :: Component.ofText v] := by
    apply splitAt_of_free
    exact List.forall_mem_cons.2 ⟨rfl,List.forall_mem_cons.2 ⟨rfl,fun c hc => (h c hc).1⟩⟩
  obtain ⟨hvalue,himportant⟩ := foldl_step_of_free (fun c hc => (h c hc).2) (s := .start) rfl rfl
  have hread : Declaration.ofComponents?
      (.plain (.ident p) source :: .plain .colon [':'] :: Component.ofText v) =
      some (Declaration.ofValue p (Component.ofText v)) := rfl
  have hdeclaration : Declaration.ofValue p (Component.ofText v) = ⟨p,Text.trimmed v,false⟩ := by
    rw [Declaration.ofValue,himportant,hvalue,Component.ofText,textOf_parse]
    rfl
  rw [Declaration.all,hsplit,List.filterMap_cons_some (hread.trans (congrArg some hdeclaration))]
  rfl

/-! ## The records -/

theorem putAll_of_nodup {rs set : List Record} (h : ((rs ++ set).map Record.key).Nodup) :
    Record.putAll rs set = rs ++ set := by
  induction set generalizing rs with
  | nil => simp [Record.putAll]
  | cons r set ih =>
    have hfresh : r.key ∉ rs.map Record.key := by
      intro hr
      rw [List.map_append,List.map_cons,List.nodup_append] at h
      exact h.2.2 r.key hr r.key List.mem_cons_self rfl
    have hput : Record.put rs r = rs ++ [r] := Record.put_of_fresh hfresh
    rw [Record.putAll,List.foldl_cons,hput,← Record.putAll,ih (by simpa using h)]
    simp

namespace Expander

def recordsOf (c : String) (ss : List Setting) : List Record :=
  ss.map fun s => ⟨c,none,s.property,s.value⟩

theorem sheetRecords_single {c p v : String} (hc : IsAsciiWord c.toList) (hp : IsWord p.toList)
    (hv : Enclosable v.toList)
    (hfree : ∀ x ∈ Component.ofText v, x.isSemicolon = false ∧ x.isToken (.delim '!') = false)
    (e : Expander) : e.sheetRecords (singleSheet c p v) =
      recordsOf c (e.settings ⟨p,Text.trimmed v,false⟩) := by
  have htrim : Text.trim ('.' :: c.toList) = '.' :: c.toList :=
    Text.trim_of_not_blank (List.forall_mem_cons.2 ⟨by decide,hc.not_blank⟩)
  have hrules : Sheet.rules (singleSheet c p v) =
      [⟨String.ofList ('.' :: c.toList),
        .plain (.ident p) p.toList :: .plain .colon [':'] :: Component.ofText v⟩] := by
    rw [Sheet.rules,ofText_singleSheet hc.toIsWord hp hv]
    simp only [Sheet.rulesFrom,Sheet.Head.push,Component.head,Component.text,List.nil_append,
      List.singleton_append,Sheet.ruleOf,htrim]
  have htargets : e.targets ⟨String.ofList ('.' :: c.toList),
      .plain (.ident p) p.toList :: .plain .colon [':'] :: Component.ofText v⟩ = [⟨c,none⟩] := by
    rw [targets,selectors,all_class hc]
    rfl
  have hdeclarations : e.declarations ⟨String.ofList ('.' :: c.toList),
      .plain (.ident p) p.toList :: .plain .colon [':'] :: Component.ofText v⟩ =
      [⟨p,Text.trimmed v,false⟩] := by
    rw [declarations,declaration_all hfree,applied]
    cases e.importantDeclarations <;> rfl
  rw [sheetRecords,hrules,List.flatMap_singleton,ruleRecords,htargets,hdeclarations,
    List.flatMap_singleton,List.flatMap_singleton]
  rfl

/-! ## The value as written -/

theorem expandProperty_toOption (e : Expander) (property v : String) :
    (e.expandProperty property v).toOption = (Value.read v).toOption.map fun u =>
      (expand (e.canonical property) u.withoutImportance).filterMap e.setting? := by
  rw [expandProperty,longhands,Value.parse]
  cases Value.read v <;> rfl

/-- White space around a sealed text makes no difference to its settings. -/
theorem expandProperty_trimmed {v : String} {before after : List Char}
    (hbefore : ∀ x ∈ before, isSpace x = true) (hafter : ∀ x ∈ after, isSpace x = true)
    (hv : v.toList = before ++ Text.trim v.toList ++ after) (hsealed : Sealed (Text.trim v.toList))
    (e : Expander) (property : String) :
    (e.expandProperty property v).toOption =
      (e.expandProperty property (Text.trimmed v)).toOption := by
  have htokens : meaningfulTokens v.toList = meaningfulTokens (Text.trimmed v).toList := by
    rw [Text.trimmed,String.toList_ofList]
    conv_lhs => rw [hv]
    rw [List.append_assoc,meaningfulTokens_space_append hbefore,
      hsealed.meaningfulTokens_append_space hafter]
  rw [expandProperty_toOption,expandProperty_toOption,Value.read_congr htokens]

/-- An accepted sheet of one class with one declaration, whose value is closed and has no semicolon and no
exclamation mark, gives the settings of the property with the trimmed text of the value, if that can be
read, and nothing otherwise. These are the settings with the value as written if only white space of
style text is trimmed off, and nothing is open at the end of what is left. -/
theorem parseSheet_single {gate : Gate} {c p v : String} (hc : IsAsciiWord c.toList)
    (hp : IsAsciiWord p.toList) (hv : Enclosable v.toList)
    (hfree : ∀ x ∈ Component.ofText v, x.isSemicolon = false ∧ x.isToken (.delim '!') = false)
    (hsheet : gate (singleSheet c p v) = none) (e : Expander) :
    e.parseSheet gate (singleSheet c p v) =
      recordsOf c ((e.expandProperty p (Text.trimmed v)).toOption.getD []) ∧
    ∀ before after : List Char, (∀ x ∈ before, isSpace x = true) →
      (∀ x ∈ after, isSpace x = true) → v.toList = before ++ Text.trim v.toList ++ after →
      Sealed (Text.trim v.toList) →
      e.parseSheet gate (singleSheet c p v) =
        recordsOf c ((e.expandProperty p v).toOption.getD []) := by
  have hrecords := e.settings_nodup ⟨p,Text.trimmed v,false⟩
  have hkeys : ((recordsOf c (e.settings ⟨p,Text.trimmed v,false⟩)).map Record.key).Nodup := by
    rw [recordsOf,List.map_map]
    rw [List.Nodup,List.pairwise_map] at hrecords ⊢
    exact hrecords.imp fun hne h => hne (congrArg (fun k => k.2.2) h)
  have hall : e.parseSheet gate (singleSheet c p v) =
      recordsOf c ((e.expandProperty p (Text.trimmed v)).toOption.getD []) := by
    have hput : Record.putAll [] (recordsOf c (e.settings ⟨p,Text.trimmed v,false⟩)) =
        recordsOf c (e.settings ⟨p,Text.trimmed v,false⟩) := putAll_of_nodup hkeys
    rw [parseSheet,hsheet,sheetRecords_single hc hp.toIsWord hv hfree]
    simp only [Option.isSome_none,Bool.false_eq_true,if_false]
    rw [(Table.empty_indexed.putAll _).2]
    exact hput
  refine ⟨hall,?_⟩
  intro before after hbefore hafter htrim hsealed
  rw [hall,expandProperty_trimmed hbefore hafter htrim hsealed]

/-- A color, with white space around it. -/
theorem parseSheet_single_color :
    ({} : Expander).parseSheet (fun _ => none) (singleSheet "c" "color" " red ") =
      recordsOf "c" ((({} : Expander).expandProperty "color" " red ").toOption.getD []) := by
  have hclass : IsAsciiWord "c".toList := by decide
  have hproperty : IsAsciiWord "color".toList := by decide
  have hword : IsWord ['r','e','d'] := by decide
  have hcomponents : Component.ofText " red " =
      [.plain .space [' '],.plain (.ident "red") ['r','e','d'],.plain .space [' ']] := by cbv
  have hlexemes : lexemes (" red ".toList ++ [';']) =
      [⟨.space,[' ']⟩,⟨.ident "red",['r','e','d']⟩,⟨.space,[' ']⟩] ++ [⟨.semicolon,[';']⟩] := by cbv
  have hvalue : Enclosable " red ".toList := by
    refine ⟨sealed_of_last (isBreak_of_mark (by decide)) hlexemes rfl,?_,?_⟩
    · rw [← Component.ofText,hcomponents]
      simp [Component.isClosed]
    · rw [← Component.ofText,hcomponents]
      simp [Component.isToken]
  have hfree : ∀ x ∈ Component.ofText " red ",
      x.isSemicolon = false ∧ x.isToken (.delim '!') = false := by
    rw [hcomponents]
    simp [Component.isSemicolon,Component.isToken]
  have htrim : Text.trim " red ".toList = ['r','e','d'] := by cbv
  obtain ⟨_,hwritten⟩ :=
    @parseSheet_single (fun _ => none) _ _ _ hclass hproperty hvalue hfree rfl {}
  refine hwritten [' '] [' '] (by simp [isSpace]) (by simp [isSpace]) ?_ ?_
  · rw [htrim]
    rfl
  · rw [htrim]
    exact hword.isSealed

end Expander

end StyleExpansion
