import Mathlib
import StyleExpansion.Proofs.Record.Table
import StyleExpansion.Proofs.Sheet.Filler
import StyleExpansion.Proofs.Sheet.SkippedRules

/-! # Joined sheets

Where a sheet ends between two rules, a sheet after it sets what it sets by itself. The walk goes on with
the second sheet from where it would begin, except for the white space and the comments in between, which
become part of the prelude of the rule after them.
-/
namespace StyleExpansion.Sheet
open Component Token

def endsRule : Component → Bool
  | .block (.bracket .curly) _ _ closed => closed
  | c => c.isSemicolon

/-- A sheet that is empty or ends with a complete rule, with filler after it. The rule leaves nothing
behind, which an at-rule does that is passed over with its block. -/
structure FinishedSheet where
  rules : List Char
  filler : List Char
  ends : rules = [] ∨ ∃ cs c, parse rules = cs ++ [c] ∧ endsRule c = true
  nothingLeft : (Head.fresh []).after (parse rules) = .fresh []
  isFiller : IsFiller filler

namespace FinishedSheet
variable (s : FinishedSheet)

def text : String := String.ofList (s.rules ++ s.filler)

theorem parse_rules_append (t : List Char) : parse (s.rules ++ t) = parse s.rules ++ parse t := by
  rcases s.ends with h | ⟨cs,c,hparse,hc⟩
  · rw [h,List.nil_append,parse_nil,List.nil_append]
  · unfold endsRule at hc
    split at hc
    · subst hc
      exact parse_append hparse t
    · cases c with
      | block => cases hc
      | plain u source =>
        have hu : u = .semicolon := by simpa [isSemicolon,isToken] using hc
        subst hu
        exact parse_append_semicolon hparse t

/-- The walk over a text after the rules goes on from its beginning. -/
theorem rules_text_append (t : String) : Sheet.rules (s.text ++ t) =
    rulesFrom (.fresh []) (parse s.rules) ++ rulesFrom (.fresh s.filler) (Component.ofText t) := by
  have htext : (s.text ++ t).toList = s.rules ++ (s.filler ++ t.toList) := by
    simp [text,List.append_assoc]
  rw [Sheet.rules,Component.ofText,htext,parse_rules_append,rulesFrom_append,s.nothingLeft,
    rulesFrom_filler s.isFiller,List.nil_append,← Component.ofText]

theorem rules_text : Sheet.rules s.text = rulesFrom (.fresh []) (parse s.rules) := by
  have h := s.rules_text_append ""
  have hempty : Component.ofText "" = [] := parse_nil
  rwa [String.append_empty,hempty,rulesFrom_nil,List.append_nil] at h

end FinishedSheet

theorem BeginsPlainly.of_prefix {q s : List Char} (hs : BeginsPlainly s) (h : q <+: s) :
    BeginsPlainly q := by
  intro c r hq
  obtain ⟨t,rfl⟩ := h
  refine hs c (r ++ t) ?_
  rw [List.dropWhile_append,hq]
  rfl

/-- Filler before the prelude of a rule changes nothing that the rule sets. -/
theorem ruleRecords_filler {f q : List Char} (hf : IsFiller f)
    (hq : (∀ c ∈ f, isSpace c = true) ∨ BeginsPlainly q) (block : List Component) (e : Expander) :
    e.ruleRecords (ruleOf (f ++ q) block) = e.ruleRecords (ruleOf q block) := by
  have htargets : e.targets (ruleOf (f ++ q) block) = e.targets (ruleOf q block) := by
    rcases hq with hspace | hq
    · rw [ruleOf,trim_blank hspace,← ruleOf]
    · obtain ⟨g,hg,htrim⟩ := trim_filler hf hq
      rw [ruleOf,htrim]
      exact targets_filler hg (fun c r h => not_blank_of_trim h) e.typeSelectors
  rw [Expander.ruleRecords,htargets,Expander.ruleRecords]
  rfl

/-- Filler before a sheet changes nothing that the sheet sets. -/
theorem records_filler {f : List Char} (hf : IsFiller f) {t : String}
    (ht : (∀ c ∈ f, isSpace c = true) ∨ BeginsPlainly t.toList) (e : Expander) :
    (rulesFrom (.fresh f) (Component.ofText t)).flatMap e.ruleRecords = e.sheetRecords t := by
  rw [Expander.sheetRecords,rules]
  cases hbegin : beginsStyle (Component.ofText t) with
  | false => rw [rulesFrom_fresh hbegin f []]
  | true =>
    rcases rulesFrom_fresh_prefixed hbegin with h | ⟨q,block,rest,h,hpart⟩
    · have hnone : rulesFrom (.fresh f) (Component.ofText t) = [] := h f
      have hnone' : rulesFrom (.fresh []) (Component.ofText t) = [] := h []
      rw [hnone,hnone']
    · have hfirst : rulesFrom (.fresh f) (Component.ofText t) = ruleOf (f ++ q) block :: rest := h f
      have hself : rulesFrom (.fresh []) (Component.ofText t) = ruleOf q block :: rest := h []
      rw [Component.ofText,textOf_parse] at hpart
      have hq := ht.imp_right fun ht => ht.of_prefix hpart
      rw [hfirst,hself,List.flatMap_cons,List.flatMap_cons,ruleRecords_filler hf hq]

/-- Sheets concatenate: a sheet after a finished one sets its own records on top of those of the first
one, unless a comment stands before a blank that is a name by itself. -/
theorem parseSheet_append {gate : Gate} (s : FinishedSheet) {t : String}
    (hbegin : (∀ c ∈ s.filler, isSpace c = true) ∨ BeginsPlainly t.toList)
    (hs : gate s.text = none) (ht : gate t = none) (hboth : gate (s.text ++ t) = none) (e : Expander) :
    e.parseSheet gate (s.text ++ t) =
      Record.putAll (e.parseSheet gate s.text) (e.parseSheet gate t) := by
  have hsheet : ∀ css, gate css = none →
      e.parseSheet gate css = Record.putAll [] (e.sheetRecords css) := by
    intro css h
    rw [Expander.parseSheet,h]
    exact (Table.empty_indexed.putAll (e.sheetRecords css)).2
  have hrecords : e.sheetRecords (s.text ++ t) = e.sheetRecords s.text ++ e.sheetRecords t := by
    rw [Expander.sheetRecords,s.rules_text_append,List.flatMap_append,records_filler s.isFiller hbegin,
      ← s.rules_text,← Expander.sheetRecords]
  rw [hsheet _ hboth,hsheet _ hs,hsheet _ ht,hrecords,Record.putAll_putAll,Record.putAll,
    List.foldl_append]
  rfl

def twoColors : FinishedSheet where
  rules := ".a\x7bcolor:red;x:y\x7d".toList
  filler := " /* */".toList
  ends := Or.inr ⟨[.plain (.delim '.') ['.'],.plain (.ident "a") ['a']],
    .block (.bracket .curly) ['\x7b']
      [.plain (.ident "color") "color".toList,.plain .colon [':'],.plain (.ident "red") "red".toList,
       .plain .semicolon [';'],.plain (.ident "x") ['x'],.plain .colon [':'],
       .plain (.ident "y") ['y']] true,by cbv,rfl⟩
  nothingLeft := by cbv
  isFiller := .space (by decide) (.comment (show ¬['*','/'] <:+: [' '] by decide) .nil)

/-- The second sheet overwrites one value of the first one in place and adds a record. -/
theorem parseSheet_append_twoColors :
    BeginsPlainly ".a\x7bcolor:blue\x7db\x7bx:z\x7d".toList ∧
    ({} : Expander).parseSheet (fun _ => none)
        (twoColors.text ++ ".a\x7bcolor:blue\x7db\x7bx:z\x7d") =
      Record.putAll (({} : Expander).parseSheet (fun _ => none) twoColors.text)
        (({} : Expander).parseSheet (fun _ => none) ".a\x7bcolor:blue\x7db\x7bx:z\x7d") := by
  have hbegin : BeginsPlainly ".a\x7bcolor:blue\x7db\x7bx:z\x7d".toList := by
    rintro c r h
    cases h
    decide
  exact ⟨hbegin,parseSheet_append twoColors (Or.inr hbegin) rfl rfl rfl {}⟩

end StyleExpansion.Sheet
