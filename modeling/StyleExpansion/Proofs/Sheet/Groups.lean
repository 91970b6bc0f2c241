import Mathlib
import StyleExpansion.Expander
import StyleExpansion.Proofs.Component.Append
import StyleExpansion.Proofs.Sheet.Walk

/-! # Grouping rules

The rules of a sheet are the same inside a grouping rule, and so inside any number of them one in the
other. If the sheet ends inside a token, that token takes in brackets after the sheet; the block is then
closed by the end of the text, with the same rules in it.
-/
namespace StyleExpansion.Sheet
open Component

/-- What stands before the block of a grouping rule: the name and a condition that is closed and holds
neither a semicolon nor a curly block outside of its own blocks. -/
structure GroupHead where
  text : String
  name : String
  keyword : List Char
  condition : List Component
  grouping : Text.isOneOf groupingRules name = true
  components : Component.ofText text = .plain (.atKeyword name) keyword :: condition
  isSealed : Sealed text.toList
  closed : ∀ c ∈ condition, c.isClosed = true
  free : ∀ c ∈ condition, c.isToken (.closing .curly) = false
  endless : ∀ c ∈ condition, c.isSemicolon = false ∧ c.head ≠ .opening (.bracket .curly)

namespace GroupHead
variable (g : GroupHead)

def around (s : String) : String := g.text ++ "\x7b" ++ s ++ "\x7d"

/-- Grouping rules one inside the other, the first one outermost, around a sheet. -/
def nested : List GroupHead → String → String
  | [],s => s
  | g :: gs,s => g.around (nested gs s)

theorem around_toList (s : String) :
    (g.around s).toList = g.text.toList ++ '\x7b' :: (s.toList ++ ['\x7d']) := by
  simp [around]

/-- A bracket after the sheet inside ends up inside all the grouping rules. -/
theorem nested_append (gs : List GroupHead) (s : String) :
    nested gs s ++ "\x7d" = nested gs (s ++ "\x7d") := by
  induction gs with
  | nil => rfl
  | cons g gs ih =>
    simp only [nested,around,← ih,String.append_assoc]

theorem parse_before (t : List Char) : parse (g.text.toList ++ '\x7b' :: t) =
    .plain (.atKeyword g.name) g.keyword :: g.condition ++ parse ('\x7b' :: t) := by
  have hparse : parse g.text.toList = .plain (.atKeyword g.name) g.keyword :: g.condition :=
    g.components
  have hcomplete : Complete (lexemes g.text.toList) := by
    apply complete_of_isClosed
    rw [← parse,hparse]
    simpa [isClosed] using g.closed
  rw [parse,g.isSealed '\x7b' t (Token.isBreak_of_mark (by decide)),ofLexemes_append hcomplete,← parse,
    hparse]
  rfl

theorem rulesFrom_group (source : List Char) (contents : List Component) (closed : Bool) :
    rulesFrom (.fresh []) (.plain (.atKeyword g.name) g.keyword :: g.condition ++
      [.block (.bracket .curly) source contents closed]) = rulesFrom (.fresh []) contents := by
  have hkeyword : (Head.fresh []).push (.plain (.atKeyword g.name) g.keyword) = .atRule g.name := rfl
  rw [List.cons_append,rulesFrom,hkeyword,rulesFrom_prelude g.endless,rulesFrom,g.grouping,if_pos rfl,
    rulesFrom_nil,List.append_nil]

/-- A sheet that is closed in itself has the same rules inside a grouping rule. -/
theorem rules_around {s : String} (hs : Enclosable s.toList) :
    rules (g.around s) = rules s ∧ Enclosable (g.around s).toList := by
  have hparse : parse (g.around s).toList = .plain (.atKeyword g.name) g.keyword :: g.condition ++
      [.block (.bracket .curly) ['\x7b'] (parse s.toList) true] := by
    rw [around_toList,parse_before,parse_block hs,parse_nil]
  refine ⟨?_,?_,?_,?_⟩
  · rw [rules,Component.ofText,hparse,rulesFrom_group]
    rfl
  · rw [around_toList]
    exact g.isSealed.append_mark (hs.isSealed.append_mark sealed_nil (by decide)) (by decide)
  · rw [hparse]
    exact List.forall_mem_append.2
      ⟨List.forall_mem_cons.2 ⟨rfl,g.closed⟩,List.forall_mem_singleton.2 rfl⟩
  · rw [hparse]
    exact List.forall_mem_append.2
      ⟨List.forall_mem_cons.2 ⟨rfl,g.free⟩,List.forall_mem_singleton.2 rfl⟩

/-- The block of a grouping rule that the end of the text closes has the same rules too. -/
theorem rules_open {s : String} (hs : ∀ c ∈ parse s.toList, c.isToken (.closing .curly) = false) :
    rules (g.text ++ "\x7b" ++ s) = rules s ∧
    ∀ c ∈ parse (g.text ++ "\x7b" ++ s).toList, c.isToken (.closing .curly) = false := by
  have htext : (g.text ++ "\x7b" ++ s).toList = g.text.toList ++ '\x7b' :: s.toList := by simp
  have hparse : parse (g.text ++ "\x7b" ++ s).toList =
      .plain (.atKeyword g.name) g.keyword :: g.condition ++
        [.block (.bracket .curly) ['\x7b'] (parse s.toList) false] := by
    rw [htext,parse_before,parse_open_block hs]
  constructor
  · rw [rules,Component.ofText,hparse,rulesFrom_group]
    rfl
  · rw [hparse]
    exact List.forall_mem_append.2
      ⟨List.forall_mem_cons.2 ⟨rfl,g.free⟩,List.forall_mem_singleton.2 rfl⟩

/-- A bracket after a sheet that ends inside a token leaves its rules as they are. -/
theorem rules_curly {s : String} (hs : ¬Sealed s.toList)
    (hclosed : ∀ c ∈ parse s.toList, c.isClosed = true)
    (hfree : ∀ c ∈ parse s.toList, c.isToken (.closing .curly) = false) :
    rules (s ++ "\x7d") = rules s ∧
    (∀ c ∈ parse (s ++ "\x7d").toList, c.isClosed = true) ∧
    ∀ c ∈ parse (s ++ "\x7d").toList, c.isToken (.closing .curly) = false := by
  obtain ⟨cs,t,source,u,hparse,hcurly,hu⟩ := parse_curly_of_not_sealed hs hclosed
  have htext : (s ++ "\x7d").toList = s.toList ++ ['\x7d'] := by simp
  rw [hparse] at hclosed hfree
  have hbefore := (List.forall_mem_append.1 hclosed).1
  have hfree := (List.forall_mem_append.1 hfree).1
  refine ⟨?_,?_,?_⟩
  · rw [rules,rules,Component.ofText,Component.ofText,htext,hcurly,hparse,rulesFrom_concat_plain,
      rulesFrom_concat_plain]
  · rw [htext,hcurly]
    exact List.forall_mem_append.2 ⟨hbefore,List.forall_mem_singleton.2 rfl⟩
  · rw [htext,hcurly]
    exact List.forall_mem_append.2
      ⟨hfree,List.forall_mem_singleton.2 (beq_eq_false_iff_ne.2 (hu .curly))⟩

/-- Grouping rules around a sheet that is closed and has no curly bracket left over change no rule. -/
theorem rules_nested (gs : List GroupHead) {s : String}
    (hclosed : ∀ c ∈ parse s.toList, c.isClosed = true)
    (hfree : ∀ c ∈ parse s.toList, c.isToken (.closing .curly) = false) :
    rules (nested gs s) = rules s ∧
    (∀ c ∈ parse (nested gs s).toList, c.isToken (.closing .curly) = false) ∧
    (Sealed s.toList → Enclosable (nested gs s).toList) := by
  induction gs generalizing s with
  | nil => exact ⟨rfl,hfree,fun hs => ⟨hs,hclosed,hfree⟩⟩
  | cons g gs ih =>
    by_cases hs : Sealed s.toList
    · obtain ⟨hrules,_,hinside⟩ := ih hclosed hfree
      obtain ⟨haround,hall⟩ := g.rules_around (hinside hs)
      exact ⟨haround.trans hrules,hall.free,fun _ => hall⟩
    · obtain ⟨hcurly,hclosed,hfree⟩ := rules_curly hs hclosed hfree
      obtain ⟨hrules,hinside,_⟩ := ih hclosed hfree
      have hopen := g.rules_open hinside
      have htext : nested (g :: gs) s = g.text ++ "\x7b" ++ nested gs (s ++ "\x7d") := by
        rw [nested,around,← nested_append]
        simp only [String.append_assoc]
      rw [htext]
      exact ⟨hopen.1.trans (hrules.trans hcurly),hopen.2,fun h => absurd h hs⟩

end GroupHead

/-- Grouping rules are transparent: a sheet that is closed and has no curly bracket left over gives the
same records inside any number of them, where both are accepted. -/
theorem parseSheet_nested {gate : Gate} (gs : List GroupHead) {R : String}
    (hclosed : ∀ c ∈ Component.ofText R, c.isClosed = true)
    (hfree : ∀ c ∈ Component.ofText R, c.isToken (.closing .curly) = false)
    (hR : gate R = none) (hnested : gate (GroupHead.nested gs R) = none) (e : Expander) :
    e.parseSheet gate (GroupHead.nested gs R) = e.parseSheet gate R := by
  have hrules : e.sheetRecords (GroupHead.nested gs R) = e.sheetRecords R := by
    rw [Expander.sheetRecords,(GroupHead.rules_nested gs hclosed hfree).1,Expander.sheetRecords]
  rw [Expander.parseSheet,Expander.parseSheet,hrules,hR,hnested]

def printing : GroupHead where
  text := "@media print"
  name := "media"
  keyword := "@media".toList
  condition := [.plain .space [' '],.plain (.ident "print") "print".toList]
  grouping := by decide +kernel
  components := by cbv
  isSealed := by
    have hlexemes : lexemes ("@media print".toList ++ ['\x7b']) =
        [⟨.atKeyword "media","@media".toList⟩,⟨.space,[' ']⟩,⟨.ident "print","print".toList⟩] ++
          [⟨.opening (.bracket .curly),['\x7b']⟩] := by cbv
    exact sealed_of_last (Token.isBreak_of_mark (by decide)) hlexemes rfl
  closed := by decide
  free := by decide
  endless := by decide

def namelessLayer : GroupHead where
  text := "@LAYER"
  name := "LAYER"
  keyword := "@LAYER".toList
  condition := []
  grouping := by decide +kernel
  components := by cbv
  isSealed := by
    have hlexemes : lexemes ("@LAYER".toList ++ ['\x7b']) =
        [⟨.atKeyword "LAYER","@LAYER".toList⟩] ++ [⟨.opening (.bracket .curly),['\x7b']⟩] := by cbv
    exact sealed_of_last (Token.isBreak_of_mark (by decide)) hlexemes rfl
  closed := by decide
  free := by decide
  endless := by decide

/-- Printing and a layer in it change nothing for two style rules. -/
theorem parseSheet_nested_printing_layer :
    (∀ c ∈ Component.ofText ".a\x7bcolor:red\x7d b\x7bx:y\x7d", c.isClosed = true) ∧
    (∀ c ∈ Component.ofText ".a\x7bcolor:red\x7d b\x7bx:y\x7d",
      c.isToken (.closing .curly) = false) ∧
    ({} : Expander).parseSheet (fun _ => none)
        (GroupHead.nested [printing,namelessLayer] ".a\x7bcolor:red\x7d b\x7bx:y\x7d") =
      ({} : Expander).parseSheet (fun _ => none) ".a\x7bcolor:red\x7d b\x7bx:y\x7d" := by
  have hclosed : ((Component.ofText ".a\x7bcolor:red\x7d b\x7bx:y\x7d").all isClosed) = true := by
    cbv
  have hfree : ((Component.ofText ".a\x7bcolor:red\x7d b\x7bx:y\x7d").all
      fun c => !c.isToken (.closing .curly)) = true := by cbv
  have hclosed := List.all_eq_true.1 hclosed
  have hfree : ∀ c ∈ Component.ofText ".a\x7bcolor:red\x7d b\x7bx:y\x7d",
      c.isToken (.closing .curly) = false := by simpa using hfree
  exact ⟨hclosed,hfree,parseSheet_nested [printing,namelessLayer] hclosed hfree rfl rfl {}⟩

end StyleExpansion.Sheet
