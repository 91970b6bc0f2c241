import Mathlib
import StyleExpansion.Expander
import StyleExpansion.Proofs.Component.Append
import StyleExpansion.Proofs.Sheet.Walk

/-! # At-rules that are passed over

What follows an at-rule that is passed over has the components that it has by itself. The block of the
at-rule is left behind in front of it: a style rule that comes next begins there, and any other rule is not
disturbed.
-/
namespace StyleExpansion.Sheet
open Component

/-- An at-rule with a block that is none of the grouping ones: no semicolon and no other curly block ends
it before. -/
structure SkippedRule where
  name : String
  keyword : List Char
  prelude : List Component
  opening : List Char
  contents : List Component
  skipped : Text.isOneOf groupingRules name = false
  endless : ∀ c ∈ prelude, c.isSemicolon = false ∧ c.head ≠ .opening (.bracket .curly)

namespace SkippedRule
variable (r : SkippedRule)

def components : List Component :=
  .plain (.atKeyword r.name) r.keyword ::
    (r.prelude ++ [.block (.bracket .curly) r.opening r.contents true])

/-- What is left behind of the at-rule: its block from after the bracket on. -/
def residue : List Char := textOf r.contents ++ ['\x7d']

/-- An at-rule that is passed over has no rules, and leaves its block behind. -/
theorem rulesFrom_components (rest : List Component) :
    rulesFrom (.fresh []) (r.components ++ rest) = rulesFrom (.fresh r.residue) rest := by
  have hpush : (Head.fresh []).push (.plain (.atKeyword r.name) r.keyword) = .atRule r.name := rfl
  rw [components,List.cons_append,List.append_assoc,rulesFrom,hpush,rulesFrom_prelude r.endless,
    List.singleton_append,rulesFrom,r.skipped]
  rfl

end SkippedRule

/-! ## What comes next -/

/-- The first component that means something begins a style rule. -/
def beginsStyle : List Component → Bool
  | [] => false
  | c :: cs =>
    if c.isSkipped then beginsStyle cs
    else match c.head with
      | .atKeyword _ => false
      | .semicolon => false
      | .markupOpen => false
      | .markupClose => false
      | _ => true

/-- Only a style rule takes in what has been skipped before it. -/
theorem rulesFrom_fresh {cs : List Component} (h : beginsStyle cs = false) (x y : List Char) :
    rulesFrom (.fresh x) cs = rulesFrom (.fresh y) cs := by
  induction cs generalizing x y with
  | nil => rw [rulesFrom_nil,rulesFrom_nil]
  | cons c cs ih =>
    cases c with
    | plain t source =>
      rw [rulesFrom,rulesFrom]
      cases t with
      | space => exact ih h _ _
      | comment => exact ih h _ _
      | atKeyword name => rfl
      | semicolon => rfl
      | markupOpen => rfl
      | markupClose => rfl
      | _ => cases h
    | block kind source contents closed => cases h

/-- The text that a reading is given stands at the beginning of the prelude of its first rule, before the
beginning of a text, and changes nothing else. -/
def Prefixed (text : List Char) (read : List Char → List StyleRule) : Prop :=
  (∀ p, read p = []) ∨
  ∃ q block rest, (∀ p, read p = ruleOf (p ++ q) block :: rest) ∧ q <+: text

theorem Prefixed.shift {read further : List Char → List StyleRule} {t text : List Char}
    (hf : Prefixed text further) (h : ∀ p, read p = further (p ++ t)) : Prefixed (t ++ text) read := by
  rcases hf with hf | ⟨q,block,rest,hf,hq⟩
  · exact Or.inl fun p => by rw [h,hf]
  · exact Or.inr ⟨t ++ q,block,rest,fun p => by rw [h,hf,List.append_assoc],
      (List.prefix_append_right_inj t).2 hq⟩

/-- A curly block gives the rule whose prelude is the text that is given. -/
theorem prefixed_rule (text : List Char) (block : List Component) (rest : List StyleRule) :
    Prefixed text fun p => ruleOf p block :: rest :=
  Or.inr ⟨[],block,rest,fun p => by rw [List.append_nil],List.nil_prefix⟩

theorem rulesFrom_style_prefixed (cs : List Component) :
    Prefixed (textOf cs) fun p => rulesFrom (.style p) cs := by
  induction cs with
  | nil => exact Or.inl fun p => rulesFrom_nil _
  | cons c cs ih =>
    cases c with
    | plain t source =>
      refine ih.shift (t := source) ?_
      intro p
      rw [rulesFrom]
      rfl
    | block kind source contents closed =>
      by_cases hk : kind = .bracket .curly
      · subst hk
        simp only [rulesFrom]
        exact prefixed_rule _ contents _
      · exact ih.shift fun p => rulesFrom_block hk (.style p) source contents closed cs

/-- A style rule takes in what has been skipped before it. -/
theorem rulesFrom_fresh_prefixed {cs : List Component} (h : beginsStyle cs = true) :
    Prefixed (textOf cs) fun x => rulesFrom (.fresh x) cs := by
  induction cs with
  | nil => cases h
  | cons c cs ih =>
    cases c with
    | plain t source =>
      have hbegin : (Prefixed (source ++ textOf cs) fun x => rulesFrom (.style (x ++ source)) cs) :=
        (rulesFrom_style_prefixed cs).shift fun _ => rfl
      rw [textOf]
      simp only [rulesFrom]
      cases t with
      | space => exact (ih h).shift fun _ => rfl
      | comment => exact (ih h).shift fun _ => rfl
      | atKeyword name => cases h
      | semicolon => cases h
      | markupOpen => cases h
      | markupClose => cases h
      | _ => exact hbegin
    | block kind source contents closed =>
      by_cases hk : kind = .bracket .curly
      · subst hk
        simp only [rulesFrom]
        exact prefixed_rule _ contents _
      · exact (rulesFrom_style_prefixed cs).shift
          fun p => rulesFrom_block hk (.fresh p) source contents closed cs

/-! ## Sheets -/

theorem rules_after_skipped {A : String} {r : SkippedRule} (h : Component.ofText A = r.components)
    (R : String) : rules (A ++ R) = rulesFrom (.fresh r.residue) (Component.ofText R) := by
  have hblock : parse A.toList = (.plain (.atKeyword r.name) r.keyword :: r.prelude) ++
      [.block (.bracket .curly) r.opening r.contents true] := h
  have hparse : Component.ofText (A ++ R) = r.components ++ Component.ofText R := by
    rw [Component.ofText,String.toList_append,parse_append hblock,← Component.ofText,h]
    rfl
  rw [rules,hparse,r.rulesFrom_components]

/-- An accepted sheet after an at-rule that is passed over gives what it gives by itself, unless it begins
with a style rule. That rule has the rest of the at-rule before its prelude, and all else is as it was. -/
theorem parseSheet_after_skipped {gate : Gate} {A R : String} {r : SkippedRule}
    (hA : Component.ofText A = r.components) (hAR : gate (A ++ R) = none) (hR : gate R = none)
    (e : Expander) :
    (beginsStyle (Component.ofText R) = false → e.parseSheet gate (A ++ R) = e.parseSheet gate R) ∧
    (beginsStyle (Component.ofText R) = true →
      e.parseSheet gate (A ++ R) = [] ∧ e.parseSheet gate R = [] ∨
      ∃ prelude block rest, rules R = ruleOf prelude block :: rest ∧
        e.parseSheet gate (A ++ R) = (Table.empty.putAll
          ((ruleOf (r.residue ++ prelude) block :: rest).flatMap e.ruleRecords)).records.toList) := by
  have hsheet : ∀ css, gate css = none → e.parseSheet gate css =
      (Table.empty.putAll ((rules css).flatMap e.ruleRecords)).records.toList := by
    intro css h
    rw [Expander.parseSheet,h]
    rfl
  have hrules := rules_after_skipped hA R
  rw [hsheet _ hAR,hsheet _ hR,hrules]
  constructor
  · intro hbegin
    rw [rulesFrom_fresh hbegin r.residue [],rules]
  · intro hbegin
    rcases rulesFrom_fresh_prefixed hbegin with h | ⟨q,block,rest,h,_⟩
    · left
      have hnone : rules R = [] := h []
      have hresidue : rulesFrom (.fresh r.residue) (Component.ofText R) = [] := h r.residue
      rw [hnone,hresidue]
      exact ⟨rfl,rfl⟩
    · right
      refine ⟨q,block,rest,h [],?_⟩
      have hresidue : rulesFrom (.fresh r.residue) (Component.ofText R) =
          ruleOf (r.residue ++ q) block :: rest := h r.residue
      rw [hresidue]

def fontFace : SkippedRule where
  name := "font-face"
  keyword := "@font-face".toList
  prelude := []
  opening := ['\x7b']
  contents :=
    [.plain (.ident "font-family") "font-family".toList,.plain .colon [':'],
     .plain (.ident "x") "x".toList]
  skipped := by decide +kernel
  endless := by simp

theorem fontFace_components :
    Component.ofText "@font-face\x7bfont-family:x\x7d" = fontFace.components := by cbv

/-- A style rule in a grouping rule is not disturbed by a font before it. -/
theorem parseSheet_after_fontFace :
    ({} : Expander).parseSheet (fun _ => none)
      ("@font-face\x7bfont-family:x\x7d" ++ "@media all\x7b.a\x7bcolor:red\x7d\x7d") =
      ({} : Expander).parseSheet (fun _ => none) "@media all\x7b.a\x7bcolor:red\x7d\x7d" := by
  have hbegin : beginsStyle (Component.ofText "@media all\x7b.a\x7bcolor:red\x7d\x7d") = false := by
    cbv
  exact (parseSheet_after_skipped fontFace_components rfl rfl {}).1 hbegin

end StyleExpansion.Sheet
