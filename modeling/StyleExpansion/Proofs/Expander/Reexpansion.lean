import StyleExpansion.Proofs.Expander.Settings
import StyleExpansion.Proofs.Expansion.Spaced
import StyleExpansion.Proofs.Value.Steady

/-! # Settings expand to themselves

The text of a longhand is read as the nodes of its value, if these are faithful. Its name has no vendor's
mark left and is no shorthand, so that text stands for this longhand alone, and is given out once more. The
nodes are faithful if the value is read from steady tokens.
-/
namespace StyleExpansion
open Value

theorem literals_faithful : ∀ d ∈ literals, d.isFaithful = true := by
  decide +kernel

theorem expand_faithful {v : Value} (hv : allFaithful v.flatten = true) (property : String) :
    ∀ l ∈ expand property v, allFaithful l.value.flatten = true := by
  intro l hl
  rw [allFaithful_iff] at hv ⊢
  intro n hn
  rcases expand_drawn property v l hl n hn with hm | hm
  · exact hv n hm
  · exact literals_faithful n hm

namespace Value

theorem isSpaced_of_parse {text : String} {v : Value} (h : parse text = .ok v) :
    v.isSpaced = true := by
  rw [parse,mapError_eq_ok,read] at h
  obtain ⟨nodes,hnodes,rfl⟩ := map_eq_ok.1 h
  exact spaced_list (areNodes_of_readComponents hnodes)

/-! ## Importance -/

theorem withoutImportance_cases (v : Value) : v.withoutImportance = v ∨
    ∃ vs word, v.withoutImportance = list vs ∧ v.flatten = vs ++ [operator "!",word] := by
  unfold withoutImportance
  split
  · next vs h =>
    obtain ⟨mark,word,hv,hmark,_⟩ := dropImportance?_eq_some h
    rw [isOperator_iff.1 hmark] at hv
    exact Or.inr ⟨vs,word,rfl,hv⟩
  · exact Or.inl rfl

theorem isSpaced_withoutImportance {v : Value} (h : v.isSpaced = true) :
    v.withoutImportance.isSpaced = true := by
  rcases withoutImportance_cases v with hv | ⟨vs,word,hv,hnodes⟩
  · rwa [hv]
  · rw [hv]
    exact spaced_list ((flatten_areNodes v).mono (by simp [hnodes]))

theorem allFaithful_withoutImportance {v : Value} (h : allFaithful v.flatten = true) :
    allFaithful v.withoutImportance.flatten = true := by
  rcases withoutImportance_cases v with hv | ⟨vs,word,hv,hnodes⟩
  · rwa [hv]
  · have hvs : vs ⊆ v.flatten := by simp [hnodes]
    rw [hv,flatten,((flatten_areNodes v).mono hvs).flattenAll]
    rw [allFaithful_iff] at h ⊢
    exact fun n hn => h n (hvs hn)

/-- The mark before the word of importance cannot be written. -/
theorem withoutImportance_of_isWritable {v : Value} (h : v.IsWritable) : v.withoutImportance = v := by
  rcases withoutImportance_cases v with hv | ⟨vs,word,_,hnodes⟩
  · exact hv
  · obtain ⟨s,hs⟩ := (isWritable_iff v).1 h (operator "!") (by simp [hnodes])
    cases hs

/-! ## Texts -/

/-- The text of faithful nodes is read as the list of these nodes. -/
theorem parse_of_generate {v : Value} (h : v.isSpaced = true) (hv : allFaithful v.flatten = true)
    {text : String} (ht : v.generate = .ok text) : parse text = .ok (list v.flatten) := by
  rw [generate,mapError_eq_ok,render,write_eq_writeAll v h] at ht
  obtain ⟨s,hs,rfl⟩ := map_eq_ok.1 ht
  exact parse_of_write hv hs

end Value

/-! ## Settings -/

namespace Expander

/-- A property that is no shorthand is set to the text of its value, if there is one. -/
theorem expandProperty_of_not_shorthand {text written : String} {v : Value}
    (hv : parse text = .ok v) (hw : v.generate = .ok written) {property : String}
    (hp : isShorthand (PropertyName.unprefixed property) = false) :
    ({} : Expander).expandProperty property text =
      .ok [⟨PropertyName.unprefixed property,written⟩] := by
  have himportance : v.withoutImportance = v :=
    withoutImportance_of_isWritable (generate_eq_ok.1 ⟨written,hw⟩)
  have hexpand : expand (({} : Expander).canonical property) v =
      [⟨PropertyName.unprefixed property,v⟩] := expand_of_not_shorthand hp v
  rw [expandProperty_of_parse hv,himportance,hexpand,List.filterMap_cons,setting?,hw]
  rfl

variable {l : Longhand} {s : Setting}

theorem setting?_eq_some {e : Expander} : e.setting? l = some s ↔
    e.outward l.property = s.property ∧ l.value.generate = .ok s.value := by
  rw [setting?]
  cases l.value.generate with
  | error c => simp [Except.toOption]
  | ok text =>
    obtain ⟨property,value⟩ := s
    simp [Except.toOption]

/-- A longhand of faithful nodes is set again by its setting, under a name that stands for itself. -/
theorem expandProperty_setting (hname : PropertyName.unprefixed l.property = l.property)
    (hp : isShorthand l.property = false) (hspaced : l.value.isSpaced = true)
    (hnodes : allFaithful l.value.flatten = true) (hs : ({} : Expander).setting? l = some s) :
    ({} : Expander).expandProperty s.property s.value = .ok [s] := by
  obtain ⟨hproperty,htext⟩ := setting?_eq_some.1 hs
  have hcanonical : PropertyName.unprefixed s.property = s.property := by
    rw [← hproperty]
    exact hname
  have hshort : isShorthand (PropertyName.unprefixed s.property) = false := by
    rw [hcanonical,← hproperty]
    exact hp
  have hwritten : (list l.value.flatten).generate = .ok s.value :=
    (generate_list_flatten hspaced).trans htext
  rw [expandProperty_of_not_shorthand (parse_of_generate hspaced hnodes htext) hwritten hshort,
    hcanonical]

/-- The names of an expansion are no shorthands and stand for themselves, if the property does once its
mark is taken away. -/
theorem unprefixed_of_mem_expand {property : String} {v : Value}
    (hname : PropertyName.unprefixed property = property) (hl : l ∈ expand property v) :
    PropertyName.unprefixed l.property = l.property ∧ isShorthand l.property = false := by
  cases hp : isShorthand property with
  | false =>
    rw [expand_of_not_shorthand hp,List.mem_singleton] at hl
    rw [hl]
    exact ⟨hname,hp⟩
  | true =>
    have hexpands := expand_expands hp v
    refine ⟨?_,hexpands.settled l hl⟩
    have hplain := PropertyName.isPlain_of_mem_longhandsOf hexpands.names (List.mem_map_of_mem hl)
    rw [PropertyName.unprefixed,hplain.unprefixedChars,String.ofList_toList]

/-- A setting of faithful nodes, of a property that has no second mark, is what it expands to itself. So
are all settings of a value of faithful nodes, and all settings of a text of steady tokens. -/
theorem expandProperty_again {property text : String} {ls : List Longhand}
    (hname : PropertyName.unprefixed (PropertyName.unprefixed property) =
      PropertyName.unprefixed property)
    (hls : ({} : Expander).longhands property text = .ok ls) :
    (∀ l ∈ ls, allFaithful l.value.flatten = true → ∀ s, ({} : Expander).setting? l = some s →
      ({} : Expander).expandProperty s.property s.value = .ok [s]) ∧
    (∀ v, parse text = .ok v → allFaithful v.flatten = true →
      ∃ ss, ({} : Expander).expandProperty property text = .ok ss ∧
        ∀ s ∈ ss, ({} : Expander).expandProperty s.property s.value = .ok [s]) ∧
    (Component.allSteady (Component.ofText text) = true →
      ∃ ss, ({} : Expander).expandProperty property text = .ok ss ∧
        ∀ s ∈ ss, ({} : Expander).expandProperty s.property s.value = .ok [s]) := by
  obtain ⟨v,hv,rfl⟩ := map_eq_ok.1 hls
  have hspaced := isSpaced_withoutImportance (isSpaced_of_parse hv)
  have hagain : ∀ l ∈ expand (PropertyName.unprefixed property) v.withoutImportance,
      allFaithful l.value.flatten = true → ∀ s, ({} : Expander).setting? l = some s →
        ({} : Expander).expandProperty s.property s.value = .ok [s] := by
    intro l hl hnodes s hs
    obtain ⟨hfixed,hp⟩ := unprefixed_of_mem_expand hname hl
    exact expandProperty_setting hfixed hp (expand_spaced _ hspaced l hl) hnodes hs
  have hall : allFaithful v.flatten = true →
      ∃ ss, ({} : Expander).expandProperty property text = .ok ss ∧
        ∀ s ∈ ss, ({} : Expander).expandProperty s.property s.value = .ok [s] := by
    intro hnodes
    refine ⟨_,expandProperty_of_parse hv,?_⟩
    intro s hs
    obtain ⟨l,hl,hs⟩ := List.mem_filterMap.1 hs
    exact hagain l hl (expand_faithful (allFaithful_withoutImportance hnodes) _ l hl) s hs
  refine ⟨hagain,?_,fun hsteady => hall (allFaithful_of_parse hsteady hv)⟩
  intro w hw hnodes
  rw [hv] at hw
  cases hw
  exact hall hnodes

/-- A font, whose name has a mark and capital letters, whose size was written with an exponent, and whose
line height is a percentage with a fraction. -/
theorem expandProperty_again_font :
    let text := "italic 15e-1em/66.67% \"A b\",serif"
    PropertyName.unprefixed (PropertyName.unprefixed "-webkit-FONT") =
      PropertyName.unprefixed "-webkit-FONT" ∧
    Component.allSteady (Component.ofText text) = true ∧
    (∃ ls, ({} : Expander).longhands "-webkit-FONT" text = .ok ls) ∧
    ∃ ss, ({} : Expander).expandProperty "-webkit-FONT" text = .ok ss ∧
      ∀ s ∈ ss, ({} : Expander).expandProperty s.property s.value = .ok [s] := by
  intro text
  have hname : PropertyName.unprefixed (PropertyName.unprefixed "-webkit-FONT") =
      PropertyName.unprefixed "-webkit-FONT" := by decide +kernel
  have hread : Component.ofText text =
      [.plain (.ident "italic") "italic".toList,.plain .space [' '],
       .plain (.dimension ⟨false,false,[1,5],[],some (-1)⟩ "em") "15e-1em".toList,
       .plain (.delim '/') ['/'],.plain (.percentage ⟨false,false,[6,6],[6,7],none⟩) "66.67%".toList,
       .plain .space [' '],.plain (.quoted "A b") "\"A b\"".toList,.plain .comma [','],
       .plain (.ident "serif") "serif".toList] := by cbv
  have hsteady : Component.allSteady (Component.ofText text) = true := by
    rw [hread]
    decide +kernel
  have hv := parse_of_ofText hread rfl
  have hls : ∃ ls, ({} : Expander).longhands "-webkit-FONT" text = .ok ls := by
    rw [longhands,hv]
    exact ⟨_,rfl⟩
  obtain ⟨ls,hls⟩ := hls
  exact ⟨hname,hsteady,⟨ls,hls⟩,(expandProperty_again hname hls).2.2 hsteady⟩

/-- The hundredth of a percentage is rounded once more, a name is written without its escape, an integer
from the text of a number with an exponent is kept to 32 bits, and a second mark is taken away. -/
theorem expandProperty_changes :
    (({} : Expander).expandProperty "width" "8.1549%" = .ok [⟨"width","8.154901%"⟩] ∧
      ({} : Expander).expandProperty "width" "8.154901%" = .ok [⟨"width","8.154902%"⟩]) ∧
    (({} : Expander).expandProperty "width" "a\\.b" = .ok [⟨"width","a.b"⟩] ∧
      ({} : Expander).expandProperty "width" "a.b" = .ok []) ∧
    (({} : Expander).expandProperty "z-index" "1e10" = .ok [⟨"z-index","10000000000"⟩] ∧
      ({} : Expander).expandProperty "z-index" "10000000000" = .ok [⟨"z-index","2147483647"⟩]) ∧
    ({} : Expander).expandProperty "-webkit--moz-foo" "x" = .ok [⟨"-moz-foo","x"⟩] ∧
    ({} : Expander).expandProperty "-moz-foo" "x" = .ok [⟨"foo","x"⟩] := by
  have hexpands : ∀ {property text canonical written : String} {vs : List Value},
      parse text = .ok (list vs) → (list vs).generate = .ok written →
      PropertyName.unprefixed property = canonical → isShorthand canonical = false →
      ({} : Expander).expandProperty property text = .ok [⟨canonical,written⟩] := by
    rintro property text canonical written vs hv hw rfl hp
    exact expandProperty_of_not_shorthand hv hw hp
  have hfirst : Component.ofText "8.1549%" =
      [.plain (.percentage ⟨false,false,[8],[1,5,4,9],none⟩) "8.1549%".toList] := by cbv
  have hsecond : Component.ofText "8.154901%" =
      [.plain (.percentage ⟨false,false,[8],[1,5,4,9,0,1],none⟩) "8.154901%".toList] := by cbv
  have hescaped : Component.ofText "a\\.b" = [.plain (.ident "a.b") "a\\.b".toList] := by cbv
  have hdotted : Component.ofText "a.b" =
      [.plain (.ident "a") ['a'],.plain (.delim '.') ['.'],.plain (.ident "b") ['b']] := by cbv
  have hpower : Component.ofText "1e10" =
      [.plain (.number ⟨false,false,[1],[],some 10⟩) "1e10".toList] := by cbv
  have hinteger : Component.ofText "10000000000" =
      [.plain (.number ⟨false,false,[1,0,0,0,0,0,0,0,0,0,0],[],none⟩) "10000000000".toList] := by cbv
  have hword : Component.ofText "x" = [.plain (.ident "x") ['x']] := by cbv
  have hnames : PropertyName.unprefixed "width" = "width" ∧
      PropertyName.unprefixed "z-index" = "z-index" ∧
      PropertyName.unprefixed "-webkit--moz-foo" = "-moz-foo" ∧
      PropertyName.unprefixed "-moz-foo" = "foo" ∧
      ∀ name ∈ ["width","z-index","-moz-foo","foo"], isShorthand name = false := by
    decide +kernel
  simp only [List.forall_mem_cons] at hnames
  obtain ⟨hwidth,hindex,hwebkit,hmoz,hwidth',hindex',hmoz',hfoo',_⟩ := hnames
  refine ⟨⟨?_,?_⟩,⟨?_,?_⟩,⟨?_,?_⟩,?_,?_⟩
  · exact hexpands (parse_of_ofText hfirst rfl) (by decide +kernel) hwidth hwidth'
  · exact hexpands (parse_of_ofText hsecond rfl) (by decide +kernel) hwidth hwidth'
  · exact hexpands (parse_of_ofText hescaped rfl) rfl hwidth hwidth'
  · have hlonghand : ∀ v, expand (({} : Expander).canonical "width") v =
        [⟨PropertyName.unprefixed "width",v⟩] :=
      expand_of_not_shorthand (hwidth.symm ▸ hwidth')
    rw [expandProperty_of_parse (parse_of_ofText hdotted rfl),hlonghand]
    rfl
  · exact hexpands (parse_of_ofText hpower rfl) (by decide +kernel) hindex hindex'
  · exact hexpands (parse_of_ofText hinteger rfl) (by decide +kernel) hindex hindex'
  · exact hexpands (parse_of_ofText hword rfl) rfl hwebkit hmoz'
  · exact hexpands (parse_of_ofText hword rfl) rfl hmoz hfoo'

end Expander

end StyleExpansion
