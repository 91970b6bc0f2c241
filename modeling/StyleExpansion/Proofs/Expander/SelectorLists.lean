import Mathlib
import StyleExpansion.Expander
import StyleExpansion.Proofs.Sheet.Filler

/-! # Lists of selectors

A rule with two lists of selectors, one after the other with a comma in between, sets what a rule with
the first list sets and then what a rule with the second one sets. The selectors are those of the two
lists, but for the end of the first one: what follows its last comma is passed over at the end of a list
if it is white space and comments only, and before a comma a comment counts as a selector without a
target.
-/
namespace StyleExpansion
open Component Token

/-! ## Parts -/

theorem exists_splitAt_concat {α : Type} (p : α → Bool) (as : List α) :
    ∃ parts part, splitAt p as = parts ++ [part] := by
  obtain ⟨first,rest,h,-⟩ := Sheet.exists_splitAt p as
  exact ⟨_,_,h.trans (List.dropLast_concat_getLast (List.cons_ne_nil first rest)).symm⟩

theorem subset_of_mem_splitAt {α : Type} {p : α → Bool} {as part : List α} (h : part ∈ splitAt p as) :
    part ⊆ as := by
  induction as generalizing part with
  | nil => simpa [splitAt] using h
  | cons a as ih =>
    obtain ⟨first,rest,hsplit,-⟩ := Sheet.exists_splitAt p as
    rw [splitAt,hsplit] at h
    rw [hsplit] at ih
    split at h
    · rcases List.mem_cons.1 h with rfl | h
      · exact List.nil_subset _
      · exact List.subset_cons_of_subset a (ih h)
    · rcases List.mem_cons.1 h with rfl | h
      · exact List.cons_subset_cons a (ih List.mem_cons_self)
      · exact List.subset_cons_of_subset a (ih (List.mem_cons_of_mem _ h))

/-- A list is split at a separator between two others into the parts of both. -/
theorem splitAt_append_cons {α : Type} {p : α → Bool} {b : α} (hb : p b = true) (as bs : List α) :
    splitAt p (as ++ b :: bs) = splitAt p as ++ splitAt p bs := by
  induction as with
  | nil => simp [splitAt,hb]
  | cons a as ih =>
    rw [List.cons_append,splitAt,splitAt,ih]
    split
    · rfl
    · obtain ⟨part,rest,hsplit,-⟩ := Sheet.exists_splitAt p as
      rw [hsplit]
      rfl

theorem mem_textOf {d : Char} {cs : List Component} : d ∈ textOf cs ↔ ∃ c ∈ cs, d ∈ c.text := by
  induction cs with
  | nil => simp [textOf]
  | cons c cs ih => simp [textOf,ih]

/-- The components of two texts with a comma in between, the first of them closed. -/
theorem ofText_append_comma {p : String} (hs : Sealed p.toList)
    (hc : ∀ c ∈ ofText p, c.isClosed = true) (q : String) :
    ofText (p ++ "," ++ q) = ofText p ++ .plain .comma [','] :: ofText q := by
  have htext : (p ++ "," ++ q).toList = p.toList ++ ',' :: q.toList := by simp
  rw [ofText,htext]
  exact parse_append_mark hs hc (by decide) (by simp [markToken]) (by simp [markToken]) q.toList

namespace Selector

def lastPart (text : String) : List Component := ((splitAt isComma (ofText text)).getLast?).getD []

/-- The selector that white space and comments after the last comma are before another comma: none if
there is no comment. -/
def remnant (text : String) : List Selector :=
  if allSkipped (lastPart text) && (lastPart text).any isComment then
    [⟨String.ofList (Text.trim (textOf (lastPart text))),none⟩]
  else []

/-- The parts of two lists with a comma in between are those of both, with the end of the first one. -/
theorem parts_append_comma (as bs : List Component) {source : List Char} :
    parts (as ++ .plain .comma source :: bs) = parts as ++
      (if allSkipped (((splitAt isComma as).getLast?).getD []) then
        [((splitAt isComma as).getLast?).getD []] else []) ++ parts bs := by
  obtain ⟨xs,x,hx⟩ := exists_splitAt_concat isComma as
  obtain ⟨ys,y,hy⟩ := exists_splitAt_concat isComma bs
  rw [parts,splitAt_append_cons rfl,parts,parts,hx,hy]
  simp only [← List.append_assoc,List.getLast?_concat,List.dropLast_concat,Option.getD_some]
  cases allSkipped x <;> cases allSkipped y <;> simp

theorem readTarget_allSkipped {cs : List Component} (h : allSkipped cs = true) (types : Bool) :
    readTarget types cs = none := by
  have hskip := Sheet.readTarget_skipped (List.all_eq_true.1 h) types []
  rwa [List.append_nil] at hskip

theorem text_of_isSkipped {text : String} {c : Component} (hc : c ∈ ofText text)
    (h : c.isSkipped = true) : c.isComment = false ∧ (∀ d ∈ c.text, Text.isBlank d = true) ∨
      c.isComment = true ∧ '/' ∈ c.text := by
  cases c with
  | block => cases h
  | plain t source =>
    rcases lexemes_skipped _ _ (mem_lexemes_of_mem_parse hc) h with ⟨ht,hs⟩ | ⟨ht,r,hs⟩
    · cases ht
      exact Or.inl ⟨rfl,fun d hd => Sheet.isBlank_of_isSpace (hs d hd)⟩
    · cases ht
      have hsource : source = '/' :: r := hs
      refine Or.inr ⟨rfl,?_⟩
      rw [Component.text,hsource]
      exact List.mem_cons_self

/-- Of white space and comments, only a comment leaves a text. -/
theorem trim_allSkipped {text : String} {cs : List Component} (hcs : cs ⊆ ofText text)
    (h : allSkipped cs = true) : (Text.trim (textOf cs)).isEmpty = !cs.any isComment := by
  have hskip := List.all_eq_true.1 h
  cases hcomment : cs.any isComment with
  | true =>
    obtain ⟨c,hc,hc'⟩ := List.any_eq_true.1 hcomment
    obtain ⟨-,hs⟩ := (text_of_isSkipped (hcs hc) (hskip c hc)).resolve_left fun hn => by simp [hc'] at hn
    have hslash : '/' ∈ textOf cs := mem_textOf.2 ⟨c,hc,hs⟩
    exact List.isEmpty_eq_false_iff.2 (Sheet.trim_ne_nil hslash (by decide))
  | false =>
    have htext : ∀ d ∈ textOf cs, Text.isBlank d = true := by
      intro d hd
      obtain ⟨c,hc,hd⟩ := mem_textOf.1 hd
      have hnone := List.any_eq_false.1 hcomment c hc
      exact ((text_of_isSkipped (hcs hc) (hskip c hc)).resolve_right fun hs => hnone hs.1).2 d hd
    rw [Text.trim,List.dropWhile_eq_nil_iff.2 htext]
    rfl

theorem lastPart_subset (text : String) : lastPart text ⊆ ofText text := by
  obtain ⟨parts,part,h⟩ := exists_splitAt_concat isComma (ofText text)
  rw [lastPart,h,List.getLast?_concat,Option.getD_some]
  exact subset_of_mem_splitAt (h ▸ List.mem_append_right _ List.mem_cons_self)

/-- Before another comma, what follows the last comma is a selector if it has a comment. -/
theorem filter_lastPart (types : Bool) (text : String) :
    ((if allSkipped (lastPart text) then [lastPart text] else []).map (ofComponents types)).filter
      (fun s => !s.text.isEmpty) = remnant text := by
  rw [remnant]
  cases hskip : allSkipped (lastPart text) with
  | false => rfl
  | true =>
    have hempty := trim_allSkipped (lastPart_subset text) hskip
    rw [if_pos rfl,List.map_singleton,ofComponents,readTarget_allSkipped hskip]
    cases hcomment : (lastPart text).any isComment with
    | false =>
      rw [hcomment,Bool.not_false,List.isEmpty_iff] at hempty
      simp [hempty]
    | true =>
      rw [hcomment,Bool.not_true,List.isEmpty_eq_false_iff] at hempty
      simp [hempty]

/-- The selectors of two lists with a comma in between. -/
theorem all_append_comma (types : Bool) {p : String} (hs : Sealed p.toList)
    (hc : ∀ c ∈ ofText p, c.isClosed = true) (q : String) :
    all types (p ++ "," ++ q) = all types p ++ remnant p ++ all types q := by
  rw [all,ofText_append_comma hs hc,parts_append_comma,List.map_append,List.map_append,
    List.filter_append,List.filter_append,← lastPart,filter_lastPart]
  rfl

end Selector

namespace Expander

/-- The records that a rule with a list of selectors and some declarations sets, one after the other. -/
def listRecords (e : Expander) (selectors : String) (ds : List Declaration) : List Record :=
  ((Selector.all e.typeSelectors selectors).filterMap (·.target)).flatMap fun t =>
    ((e.applied ds).flatMap e.settings).map fun s => ⟨t.selector,t.state,s.property,s.value⟩

/-- A style rule sets what its list of selectors sets with its declarations. -/
theorem ruleRecords_eq (e : Expander) (r : StyleRule) :
    e.ruleRecords r = e.listRecords r.prelude (Declaration.all r.block) := rfl

/-- A list of selectors is its selectors one by one: a rule with two lists does to a table what a rule
with the first one and then a rule with the second one do, if nothing is open where the first one ends,
so that the comma after it is a token of its own. -/
theorem putAll_listRecords_comma (e : Expander) (t : Table) (ds : List Declaration) {p : String}
    (hcomma : ∃ xs, lexemes (p.toList ++ [',']) = xs ++ [⟨.comma,[',']⟩])
    (hc : ∀ c ∈ ofText p, c.isClosed = true) (q : String) :
    t.putAll (e.listRecords (p ++ "," ++ q) ds) =
      (t.putAll (e.listRecords p ds)).putAll (e.listRecords q ds) ∧
    ∀ types : Bool, Selector.all types (p ++ "," ++ q) =
      Selector.all types p ++ Selector.remnant p ++ Selector.all types q := by
  obtain ⟨xs,hxs⟩ := hcomma
  have hs : Sealed p.toList := sealed_of_last (isBreak_of_mark (by decide)) hxs rfl
  have hremnant : (Selector.remnant p).filterMap (·.target) = [] := by
    rw [Selector.remnant]
    split <;> rfl
  refine ⟨?_,fun types => Selector.all_append_comma types hs hc q⟩
  rw [listRecords,Selector.all_append_comma _ hs hc,List.filterMap_append,List.filterMap_append,hremnant,
    List.append_nil,List.flatMap_append,Table.putAll,List.foldl_append]
  rfl

/-- A comma in a pseudo-class splits nothing, and a comment before a comma is a selector. -/
theorem putAll_listRecords_comment :
    (∃ xs, lexemes (".a:is(.b, .c),/**/".toList ++ [',']) = xs ++ [⟨.comma,[',']⟩]) ∧
    (∀ c ∈ ofText ".a:is(.b, .c),/**/", c.isClosed = true) ∧
    (Table.empty.putAll (({} : Expander).listRecords (".a:is(.b, .c),/**/" ++ "," ++ ".d")
          [⟨"x","y",false⟩]) =
        (Table.empty.putAll (({} : Expander).listRecords ".a:is(.b, .c),/**/" [⟨"x","y",false⟩])).putAll
          (({} : Expander).listRecords ".d" [⟨"x","y",false⟩]) ∧
      ∀ types : Bool, Selector.all types (".a:is(.b, .c),/**/" ++ "," ++ ".d") =
        Selector.all types ".a:is(.b, .c),/**/" ++ Selector.remnant ".a:is(.b, .c),/**/" ++
          Selector.all types ".d") ∧
    Selector.remnant ".a:is(.b, .c),/**/" = [⟨"/**/",none⟩] := by
  have hlexemes : lexemes (".a:is(.b, .c),/**/".toList ++ [',']) =
      [⟨.delim '.',['.']⟩,⟨.ident "a",['a']⟩,⟨.colon,[':']⟩,⟨.opening (.function "is"),['i','s','(']⟩,
        ⟨.delim '.',['.']⟩,⟨.ident "b",['b']⟩,⟨.comma,[',']⟩,⟨.space,[' ']⟩,⟨.delim '.',['.']⟩,
        ⟨.ident "c",['c']⟩,⟨.closing .round,[')']⟩,⟨.comma,[',']⟩,⟨.comment,['/','*','*','/']⟩] ++
        [⟨.comma,[',']⟩] := by cbv
  have hc : (ofText ".a:is(.b, .c),/**/").all isClosed = true := by cbv
  have hc := List.all_eq_true.1 hc
  have hremnant : Selector.remnant ".a:is(.b, .c),/**/" = [⟨"/**/",none⟩] := by cbv
  exact ⟨⟨_,hlexemes⟩,hc,
    putAll_listRecords_comma {} Table.empty [⟨"x","y",false⟩] ⟨_,hlexemes⟩ hc ".d",hremnant⟩

end Expander

end StyleExpansion
