import Mathlib
import StyleExpansion.Proofs.Record.Table
import StyleExpansion.Proofs.Selector.Scan

/-! # Type selectors

With type selectors counted, a sheet sets what it sets without them and what the rules for types set, in
the order of the sheet. A record does not say whether its selector is a class or a type, so that a rule
for a type may set anew what a class of the same name had set before.
-/
namespace StyleExpansion

namespace Selector

def isClass (cs : List Component) : Bool :=
  match uncommented cs with
  | .plain (.delim '.') _ :: _ => true
  | _ => false

/-- A class is read in the same way whether types count or not. -/
theorem readTarget_of_isClass {cs : List Component} (h : isClass cs = true) (types : Bool) :
    readTarget types cs = readTarget true cs := by
  unfold isClass at h
  split at h
  · next hcs =>
    rw [readTarget_eq_formTarget,readTarget_eq_formTarget]
    unfold formTarget
    rw [hcs]
    split <;> simp_all
  · cases h

theorem readTarget_of_not_isClass {cs : List Component} (h : isClass cs = false) :
    readTarget false cs = none := by
  rw [readTarget_eq_formTarget]
  unfold formTarget
  split
  · next hcs => simp [isClass,hcs] at h
  · rfl
  · rfl

def sources (text : String) : List (Bool × Target) :=
  ((parts (Component.ofText text)).filter fun cs => !(ofComponents true cs).text.isEmpty).filterMap
    fun cs => (readTarget true cs).map (isClass cs,·)

theorem targets_all_true (text : String) :
    (all true text).filterMap (·.target) = (sources text).map (·.2) := by
  simp only [all,sources,List.filter_map,List.filterMap_map,List.map_filterMap]
  refine List.filterMap_congr fun cs _ => ?_
  cases h : readTarget true cs <;> simp [ofComponents,h]

theorem targets_all_false (text : String) :
    (all false text).filterMap (·.target) = ((sources text).filter (·.1)).map (·.2) := by
  simp only [all,sources,List.filter_map,List.filterMap_map,List.filter_filterMap,List.map_filterMap]
  refine List.filterMap_congr fun cs _ => ?_
  cases hclass : isClass cs with
  | false => cases h : readTarget true cs <;> simp [ofComponents,readTarget_of_not_isClass hclass]
  | true => cases h : readTarget true cs <;> simp [ofComponents,readTarget_of_isClass hclass false,h]

end Selector

namespace Record

/-- Of the values that are left if some of the records are not set, each is the latest one, or a record
that would not have been set has its key and is set last. -/
theorem Latest.filter {all some : List Record} {set : List (Bool × Record)}
    (hall : Latest all (set.map (·.2))) (hsome : Latest some ((set.filter (·.1)).map (·.2)))
    {r : Record} (hr : r ∈ some) : r ∈ all ∨ ∃ s ∈ all, s.key = r.key ∧
      ∃ before after, set = before ++ (false,s) :: after ∧ ∀ x ∈ after, x.2.key ≠ r.key := by
  have hvalue := hsome.values r hr
  have hkey : r.key ∈ (set.map (·.2)).map key := by
    obtain ⟨x,hx,hk⟩ := List.mem_map.1 (mem_keys_of_lastValue hvalue)
    obtain ⟨y,hy,rfl⟩ := List.mem_map.1 hx
    exact List.mem_map.2 ⟨_,List.mem_map.2 ⟨y,(List.mem_filter.1 hy).1,rfl⟩,hk⟩
  obtain ⟨before,⟨counted,s⟩,after,rfl,hs,hafter⟩ := exists_last hkey
  have hlast : ∀ xs : List (Bool × Record), (∀ x ∈ xs, x ∈ after) →
      ∀ t ∈ xs.map (·.2), t.key ≠ s.key := by
    intro xs hxs t ht
    obtain ⟨x,hx,rfl⟩ := List.mem_map.1 ht
    exact fun h => hafter x (hxs x hx) (h.trans hs)
  have hmem : s ∈ all := by
    rw [hall.mem_iff,List.map_append,List.map_cons]
    exact lastValue_append_cons _ (hlast after fun _ h => h)
  cases counted with
  | false => exact Or.inr ⟨s,hmem,hs,before,after,rfl,hafter⟩
  | true =>
    have hfiltered := lastValue_append_cons ((before.filter (·.1)).map (·.2))
      (hlast (after.filter (·.1)) fun _ h => (List.mem_filter.1 h).1)
    rw [List.filter_append,List.filter_cons_of_pos rfl,List.map_append,List.map_cons,← hs,
      hfiltered] at hvalue
    exact Or.inl (ext_key hs (Option.some.inj hvalue) ▸ hmem)

end Record

namespace Expander

def targetRecords (e : Expander) (r : StyleRule) (t : Target) : List Record :=
  ((e.declarations r).flatMap e.settings).map fun s => ⟨t.selector,t.state,s.property,s.value⟩

def markedRecords (e : Expander) (css : String) : List (Bool × Record) :=
  (Sheet.rules css).flatMap fun r =>
    (Selector.sources r.prelude).flatMap fun t => (e.targetRecords r t.2).map (t.1,·)

theorem map_marked {α β : Type} (ts : List (Bool × α)) (f : α → List β) :
    (ts.flatMap fun t => (f t.2).map (t.1,·)).map (·.2) = (ts.map (·.2)).flatMap f := by
  simp [List.map_flatMap,List.flatMap_map,Function.comp_def]

theorem filter_marked {α β : Type} (ts : List (Bool × α)) (f : α → List β) :
    ((ts.flatMap fun t => (f t.2).map (t.1,·)).filter (·.1)).map (·.2) =
      ((ts.filter (·.1)).map (·.2)).flatMap f := by
  induction ts with
  | nil => rfl
  | cons t ts ih =>
    obtain ⟨mark,a⟩ := t
    rw [List.flatMap_cons,List.filter_append,List.map_append,ih]
    cases mark <;> simp [List.filter_map,Function.comp_def]

theorem sheetRecords_true (e : Expander) (css : String) :
    ({e with typeSelectors := true}).sheetRecords css = (e.markedRecords css).map (·.2) := by
  rw [markedRecords,List.map_flatMap,sheetRecords]
  refine List.flatMap_congr fun r _ => ?_
  rw [map_marked,← Selector.targets_all_true]
  rfl

theorem sheetRecords_false (e : Expander) (css : String) :
    ({e with typeSelectors := false}).sheetRecords css =
      ((e.markedRecords css).filter (·.1)).map (·.2) := by
  rw [markedRecords,List.filter_flatMap,List.map_flatMap,sheetRecords]
  refine List.flatMap_congr fun r _ => ?_
  rw [filter_marked,← Selector.targets_all_false]
  rfl

/-- Whoever counts types too gets every key that the classes set, with the value that the classes give it
unless a type of the same name and state sets the property after them. -/
theorem parseSheet_typeSelectors (gate : Gate) (e : Expander) (css : String) :
    ∀ r ∈ ({e with typeSelectors := false}).parseSheet gate css,
      r ∈ ({e with typeSelectors := true}).parseSheet gate css ∨
      ∃ s ∈ ({e with typeSelectors := true}).parseSheet gate css, s.key = r.key ∧
        ∃ before after, e.markedRecords css = before ++ (false,s) :: after ∧
          ∀ x ∈ after, x.2.key ≠ r.key := by
  intro r hr
  by_cases haccepted : gate css = none
  · have hall := parseSheet_latest haccepted {e with typeSelectors := true}
    have hclasses := parseSheet_latest haccepted {e with typeSelectors := false}
    rw [sheetRecords_true] at hall
    rw [sheetRecords_false] at hclasses
    exact hall.filter hclasses hr
  · rw [parseSheet_of_rejected haccepted] at hr
    cases hr

def classThenType : String := ".a\x7bcolor:red\x7da\x7bcolor:blue\x7d"

theorem markedRecords_classThenType : ({} : Expander).markedRecords classThenType =
    [(true,⟨"a",none,"color","red"⟩),(false,⟨"a",none,"color","blue"⟩)] := by
  have hrules : Sheet.rules classThenType =
      [⟨".a",Component.ofText "color:red"⟩,⟨"a",Component.ofText "color:blue"⟩] := by cbv
  have hred : Declaration.all (Component.ofText "color:red") = [⟨"color","red",false⟩] := by cbv
  have hblue : Declaration.all (Component.ofText "color:blue") = [⟨"color","blue",false⟩] := by cbv
  have hclass : Selector.sources ".a" = [(true,⟨"a",none⟩)] := by cbv
  have htype : Selector.sources "a" = [(false,⟨"a",none⟩)] := by cbv
  have hsettings : [(⟨"color","red",false⟩ : Declaration),⟨"color","blue",false⟩].map
      ({} : Expander).settings = [[⟨"color","red"⟩],[⟨"color","blue"⟩]] := by decide +kernel
  simp only [List.map_cons,List.map_nil,List.cons.injEq,and_true] at hsettings
  simp [markedRecords,targetRecords,declarations,applied,hrules,hclass,htype,hred,hblue,hsettings]

theorem parseSheet_classThenType :
    ({typeSelectors := false} : Expander).parseSheet (fun _ => none) classThenType =
      [⟨"a",none,"color","red"⟩] ∧
    ({typeSelectors := true} : Expander).parseSheet (fun _ => none) classThenType =
      [⟨"a",none,"color","blue"⟩] := by
  have hall := sheetRecords_true {} classThenType
  have hclasses := sheetRecords_false {} classThenType
  rw [markedRecords_classThenType] at hall hclasses
  constructor
  · rw [parseSheet,hclasses]
    rfl
  · rw [parseSheet,hall]
    rfl

/-- A type that is set after a class of the same name takes its place. -/
theorem parseSheet_type_after_class :
    ¬∀ r ∈ ({typeSelectors := false} : Expander).parseSheet (fun _ => none) classThenType,
      r ∈ ({typeSelectors := true} : Expander).parseSheet (fun _ => none) classThenType := by
  rw [parseSheet_classThenType.1,parseSheet_classThenType.2]
  decide

/-- The class that the type takes the place of. -/
theorem parseSheet_typeSelectors_red :
    (⟨"a",none,"color","red"⟩ : Record) ∈
      ({({} : Expander) with typeSelectors := false}).parseSheet (fun _ => none) classThenType ∧
    ((⟨"a",none,"color","red"⟩ : Record) ∈
        ({({} : Expander) with typeSelectors := true}).parseSheet (fun _ => none) classThenType ∨
      ∃ s ∈ ({({} : Expander) with typeSelectors := true}).parseSheet (fun _ => none) classThenType,
        s.key = ("a",none,"color") ∧
        ∃ before after, ({} : Expander).markedRecords classThenType = before ++ (false,s) :: after ∧
          ∀ x ∈ after, x.2.key ≠ ("a",none,"color")) := by
  have hred : (⟨"a",none,"color","red"⟩ : Record) ∈
      ({({} : Expander) with typeSelectors := false}).parseSheet (fun _ => none) classThenType := by
    rw [parseSheet_classThenType.1]
    exact List.mem_cons_self
  exact ⟨hred,parseSheet_typeSelectors (fun _ => none) {} classThenType _ hred⟩

end Expander

end StyleExpansion
