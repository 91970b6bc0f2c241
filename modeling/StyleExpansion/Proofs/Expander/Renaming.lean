import Mathlib
import StyleExpansion.Proofs.PropertyName
import StyleExpansion.Proofs.Record.Table

/-! # Names in camel case across a sheet

Whether property names are given out in camel case makes no other difference to the records of a sheet if
the names are regular: no two of these have the same camel case, so that no record takes the place of
another one.
-/
namespace StyleExpansion

namespace PropertyName

/-- A custom name, or words with single hyphens between them that are no alias, or such words after a
hyphen, of which the first is not the mark that stays in lower case. -/
inductive IsRegular : List Char → Prop
  | custom {n : List Char} (h : isCustom n = true) : IsRegular n
  | words {n : List Char} (h : Worded true n) (own : ∀ a ∈ aliases, a.1.toList ≠ n) : IsRegular n
  | marked {n : List Char} (h : Worded true n) (first : n.takeWhile (· ≠ '-') ≠ ['m','s']) :
    IsRegular ('-' :: n)

/-- Words after a hyphen are in camel case as they are. -/
theorem camelCaseChars_of_marked {n : List Char} (h : Worded true n)
    (first : n.takeWhile (· ≠ '-') ≠ ['m','s']) :
    camelCaseChars ('-' :: n) = joinWords false ('-' :: n) := by
  have hworded : Worded false ('-' :: n) := ⟨rfl,h⟩
  have hcustom : isCustom ('-' :: n) = false := h.isPrefixOf_hyphen []
  have hown : ∀ a ∈ aliases, a.1.toList ≠ '-' :: n := by
    intro a ha hn
    simp only [aliases,List.mem_cons,List.not_mem_nil,or_false] at ha
    rcases ha with rfl | rfl <;> simp at hn
  have hms : "-ms-".toList.isPrefixOf ('-' :: n) = false := by
    rw [Bool.eq_false_iff]
    intro hp
    obtain ⟨t,ht⟩ := List.isPrefixOf_iff_prefix.1 hp
    obtain rfl : 'm' :: 's' :: '-' :: t = n := (List.cons.inj ht).2
    exact first rfl
  rw [camelCaseChars,hcustom,hworded.plain,resolve_of_own hown,joined,hms]
  rfl

/-- A regular name is custom and its own camel case, or it can be read back from its camel case. -/
theorem IsRegular.readBack {n : List Char} (h : IsRegular n) :
    isCustom n = true ∧ camelCaseChars n = n ∨
      isCustom n = false ∧ (camelCaseChars n).flatMap separated = n := by
  cases h with
  | custom h => exact Or.inl ⟨h,if_pos h⟩
  | words h own =>
    refine Or.inr ⟨h.isPrefixOf_hyphen ['-'],?_⟩
    rw [camelCaseChars_of_words h own,flatMap_joinWords h.weaken]
    rfl
  | @marked m h first =>
    have hworded : Worded false ('-' :: m) := ⟨rfl,h⟩
    refine Or.inr ⟨h.isPrefixOf_hyphen [],?_⟩
    rw [camelCaseChars_of_marked h first,flatMap_joinWords hworded]
    rfl

theorem isCustom_flatMap_separated {n : List Char} (h : isCustom n = true) :
    isCustom (n.flatMap separated) = true := by
  obtain ⟨t,rfl⟩ := List.isPrefixOf_iff_prefix.1 h
  rfl

theorem camelCaseChars_inj {a b : List Char} (ha : IsRegular a) (hb : IsRegular b)
    (h : camelCaseChars a = camelCaseChars b) : a = b := by
  rcases ha.readBack with ⟨hca,ha⟩ | ⟨hca,ha⟩ <;> rcases hb.readBack with ⟨hcb,hb⟩ | ⟨hcb,hb⟩
  · rw [← ha,← hb,h]
  · have hcustom := isCustom_flatMap_separated hca
    rw [← ha,h,hb,hcb] at hcustom
    cases hcustom
  · have hcustom := isCustom_flatMap_separated hcb
    rw [← hb,← h,ha,hca] at hcustom
    cases hcustom
  · rw [← ha,← hb,h]

theorem camelCase_inj_of_regular {a b : String} (ha : IsRegular a.toList) (hb : IsRegular b.toList)
    (h : camelCase a = camelCase b) : a = b :=
  String.toList_inj.1 (camelCaseChars_inj ha hb (String.ofList_inj.1 h))

end PropertyName

namespace Record

def rename (f : String → String) (r : Record) : Record := {r with property := f r.property}

variable {f : String → String} {p : String → Prop}
  (hf : ∀ a b, p a → p b → f a = f b → a = b)

theorem forall_property_put {rs : List Record} {r : Record} (hrs : ∀ s ∈ rs, p s.property)
    (hr : p r.property) : ∀ s ∈ put rs r, p s.property := by
  induction rs with
  | nil => exact List.forall_mem_singleton.2 hr
  | cons u rs ih =>
    obtain ⟨hu,hrs⟩ := List.forall_mem_cons.1 hrs
    rw [put]
    split
    · exact List.forall_mem_cons.2 ⟨hu,hrs⟩
    · exact List.forall_mem_cons.2 ⟨hu,ih hrs⟩

include hf in
/-- Names that stay apart may be changed before or after a value is set. -/
theorem put_rename {rs : List Record} {r : Record} (hrs : ∀ s ∈ rs, p s.property)
    (hr : p r.property) : put (rs.map (rename f)) (r.rename f) = (put rs r).map (rename f) := by
  induction rs with
  | nil => rfl
  | cons u rs ih =>
    obtain ⟨hu,hrs⟩ := List.forall_mem_cons.1 hrs
    have hkey : (u.rename f).key = (r.rename f).key ↔ u.key = r.key := by
      simp only [key,rename,Prod.mk.injEq]
      refine and_congr_right fun _ => and_congr_right fun _ => ?_
      exact ⟨hf _ _ hu hr,congrArg f⟩
    rw [List.map_cons,put,put]
    by_cases hk : u.key = r.key
    · rw [if_pos hk,if_pos (hkey.2 hk)]
      rfl
    · rw [if_neg hk,if_neg (mt hkey.1 hk),ih hrs]
      rfl

include hf in
theorem putAll_rename {rs new : List Record} (hrs : ∀ s ∈ rs, p s.property)
    (hnew : ∀ s ∈ new, p s.property) :
    putAll (rs.map (rename f)) (new.map (rename f)) = (putAll rs new).map (rename f) := by
  induction new generalizing rs with
  | nil => rfl
  | cons r new ih =>
    obtain ⟨hr,hnew⟩ := List.forall_mem_cons.1 hnew
    rw [List.map_cons,putAll,List.foldl_cons,put_rename hf hrs hr,← putAll,
      ih (forall_property_put hrs hr) hnew]
    rfl

end Record

def Setting.rename (f : String → String) (s : Setting) : Setting := {s with property := f s.property}

namespace Expander

theorem setting?_camelCase (e : Expander) (l : Longhand) :
    ({e with camelCaseProperties := true}).setting? l =
      (({e with camelCaseProperties := false}).setting? l).map
        (Setting.rename PropertyName.camelCase) := by
  rw [setting?,setting?,Option.map_map]
  rfl

theorem settings_camelCase (e : Expander) (d : Declaration) :
    ({e with camelCaseProperties := true}).settings d =
      (({e with camelCaseProperties := false}).settings d).map
        (Setting.rename PropertyName.camelCase) := by
  have hlonghands : ({e with camelCaseProperties := true}).longhands d.name d.value =
      ({e with camelCaseProperties := false}).longhands d.name d.value := rfl
  rw [settings,expandProperty,settings,expandProperty,hlonghands]
  cases ({e with camelCaseProperties := false}).longhands d.name d.value with
  | error => rfl
  | ok ls =>
    change ls.filterMap _ = (ls.filterMap _).map _
    rw [List.map_filterMap]
    exact List.filterMap_congr fun l _ => e.setting?_camelCase l

theorem sheetRecords_camelCase (e : Expander) (css : String) :
    ({e with camelCaseProperties := true}).sheetRecords css =
      (({e with camelCaseProperties := false}).sheetRecords css).map
        (Record.rename PropertyName.camelCase) := by
  have hsettings : ({e with camelCaseProperties := true}).settings = fun d =>
      (({e with camelCaseProperties := false}).settings d).map
        (Setting.rename PropertyName.camelCase) := funext e.settings_camelCase
  rw [sheetRecords,sheetRecords,List.map_flatMap]
  refine List.flatMap_congr fun r _ => ?_
  rw [ruleRecords,ruleRecords,hsettings]
  simp only [List.map_flatMap,List.map_map]
  rfl

/-- Camel case only renames, whichever sheets are accepted: where the names of all records are regular,
the records in camel case are the same ones with other names, and no two regular names have the same
camel case. -/
theorem parseSheet_camelCase (gate : Gate) (e : Expander) (css : String)
    (h : ∀ r ∈ ({e with camelCaseProperties := false}).parseSheet gate css,
      PropertyName.IsRegular r.property.toList) :
    ({e with camelCaseProperties := true}).parseSheet gate css =
      (({e with camelCaseProperties := false}).parseSheet gate css).map
        (Record.rename PropertyName.camelCase) ∧
    ∀ a b : String, PropertyName.IsRegular a.toList → PropertyName.IsRegular b.toList →
      PropertyName.camelCase a = PropertyName.camelCase b → a = b := by
  have hinj : ∀ a b : String, PropertyName.IsRegular a.toList → PropertyName.IsRegular b.toList →
      PropertyName.camelCase a = PropertyName.camelCase b → a = b :=
    fun _ _ => PropertyName.camelCase_inj_of_regular
  refine ⟨?_,hinj⟩
  by_cases haccepted : gate css = none
  · have hset : ∀ r ∈ ({e with camelCaseProperties := false}).sheetRecords css,
        PropertyName.IsRegular r.property.toList := by
      intro r hr
      have hkeys := (parseSheet_latest haccepted {e with camelCaseProperties := false}).keys
      have hmem : r.key ∈ (({e with camelCaseProperties := false}).parseSheet gate css).map Record.key := by
        rw [hkeys,List.mem_eraseDups]
        exact List.mem_map_of_mem hr
      obtain ⟨s,hs,hk⟩ := List.mem_map.1 hmem
      have hproperty : s.property = r.property := congrArg (·.2.2) hk
      exact hproperty ▸ h s hs
    rw [parseSheet_eq_putAll haccepted,parseSheet_eq_putAll haccepted,sheetRecords_camelCase]
    exact Record.putAll_rename hinj (List.forall_mem_nil _) hset
  · rw [parseSheet_of_rejected haccepted,parseSheet_of_rejected haccepted]
    rfl

def threeNames : String := ".a\x7b--x:y;-b-c:y;d-e2:y\x7d"

theorem parseSheet_threeNames :
    ({({} : Expander) with camelCaseProperties := false}).parseSheet (fun _ => none) threeNames =
    [⟨"a",none,"--x","y"⟩,⟨"a",none,"-b-c","y"⟩,⟨"a",none,"d-e2","y"⟩] := by
  have haccepted : (fun _ => none : Gate) threeNames = none := rfl
  have hrules : Sheet.rules threeNames = [⟨".a",Component.ofText "--x:y;-b-c:y;d-e2:y"⟩] := by cbv
  have hdeclarations : Declaration.all (Component.ofText "--x:y;-b-c:y;d-e2:y") =
      [⟨"--x","y",false⟩,⟨"-b-c","y",false⟩,⟨"d-e2","y",false⟩] := by cbv
  have htargets : Selector.all true ".a" = [⟨".a",some ⟨"a",none⟩⟩] := by cbv
  have hsettings : [(⟨"--x","y",false⟩ : Declaration),⟨"-b-c","y",false⟩,⟨"d-e2","y",false⟩].flatMap
      ({} : Expander).settings = [⟨"--x","y"⟩,⟨"-b-c","y"⟩,⟨"d-e2","y"⟩] := by decide +kernel
  rw [parseSheet_eq_putAll haccepted,sheetRecords,hrules]
  simp only [List.flatMap_cons,List.flatMap_nil,List.append_nil] at hsettings
  simp [ruleRecords,targets,selectors,htargets,declarations,hdeclarations,applied,hsettings]
  rfl

/-- A custom name stays as it is. -/
theorem parseSheet_camelCase_threeNames :
    (∀ r ∈ ({({} : Expander) with camelCaseProperties := false}).parseSheet (fun _ => none) threeNames,
      PropertyName.IsRegular r.property.toList) ∧
    (({({} : Expander) with camelCaseProperties := true}).parseSheet (fun _ => none) threeNames =
        (({({} : Expander) with camelCaseProperties := false}).parseSheet (fun _ => none) threeNames).map
          (Record.rename PropertyName.camelCase) ∧
      ∀ a b : String, PropertyName.IsRegular a.toList → PropertyName.IsRegular b.toList →
        PropertyName.camelCase a = PropertyName.camelCase b → a = b) := by
  have hregular : ∀ r ∈ ({({} : Expander) with camelCaseProperties := false}).parseSheet
      (fun _ => none) threeNames, PropertyName.IsRegular r.property.toList := by
    have hmarked : PropertyName.IsRegular ['-','b','-','c'] := by
      refine .marked ?_ (by decide)
      simp [PropertyName.Worded,PropertyName.isSmall]
    have hwords : PropertyName.IsRegular ['d','-','e','2'] := by
      refine .words ?_ (by decide)
      simp [PropertyName.Worded,PropertyName.isSmall]
    rw [parseSheet_threeNames]
    simp only [List.forall_mem_cons]
    exact ⟨.custom rfl,hmarked,hwords,List.forall_mem_nil _⟩
  exact ⟨hregular,parseSheet_camelCase (fun _ => none) {} threeNames hregular⟩

end Expander

end StyleExpansion
