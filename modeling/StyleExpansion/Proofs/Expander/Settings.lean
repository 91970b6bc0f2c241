import Mathlib
import StyleExpansion.Expander.Events
import StyleExpansion.Proofs.Expansion.Literals
import StyleExpansion.Proofs.PropertyName
import StyleExpansion.Proofs.Value.Writer

/-! # Settings

An expansion holds nothing but nodes of its value and literals, which all have a text. So where a value
has one, every longhand has one too, and none is left out of the settings. No name is set twice.
-/
namespace StyleExpansion
open Value

theorem literals_writable : ∀ d ∈ literals, d.IsWritable := by
  have h : ∀ d ∈ literals, d.write.toOption.isSome = true := by decide +kernel
  intro d hd
  have hs := h d hd
  cases hw : d.write with
  | error c =>
    rw [hw] at hs
    cases hs
  | ok s => exact ⟨s,hw⟩

theorem expand_drawn (property : String) (v : Value) :
    ∀ l ∈ expand property v, Drawn literals v.flatten l.value :=
  expandWithin_drawn _ property v

theorem Drawn.isWritable {v w : Value} (h : Drawn literals v.flatten w) (hv : v.IsWritable) :
    w.IsWritable := by
  rw [isWritable_iff]
  intro n hn
  rcases h n hn with hm | hm
  · exact (isWritable_iff v).1 hv n hm
  · exact literals_writable n hm

theorem expand_writable {v : Value} (hv : v.IsWritable) (property : String) :
    ∀ l ∈ expand property v, l.value.IsWritable :=
  fun l hl => (expand_drawn property v l hl).isWritable hv

theorem Value.parse_of_ofText {text : String} {cs : List Component} {vs : List Value}
    (h : Component.ofText text = cs) (hr : readComponents cs = .ok vs) :
    parse text = .ok (list vs) := by
  rw [parse,Value.read,h,hr]
  rfl

namespace Expander

/-- Longhands that all have a text are all among the settings. -/
theorem setting_of_writable (e : Expander) {ls : List Longhand}
    (h : ∀ l ∈ ls, l.value.IsWritable) :
    (ls.filterMap e.setting?).map Setting.property = ls.map (fun l => e.outward l.property) ∧
      dropped ls = [] := by
  induction ls with
  | nil => exact ⟨rfl,rfl⟩
  | cons l ls ih =>
    obtain ⟨hl,hls⟩ := List.forall_mem_cons.1 h
    obtain ⟨text,ht⟩ := generate_eq_ok.2 hl
    obtain ⟨hnames,hdropped⟩ := ih hls
    have hs : e.setting? l = some ⟨e.outward l.property,text⟩ := by
      simp [setting?,ht,Except.toOption]
    constructor
    · rw [List.filterMap_cons_some hs,List.map_cons,List.map_cons,hnames]
    · simp only [dropped,List.filterMap_cons,ht]
      exact hdropped

def outwardNames (e : Expander) (property : String) : List String :=
  ((longhandsOf (e.canonical property)).getD [e.canonical property]).map e.outward

theorem expand_outwardNames (e : Expander) (property : String) (v : Value) :
    (expand (e.canonical property) v).map (fun l => e.outward l.property) =
      e.outwardNames property := by
  have hnames : (expand (e.canonical property) v).map Longhand.property =
      (longhandsOf (e.canonical property)).getD [e.canonical property] := by
    cases h : isShorthand (e.canonical property) with
    | true => rw [(expand_expands h v).names,Option.getD_some]
    | false =>
      rw [expand_of_not_shorthand h,longhandsOf,h]
      rfl
  rw [outwardNames,← hnames,List.map_map]
  rfl

theorem expandProperty_of_parse {e : Expander} {property text : String} {v : Value}
    (h : parse text = .ok v) : e.expandProperty property text =
      .ok ((expand (e.canonical property) v.withoutImportance).filterMap e.setting?) := by
  rw [expandProperty,longhands,h]
  rfl

/-- Expansion invents nothing and breaks nothing: all nodes of its longhands are nodes of the value or
literals, so they have a text if the value has one, and every longhand of the property, as it is looked
up, is among the settings. -/
theorem expansion_closed :
    (∀ (property : String) (v : Value), ∀ l ∈ expand property v, ∀ n ∈ l.value.flatten,
      n ∈ v.flatten ∨ n ∈ literals) ∧
    (∀ (property : String) (v : Value), (∃ text, v.generate = .ok text) →
      ∀ l ∈ expand property v, ∃ text, l.value.generate = .ok text) ∧
    ∀ (e : Expander) (property text : String) (v : Value), parse text = .ok v →
      (∃ written, v.withoutImportance.generate = .ok written) →
      (∃ ss, e.expandProperty property text = .ok ss ∧
        ss.map Setting.property = e.outwardNames property) ∧
      dropped (expand (e.canonical property) v.withoutImportance) = [] := by
  refine ⟨expand_drawn,?_,?_⟩
  · intro property v hv l hl
    exact generate_eq_ok.2 (expand_writable (generate_eq_ok.1 hv) property l hl)
  · intro e property text v hparse hv
    have hw := expand_writable (generate_eq_ok.1 hv) (e.canonical property)
    obtain ⟨hnames,hdropped⟩ := e.setting_of_writable hw
    exact ⟨⟨_,expandProperty_of_parse hparse,hnames.trans (expand_outwardNames e property _)⟩,hdropped⟩

/-- An important value of a shorthand with a vendor's mark, which goes to all longhands. -/
theorem expansion_closed_important :
    (∃ text, (list [ident "red"]).generate = .ok text) ∧
    (∀ l ∈ expand "border" (list [ident "red"]), ∃ text, l.value.generate = .ok text) ∧
    parse "thin !important" = .ok (list [ident "thin",operator "!",ident "important"]) ∧
    (∃ written, (list [ident "thin",operator "!",ident "important"]).withoutImportance.generate =
      .ok written) ∧
    ∃ ss, ({} : Expander).expandProperty "-webkit-column-rule" "thin !important" = .ok ss ∧
      ss.map Setting.property = ({} : Expander).outwardNames "-webkit-column-rule" := by
  have hred : ∃ text, (list [ident "red"]).generate = .ok text := ⟨"red",by cbv⟩
  have hread : Component.ofText "thin !important" =
      [.plain (.ident "thin") "thin".toList,.plain .space [' '],.plain (.delim '!') ['!'],
       .plain (.ident "important") "important".toList] := by cbv
  have hparse : parse "thin !important" =
      .ok (list [ident "thin",operator "!",ident "important"]) := parse_of_ofText hread rfl
  have hthin : ∃ written, (list [ident "thin",operator "!",
      ident "important"]).withoutImportance.generate = .ok written := ⟨"thin",by cbv⟩
  refine ⟨hred,expansion_closed.2.1 "border" _ hred,hparse,hthin,?_⟩
  exact (expansion_closed.2.2 {} "-webkit-column-rule" _ _ hparse hthin).1

/-- A property with a vendor's mark is no shorthand by name, and yet it stands for several longhands,
since it is looked up without the mark. -/
theorem marked_shorthand_expands :
    ¬∀ (property text : String) (v : Value), parse text = .ok v →
      (∃ written, v.withoutImportance.generate = .ok written) →
      ∃ ss, ({} : Expander).expandProperty property text = .ok ss ∧
        ss.length = ((longhandsOf property).getD [property]).length := by
  intro h
  have hread : Component.ofText "inherit" = [.plain (.ident "inherit") "inherit".toList] := by cbv
  have hparse : parse "inherit" = .ok (list [ident "inherit"]) := parse_of_ofText hread rfl
  have hwritten : (list [ident "inherit"]).withoutImportance.generate = .ok "inherit" := by
    cbv
  have hnames : (({} : Expander).outwardNames "-webkit-transition").length = 5 ∧
      ((longhandsOf "-webkit-transition").getD ["-webkit-transition"]).length = 1 := by
    decide +kernel
  obtain ⟨ss,hss,hlen⟩ := h "-webkit-transition" "inherit" _ hparse ⟨_,hwritten⟩
  have hw := expand_writable (generate_eq_ok.1 ⟨_,hwritten⟩)
    (({} : Expander).canonical "-webkit-transition")
  have hall := (setting_of_writable {} hw).1.trans (expand_outwardNames {} "-webkit-transition" _)
  rw [expandProperty_of_parse hparse] at hss
  cases hss
  rw [← List.length_map (f := Setting.property),hall,hnames.1,hnames.2] at hlen
  cases hlen

/-! ## Names that stay apart -/

theorem outwardNames_nodup (e : Expander) (property : String) : (e.outwardNames property).Nodup := by
  rw [outwardNames]
  cases h : longhandsOf (e.canonical property) with
  | none => exact List.nodup_singleton _
  | some names =>
    have hshort : isShorthand (e.canonical property) = true := by
      rw [longhandsOf] at h
      split at h
      · next hs => exact hs
      · cases h
    have hnames : names.Nodup := by
      have hexpands := expand_expands hshort .empty
      have hlist := hexpands.names
      rw [h] at hlist
      rw [Option.some.inj hlist]
      exact hexpands.once
    apply hnames.map_on
    intro a ha b hb heq
    simp only [outward] at heq
    split at heq
    · exact PropertyName.camelCase_inj (PropertyName.isPlain_of_mem_longhandsOf h ha)
        (PropertyName.isPlain_of_mem_longhandsOf h hb) heq
    · exact heq

theorem setting?_property {e : Expander} {l : Longhand} {s : Setting} (h : e.setting? l = some s) :
    s.property = e.outward l.property := by
  obtain ⟨text,_,rfl⟩ := Option.map_eq_some_iff.1 h
  rfl

theorem settings_sublist (e : Expander) (ls : List Longhand) :
    ((ls.filterMap e.setting?).map Setting.property).Sublist
      (ls.map fun l => e.outward l.property) := by
  induction ls with
  | nil => exact List.Sublist.slnil
  | cons l ls ih =>
    cases hs : e.setting? l with
    | none =>
      rw [List.filterMap_cons_none hs]
      exact ih.cons _
    | some s =>
      rw [List.filterMap_cons_some hs,List.map_cons,List.map_cons,setting?_property hs]
      exact ih.cons_cons _

theorem expandProperty_nodup {e : Expander} {property text : String} {ss : List Setting}
    (h : e.expandProperty property text = .ok ss) : (ss.map Setting.property).Nodup := by
  cases hp : Value.parse text with
  | error c =>
    rw [expandProperty,longhands,hp] at h
    cases h
  | ok v =>
    rw [expandProperty_of_parse hp] at h
    cases h
    apply (e.settings_sublist _).nodup
    rw [expand_outwardNames]
    exact e.outwardNames_nodup property

theorem settings_nodup (e : Expander) (d : Declaration) :
    ((e.settings d).map Setting.property).Nodup := by
  rw [settings]
  cases h : e.expandProperty d.name d.value with
  | error c => exact List.nodup_nil
  | ok ss => exact expandProperty_nodup h

end Expander

end StyleExpansion
