import Mathlib.Data.List.Nodup
import StyleExpansion.Expansion
import StyleExpansion.Proofs.Text.Case

/-! # The names of an expansion

A shorthand stands for the same longhands whatever its value is. Two levels of shorthands lead from
every name of the table to names that are no shorthands, so further levels change nothing, and an
expansion that goes through all levels has come to its end.
-/
namespace StyleExpansion
open Shorthand

def Settled (n : Nat) (property : String) : Prop :=
  ∀ l ∈ longhandsWithin n property, named? l = none

namespace Shorthand

def codes : List Nat := shorthands.map fun s => Text.code s.name

def isFinal (l : String) : Bool := !codes.any (Nat.beq (Text.code l))

theorem named?_of_isFinal {l : String} (h : isFinal l = true) : named? l = none := by
  refine List.find?_eq_none.2 ?_
  intro s hs hname
  have hcode : Text.code l ∈ codes := by
    rw [← beq_iff_eq.1 hname]
    exact List.mem_map_of_mem (f := fun s : Shorthand => Text.code s.name) hs
  rw [isFinal,Bool.not_eq_true',List.any_eq_false] at h
  exact h (Text.code l) hcode (Nat.beq_refl (Text.code l))

def areFinal (names : List String) : Bool := names.all isFinal && decide (names.map Text.code).Nodup

theorem named?_of_areFinal {names : List String} (h : areFinal names = true) :
    ∀ l ∈ names, named? l = none := by
  rw [areFinal,Bool.and_eq_true] at h
  intro l hl
  exact named?_of_isFinal (List.all_eq_true.1 h.1 l hl)

theorem nodup_of_areFinal {names : List String} (h : areFinal names = true) : names.Nodup := by
  rw [areFinal,Bool.and_eq_true,decide_eq_true_eq] at h
  exact List.Nodup.of_map Text.code h.2

def branchNames : List String := ["border","border-inline","border-block"]

/-- The names of the shorthand are in lower case, and it leads to final names, at once if it is none of
the few that set others. -/
def isSettled (s : Shorthand) : Bool :=
  Text.isLower s.name && s.longhands.all Text.isLower && (areFinal s.longhands ||
    branchNames.contains s.name && areFinal (s.longhands.flatMap (longhandsWithin 1)))

theorem shorthands_checked : shorthands.all isSettled = true ∧ codes.Nodup := by
  decide +kernel

theorem named?_of_mem {s : Shorthand} (h : s ∈ shorthands) : named? s.name = some s := by
  cases hs : named? s.name with
  | none =>
    have := List.find?_eq_none.1 hs s h
    simp at this
  | some t =>
    have hname : t.name = s.name := by simpa using List.find?_some hs
    have ht := List.mem_of_find?_eq_some hs
    have hcode : Text.code t.name = Text.code s.name := congrArg Text.code hname
    rw [List.inj_on_of_nodup_map shorthands_checked.2 ht h hcode]

theorem longhandsWithin_of_none {property : String} (h : named? property = none) (n : Nat) :
    longhandsWithin n property = [property] := by
  cases n with
  | zero => rfl
  | succ n => rw [longhandsWithin,h]

theorem flatMap_longhandsWithin_of_none {names : List String} (h : ∀ l ∈ names, named? l = none)
    (n : Nat) : names.flatMap (longhandsWithin n) = names := by
  calc names.flatMap (longhandsWithin n)
      = names.flatMap fun l => [l] :=
        List.flatMap_congr fun l hl => longhandsWithin_of_none (h l hl) n
    _ = names := List.flatMap_singleton' names

structure IsSettled (s : Shorthand) : Prop where
  settled : Settled 2 s.name
  once : (longhandsWithin 2 s.name).Nodup
  name : s.name.toLower = s.name
  longhands : ∀ l ∈ s.longhands, l.toLower = l
  leaf : s.name ∉ branchNames → ∀ l ∈ s.longhands, named? l = none

theorem isSettled_of_mem {s : Shorthand} (h : s ∈ shorthands) : s.IsSettled := by
  have hs := List.all_eq_true.1 shorthands_checked.1 s h
  simp only [isSettled,Bool.and_eq_true,Bool.or_eq_true,List.contains_iff_mem] at hs
  obtain ⟨⟨hname,hlower⟩,hfinal⟩ := hs
  have htwo : longhandsWithin 2 s.name = s.longhands.flatMap (longhandsWithin 1) := by
    rw [longhandsWithin,named?_of_mem h]
  have hnames : areFinal (longhandsWithin 2 s.name) = true := by
    obtain hleaf | ⟨_,hbranch⟩ := hfinal
    · rwa [htwo,flatMap_longhandsWithin_of_none (named?_of_areFinal hleaf)]
    · rwa [htwo]
  refine ⟨named?_of_areFinal hnames,nodup_of_areFinal hnames,Text.toLower_of_isLower hname,?_,?_⟩
  · intro l hl
    exact Text.toLower_of_isLower (List.all_eq_true.1 hlower l hl)
  · intro hno
    exact named?_of_areFinal (hfinal.resolve_right fun hb => hno hb.1)

theorem named?_spec {property : String} {s : Shorthand} (h : named? property = some s) :
    s.name = property ∧ s.IsSettled := by
  refine ⟨?_,isSettled_of_mem (List.mem_of_find?_eq_some h)⟩
  simpa using List.find?_some h

end Shorthand

/-- The names that a shorthand sets are settled one level earlier. -/
theorem Settled.of_mem {n : Nat} {property : String} (h : Settled (n + 1) property) {s : Shorthand}
    (hs : named? property = some s) {l : String} (hl : l ∈ s.longhands) : Settled n l := by
  intro m hm
  apply h m
  rw [longhandsWithin,hs]
  exact List.mem_flatMap.2 ⟨l,hl,hm⟩

/-- More levels than it takes to settle a name lead no further. -/
theorem Settled.stable {n m : Nat} {property : String} (h : Settled n property) (hm : n ≤ m) :
    longhandsWithin m property = longhandsWithin n property := by
  induction n generalizing m property with
  | zero => exact longhandsWithin_of_none (h property (List.mem_singleton_self _)) m
  | succ n ih =>
    cases m with
    | zero => omega
    | succ m =>
      rw [longhandsWithin,longhandsWithin]
      cases hs : named? property with
      | none => rfl
      | some s =>
        apply List.flatMap_congr
        intro l hl
        exact ih (h.of_mem hs hl) (Nat.le_of_succ_le_succ hm)

theorem Settled.mono {n m : Nat} {property : String} (h : Settled n property) (hm : n ≤ m) :
    Settled m property := by
  intro l hl
  rw [h.stable hm] at hl
  exact h l hl

theorem toLower_of_mem_longhandsWithin {n : Nat} {property l : String}
    (h : property.toLower = property) (hl : l ∈ longhandsWithin n property) : l.toLower = l := by
  induction n generalizing property with
  | zero => rwa [List.mem_singleton.1 hl]
  | succ n ih =>
    rw [longhandsWithin] at hl
    cases hs : named? property with
    | none =>
      rw [hs] at hl
      rwa [List.mem_singleton.1 hl]
    | some s =>
      rw [hs] at hl
      obtain ⟨k,hk,hl⟩ := List.mem_flatMap.1 hl
      exact ih ((named?_spec hs).2.longhands k hk) hl

/-- If the expansions of what a shorthand sets go to some names, its own one goes to all of these. -/
theorem flatMap_expandWithin_property {n : Nat} {s : Shorthand} {v : Value}
    (h : ∀ l ∈ s.expand v,
      (expandWithin n l.property l.value).map Longhand.property = longhandsWithin n l.property) :
    ((s.expand v).flatMap fun l => expandWithin n l.property l.value).map Longhand.property =
      s.longhands.flatMap (longhandsWithin n) := by
  rw [← s.expand_property v,List.map_flatMap,List.flatMap_map]
  exact List.flatMap_congr h

theorem mem_longhands_of_mem_expand {s : Shorthand} {v : Value} {l : Longhand}
    (h : l ∈ s.expand v) : l.property ∈ s.longhands := by
  rw [← s.expand_property v]
  exact List.mem_map_of_mem h

/-- Expansion goes to the names that the levels lead to, whatever the value is. -/
theorem expandWithin_property {n : Nat} {property : String} (v : Value) (hn : n ≤ depth)
    (hp : property.toLower = property) (h : Settled n property) :
    (expandWithin n property v).map Longhand.property = longhandsWithin n property := by
  induction n generalizing property v with
  | zero => rfl
  | succ n ih =>
    rw [expandWithin,longhandsWithin,hp]
    cases hs : named? property with
    | none => rfl
    | some s =>
      obtain ⟨hname,hset⟩ := named?_spec hs
      dsimp only
      split
      · rw [List.map_map,hname,h.stable hn,longhandsWithin,hs]
        exact List.map_id _
      · apply flatMap_expandWithin_property
        intro l hl
        have hm := mem_longhands_of_mem_expand hl
        exact ih l.value (Nat.le_of_succ_le hn) (hset.longhands _ hm) (h.of_mem hs hm)

theorem expandWithin_toLower {n : Nat} {property : String} {s : Shorthand} (v : Value)
    (hs : named? property.toLower = some s) :
    expandWithin (n + 1) property v = expandWithin (n + 1) property.toLower v := by
  obtain ⟨hname,hset⟩ := named?_spec hs
  have hp : property.toLower.toLower = property.toLower := hname ▸ hset.name
  rw [expandWithin,expandWithin,hp,hs]

theorem isShorthand_eq_false {property : String} :
    isShorthand property = false ↔ named? property.toLower = none := by
  rw [isShorthand,Option.isSome_eq_false_iff,Option.isNone_iff_eq_none]

theorem expand_of_not_shorthand {property : String} (h : isShorthand property = false) (v : Value) :
    expand property v = [⟨property,v⟩] := by
  rw [expand,depth,expandWithin,isShorthand_eq_false.1 h]

theorem value_of_commonValue {property : String} {v w : Value} (hs : isShorthand property = true)
    (h : commonValue v.flatten = some w) {l : Longhand} (hl : l ∈ expand property v) :
    l.value = w := by
  obtain ⟨s,hs⟩ := Option.isSome_iff_exists.1 hs
  rw [expand,depth,expandWithin,hs] at hl
  simp only [h] at hl
  obtain ⟨_,_,rfl⟩ := List.mem_map.1 hl
  rfl

theorem commonValue_wide {w : Value} (h : w.isWide = true) : commonValue [w] = some w := by
  cases w with
  | ident name => simp [commonValue,h]
  | _ => cases h

/-- What the expansion of a shorthand is, as far as it does not depend on the shorthand: its names are
those of the longhands, in their order and each once, and none of them is a shorthand. -/
structure Expands (property : String) (v : Value) (ls : List Longhand) : Prop where
  names : longhandsOf property = some (ls.map Longhand.property)
  once : (ls.map Longhand.property).Nodup
  settled : ∀ l ∈ ls, isShorthand l.property = false
  wide : ∀ w, v.flatten = [w] → w.isWide = true → ∀ l ∈ ls, l.value = w
  unset : v.flatten = [] ∨ v.flatten = [.string ""] → ∀ l ∈ ls, l.value = .ident "unset"

theorem expand_expands {property : String} (h : isShorthand property = true) (v : Value) :
    Expands property v (expand property v) := by
  obtain ⟨s,hs⟩ := Option.isSome_iff_exists.1 h
  obtain ⟨hname,hset⟩ := named?_spec hs
  rw [← hname] at hs
  have hlevels : Settled depth s.name := hset.settled.mono (by decide)
  have hnames : (expand property v).map Longhand.property = longhandsWithin depth s.name := by
    have he : expand property v = expandWithin depth s.name v := by
      rw [hname]
      exact expandWithin_toLower v (hname ▸ hs)
    rw [he,expandWithin_property v (Nat.le_refl _) hset.name hlevels]
  have hof : longhandsOf property = some (longhandsWithin depth s.name) := by
    rw [longhandsOf,if_pos h,hname]
  refine ⟨by rw [hof,hnames],?_,?_,?_,?_⟩
  · rw [hnames,hset.settled.stable (by decide)]
    exact hset.once
  · intro l hl
    have hm : l.property ∈ longhandsWithin depth s.name := by
      rw [← hnames]
      exact List.mem_map_of_mem hl
    rw [isShorthand_eq_false,toLower_of_mem_longhandsWithin hset.name hm]
    exact hlevels _ hm
  · intro w hw hwide l hl
    exact value_of_commonValue h (by rw [hw,commonValue_wide hwide]) hl
  · rintro (hv | hv) l hl
    · exact value_of_commonValue h (by rw [hv]; rfl) hl
    · exact value_of_commonValue h (by rw [hv]; rfl) hl

/-- A shorthand, in any letter case and with any value, expands to its longhands; any other property
stands for itself alone, and so an expansion is final. -/
theorem expand_names (property : String) (v : Value) :
    (isShorthand property = true → Expands property v (expand property v)) ∧
    (isShorthand property = false → expand property v = [⟨property,v⟩]) ∧
    ∀ l ∈ expand property v, expand l.property l.value = [l] := by
  refine ⟨fun h => expand_expands h v,fun h => expand_of_not_shorthand h v,?_⟩
  intro l hl
  cases h : isShorthand property with
  | true => exact expand_of_not_shorthand ((expand_expands h v).settled l hl) l.value
  | false =>
    have he := expand_of_not_shorthand h v
    rw [he] at hl
    rw [List.mem_singleton.1 hl,he]

/-- A shorthand in mixed case, whose parts are given in the other order, and a property that is none. -/
theorem expand_names_columns :
    let v := Value.list [.number "2",.dimension "12" "em"]
    (isShorthand "Columns" = true ∧ Expands "Columns" v (expand "Columns" v) ∧
      expand "Columns" v = [⟨"column-width",.dimension "12" "em"⟩,⟨"column-count",.number "2"⟩]) ∧
    isShorthand "color" = false ∧ expand "color" v = [⟨"color",v⟩] := by
  intro v
  have h : isShorthand "Columns" = true ∧ isShorthand "color" = false := by decide +kernel
  refine ⟨⟨h.1,(expand_names "Columns" v).1 h.1,?_⟩,h.2,(expand_names "color" v).2.1 h.2⟩
  decide +kernel

end StyleExpansion
