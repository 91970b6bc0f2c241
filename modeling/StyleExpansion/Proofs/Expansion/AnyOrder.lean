import StyleExpansion.Proofs.Expansion.Typed
import StyleExpansion.Proofs.Expansion.Commas
import StyleExpansion.Proofs.Matching.Kinds
import StyleExpansion.Proofs.Pattern.Heads
import StyleExpansion.Proofs.Pattern.Words

/-! # Values in any order

Many shorthands take their nodes in any order. Where no two nodes are of one kind each node goes to the
longhand of its kind wherever it stands, though keywords may be of several kinds: the first one counts. Of
times there may be two, a duration and then a delay. An empty text alone is an exception, since it is read
as an empty value.
-/
namespace StyleExpansion
open Pattern Value Shorthand

/-! ## Permutations -/

theorem commonValue_of_two {vs : List Value} (h : 1 < vs.length) : commonValue vs = none := by
  unfold commonValue
  split
  · exact absurd h (by simp)
  · exact absurd h (by simp)
  · exact absurd h (by simp)
  · rfl

theorem commonValue_node {n w : Value} (htext : n ≠ string "") (h : commonValue [n] = some w) :
    w = n := by
  unfold commonValue at h
  split at h
  · next hv => cases hv
  · next text hv =>
    cases hv
    split at h
    · next he => exact absurd (congrArg string (String.isEmpty_iff.1 he)) htext
    · cases h
  · next hv =>
    cases hv
    split at h
    · exact (Option.some.inj h).symm
    · cases h
  · cases h

theorem commonValue_perm {vs ws : List Value} (h : ws.Perm vs) : commonValue ws = commonValue vs := by
  by_cases hlen : vs.length ≤ 1
  · rw [eq_of_perm_of_length_le_one h hlen]
  · have := h.length_eq
    rw [commonValue_of_two (by omega),commonValue_of_two (by omega)]

theorem soleKeyword_of_two {v : Value} (h : 1 < v.flatten.length) : v.soleKeyword = none := by
  unfold soleKeyword
  split
  · next hv => exact absurd h (by simp [hv])
  · rfl

theorem soleKeyword_perm {v w : Value} (h : w.flatten.Perm v.flatten) : w.soleKeyword = v.soleKeyword := by
  by_cases hlen : v.flatten.length ≤ 1
  · rw [soleKeyword,soleKeyword,eq_of_perm_of_length_le_one h hlen]
  · have := h.length_eq
    rw [soleKeyword_of_two (by omega),soleKeyword_of_two (by omega)]

theorem shareBy_congr {v w : Value} (h : w.flatten = v.flatten) (tests : List (List Value → Bool)) :
    w.shareBy tests = v.shareBy tests := by
  rw [shareBy,shareBy,h]

theorem share_list_flatten (v : Value) (alternatives : List Pattern) :
    (list v.flatten).share alternatives = v.share alternatives :=
  shareBy_congr (flatten_areNodes v).flatten_list _

theorem layers_of_free {v : Value} (h : ∀ n ∈ v.flatten, n.isOperator "," = false) (hv : v.flatten ≠ []) :
    v.layers = [list v.flatten] := by
  have hruns := runs_of_free h
  rw [layers,segments_of_runs (by simpa [hruns] using hv),hruns]
  rfl

/-- What is read of a value without commas is read of its only layer. -/
theorem layered_congr {n : Nat} {read : Value → Vector Value n} {v w : Value}
    (hfree : ∀ n ∈ v.flatten, n.isOperator "," = false) (hperm : w.flatten.Perm v.flatten)
    (h : read (list w.flatten) = read (list v.flatten)) : w.layered read = v.layered read := by
  have hfree' : ∀ n ∈ w.flatten, n.isOperator "," = false := fun n hn => hfree n (hperm.mem_iff.1 hn)
  by_cases hv : v.flatten = []
  · have hw : w.flatten = v.flatten := by
      rw [hv] at hperm ⊢
      exact hperm.eq_nil
    rw [layered,layered,layers,layers,segments,segments,allSegments,allSegments,hw]
  · have hw : w.flatten ≠ [] := fun he => hv (he ▸ hperm).nil_eq.symm
    simp only [layered,layers_of_free hfree hv,layers_of_free hfree' hw,List.map_cons,List.map_nil,h]

theorem valueOf?_of_mem {ls : List Longhand} (hd : (ls.map Longhand.property).Nodup) {name : String}
    {x : Value} (h : ⟨name,x⟩ ∈ ls) : valueOf? ls name = some x := by
  induction ls with
  | nil => cases h
  | cons l ls ih =>
    rw [List.map_cons,List.nodup_cons] at hd
    rcases List.mem_cons.1 h with rfl | h
    · simp [valueOf?]
    · have hmem : name ∈ ls.map Longhand.property := List.mem_map_of_mem (f := Longhand.property) h
      have hne : l.property ≠ name := fun he => hd.1 (he ▸ hmem)
      rw [valueOf?,List.find?_cons_of_neg (by simpa using hne)]
      exact ih hd.2 h

theorem mem_of_valueOf? {ls : List Longhand} {name : String} {x : Value}
    (h : valueOf? ls name = some x) : ⟨name,x⟩ ∈ ls := by
  obtain ⟨l,hl,rfl⟩ := Option.map_eq_some_iff.1 h
  have hname := List.find?_some hl
  rw [← eq_of_beq hname]
  exact List.mem_of_find?_eq_some hl

/-! ## Shorthands that are shared out -/

/-- A shorthand whose value is shared out in any order among tests of single nodes: the alternative that
takes the first kind again, if there is one, and the longhands in the end, each with its alternative. The
expansion depends on the shares only, and gives a share that is a node to its longhands. -/
structure Sharing where
  name : String
  tests : List (List Value → Bool)
  again : Option Nat
  fields : List (String × Nat)
  takes : TakesNodes tests again
  isShort : isShorthand name = true
  isLower : name.toLower = name
  names : ∀ f ∈ fields, f.1 ∈ longhandsWithin depth name
  congr : ∀ {v w : Value}, (∀ n ∈ v.flatten, n.isOperator "," = false) → w.flatten.Perm v.flatten →
    w.shareBy tests = v.shareBy tests → expand name w = expand name v
  reads : ∀ {v n : Value}, (∀ n ∈ v.flatten, n.isOperator "," = false) →
    commonValue v.flatten = none → n.flatten = [n] → ∀ f ∈ fields,
      (v.shareBy tests).get? f.2 = some n → ∃ x, ⟨f.1,x⟩ ∈ expand name v ∧ x.flatten = [n]

/-- One level of an expansion depends on what the shorthand assigns only. -/
theorem expandWithin_congr {n : Nat} {s : Shorthand} (hs : s ∈ shorthands) {v w : Value}
    (hperm : w.flatten.Perm v.flatten)
    (h : (s.expand w).flatMap (fun l => expandWithin n l.property l.value) =
      (s.expand v).flatMap fun l => expandWithin n l.property l.value) :
    expandWithin (n + 1) s.name w = expandWithin (n + 1) s.name v := by
  rw [expandWithin,expandWithin,(isSettled_of_mem hs).name,named?_of_mem hs]
  simp only [commonValue_perm hperm,h]

/-- A shorthand that sets no other one has the same expansion on all levels. -/
theorem expandWithin_eq_expand {s : Shorthand} (hs : s ∈ shorthands) (hleaf : s.name ∉ branchNames)
    (n : Nat) (v : Value) : expandWithin (n + 1) s.name v = expand s.name v := by
  have hname := (isSettled_of_mem hs).name
  cases hc : commonValue v.flatten with
  | none => rw [expandWithin_leaf hs hleaf hname hc,expand_leaf hs hleaf hname hc]
  | some w =>
    rw [expand,depth,expandWithin,expandWithin,hname,named?_of_mem hs]
    simp only [hc]

theorem expand_of_mem {s : Shorthand} (hs : s ∈ shorthands) {v : Value}
    (hc : commonValue v.flatten = none) :
    expand s.name v = (s.expand v).flatMap fun l => expandWithin 8 l.property l.value := by
  rw [expand,depth,expandWithin,(isSettled_of_mem hs).name,named?_of_mem hs]
  simp only [hc]

theorem mem_longhandsWithin {s : Shorthand} (hs : s ∈ shorthands) {l name : String}
    (hl : l ∈ s.longhands) (hn : name ∈ longhandsWithin 8 l) : name ∈ longhandsWithin depth s.name := by
  rw [depth,longhandsWithin,named?_of_mem hs]
  exact List.mem_flatMap.2 ⟨l,hl,hn⟩

theorem isShorthand_of_mem {s : Shorthand} (hs : s ∈ shorthands) : isShorthand s.name = true := by
  rw [isShorthand,(isSettled_of_mem hs).name,named?_of_mem hs]
  rfl

theorem mem_expand_of_getElem? {s : Shorthand} {v x : Value} {i : Nat} {name : String}
    (hn : s.longhands[i]? = some name) (hx : (s.assign v).toList[i]? = some x) :
    ⟨name,x⟩ ∈ s.expand v := by
  refine List.mem_of_getElem? (i := i) ?_
  rw [Shorthand.expand,List.getElem?_zipWith,hn,hx]

theorem getElem?_fields {s : Shares} {fields : List Field} {i j : Nat}
    (hi : (fields.map Field.index)[i]? = some j) {n : Value} (hget : s.get? j = some n) :
    (fields.map fun f => f.value s)[i]? = some n := by
  rw [List.getElem?_map] at hi ⊢
  obtain ⟨f,hf,rfl⟩ := Option.map_eq_some_iff.1 hi
  rw [hf]
  exact congrArg some (congrArg (Option.getD · f.default) hget)

/-- Alternatives that are patterns of one node take single nodes. -/
theorem takesNodes_of_isSingle {alternatives : List Pattern}
    (h : (alternatives.all fun p => p.isSingle 12) = true) :
    TakesNodes (alternatives.map Pattern.accepts) none := by
  refine ⟨?_,fun _ ha => by cases ha⟩
  intro test htest vs htake
  obtain ⟨p,hp,rfl⟩ := List.mem_map.1 htest
  have hd : p.Derives vs 0 vs.length := mem_ends_derives (accepts_iff_mem_ends.1 htake)
  exact isSingle_sound (List.all_eq_true.1 h p hp) hd

namespace Sharing

/-- A shorthand that sets no other one, whose longhands are what tests of single nodes share out: each
longhand is the share of one test, if there is one. -/
structure HasShares (s : Shorthand) (tests : List (List Value → Bool)) (again : Option Nat)
    (indices : List Nat) : Prop where
  listed : s ∈ shorthands
  leaf : s.name ∉ branchNames
  takes : TakesNodes tests again
  congr : ∀ {v w : Value}, (∀ n ∈ v.flatten, n.isOperator "," = false) → w.flatten.Perm v.flatten →
    w.shareBy tests = v.shareBy tests → s.assign w = s.assign v
  reads : ∀ {v n : Value}, (∀ n ∈ v.flatten, n.isOperator "," = false) →
    commonValue v.flatten = none → n.flatten = [n] → ∀ i j : Nat, indices[i]? = some j →
      (v.shareBy tests).get? j = some n →
      ∃ x : Value, (s.assign v).toList[i]? = some x ∧ x.flatten = [n]

def ofLeaf {s : Shorthand} {tests : List (List Value → Bool)} {again : Option Nat} {indices : List Nat}
    (h : HasShares s tests again indices) : Sharing where
  name := s.name
  tests := tests
  again := again
  fields := s.longhands.zip indices
  takes := h.takes
  isShort := isShorthand_of_mem h.listed
  isLower := (isSettled_of_mem h.listed).name
  names := by
    intro f hf
    rw [depth,longhandsWithin_leaf h.listed h.leaf]
    exact (List.of_mem_zip hf).1
  congr := fun hfree hperm hshares => expandWithin_congr h.listed hperm (by
    rw [Shorthand.expand,Shorthand.expand,h.congr hfree hperm hshares])
  reads := by
    intro v n hfree hc hn f hf hget
    obtain ⟨i,hi⟩ := List.mem_iff_getElem?.1 hf
    obtain ⟨hname,hindex⟩ := List.getElem?_zip_eq_some.1 hi
    obtain ⟨x,hx,hxn⟩ := h.reads hfree hc hn i f.2 hindex hget
    refine ⟨x,?_,hxn⟩
    rw [expand_leaf h.listed h.leaf (isSettled_of_mem h.listed).name hc]
    exact mem_expand_of_getElem? hname hx

/-- Longhands that are fields, whose defaults the shares may decide. -/
theorem HasShares.of_fields {s : Shorthand} (listed : s ∈ shorthands) (leaf : s.name ∉ branchNames)
    {alternatives : List Pattern} (single : (alternatives.all fun p => p.isSingle 12) = true)
    {indices : List Nat} (fields : Shares → List Field)
    (assigns : ∀ v, (s.assign v).toList =
      (fields (v.share alternatives)).map fun f => f.value (v.share alternatives))
    (places : ∀ shares, (fields shares).map Field.index = indices) :
    HasShares s (alternatives.map Pattern.accepts) none indices := by
  refine ⟨listed,leaf,takesNodes_of_isSingle single,?_,?_⟩
  · intro v w _ _ h
    have hshare : w.share alternatives = v.share alternatives := h
    exact Vector.toList_inj.1 (by rw [assigns,assigns,hshare])
  · intro v n _ _ hn i j hi hget
    refine ⟨n,?_,hn⟩
    rw [assigns]
    exact getElem?_fields ((places _).symm ▸ hi) hget

/-- Longhands in layers that are fields of every layer. -/
theorem HasShares.of_layers {c : LayeredShorthand} (listed : c ∈ LayeredShorthand.all)
    {alternatives : List Pattern} {again : Option Nat}
    (takes : TakesNodes (alternatives.map Pattern.accepts) again) {fields : List Field}
    (reads : ∀ layer, (c.read layer).toList = fields.map fun f => f.value (layer.share alternatives))
    (rest : ∀ v w, c.rest v = c.rest w) :
    HasShares c.shorthand (alternatives.map Pattern.accepts) again (fields.map Field.index) := by
  refine ⟨LayeredShorthand.listed_of_mem listed,(LayeredShorthand.all_checked.2 c listed).1,takes,?_,?_⟩
  · intro v w hfree hperm h
    have hread : c.read (list w.flatten) = c.read (list v.flatten) := by
      apply Vector.toList_inj.1
      have hshare : w.share alternatives = v.share alternatives := h
      rw [reads,reads,share_list_flatten,share_list_flatten,hshare]
    exact Vector.toList_inj.1 (by rw [c.assigns,c.assigns,rest w v,layered_congr hfree hperm hread])
  · intro v n hfree hc hn i j hi hget
    have hv : v.flatten ≠ [] := by
      intro he
      rw [he] at hc
      cases hc
    have hrow : (c.read (list v.flatten)).toList[i]? = some n := by
      rw [reads,share_list_flatten]
      exact getElem?_fields hi hget
    obtain ⟨hlt,hrow⟩ := List.getElem?_eq_some_iff.1 hrow
    have hlt : i < c.size := by simpa using hlt
    refine ⟨_,c.assign_getElem? ⟨i,hlt⟩ v,?_⟩
    have hnode : (c.read (list v.flatten))[i] = n := by simpa using hrow
    rw [LayeredShorthand.column,layers_of_free hfree hv,List.map_singleton,flatten_join]
    simp [hnode,hn]

theorem line_assign (name : String) (v : Value) : ((Shorthand.line name).assign v).toList =
    lineFields.fields.map fun f => f.value (v.share linePatterns) := rfl

theorem linePatterns_single : (linePatterns.all fun p => p.isSingle 12) = true := by decide +kernel

theorem line_shared {name : String} (hn : name ∈ edgeLineNames) :
    HasShares (Shorthand.line name) (linePatterns.map Pattern.accepts) none [0,1,2] := by
  have hleaf : ∀ name ∈ edgeLineNames, (Shorthand.line name).name ∉ branchNames := by decide
  exact .of_fields (edgeLines_listed name hn) (hleaf name hn) linePatterns_single
    (fun _ => lineFields.fields) (line_assign name) fun _ => rfl

def line (name : String) (hn : name ∈ edgeLineNames) : Sharing := ofLeaf (line_shared hn)

def singleReadings : List Reading :=
  readings.filter fun r =>
    ["outline","flex-flow","columns","text-wrap","caret"].contains r.shorthand.name

theorem singleReadings_checked : ∀ r ∈ singleReadings, r.shorthand.name ∉ branchNames ∧
    (r.fields.alternatives.all fun p => p.isSingle 12) = true := by
  decide +kernel

theorem reading_shared {r : Reading} (hr : r ∈ singleReadings) : HasShares r.shorthand
    (r.fields.alternatives.map Pattern.accepts) none (r.fields.fields.map Field.index) :=
  .of_fields (readings_listed r (List.mem_filter.1 hr).1) (singleReadings_checked r hr).1
    (singleReadings_checked r hr).2 (fun _ => r.fields.fields) r.reads fun _ => rfl

def reading (r : Reading) (hr : r ∈ singleReadings) : Sharing := ofLeaf (reading_shared hr)

theorem listStyle_shared : HasShares Shorthand.listStyle
    ((listStyleFields true).alternatives.map Pattern.accepts) none [0,1,2] :=
  .of_fields (by simp [shorthands]) (by decide) (by decide +kernel)
    (fun s => (listStyleFields ((s.get? 1).any (isIdent "none"))).fields) (fun _ => rfl) fun _ => rfl

def listStyle : Sharing := ofLeaf listStyle_shared

theorem exists_of_isSole {names : List String} {vs : List Value} (h : isSole names vs = true) :
    ∃ name, vs = [ident name] ∧ Text.isOneOf names name = true := by
  unfold isSole at h
  split at h
  · exact ⟨_,rfl,h⟩
  · cases h

def whiteSpaceTests : List (List Value → Bool) := [isSole collapseKeywords,isSole ["wrap","nowrap"]]

theorem whiteSpaceTests_sole {test : List Value → Bool} (h : test ∈ whiteSpaceTests) :
    ∃ names ∈ [collapseKeywords,["wrap","nowrap"]], test = isSole names := by
  simpa [whiteSpaceTests] using h

/-- The keywords of white space that stand for two others are none of these. -/
theorem presets_apart : ∀ e ∈ whiteSpaceKeywords, ∀ names ∈ [collapseKeywords,["wrap","nowrap"]],
    Text.isOneOf names e.1 = false := by
  decide +kernel

theorem preset_eq_none {v n : Value} {i : Nat} (h : (v.shareBy whiteSpaceTests).get? i = some n) :
    (v.soleKeyword.bind fun keyword => whiteSpaceKeywords.find? fun e => e.1 == keyword) = none := by
  obtain ⟨test,htest,htake,-,hsub⟩ := shareBy_passes h
  obtain ⟨names,hnames,rfl⟩ := whiteSpaceTests_sole (List.mem_of_getElem? htest)
  obtain ⟨name,hn,hname⟩ := exists_of_isSole htake
  rw [Option.bind_eq_none_iff]
  intro keyword hsole
  rw [List.find?_eq_none]
  intro e he
  unfold soleKeyword at hsole
  split at hsole
  · next found hv =>
    cases hsole
    have hmem : ident name ∈ [ident found] := hv ▸ hsub (by rw [hn]; exact List.mem_cons_self)
    cases List.mem_singleton.1 hmem
    have hapart := presets_apart e he names hnames
    intro hkey
    rw [eq_of_beq hkey,Text.isOneOf_congr (Text.sameName_toLower name),hname] at hapart
    cases hapart
  · cases hsole

theorem whiteSpace_shared : HasShares Shorthand.whiteSpace whiteSpaceTests none [0,1] := by
  refine ⟨by simp [shorthands],by decide,⟨?_,fun _ ha => by cases ha⟩,?_,?_⟩
  · intro test htest vs htake
    obtain ⟨names,-,rfl⟩ := whiteSpaceTests_sole htest
    obtain ⟨name,rfl,-⟩ := exists_of_isSole htake
    rfl
  · intro v w _ hperm h
    have hshare : w.shareBy [isSole collapseKeywords,isSole ["wrap","nowrap"]] =
        v.shareBy [isSole collapseKeywords,isSole ["wrap","nowrap"]] := h
    simp only [Shorthand.whiteSpace,soleKeyword_perm hperm,hshare]
  · intro v n _ _ hn i j hi hget
    have hread : (Shorthand.whiteSpace.assign v).toList =
        [⟨0,ident "collapse"⟩,⟨1,ident "wrap"⟩].map fun f : Field =>
          f.value (v.shareBy whiteSpaceTests) := by
      simp only [Shorthand.whiteSpace,preset_eq_none hget]
      rfl
    refine ⟨n,?_,hn⟩
    rw [hread]
    exact getElem?_fields hi hget

def whiteSpace : Sharing := ofLeaf whiteSpace_shared

def easingFunctions : List String := ["linear","cubic-bezier","steps"]

theorem mayBegin_easing {n : Value} (h : (Pattern.type "easing-function").mayBegin 3 n = true)
    (hn : n.isSubstitution = false) : n.isName = true ∨ n.isCallOf easingFunctions = true := by
  cases n with
  | ident name => exact Or.inl rfl
  | function name args =>
    have hcall : ((function name args).isSubstitution || ((function name args).isCallOf ["linear"] ||
        ((function name args).isCallOf ["cubic-bezier"] ||
          ((function name args).isCallOf ["steps"] || false)))) = true := h
    rw [hn] at hcall
    right
    simpa [isCallOf,Text.isOneOf,easingFunctions] using hcall
  | _ => cases h

theorem not_easing_of_time {n : Value} (hn : n.isSubstitution = false)
    (h : (Pattern.type "time").accepts [n] = true) :
    (Pattern.type "easing-function").accepts [n] = false := by
  have hd : (Pattern.type "time").Derives [n] 0 1 := mem_ends_derives (accepts_iff_mem_ends.1 h)
  have hplain : Plain [n] := List.forall_mem_cons.2 ⟨hn,List.forall_mem_nil _⟩
  obtain ⟨-,m,hm,htime⟩ := hd.of_basicType hplain (by decide) (rfl : basicTypes.lookup "time" = some isTime)
  cases hm
  rw [Bool.eq_false_iff]
  intro heasing
  have hbegin : (Pattern.type "easing-function").mayBegin 3 n = true :=
    mayBegin_sound (mem_ends_derives (accepts_iff_mem_ends.1 heasing)) rfl
  rcases mayBegin_easing hbegin hn with hname | hcall
  · cases n with
    | ident => cases htime
    | _ => cases hname
  · cases n with
    | function name args =>
      have hmath : Text.isOneOf mathFunctions name = true := htime
      have hapart : ∀ a ∈ mathFunctions, ∀ b ∈ easingFunctions, Text.sameName a b = false := by
        decide +kernel
      have hnone := isOneOf_disjoint hapart hmath
      have hcall : Text.isOneOf easingFunctions name = true := hcall
      rw [hnone] at hcall
      cases hcall
    | _ => cases hcall

def timed (rest : List Pattern) : List Pattern :=
  .type "time" :: .type "easing-function" :: .type "time" :: rest

theorem takesNodes_timed {rest : List Pattern}
    (h : ((timed rest).all fun p => p.isSingle 12) = true) :
    TakesNodes ((timed rest).map Pattern.accepts) (some 2) := by
  refine ⟨(takesNodes_of_isSingle h).single,?_⟩
  intro a ha
  cases ha
  refine ⟨by decide,rfl,?_⟩
  intro j test hpos hlt htest n hn hkind
  obtain rfl : j = 1 := by omega
  cases htest
  obtain ⟨⟨time,htime,htake⟩,-⟩ := kind?_eq_some hkind
  cases htime
  exact not_easing_of_time hn htake

theorem animation_shared : HasShares LayeredShorthand.animation.shorthand
    (animationFields.alternatives.map Pattern.accepts) (some 2)
    (animationFields.fields.map Field.index) := by
  have hsingle : ((timed (animationFields.alternatives.drop 3)).all fun p => p.isSingle 12) = true := by
    decide +kernel
  exact .of_layers List.mem_cons_self (takesNodes_timed hsingle) (fun _ => rfl) fun _ _ => rfl

theorem transition_shared : HasShares LayeredShorthand.transition.shorthand
    (transitionFields.alternatives.map Pattern.accepts) (some 2)
    (transitionFields.fields.map Field.index) := by
  have hsingle : ((timed (transitionFields.alternatives.drop 3)).all fun p => p.isSingle 12) = true := by
    decide +kernel
  exact .of_layers (by simp [LayeredShorthand.all]) (takesNodes_timed hsingle) (fun _ => rfl)
    fun _ _ => rfl

def animation : Sharing := ofLeaf animation_shared

def transition : Sharing := ofLeaf transition_shared

theorem border_listed : Shorthand.border ∈ shorthands := by simp [shorthands]

def border : Sharing where
  name := "border"
  tests := linePatterns.map Pattern.accepts
  again := none
  fields := (edgeLineNames.take 4).flatMap fun name => (Shorthand.line name).longhands.zip [0,1,2]
  takes := takesNodes_of_isSingle linePatterns_single
  isShort := isShorthand_of_mem border_listed
  isLower := (isSettled_of_mem border_listed).name
  names := by
    intro f hf
    obtain ⟨name,hname,hf⟩ := List.mem_flatMap.1 hf
    have hn := List.mem_of_mem_take hname
    refine mem_longhandsWithin border_listed hname ?_
    have hwithin := longhandsWithin_leaf (edgeLines_listed name hn) (line_shared hn).leaf 7
    exact hwithin ▸ (List.of_mem_zip hf).1
  congr := by
    intro v w hfree hperm h
    refine expandWithin_congr border_listed hperm ?_
    have hexpand : ∀ u, Shorthand.border.expand u = (edgeLineNames.take 4).map (⟨·,u⟩) := fun _ => rfl
    rw [hexpand,hexpand,List.flatMap_map,List.flatMap_map]
    refine List.flatMap_congr fun name hname => ?_
    have hn := List.mem_of_mem_take hname
    have hsame := expandWithin_eq_expand (edgeLines_listed name hn) (line_shared hn).leaf 7
    exact (hsame w).trans (((line name hn).congr hfree hperm h).trans (hsame v).symm)
  reads := by
    intro v n hfree hc hnode f hf hget
    obtain ⟨name,hname,hf⟩ := List.mem_flatMap.1 hf
    have hn := List.mem_of_mem_take hname
    obtain ⟨x,hx,hxn⟩ := (line name hn).reads hfree hc hnode f hf hget
    refine ⟨x,?_,hxn⟩
    have hline : (⟨name,v⟩ : Longhand) ∈ Shorthand.border.expand v := by
      have hmem : (⟨name,v⟩ : Longhand) ∈ (edgeLineNames.take 4).map (⟨·,v⟩) := List.mem_map_of_mem hname
      exact hmem
    have hborder := expand_of_mem border_listed hc
    have hsame := expandWithin_eq_expand (edgeLines_listed name hn) (line_shared hn).leaf 7 v
    rw [show "border" = Shorthand.border.name from rfl,hborder]
    exact List.mem_flatMap.2 ⟨_,hline,hsame ▸ hx⟩

theorem axisLine_listed {axis : String} (ha : axis ∈ ["inline","block"]) :
    Shorthand.line ("border-" ++ axis) ∈ shorthands := by
  have hlines : Shorthand.line ("border-" ++ axis) ∈ lines := by
    simp only [List.mem_cons,List.not_mem_nil,or_false] at ha
    rcases ha with rfl | rfl <;> simp [lines]
  simp [shorthands,hlines]

theorem line_rejects_string {p : Pattern} (hp : p ∈ linePatterns) (text : String) :
    p.accepts [string text] = false := by
  rw [Bool.eq_false_iff]
  intro h
  have hbegin : p.mayBegin 3 (string text) = true :=
    mayBegin_sound (mem_ends_derives (accepts_iff_mem_ends.1 h)) rfl
  simp only [linePatterns,List.mem_cons,List.not_mem_nil,or_false] at hp
  rcases hp with rfl | rfl | rfl <;> cases hbegin

/-- A node that is no text goes to both edges of an axis. -/
theorem mem_expand_axis {axis : String} (ha : axis ∈ ["inline","block"]) {k : String × Pattern}
    (hk : k ∈ axisKinds) {n : Value} (hn : n.flatten = [n]) (htext : n ≠ string "") {l : String}
    (hl : l ∈ (borderAxisFamily axis k.1).longhands) :
    ⟨l,n⟩ ∈ expand (borderAxisFamily axis k.1).name n := by
  have hs := borderAxis_listed axis ha k hk
  have hleaf := ((axisKinds_checked axis ha).2 k hk).2.1
  have hname := (isSettled_of_mem hs).name
  obtain ⟨i,hi⟩ := List.mem_iff_getElem?.1 hl
  cases hc : commonValue n.flatten with
  | none =>
    have hedges : ((borderAxisFamily axis k.1).assign n).toList = [n,n] := by
      simp [borderAxisFamily,ofAxis,axisEdges,nodeOr,hn]
      rfl
    have hlt : i < [n,n].length := (List.getElem?_eq_some_iff.1 hi).1
    rw [expand_leaf hs hleaf hname hc]
    refine mem_expand_of_getElem? hi ?_
    rw [hedges,List.getElem?_eq_getElem hlt]
    exact congrArg some (List.eq_of_mem_replicate (n := 2) (List.getElem_mem hlt))
  | some w =>
    have hw : w = n := commonValue_node htext (hn ▸ hc)
    subst hw
    exact mem_of_valueOf? (valueOf?_common hs hleaf hname hc hl)

def axisLine (axis : String) (ha : axis ∈ ["inline","block"]) : Sharing where
  name := (Shorthand.line ("border-" ++ axis)).name
  tests := linePatterns.map Pattern.accepts
  again := none
  fields := axisKinds.zipIdx.flatMap fun k => (borderAxisFamily axis k.1.1).longhands.map (·,k.2)
  takes := takesNodes_of_isSingle linePatterns_single
  isShort := isShorthand_of_mem (axisLine_listed ha)
  isLower := (isSettled_of_mem (axisLine_listed ha)).name
  names := by
    intro f hf
    obtain ⟨⟨k,i⟩,hk,hf⟩ := List.mem_flatMap.1 hf
    obtain ⟨l,hl,rfl⟩ := List.mem_map.1 hf
    have hmem := List.mem_of_getElem? (List.mem_zipIdx_iff_getElem?.1 hk)
    refine mem_longhandsWithin (axisLine_listed ha) (l := (borderAxisFamily axis k.1).name) ?_ ?_
    · rw [(axisKinds_checked axis ha).1]
      exact List.mem_map_of_mem hmem
    · rw [longhandsWithin_leaf (borderAxis_listed axis ha k hmem)
        ((axisKinds_checked axis ha).2 k hmem).2.1]
      exact hl
  congr := by
    intro v w _ hperm h
    have hshare : w.share linePatterns = v.share linePatterns := h
    have hassign : (Shorthand.line ("border-" ++ axis)).assign w =
        (Shorthand.line ("border-" ++ axis)).assign v :=
      Vector.toList_inj.1 (by rw [line_assign,line_assign,hshare])
    exact expandWithin_congr (axisLine_listed ha) hperm (by
      rw [Shorthand.expand,Shorthand.expand,hassign])
  reads := by
    intro v n _ hc hn f hf hget
    obtain ⟨⟨k,i⟩,hk,hf⟩ := List.mem_flatMap.1 hf
    obtain ⟨l,hl,rfl⟩ := List.mem_map.1 hf
    have hkind := List.mem_zipIdx_iff_getElem?.1 hk
    have hmem := List.mem_of_getElem? hkind
    have hs := borderAxis_listed axis ha k hmem
    have htext : n ≠ string "" := by
      rintro rfl
      obtain ⟨test,htest,htake,-⟩ := shareBy_passes hget
      rw [List.getElem?_map] at htest
      obtain ⟨p,hp,rfl⟩ := Option.map_eq_some_iff.1 htest
      rw [hn,line_rejects_string (List.mem_of_getElem? hp)] at htake
      cases htake
    have hlonghand : (Shorthand.line ("border-" ++ axis)).longhands[i]? =
        some (borderAxisFamily axis k.1).name := by
      rw [(axisKinds_checked axis ha).1,List.getElem?_map,hkind]
      rfl
    have hindex : (lineFields.fields.map Field.index)[i]? = some i := by
      have hlt : i < 3 := (List.getElem?_eq_some_iff.1 hkind).1
      obtain rfl | rfl | rfl : i = 0 ∨ i = 1 ∨ i = 2 := by omega
      all_goals rfl
    have hvalue : ((Shorthand.line ("border-" ++ axis)).assign v).toList[i]? = some n := by
      rw [line_assign]
      exact getElem?_fields hindex hget
    have hleaf := ((axisKinds_checked axis ha).2 k hmem).2.1
    refine ⟨n,?_,hn⟩
    rw [expand_of_mem (axisLine_listed ha) hc]
    refine List.mem_flatMap.2 ⟨_,mem_expand_of_getElem? hlonghand hvalue,?_⟩
    exact (expandWithin_eq_expand hs hleaf 7 n).symm ▸ mem_expand_axis ha hmem hn htext hl

end Sharing

/-- The shorthands that take their nodes in any order. -/
def sharings : List Sharing :=
  (edgeLineNames.attach.map fun name => Sharing.line name.1 name.2) ++
    (Sharing.singleReadings.attach.map fun r => Sharing.reading r.1 r.2) ++
    [.border,.axisLine "inline" (by simp),.axisLine "block" (by simp),.listStyle,.whiteSpace,.transition,
     .animation]

theorem sharings_names : sharings.map Sharing.name = edgeLineNames ++
    ["outline","flex-flow","columns","text-wrap","caret","border","border-inline","border-block",
     "list-style","white-space","transition","animation"] := rfl

theorem sharings_cover : ∀ c ∈ sharings, ∀ i < c.tests.length, ∃ f ∈ c.fields, f.2 = i := by
  decide +kernel

/-- What a longhand has of an alternative, whether or not the value is read at all. -/
theorem Sharing.valueOf?_field (c : Sharing) {v n : Value}
    (hfree : ∀ n ∈ v.flatten, n.isOperator "," = false) (hv : Apart c.tests c.again v.flatten)
    (htext : v.flatten ≠ [string ""]) {f : String × Nat} (hf : f ∈ c.fields)
    (hn : nodeOf? c.tests c.again f.2 v.flatten = some n) :
    ∃ x, valueOf? (expand c.name v) f.1 = some x ∧ x.flatten = [n] := by
  have hexpands := expand_expands c.isShort v
  have hmem : n ∈ v.flatten := nodeOf?_mem hn
  have hnode : n.flatten = [n] := flatten_areNodes v n hmem
  cases hc : commonValue v.flatten with
  | none =>
    have hget := (shareBy_apart c.takes hv).2.2 f.2
    obtain ⟨x,hx,hxn⟩ := c.reads hfree hc hnode f hf (hget.trans hn)
    exact ⟨x,valueOf?_of_mem hexpands.once hx,hxn⟩
  | some w =>
    have hone : v.flatten.length ≤ 1 := by
      by_contra hlen
      rw [commonValue_of_two (by omega)] at hc
      cases hc
    obtain ⟨m,hm⟩ := List.length_eq_one_iff.1
      (Nat.le_antisymm hone (List.length_pos_of_mem hmem))
    rw [hm,List.mem_singleton] at hmem
    subst hmem
    have hw : w = n := commonValue_node (fun he => htext (by rw [hm,he])) (hm ▸ hc)
    have hname : f.1 ∈ (expand c.name v).map Longhand.property := by
      have hof := hexpands.names
      rw [longhandsOf,if_pos c.isShort,c.isLower,Option.some.injEq] at hof
      rw [← hof]
      exact c.names f hf
    obtain ⟨l,hl,he⟩ := List.mem_map.1 hname
    have hvalue : l.value = n := hw ▸ value_of_commonValue c.isShort hc hl
    refine ⟨n,valueOf?_of_mem hexpands.once ?_,hnode⟩
    rw [← he,← hvalue]
    exact hl

theorem Sharing.expand_name (c : Sharing) {property : String} (hp : property.toLower = c.name)
    (v : Value) : expand property v = expand c.name v := by
  obtain ⟨s,hs⟩ := Option.isSome_iff_exists.1 c.isShort
  rw [c.isLower] at hs
  rw [← hp] at hs ⊢
  exact expandWithin_toLower v hs

/-- Where no two nodes are of one kind, but for two times in a transition or an animation, their order
does not matter, as long as the times keep theirs: each node goes to the longhands of its kind, and the
second time to the delay. An empty text alone unsets all longhands. -/
theorem expand_any_order {c : Sharing} (hc : c ∈ sharings) {property : String}
    (hp : property.toLower = c.name) {v w : Value}
    (hfree : ∀ n ∈ v.flatten, n.isOperator "," = false) (hv : Apart c.tests c.again v.flatten)
    (hperm : w.flatten.Perm v.flatten)
    (htimes : c.again.isSome = true → ofKind c.tests 0 w.flatten = ofKind c.tests 0 v.flatten) :
    expand property w = expand property v ∧
    (∀ n ∈ v.flatten, ∃ f ∈ c.fields, nodeOf? c.tests c.again f.2 v.flatten = some n) ∧
    (v.flatten ≠ [string ""] → ∀ f ∈ c.fields, ∀ n, nodeOf? c.tests c.again f.2 v.flatten = some n →
      ∃ x, valueOf? (expand property v) f.1 = some x ∧ x.flatten = [n]) ∧
    (v.flatten = [string ""] → ∀ l ∈ expand property v, l.value = ident "unset") := by
  rw [c.expand_name hp,c.expand_name hp]
  refine ⟨c.congr hfree hperm (shareBy_perm c.takes hv hperm htimes),?_,?_,?_⟩
  · intro n hn
    obtain ⟨i,hi,hnode⟩ := hv.exists_nodeOf? c.takes hn
    obtain ⟨f,hf,rfl⟩ := sharings_cover c hc i hi
    exact ⟨f,hf,hnode⟩
  · exact fun htext f hf n hn => c.valueOf?_field hfree hv htext hf hn
  · exact fun htext => (expand_expands c.isShort v).unset (Or.inr htext)

/-- An animation with two times, an easing function that might be its name, its name, and a keyword that
is a fill mode and no name, in two orders. -/
theorem expand_any_order_animation :
    expand "Animation" (list [ident "none",dimension "2" "s",ident "spin",dimension "1" "s",ident "linear"]) =
      expand "Animation"
        (list [dimension "2" "s",ident "linear",dimension "1" "s",ident "spin",ident "none"]) ∧
    ∃ x, valueOf? (expand "Animation" (list [dimension "2" "s",ident "linear",dimension "1" "s",
        ident "spin",ident "none"])) "animation-delay" = some x ∧ x.flatten = [dimension "1" "s"] := by
  have hv : Apart Sharing.animation.tests Sharing.animation.again [dimension "2" "s",ident "linear",
      dimension "1" "s",ident "spin",ident "none"] := apart_of_isApart (by decide +kernel)
  have h := expand_any_order (c := Sharing.animation) (by simp [sharings])
    (by decide +kernel : "Animation".toLower = Sharing.animation.name)
    (v := list [dimension "2" "s",ident "linear",dimension "1" "s",ident "spin",ident "none"]) (w := list [ident "none",dimension "2" "s",ident "spin",dimension "1" "s",
      ident "linear"]) (by decide +kernel) hv (by decide +kernel) (fun _ => by decide +kernel)
  refine ⟨h.1,h.2.2.1 (by decide +kernel) ("animation-delay",2) (by decide +kernel) _ ?_⟩
  decide +kernel

/-- An empty text is of the kind of a list's type and a marker of its own, but alone it unsets the type.
-/
theorem listStyle_empty_text :
    Apart Sharing.listStyle.tests none [string ""] ∧
    kind? Sharing.listStyle.tests (string "") = some 2 ∧
    ("list-style-type",2) ∈ Sharing.listStyle.fields ∧
    valueOf? (expand "list-style" (string "")) "list-style-type" = some (ident "unset") :=
  ⟨apart_of_isApart (by decide +kernel),by decide +kernel,by decide +kernel,by decide +kernel⟩

end StyleExpansion
