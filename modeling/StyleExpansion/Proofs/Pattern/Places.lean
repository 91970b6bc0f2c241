import StyleExpansion.Pattern.Reader
import StyleExpansion.Proofs.Matching
import StyleExpansion.Proofs.Pattern.Locality

/-! # Matching along one list

The other way to run a pattern: over the list as a whole, from a place on to the places where its spans
end, instead of over what is left of the list to the lengths of the spans. The number of rounds of a
repetition is then limited by the length of the whole list. Both ways find the same spans, so the longest
span that a pattern accepts from a place on can be read off one run over the whole list.
-/
namespace StyleExpansion.Pattern

abbrev Walker := List Value → Nat → List Nat

def goOne (test : Value → Bool) : Walker := fun vs i => if vs[i]?.any test then [i + 1] else []

def goOn (go : Walker) (vs : List Value) (places : List Nat) : List Nat :=
  ascending (places.flatMap (go vs))

def goSequence (go : Pattern → Walker) (ps : List Pattern) : Walker := fun vs i =>
  ps.foldl (fun places p => goOn (go p) vs places) [i]

def goAnyOrder (go : Pattern → Walker) (all : Bool) (items : List Pattern) : Nat → Mask → Walker
  | 0,used,_,i => if enough all items used then [i] else []
  | n + 1,used,vs,i =>
    (if enough all items used then [i] else []) ++
      if used.size = items.length then []
      else items.zipIdx.flatMap fun x =>
        if used.has x.2 then []
        else (go x.1 vs i).flatMap fun j =>
          if j = i && !all then [] else goAnyOrder go all items n (used.put x.2) vs j

def goNext (go : Walker) (comma : Bool) : Walker := fun vs i =>
  if comma then
    if vs[i]?.any (·.isOperator ",") then (go vs (i + 1)).filter (i + 1 < ·) else []
  else (go vs i).filter (i < ·)

def goRounds (go : Walker) (byComma : Bool) (least : Nat) (vs : List Value) :
    Nat → Nat → List Nat → List Nat
  | 0,_,_ => []
  | n + 1,count,places =>
    let reached := goOn (goNext go (byComma && count != 0)) vs places
    (if least ≤ count + 1 then reached else []) ++ goRounds go byComma least vs n (count + 1) reached

def goRepeated (go : Walker) (least : Nat) (most : Option Nat) (byComma : Bool) : Walker := fun vs i =>
  (if least = 0 then [i] else []) ++ goRounds go byComma least vs (roundLimit most vs.length) 0 [i]

def goType (go : Pattern → Walker) (name : String) : Walker := fun vs i =>
  match vs[i]? with
  | none => []
  | some v =>
    if v.isSubstitution then [i + 1]
    else if name = "any-value" then List.range' (i + 1) (vs.length - i)
    else match Value.basicTypes.lookup name with
      | some test => if test v then [i + 1] else []
      | none =>
        match ofType? name with
        | some p => go p vs i
        | none => []

def goProperty (go : Pattern → Walker) (name : String) : Walker := fun vs i =>
  if vs[i]?.any Value.isSubstitution then [i + 1]
  else match ofProperty? name with
    | some p => go p vs i
    | none => []

def goCall (go : Walker) (name : String) : Walker := fun vs i =>
  match vs[i]? with
  | some (.function found args) =>
    if Text.sameName found name && (go args 0).contains args.length then [i + 1] else []
  | _ => []

def placesWithin : Nat → Pattern → Walker
  | 0,_,_,_ => []
  | n + 1,p,vs,i => ascending <|
    match p with
    | keyword word => goOne (·.isIdent word) vs i
    | literal symbol => goOne (·.isOperator symbol) vs i
    | type name => goType (placesWithin n) name vs i
    | property name => goProperty (placesWithin n) name vs i
    | function name body => goCall (placesWithin n body) name vs i
    | sequence items => goSequence (placesWithin n) items vs i
    | allOf items => goAnyOrder (placesWithin n) true items items.length 0 vs i
    | anyOf items => goAnyOrder (placesWithin n) false items items.length 0 vs i
    | oneOf items => items.flatMap fun item => placesWithin n item vs i
    | repeated item least most byComma => goRepeated (placesWithin n item) least most byComma vs i
    | nonEmpty item => (placesWithin n item vs i).filter (· ≠ i)

def places (p : Pattern) : Walker := placesWithin levels p

def Along (go : Walker) (take : Taker) : Prop :=
  ∀ vs i j, j ∈ go vs i ↔ ∃ k ∈ take (vs.drop i), i + k = j

theorem goOne_along (test : Value → Bool) : Along (goOne test) (takeOne test) := by
  intro vs i j
  simp only [mem_takeOne]
  constructor
  · intro h
    rw [goOne] at h
    split at h
    · next hv =>
      obtain ⟨v,hv,ht⟩ := (Option.any_eq_true _ _).1 hv
      exact ⟨1,⟨rfl,v,hv,ht⟩,(List.mem_singleton.1 h).symm⟩
    · cases h
  · rintro ⟨_,⟨rfl,v,hv,ht⟩,rfl⟩
    rw [goOne,hv,Option.any_some,if_pos ht]
    exact List.mem_singleton_self _

def Beyond (i : Nat) (places ks : List Nat) : Prop := ∀ j, j ∈ places ↔ ∃ k ∈ ks, i + k = j

theorem beyond_zero (i : Nat) : Beyond i [i] [0] := by
  intro j
  simp [eq_comm]

theorem Beyond.guard {i : Nat} {places ks : List Nat} (h : Beyond i places ks) (c : Prop)
    [Decidable c] : Beyond i (if c then places else []) (if c then ks else []) := by
  split
  · exact h
  · intro j
    simp

theorem Beyond.append {i : Nat} {places places' ks ks' : List Nat} (h : Beyond i places ks)
    (h' : Beyond i places' ks') : Beyond i (places ++ places') (ks ++ ks') := by
  intro j
  simp only [List.mem_append,h j,h' j,or_and_right,exists_or]

section Combinations
variable {go : Walker} {take : Taker} (h : Along go take)
include h

theorem goNext_along (comma : Bool) : Along (goNext go comma) (takeNext take comma) := by
  intro vs i j
  cases comma with
  | false =>
    simp only [goNext,takeNext,Bool.false_eq_true,if_false,List.mem_filter,h vs i j,
      decide_eq_true_eq]
    constructor
    · rintro ⟨⟨k,hk,rfl⟩,hlt⟩
      exact ⟨k,⟨hk,by omega⟩,rfl⟩
    · rintro ⟨k,⟨hk,h0⟩,rfl⟩
      exact ⟨⟨k,hk,rfl⟩,by omega⟩
  | true =>
    simp only [goNext,takeNext,if_true]
    cases hv : vs[i]? with
    | none =>
      rw [List.drop_eq_nil_of_le (List.getElem?_eq_none_iff.1 hv)]
      simp
    | some v =>
      rw [drop_of_getElem? hv]
      simp only [Option.any_some]
      split
      · simp only [List.mem_filter,List.mem_map,h vs (i + 1) j,decide_eq_true_eq]
        constructor
        · rintro ⟨⟨k,hk,rfl⟩,hlt⟩
          exact ⟨1 + k,⟨k,⟨hk,by omega⟩,rfl⟩,by omega⟩
        · rintro ⟨_,⟨k,⟨hk,h0⟩,rfl⟩,rfl⟩
          exact ⟨⟨k,hk,by omega⟩,by omega⟩
      · simp

theorem goOn_beyond {vs : List Value} {i : Nat} {places starts : List Nat}
    (hs : Beyond i places starts) :
    Beyond i (goOn go vs places) (advance take (vs.drop i) starts) := by
  intro j
  simp only [goOn,mem_ascending,List.mem_flatMap,mem_advance,List.drop_drop]
  constructor
  · rintro ⟨m,hm,hj⟩
    obtain ⟨s,hs,rfl⟩ := (hs m).1 hm
    obtain ⟨d,hd,rfl⟩ := (h vs _ j).1 hj
    exact ⟨s + d,⟨s,hs,d,hd,rfl⟩,by omega⟩
  · rintro ⟨_,⟨s,hm,d,hd,rfl⟩,rfl⟩
    exact ⟨i + s,(hs _).2 ⟨s,hm,rfl⟩,(h vs _ _).2 ⟨d,hd,by omega⟩⟩

end Combinations

theorem goRounds_beyond {go : Walker} {take : Taker} (h : Along go take) (byComma : Bool) (least : Nat)
    (vs : List Value) {i : Nat} (n count : Nat) {places starts : List Nat}
    (hs : Beyond i places starts) : Beyond i (goRounds go byComma least vs n count places)
      (takeRounds take byComma least (vs.drop i) n count starts) := by
  induction n generalizing count places starts with
  | zero => simp [goRounds,takeRounds,Beyond]
  | succ n ih =>
    have hreached : Beyond i (goOn (goNext go (byComma && count != 0)) vs places)
        (advance (takeNext take (byComma && count != 0)) (vs.drop i) starts) :=
      goOn_beyond (goNext_along h _) hs
    exact (hreached.guard _).append (ih (count + 1) hreached)

theorem goCall_along {go : Walker} {take : Taker} (h : Along go take) (name : String) :
    Along (goCall go name) (takeCall take name) := by
  intro vs i j
  have hall : ∀ args : List Value, (go args 0).contains args.length =
      (take args).contains args.length := by
    intro args
    rw [Bool.eq_iff_iff,List.contains_iff_mem,List.contains_iff_mem,h args 0,List.drop_zero]
    simp
  rw [goCall]
  cases hv : vs[i]? with
  | none =>
    rw [List.drop_eq_nil_of_le (List.getElem?_eq_none_iff.1 hv)]
    simp [takeCall]
  | some v =>
    rw [drop_of_getElem? hv]
    cases v with
    | function found args =>
      simp only [takeCall,hall]
      split <;> simp [eq_comm]
    | _ => simp [takeCall]

section Lists
variable {go : Pattern → Walker} {take : Pattern → Taker} (h : ∀ p, Along (go p) (take p))
include h

theorem foldl_goOn_beyond (ps : List Pattern) (vs : List Value) {i : Nat} {places starts : List Nat}
    (hs : Beyond i places starts) :
    Beyond i (ps.foldl (fun places p => goOn (go p) vs places) places)
      (ps.foldl (fun starts p => advance (take p) (vs.drop i) starts) starts) := by
  induction ps generalizing places starts with
  | nil => exact hs
  | cons p ps ih => exact ih (goOn_beyond (h p) hs)

theorem goSequence_along (ps : List Pattern) : Along (goSequence go ps) (takeSequence take ps) :=
  fun vs i => foldl_goOn_beyond h ps vs (beyond_zero i)

theorem goAnyOrder_along (all : Bool) (items : List Pattern) (n : Nat) (used : Mask) :
    Along (goAnyOrder go all items n used) (takeAnyOrder take all items n used) := by
  induction n generalizing used with
  | zero => exact fun _ i => (beyond_zero i).guard _
  | succ n ih =>
    intro vs i
    refine ((beyond_zero i).guard _).append fun j => ?_
    split
    · simp
    · simp only [List.mem_flatMap]
      constructor
      · rintro ⟨x,hx,hj⟩
        split at hj
        · cases hj
        · next hnew =>
          obtain ⟨m,hm,hj⟩ := List.mem_flatMap.1 hj
          obtain ⟨d,hd,rfl⟩ := (h x.1 vs i m).1 hm
          split at hj
          · cases hj
          · next hfill =>
            obtain ⟨k,hk,rfl⟩ := (ih _ vs _ j).1 hj
            rw [← List.drop_drop] at hk
            refine ⟨d + k,⟨x,hx,?_⟩,by omega⟩
            rw [if_neg hnew]
            refine List.mem_flatMap.2 ⟨d,hd,?_⟩
            rw [if_neg (by simpa using hfill)]
            exact List.mem_map_of_mem hk
      · rintro ⟨k,⟨x,hx,hk⟩,rfl⟩
        refine ⟨x,hx,?_⟩
        split at hk
        · cases hk
        · next hnew =>
          obtain ⟨d,hd,hk⟩ := List.mem_flatMap.1 hk
          split at hk
          · cases hk
          · next hfill =>
            obtain ⟨m,hm,rfl⟩ := List.mem_map.1 hk
            rw [List.drop_drop] at hm
            rw [if_neg hnew]
            refine List.mem_flatMap.2 ⟨i + d,(h x.1 vs i _).2 ⟨d,hd,rfl⟩,?_⟩
            rw [if_neg (by simpa using hfill)]
            exact (ih _ vs _ _).2 ⟨m,hm,by omega⟩

theorem goType_along (name : String) : Along (goType go name) (takeType take name) := by
  intro vs i j
  rw [goType]
  cases hv : vs[i]? with
  | none =>
    rw [List.drop_eq_nil_of_le (List.getElem?_eq_none_iff.1 hv)]
    simp [takeType]
  | some v =>
    have hp := fun p => h p vs i j
    have hlen : (vs.drop (i + 1)).length + 1 = vs.length - i := by
      have := (List.getElem?_eq_some_iff.1 hv).1
      rw [List.length_drop]
      omega
    have goTest : ∀ test : Value → Bool, j ∈ (if test v then [i + 1] else []) ↔
        ∃ k ∈ (if test v then [1] else []), i + k = j := by
      intro test
      split <;> simp [eq_comm]
    rw [drop_of_getElem? hv] at hp ⊢
    simp only [takeType,hlen]
    split
    · simp [eq_comm]
    · split
      · simp only [List.mem_range'_1,List.mem_map,List.mem_range]
        constructor
        · intro hj
          exact ⟨j - i,⟨j - i - 1,by omega,by omega⟩,by omega⟩
        · rintro ⟨_,⟨m,hm,rfl⟩,rfl⟩
          omega
      · cases Value.basicTypes.lookup name with
        | some test => exact goTest test
        | none =>
          cases ofType? name with
          | some p => exact hp p
          | none => simp

theorem goProperty_along (name : String) : Along (goProperty go name) (takeProperty take name) := by
  intro vs i j
  rw [goProperty,takeProperty,List.head?_drop]
  split
  · simp [eq_comm]
  · cases ofProperty? name with
    | some p => exact h p vs i j
    | none => simp

end Lists

theorem le_length_of_mem_spansWithin {n : Nat} {p : Pattern} {vs : List Value} {k : Nat}
    (h : k ∈ spansWithin n p vs) : k ≤ vs.length := by
  have hd := (spansWithin_sound n p vs 0 k h).end_le
  omega

theorem goRepeated_along {go : Walker} {n : Nat} {item : Pattern} (h : Along go (spansWithin n item))
    (least : Nat) (most : Option Nat) (byComma : Bool) :
    Along (goRepeated go least most byComma) (takeRepeated (spansWithin n item) least most byComma) := by
  intro vs i
  refine ((beyond_zero i).guard _).append fun j => ?_
  rw [goRounds_beyond h byComma least vs _ 0 (beyond_zero i) j]
  -- the limit on the rounds is by the whole list here, and by what is left of it there
  refine exists_congr fun k => and_congr_left fun _ => ⟨fun hk => ?_,fun hk => ?_⟩
  · refine mem_takeRounds_of_size ?_ hk
    have hstart : ∀ s ∈ [0], Derivation (.rounds item byComma 0) (vs.drop i) 0 (0 + s) := by
      intro s hs
      rw [List.mem_singleton.1 hs]
      exact .noRound
    obtain ⟨c,_,_,hr⟩ := rounds_of_mem_takeRounds (spansWithin_sound n item) _ hstart hk
    have := hr.end_le
    omega
  · refine mem_takeRounds_of_limit (by simp) hk (Or.inl ?_)
    have := List.length_drop (i := i) (l := vs)
    cases most <;> simp only [roundLimit] <;> omega

theorem placesWithin_along (n : Nat) (p : Pattern) : Along (placesWithin n p) (spansWithin n p) := by
  induction n generalizing p with
  | zero => simp [Along,placesWithin,spansWithin]
  | succ n ih =>
    intro vs i j
    unfold placesWithin spansWithin
    simp only [mem_ascending]
    cases p with
    | keyword word => exact goOne_along _ vs i j
    | literal symbol => exact goOne_along _ vs i j
    | type name => exact goType_along ih name vs i j
    | property name => exact goProperty_along ih name vs i j
    | function name body => exact goCall_along (ih body) name vs i j
    | sequence items => exact goSequence_along ih items vs i j
    | allOf items => exact goAnyOrder_along ih true items _ 0 vs i j
    | anyOf items => exact goAnyOrder_along ih false items _ 0 vs i j
    | oneOf items =>
      simp only [List.mem_flatMap,ih _ vs i j]
      constructor
      · rintro ⟨item,hm,k,hk,rfl⟩
        exact ⟨k,⟨item,hm,hk⟩,rfl⟩
      · rintro ⟨k,⟨item,hm,hk⟩,rfl⟩
        exact ⟨item,hm,k,hk,rfl⟩
    | repeated item least most byComma => exact goRepeated_along (ih item) least most byComma vs i j
    | nonEmpty item =>
      simp only [List.mem_filter,ih item vs i j]
      constructor
      · rintro ⟨⟨k,hk,rfl⟩,hne⟩
        exact ⟨k,⟨hk,by simpa using hne⟩,rfl⟩
      · rintro ⟨k,⟨hk,hne⟩,rfl⟩
        exact ⟨⟨k,hk,rfl⟩,by simpa using hne⟩

theorem nothing_accepts (vs : List Value) : nothing.accepts vs = false := rfl

/-- A span is accepted just if its end is among the places that are reached from its start. -/
theorem accepts_take_iff (p : Pattern) {vs : List Value} {i k : Nat} (hk : k ≤ (vs.drop i).length) :
    p.accepts ((vs.drop i).take k) = true ↔ i + k ∈ p.places vs i := by
  have hspan := accepts_iff_mem_spans p ((vs.drop i).take k) ((vs.drop i).drop k)
  rw [List.take_append_drop,List.length_take,Nat.min_eq_left hk] at hspan
  rw [hspan,places,placesWithin_along levels p vs i,spans]
  constructor
  · exact fun h => ⟨k,h,rfl⟩
  · rintro ⟨m,hm,he⟩
    exact Nat.add_left_cancel he ▸ hm

theorem longestSpan_accepts (p : Pattern) (vs : List Value) (i : Nat) :
    (longestSpan p.accepts (vs.drop i)).map (i + ·) = ((p.places vs i).filter (i < ·)).max? := by
  have hle : ∀ j ∈ p.places vs i, j - i ≤ (vs.drop i).length := by
    intro j hj
    obtain ⟨k,hk,rfl⟩ := (placesWithin_along levels p vs i j).1 hj
    rw [Nat.add_sub_cancel_left]
    exact le_length_of_mem_spansWithin hk
  refine Option.ext fun j => ?_
  simp only [Option.map_eq_some_iff,longestSpan_eq_some_iff,List.max?_eq_some_iff,List.mem_filter,
    decide_eq_true_eq]
  constructor
  · rintro ⟨k,⟨⟨ht,h0,hk⟩,hmax⟩,rfl⟩
    refine ⟨⟨(accepts_take_iff p hk).1 ht,by omega⟩,fun b hb => ?_⟩
    have hb' := hle b hb.1
    have hsum : i + (b - i) = b := by omega
    have ht' := (accepts_take_iff p hb').2 (hsum.symm ▸ hb.1)
    have := hmax (b - i) ⟨ht',by omega,hb'⟩
    omega
  · rintro ⟨⟨hj,hlt⟩,hmax⟩
    have hj' := hle j hj
    have hsum : i + (j - i) = j := by omega
    have ht' := (accepts_take_iff p hj').2 (hsum.symm ▸ hj)
    refine ⟨j - i,⟨⟨ht',by omega,hj'⟩,?_⟩,hsum⟩
    rintro m ⟨ht,h0,hm⟩
    have := hmax (i + m) ⟨(accepts_take_iff p hm).1 ht,by omega⟩
    omega

/-- The longest span that a text accepts from a place on ends at the greatest place that one run along the
whole list reaches, if the text is a pattern; otherwise there is none. Whether a text accepts the nodes of
a span depends neither on where they stand nor on what follows them. -/
theorem longestSpan_eq_greatest_place (text : String) :
    (∀ (vs : List Value) (i : Nat),
      (longestSpan (ofText text).accepts (vs.drop i)).map (i + ·) =
        (parse? text).bind fun p => ((p.places vs i).filter (i < ·)).max?) ∧
    ∀ before span after : List Value, (ofText text).accepts span = true ↔
      ∃ p, parse? text = some p ∧
        before.length + span.length ∈ p.places (before ++ span ++ after) before.length := by
  rw [ofText]
  cases parse? text with
  | none =>
    refine ⟨fun vs i => ?_,fun before span after => by simp [nothing_accepts]⟩
    have hnone : longestSpan nothing.accepts (vs.drop i) = none :=
      longestSpan_eq_none_iff.2 fun _ _ _ => nothing_accepts _
    simp [hnone]
  | some p =>
    refine ⟨fun vs i => longestSpan_accepts p vs i,fun before span after => ?_⟩
    have hlen : span.length ≤ ((before ++ span ++ after).drop before.length).length := by simp
    have hspan := accepts_take_iff p hlen
    rw [List.append_assoc,List.drop_left,List.take_left] at hspan
    simpa using hspan

end StyleExpansion.Pattern
