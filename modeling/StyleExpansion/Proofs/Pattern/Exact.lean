import StyleExpansion.Proofs.Pattern.Derivation
import StyleExpansion.Proofs.Pattern.Picked

/-! # Matching is exact

The spans that a pattern takes are those that it derives: none is taken without a derivation, and none
that has one is missed, as long as the patterns nest no deeper than matching goes. Each way of taking
spans is sound and complete for its part of the notation; a level of nesting is put together from them.
-/
namespace StyleExpansion

theorem mem_insertAscending {k n : Nat} {ms : List Nat} :
    k ∈ insertAscending n ms ↔ k = n ∨ k ∈ ms := by
  induction ms with
  | nil => simp [insertAscending]
  | cons m ms ih =>
    rw [insertAscending]
    split
    · simp
    · split
      · next h => simp [h]
      · rw [List.mem_cons,ih,List.mem_cons]
        tauto

theorem pairwise_insertAscending {n : Nat} {ms : List Nat} (h : ms.Pairwise (· < ·)) :
    (insertAscending n ms).Pairwise (· < ·) := by
  induction ms with
  | nil => simp [insertAscending]
  | cons m ms ih =>
    obtain ⟨hm,hms⟩ := List.pairwise_cons.1 h
    rw [insertAscending]
    split
    · next hn =>
      refine List.pairwise_cons.2 ⟨?_,h⟩
      intro k hk
      rcases List.mem_cons.1 hk with rfl | hk
      · exact hn
      · exact Nat.lt_trans hn (hm k hk)
    · split
      · exact h
      · refine List.pairwise_cons.2 ⟨?_,ih hms⟩
        intro k hk
        rcases mem_insertAscending.1 hk with rfl | hk
        · omega
        · exact hm k hk

@[simp] theorem mem_ascending {k : Nat} {ns : List Nat} : k ∈ ascending ns ↔ k ∈ ns := by
  induction ns with
  | nil => simp [ascending]
  | cons n ns ih => rw [ascending,List.foldr_cons,mem_insertAscending,← ascending,ih,List.mem_cons]

theorem pairwise_ascending (ns : List Nat) : (ascending ns).Pairwise (· < ·) := by
  induction ns with
  | nil => exact List.Pairwise.nil
  | cons n ns ih => exact pairwise_insertAscending ih

namespace Pattern

theorem getElem?_of_drop {vs : List Value} {i : Nat} {v : Value} {rest : List Value}
    (h : vs.drop i = v :: rest) : vs[i]? = some v := by
  rw [← List.head?_drop,h,List.head?_cons]

theorem drop_of_getElem? {vs : List Value} {i : Nat} {v : Value} (h : vs[i]? = some v) :
    vs.drop i = v :: vs.drop (i + 1) := by
  obtain ⟨hi,rfl⟩ := List.getElem?_eq_some_iff.1 h
  exact List.drop_eq_getElem_cons hi

def Sound (take : Taker) (p : Pattern) : Prop :=
  ∀ vs i k, k ∈ take (vs.drop i) → Derives p vs i (i + k)

def Complete (take : Taker) (p : Pattern) : Prop :=
  ∀ vs i j, Derives p vs i j → j - i ∈ take (vs.drop i)

theorem mem_takeOne {test : Value → Bool} {vs : List Value} {i k : Nat} :
    k ∈ takeOne test (vs.drop i) ↔ k = 1 ∧ ∃ v, vs[i]? = some v ∧ test v = true := by
  constructor
  · intro h
    cases hd : vs.drop i with
    | nil =>
      rw [hd] at h
      cases h
    | cons v rest =>
      rw [hd,takeOne] at h
      split at h
      · next ht => exact ⟨List.mem_singleton.1 h,v,getElem?_of_drop hd,ht⟩
      · cases h
  · rintro ⟨rfl,v,hv,ht⟩
    rw [drop_of_getElem? hv,takeOne,if_pos ht]
    exact List.mem_singleton_self _

theorem mem_advance {take : Taker} {vs : List Value} {starts : List Nat} {k : Nat} :
    k ∈ advance take vs starts ↔ ∃ s ∈ starts, ∃ d ∈ take (vs.drop s), s + d = k := by
  simp [advance]

/-! ## Soundness -/

section Sound
variable {take : Pattern → Taker}

theorem takeType_sound (h : ∀ p, Sound (take p) p) (name : String) :
    Sound (takeType take name) (type name) := by
  intro vs i k hk
  cases hd : vs.drop i with
  | nil =>
    rw [hd] at hk
    cases hk
  | cons v rest =>
    have hv := getElem?_of_drop hd
    rw [hd,takeType] at hk
    split at hk
    · next hs =>
      rw [List.mem_singleton.1 hk]
      exact .typeSubstitution hv hs
    · next hs =>
      rw [Bool.not_eq_true] at hs
      split at hk
      · next hn =>
        subst hn
        obtain ⟨m,hm,rfl⟩ := List.mem_map.1 hk
        have hl := congrArg List.length hd
        rw [List.length_drop,List.length_cons] at hl
        rw [List.mem_range] at hm
        exact .anyValue hv hs (by omega) (by omega)
      · next hn =>
        split at hk
        · next test ht =>
          split at hk
          · next hp =>
            rw [List.mem_singleton.1 hk]
            exact .basicType hv hs hn ht hp
          · cases hk
        · next ht =>
          split at hk
          · next p hp => exact .namedType hv hs hn ht hp (h p vs i k (hd ▸ hk))
          · cases hk

theorem takeProperty_sound (h : ∀ p, Sound (take p) p) (name : String) :
    Sound (takeProperty take name) (property name) := by
  intro vs i k hk
  rw [takeProperty,List.head?_drop] at hk
  split at hk
  · next hs =>
    obtain ⟨v,hv,ht⟩ := (Option.any_eq_true _ _).1 hs
    rw [List.mem_singleton.1 hk]
    exact .propertySubstitution hv ht
  · next hs =>
    split at hk
    · next p hp =>
      refine .namedProperty ?_ hp (h p vs i k hk)
      intro v hv
      simpa [hv] using hs
    · cases hk

theorem takeCall_sound {take : Taker} {body : Pattern} (h : Sound take body) (name : String) :
    Sound (takeCall take name) (function name body) := by
  intro vs i k hk
  unfold takeCall at hk
  split at hk
  · next found arguments rest hd =>
    split at hk
    · next hc =>
      rw [Bool.and_eq_true,List.contains_iff_mem] at hc
      rw [List.mem_singleton.1 hk]
      have hb := h arguments 0 arguments.length (by simpa using hc.2)
      exact .function (getElem?_of_drop hd) hc.1 (by simpa using hb)
    · cases hk
  · cases hk

theorem chain_of_mem_foldl (h : ∀ p, Sound (take p) p) {vs : List Value} {i : Nat}
    (ps : List Pattern) {starts : List Nat} {k : Nat}
    (hk : k ∈ ps.foldl (fun starts p => advance (take p) (vs.drop i) starts) starts) :
    ∃ s ∈ starts, Derivation (.chain false ps) vs (i + s) (i + k) := by
  induction ps generalizing starts with
  | nil => exact ⟨k,hk,.endOfChain⟩
  | cons p ps ih =>
    obtain ⟨m,hm,hc⟩ := ih hk
    obtain ⟨s,hs,d,hd,rfl⟩ := mem_advance.1 hm
    rw [List.drop_drop] at hd
    have hp := h p vs (i + s) d hd
    rw [Nat.add_assoc] at hp
    exact ⟨s,hs,.link hp (by simp) hc⟩

theorem takeSequence_sound (h : ∀ p, Sound (take p) p) (items : List Pattern) :
    Sound (takeSequence take items) (sequence items) := by
  intro vs i k hk
  obtain ⟨s,hs,hc⟩ := chain_of_mem_foldl h items hk
  rw [List.mem_singleton.1 hs] at hc
  exact .sequence hc

/-- What a group takes is a chain of items that were not picked before, and with those they are enough. -/
theorem chain_of_mem_takeAnyOrder (h : ∀ p, Sound (take p) p) {all : Bool} {items : List Pattern}
    {vs : List Value} (n : Nat) {picked : List (Pattern × Nat)} (hp : Picked items picked) {i k : Nat}
    (hk : k ∈ takeAnyOrder take all items n (maskOf picked) (vs.drop i)) :
    ∃ later, Derivation (.chain (!all) (later.map Prod.fst)) vs i (i + k) ∧
      Picked items (later ++ picked) ∧
      if all then (later ++ picked).length = items.length else later ++ picked ≠ [] := by
  have hend : ∀ {picked : List (Pattern × Nat)} {i k : Nat}, Picked items picked →
      k ∈ (if enough all items (maskOf picked) then [0] else []) →
      ∃ later, Derivation (.chain (!all) (later.map Prod.fst)) vs i (i + k) ∧
        Picked items (later ++ picked) ∧
        if all then (later ++ picked).length = items.length else later ++ picked ≠ [] := by
    intro picked i k hp hk
    split at hk
    · next he =>
      rw [List.mem_singleton.1 hk]
      exact ⟨[],.endOfChain,hp,hp.enough_iff.1 he⟩
    · cases hk
  induction n generalizing picked i k with
  | zero => exact hend hp hk
  | succ n ih =>
    rw [takeAnyOrder,List.mem_append] at hk
    rcases hk with hk | hk
    · exact hend hp hk
    · split at hk
      · cases hk
      · obtain ⟨x,hx,hk⟩ := List.mem_flatMap.1 hk
        split at hk
        · cases hk
        · next hnew =>
          obtain ⟨d,hd,hk⟩ := List.mem_flatMap.1 hk
          split at hk
          · cases hk
          · next hfill =>
            obtain ⟨m,hm,rfl⟩ := List.mem_map.1 hk
            rw [List.drop_drop,← maskOf_cons] at hm
            obtain ⟨later,hc,hlater,hlast⟩ := ih (hp.cons hx (Bool.eq_false_iff.2 hnew)) hm
            rw [Nat.add_assoc] at hc
            have hmid : (later ++ x :: picked).Perm (x :: later ++ picked) := List.perm_middle
            refine ⟨x :: later,.link (h x.1 vs i d hd) ?_ hc,hlater.perm hmid,?_⟩
            · intro ha
              simp only [ha,Bool.and_true,decide_eq_true_eq] at hfill
              omega
            · cases all with
              | true => exact hmid.length_eq.symm.trans hlast
              | false => simp

theorem takeAnyOrder_sound (h : ∀ p, Sound (take p) p) (items : List Pattern) :
    Sound (takeAnyOrder take true items items.length 0) (allOf items) ∧
    Sound (takeAnyOrder take false items items.length 0) (anyOf items) := by
  constructor
  · intro vs i k hk
    obtain ⟨later,hc,hp,hl⟩ := chain_of_mem_takeAnyOrder h _ .nil hk
    rw [List.append_nil] at hp hl
    refine .allOf (hp.subperm.perm_of_length_le ?_) hc
    rw [List.length_map]
    exact Nat.le_of_eq hl.symm
  · intro vs i k hk
    obtain ⟨later,hc,hp,hne⟩ := chain_of_mem_takeAnyOrder h _ .nil hk
    rw [List.append_nil] at hp hne
    exact .anyOf (by simpa using hne) hp.subperm hc

theorem takeNext_sound {take : Taker} {p : Pattern} (h : Sound take p) {byComma : Bool}
    {vs : List Value} {count i m d : Nat} (hr : Derivation (.rounds p byComma count) vs i m)
    (hd : d ∈ takeNext take (byComma && count != 0) (vs.drop m)) :
    Derivation (.rounds p byComma (count + 1)) vs i (m + d) := by
  unfold takeNext at hd
  split at hd
  · next hc =>
    split at hd
    · next v rest hv =>
      split at hd
      · next ht =>
        obtain ⟨k,hk,rfl⟩ := List.mem_map.1 hd
        obtain ⟨hk,h0⟩ := List.mem_filter.1 hk
        have hg := getElem?_of_drop hv
        have hrest : rest = vs.drop (m + 1) := by
          have := hv.symm.trans (drop_of_getElem? hg)
          exact (List.cons.inj this).2
        have hp := h vs (m + 1) k (hrest ▸ hk)
        rw [Nat.add_assoc] at hp
        exact .separated hr hc hg ht hp (by have := of_decide_eq_true h0; omega)
      · cases hd
    · cases hd
  · next hc =>
    obtain ⟨hd,h0⟩ := List.mem_filter.1 hd
    exact .round hr (Bool.eq_false_iff.2 hc) (h vs m d hd)
      (by have := of_decide_eq_true h0; omega)

theorem rounds_of_mem_takeRounds {take : Taker} {p : Pattern} (h : Sound take p) {byComma : Bool}
    {least : Nat} {vs : List Value} {i : Nat} (n : Nat) {count : Nat} {starts : List Nat} {k : Nat}
    (hs : ∀ s ∈ starts, Derivation (.rounds p byComma count) vs i (i + s))
    (hk : k ∈ takeRounds take byComma least (vs.drop i) n count starts) :
    ∃ c, least ≤ c ∧ c ≤ count + n ∧ Derivation (.rounds p byComma c) vs i (i + k) := by
  induction n generalizing count starts with
  | zero => cases hk
  | succ n ih =>
    have hreached : ∀ s ∈ advance (takeNext take (byComma && count != 0)) (vs.drop i) starts,
        Derivation (.rounds p byComma (count + 1)) vs i (i + s) := by
      intro s hm
      obtain ⟨b,hb,d,hd,rfl⟩ := mem_advance.1 hm
      rw [List.drop_drop] at hd
      simpa [Nat.add_assoc] using takeNext_sound h (hs b hb) hd
    rw [takeRounds,List.mem_append] at hk
    rcases hk with hk | hk
    · split at hk
      · next hl => exact ⟨count + 1,hl,by omega,hreached k hk⟩
      · cases hk
    · obtain ⟨c,hl,hc,hr⟩ := ih hreached hk
      exact ⟨c,hl,by omega,hr⟩

theorem takeRepeated_sound {take : Taker} {p : Pattern} (h : Sound take p) (least : Nat)
    (most : Option Nat) (byComma : Bool) :
    Sound (takeRepeated take least most byComma) (repeated p least most byComma) := by
  intro vs i k hk
  rw [takeRepeated,List.mem_append] at hk
  rcases hk with hk | hk
  · split at hk
    · next hl =>
      rw [List.mem_singleton.1 hk]
      exact .repeated (by omega) (by simp) .noRound
    · cases hk
  · have hstart : ∀ s ∈ [0], Derivation (.rounds p byComma 0) vs i (i + s) := by
      intro s hs
      rw [List.mem_singleton.1 hs]
      exact .noRound
    obtain ⟨c,hl,hc,hr⟩ := rounds_of_mem_takeRounds h _ hstart hk
    refine .repeated hl ?_ hr
    rintro m rfl
    rw [roundLimit] at hc
    omega

end Sound

/-- What matching takes, within any number of levels, is derived. -/
theorem spansWithin_sound (n : Nat) (p : Pattern) : Sound (spansWithin n p) p := by
  induction n generalizing p with
  | zero =>
    intro vs i k hk
    cases hk
  | succ n ih =>
    intro vs i k hk
    unfold spansWithin at hk
    rw [mem_ascending] at hk
    cases p with
    | keyword word =>
      obtain ⟨rfl,v,hv,ht⟩ := mem_takeOne.1 hk
      exact .keyword hv ht
    | literal symbol =>
      obtain ⟨rfl,v,hv,ht⟩ := mem_takeOne.1 hk
      exact .literal hv ht
    | type name => exact takeType_sound ih name vs i k hk
    | property name => exact takeProperty_sound ih name vs i k hk
    | function name body => exact takeCall_sound (ih body) name vs i k hk
    | sequence items => exact takeSequence_sound ih items vs i k hk
    | allOf items => exact (takeAnyOrder_sound ih items).1 vs i k hk
    | anyOf items => exact (takeAnyOrder_sound ih items).2 vs i k hk
    | oneOf items =>
      obtain ⟨item,hm,hk⟩ := List.mem_flatMap.1 hk
      exact .oneOf hm (ih item vs i k hk)
    | repeated item least most byComma =>
      exact takeRepeated_sound (ih item) least most byComma vs i k hk
    | nonEmpty item =>
      obtain ⟨hk,h0⟩ := List.mem_filter.1 hk
      exact .nonEmpty (ih item vs i k hk) (by have := of_decide_eq_true h0; omega)

/-! ## Completeness -/

section Complete
variable {take : Pattern → Taker}

theorem takeType_complete {name : String} (h : ∀ p, ofType? name = some p → Complete (take p) p) :
    Complete (takeType take name) (type name) := by
  intro vs i j hd
  cases hd with
  | typeSubstitution hv hs =>
    rw [drop_of_getElem? hv,takeType,if_pos hs,Nat.add_sub_cancel_left]
    exact List.mem_singleton_self _
  | anyValue hv hs hij hj =>
    rw [drop_of_getElem? hv,takeType,if_neg (Bool.eq_false_iff.1 hs),if_pos rfl]
    refine List.mem_map.2 ⟨j - i - 1,?_,by omega⟩
    rw [List.mem_range,List.length_drop]
    omega
  | basicType hv hs hn hl ht =>
    rw [drop_of_getElem? hv,takeType,if_neg (Bool.eq_false_iff.1 hs),if_neg hn,
      Nat.add_sub_cancel_left]
    simp [hl,ht]
  | namedType hv hs hn hl hp hd =>
    have hm := h _ hp vs i j hd
    rw [drop_of_getElem? hv] at hm ⊢
    rw [takeType,if_neg (Bool.eq_false_iff.1 hs),if_neg hn]
    simpa only [hl,hp] using hm

theorem takeProperty_complete {name : String}
    (h : ∀ p, ofProperty? name = some p → Complete (take p) p) :
    Complete (takeProperty take name) (property name) := by
  intro vs i j hd
  rw [takeProperty,List.head?_drop]
  cases hd with
  | propertySubstitution hv hs =>
    rw [hv,Option.any_some,if_pos hs,Nat.add_sub_cancel_left]
    exact List.mem_singleton_self _
  | namedProperty hs hp hd =>
    rw [if_neg]
    · simpa only [hp] using h _ hp vs i j hd
    · intro ha
      obtain ⟨v,hv,ht⟩ := (Option.any_eq_true _ _).1 ha
      rw [hs v hv] at ht
      cases ht

theorem takeCall_complete {take : Taker} {body : Pattern} (h : Complete take body) (name : String) :
    Complete (takeCall take name) (function name body) := by
  intro vs i j hd
  cases hd with
  | function hv hn hb =>
    have hm := h _ _ _ hb
    rw [drop_of_getElem? hv,takeCall,if_pos,Nat.add_sub_cancel_left]
    · exact List.mem_singleton_self _
    · rw [hn,Bool.true_and,List.contains_iff_mem]
      simpa using hm

theorem mem_foldl_of_chain {vs : List Value} {base j : Nat} {ps : List Pattern}
    (h : ∀ p ∈ ps, Complete (take p) p) {starts : List Nat} {s : Nat} (hs : s ∈ starts)
    (hc : Derivation (.chain false ps) vs (base + s) j) :
    j - base ∈ ps.foldl (fun starts p => advance (take p) (vs.drop base) starts) starts := by
  induction ps generalizing starts s with
  | nil =>
    cases hc
    rwa [Nat.add_sub_cancel_left]
  | cons p ps ih =>
    cases hc with
    | @link _ _ _ _ _ m _ hp _ hc =>
      have hle := hp.le
      have hd := h p List.mem_cons_self vs _ _ hp
      rw [← List.drop_drop] at hd
      refine ih (fun q hq => h q (List.mem_cons_of_mem _ hq)) (s := m - base) ?_ ?_
      · exact mem_advance.2 ⟨s,hs,_,hd,by omega⟩
      · rwa [Nat.add_sub_cancel' (by omega)]

theorem takeSequence_complete {items : List Pattern} (h : ∀ p ∈ items, Complete (take p) p) :
    Complete (takeSequence take items) (sequence items) := by
  intro vs i j hd
  cases hd with
  | sequence hc => exact mem_foldl_of_chain h (List.mem_singleton_self 0) hc

theorem mem_takeAnyOrder_of_chain {all : Bool} {items : List Pattern} {vs : List Value}
    (h : ∀ p ∈ items, Complete (take p) p) (n : Nat) {picked later : List (Pattern × Nat)} {i j : Nat}
    (hn : later.length ≤ n) (hp : Picked items (later ++ picked))
    (hlast : if all then (later ++ picked).length = items.length else later ++ picked ≠ [])
    (hc : Derivation (.chain (!all) (later.map Prod.fst)) vs i j) :
    j - i ∈ takeAnyOrder take all items n (maskOf picked) (vs.drop i) := by
  induction n generalizing picked later i with
  | zero =>
    cases List.length_eq_zero_iff.1 (Nat.le_zero.1 hn)
    cases hc
    have he : enough all items (maskOf picked) = true := hp.enough_iff.2 hlast
    rw [takeAnyOrder,if_pos he,Nat.sub_self]
    exact List.mem_singleton_self 0
  | succ n ih =>
    rw [takeAnyOrder,List.mem_append]
    cases later with
    | nil =>
      left
      cases hc
      have he : enough all items (maskOf picked) = true := hp.enough_iff.2 hlast
      rw [if_pos he,Nat.sub_self]
      exact List.mem_singleton_self 0
    | cons x later =>
      right
      cases hc with
      | @link _ _ _ _ _ m _ hd hf hc =>
        have hmid : (x :: later ++ picked).Perm (later ++ x :: picked) := List.perm_middle.symm
        have hplace := hp.placed List.mem_cons_self
        have hle := hd.le
        have hle' := hc.le
        have hm := h x.1 (List.fst_mem_of_mem_zipIdx hplace) vs i m hd
        rw [if_neg hp.size_ne]
        refine List.mem_flatMap.2 ⟨x,hplace,?_⟩
        rw [if_neg (Bool.eq_false_iff.1 hp.has_eq_false)]
        refine List.mem_flatMap.2 ⟨m - i,hm,?_⟩
        rw [if_neg,List.drop_drop,Nat.add_sub_cancel' hle,← maskOf_cons]
        · refine List.mem_map.2 ⟨j - m,ih (by simpa using hn) (hp.perm hmid) ?_ hc,by omega⟩
          cases all with
          | true => exact hmid.length_eq.symm.trans hlast
          | false => simp
        · intro h0
          rw [Bool.and_eq_true,decide_eq_true_eq] at h0
          have := hf h0.2
          omega

theorem takeAnyOrder_complete {items : List Pattern} (h : ∀ p ∈ items, Complete (take p) p)
    (hfew : items.length ≤ 64) :
    Complete (takeAnyOrder take true items items.length 0) (allOf items) ∧
    Complete (takeAnyOrder take false items items.length 0) (anyOf items) := by
  constructor
  · intro vs i j hd
    cases hd with
    | allOf hps hc =>
      obtain ⟨picked,rfl,hp⟩ := exists_picked hps.subperm hfew
      rw [← List.append_nil picked] at hp
      have hl := hps.length_eq
      rw [List.length_map] at hl
      exact mem_takeAnyOrder_of_chain h _ (Nat.le_of_eq hl) hp (by simpa using hl) hc
  · intro vs i j hd
    cases hd with
    | anyOf hne hps hc =>
      obtain ⟨picked,rfl,hp⟩ := exists_picked hps hfew
      have hl := hp.length_le
      rw [← List.append_nil picked] at hp
      exact mem_takeAnyOrder_of_chain h _ hl hp (by simpa using hne) hc

theorem mem_takeNext {take : Taker} {p : Pattern} (h : Complete take p) {byComma : Bool}
    {vs : List Value} {count i j : Nat} (hr : Derivation (.rounds p byComma (count + 1)) vs i j) :
    ∃ m, Derivation (.rounds p byComma count) vs i m ∧ m < j ∧
      j - m ∈ takeNext take (byComma && count != 0) (vs.drop m) := by
  cases hr with
  | @round _ _ _ _ _ m _ hr hc hp hlt =>
    refine ⟨m,hr,hlt,?_⟩
    unfold takeNext
    rw [if_neg (Bool.eq_false_iff.1 hc)]
    exact List.mem_filter.2 ⟨h vs m j hp,decide_eq_true (by omega)⟩
  | @separated _ _ _ _ _ m _ v hr hc hv ht hp hlt =>
    refine ⟨m,hr,by omega,?_⟩
    unfold takeNext
    rw [if_pos hc,drop_of_getElem? hv]
    simp only [ht,if_true]
    refine List.mem_map.2 ⟨j - (m + 1),List.mem_filter.2 ⟨h vs (m + 1) j hp,?_⟩,by omega⟩
    exact decide_eq_true (by omega)

/-- The lengths reached after so many rounds hold all that this number of repetitions derives, so each
further round finds all that one more repetition derives. -/
theorem mem_takeRounds_of_rounds {take : Taker} {p : Pattern} (h : Complete take p) {byComma : Bool}
    {least : Nat} {vs : List Value} {i : Nat} (n : Nat) {count c : Nat} {starts : List Nat} {j : Nat}
    (hs : ∀ m, Derivation (.rounds p byComma count) vs i m → m - i ∈ starts) (hl : least ≤ c)
    (hlo : count < c) (hhi : c ≤ count + n) (hr : Derivation (.rounds p byComma c) vs i j) :
    j - i ∈ takeRounds take byComma least (vs.drop i) n count starts := by
  induction n generalizing count starts with
  | zero => omega
  | succ n ih =>
    have hreached : ∀ m, Derivation (.rounds p byComma (count + 1)) vs i m →
        m - i ∈ advance (takeNext take (byComma && count != 0)) (vs.drop i) starts := by
      intro m hm
      obtain ⟨b,hb,hlt,hd⟩ := mem_takeNext h hm
      have hle := hb.le
      refine mem_advance.2 ⟨b - i,hs b hb,m - b,?_,by omega⟩
      rwa [List.drop_drop,Nat.add_sub_cancel' hle]
    rw [takeRounds,List.mem_append]
    by_cases hc : c = count + 1
    · subst hc
      left
      rw [if_pos hl]
      exact hreached j hr
    · right
      exact ih hreached (by omega) (by omega)

theorem Derivation.rounds_le {p : Pattern} {byComma : Bool} {count : Nat} {vs : List Value}
    {i j : Nat} (h : Derivation (.rounds p byComma count) vs i j) : count ≤ j - i := by
  induction count generalizing j with
  | zero => omega
  | succ count ih =>
    cases h with
    | round hr _ _ hlt =>
      have := ih hr
      have := hr.le
      omega
    | separated hr _ _ _ _ hlt =>
      have := ih hr
      have := hr.le
      omega

/-- Where a derivation ends, the list has not ended before. -/
theorem Derivation.end_le {g : Goal} {vs : List Value} {i j : Nat} (h : Derivation g vs i j) :
    j = i ∨ j ≤ vs.length := by
  have hget : ∀ {vs : List Value} {i : Nat} {v : Value}, vs[i]? = some v → i + 1 ≤ vs.length :=
    fun h => (List.getElem?_eq_some_iff.1 h).1
  induction h with
  | keyword hv _ => exact Or.inr (hget hv)
  | literal hv _ => exact Or.inr (hget hv)
  | typeSubstitution hv _ => exact Or.inr (hget hv)
  | anyValue _ _ _ hj => exact Or.inr hj
  | basicType hv _ _ _ _ => exact Or.inr (hget hv)
  | namedType _ _ _ _ _ _ ih => exact ih
  | propertySubstitution hv _ => exact Or.inr (hget hv)
  | namedProperty _ _ _ ih => exact ih
  | function hv _ _ _ => exact Or.inr (hget hv)
  | sequence _ ih => exact ih
  | allOf _ _ ih => exact ih
  | anyOf _ _ _ ih => exact ih
  | oneOf _ _ ih => exact ih
  | repeated _ _ _ ih => exact ih
  | nonEmpty _ _ ih => exact ih
  | endOfChain => exact Or.inl rfl
  | link _ _ _ ih ihs => omega
  | noRound => exact Or.inl rfl
  | round _ _ _ _ _ _ => omega
  | separated _ _ _ _ _ _ _ _ => omega

theorem takeRepeated_complete {take : Taker} {p : Pattern} (h : Complete take p) (least : Nat)
    (most : Option Nat) (byComma : Bool) :
    Complete (takeRepeated take least most byComma) (repeated p least most byComma) := by
  intro vs i j hd
  cases hd with
  | @repeated _ _ _ _ count _ _ _ hl hm hr =>
    rw [takeRepeated,List.mem_append]
    by_cases h0 : count = 0
    · subst h0
      left
      cases hr
      rw [if_pos (Nat.le_zero.1 hl),Nat.sub_self]
      exact List.mem_singleton_self _
    · right
      have hcount := hr.rounds_le
      have hend := hr.end_le
      refine mem_takeRounds_of_rounds h _ ?_ hl (Nat.pos_of_ne_zero h0) ?_ hr
      · intro m hm
        cases hm
        rw [Nat.sub_self]
        exact List.mem_singleton_self _
      · -- no more rounds than nodes: the limit on the rounds leaves none out
        rw [Nat.zero_add,List.length_drop]
        cases most with
        | none =>
          rw [roundLimit]
          omega
        | some m =>
          have := hm m rfl
          rw [roundLimit]
          omega

end Complete

/-- The pattern is within what matching goes into: so many levels of nesting, where the dictionary's
patterns stand for their names, and groups of no more items than a mask has bits. -/
def withinLimits : Nat → Pattern → Bool
  | 0,_ => false
  | n + 1,p =>
    match p with
    | keyword _ => true
    | literal _ => true
    | type name => (ofType? name).all (withinLimits n)
    | property name => (ofProperty? name).all (withinLimits n)
    | function _ body => withinLimits n body
    | sequence items => items.all (withinLimits n)
    | allOf items => decide (items.length ≤ 64) && items.all (withinLimits n)
    | anyOf items => decide (items.length ≤ 64) && items.all (withinLimits n)
    | oneOf items => items.all (withinLimits n)
    | repeated item _ _ _ => withinLimits n item
    | nonEmpty item => withinLimits n item

/-- What is derived, matching takes, within the levels that the pattern needs. -/
theorem spansWithin_complete (n : Nat) {p : Pattern} (h : p.withinLimits n = true) :
    Complete (spansWithin n p) p := by
  induction n generalizing p with
  | zero => cases h
  | succ n ih =>
    intro vs i j hd
    unfold spansWithin
    rw [mem_ascending]
    unfold withinLimits at h
    cases p with
    | keyword word =>
      cases hd with
      | keyword hv ht => exact mem_takeOne.2 ⟨by omega,_,hv,ht⟩
    | literal symbol =>
      cases hd with
      | literal hv ht => exact mem_takeOne.2 ⟨by omega,_,hv,ht⟩
    | type name =>
      refine takeType_complete ?_ vs i j hd
      intro p hp
      simp only [hp,Option.all_some] at h
      exact ih h
    | property name =>
      refine takeProperty_complete ?_ vs i j hd
      intro p hp
      simp only [hp,Option.all_some] at h
      exact ih h
    | function name body => exact takeCall_complete (ih h) name vs i j hd
    | sequence items =>
      exact takeSequence_complete (fun p hp => ih (List.all_eq_true.1 h p hp)) vs i j hd
    | allOf items =>
      obtain ⟨hfew,h⟩ := Bool.and_eq_true_iff.1 h
      exact (takeAnyOrder_complete (fun p hp => ih (List.all_eq_true.1 h p hp))
        (of_decide_eq_true hfew)).1 vs i j hd
    | anyOf items =>
      obtain ⟨hfew,h⟩ := Bool.and_eq_true_iff.1 h
      exact (takeAnyOrder_complete (fun p hp => ih (List.all_eq_true.1 h p hp))
        (of_decide_eq_true hfew)).2 vs i j hd
    | oneOf items =>
      cases hd with
      | oneOf hm hd =>
        exact List.mem_flatMap.2 ⟨_,hm,ih (List.all_eq_true.1 h _ hm) vs i j hd⟩
    | repeated item least most byComma =>
      exact takeRepeated_complete (ih h) least most byComma vs i j hd
    | nonEmpty item =>
      cases hd with
      | nonEmpty hd hij =>
        have := hd.le
        exact List.mem_filter.2 ⟨ih h vs i j hd,decide_eq_true (by omega)⟩

/-- The places up to which the pattern takes the nodes of a list from a place on. -/
def ends (p : Pattern) (vs : List Value) (i : Nat) : List Nat := (p.spans (vs.drop i)).map (i + ·)

theorem mem_ends_derives {p : Pattern} {vs : List Value} {i j : Nat} (h : j ∈ p.ends vs i) :
    p.Derives vs i j := by
  obtain ⟨k,hk,rfl⟩ := List.mem_map.1 h
  exact spansWithin_sound levels p vs i k hk

theorem Derives.mem_ends {p : Pattern} {vs : List Value} {i j : Nat} (h : p.Derives vs i j)
    (hp : p.withinLimits levels = true) : j ∈ p.ends vs i :=
  List.mem_map.2 ⟨j - i,spansWithin_complete levels hp vs i j h,Nat.add_sub_cancel' h.le⟩

theorem accepts_iff_mem_ends {p : Pattern} {vs : List Value} :
    p.accepts vs = true ↔ vs.length ∈ p.ends vs 0 := by
  rw [accepts,List.contains_iff_mem,ends,List.drop_zero]
  simp

theorem takeAnyOrder_of_large {take : Pattern → Taker} {items : List Pattern} (h : 64 < items.length)
    (n : Nat) (used : Mask) (vs : List Value) : takeAnyOrder take true items n used vs = [] := by
  have hsize : ∀ used, enough true items used = false := by
    intro used
    have hle := used.size_le
    simp only [enough,if_true,beq_eq_false_iff_ne]
    omega
  induction n generalizing used vs with
  | zero => simp [takeAnyOrder,hsize]
  | succ n ih => simp [takeAnyOrder,hsize,ih]

/-- The mask cannot tell that all items of a larger group are used, so the group takes nothing. -/
theorem ends_allOf_of_large {items : List Pattern} (h : 64 < items.length) (vs : List Value) (i : Nat) :
    (allOf items).ends vs i = [] := by
  rw [ends,spans,levels,spansWithin,takeAnyOrder_of_large h]
  rfl

/-- Matching takes the nodes from a place on up to exactly the places up to which the pattern derives
them, each of them once and in increasing order. Patterns that nest deeper than matching goes, and those
in groups of more than 64 items, may be missed, but nothing is taken that is not derived. -/
theorem ends_exact (p : Pattern) (vs : List Value) :
    (∀ i, (p.ends vs i).Pairwise (· < ·) ∧ ∀ j ∈ p.ends vs i, p.Derives vs i j) ∧
    (p.withinLimits levels = true →
      (∀ i j, j ∈ p.ends vs i ↔ p.Derives vs i j) ∧
      (p.accepts vs = true ↔ p.Derives vs 0 vs.length)) := by
  constructor
  · intro i
    refine ⟨?_,fun j hj => mem_ends_derives hj⟩
    refine List.pairwise_map.2 ((pairwise_ascending _).imp ?_)
    intro a b hab
    exact Nat.add_lt_add_left hab i
  · intro hp
    have hiff : ∀ i j, j ∈ p.ends vs i ↔ p.Derives vs i j := fun i j =>
      ⟨mem_ends_derives,fun h => h.mem_ends hp⟩
    exact ⟨hiff,accepts_iff_mem_ends.trans (hiff 0 vs.length)⟩

end Pattern

end StyleExpansion
