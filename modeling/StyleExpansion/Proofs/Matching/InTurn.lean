import StyleExpansion.Proofs.Matching.Greedy

/-! # Parts in turn

Where an alternative takes a part as its longest span and no alternative before it takes anything, the scan
goes on behind the part. So nodes that are made of such parts are shared out as these.
-/
namespace StyleExpansion
open Value (ofNodes)
open Pattern (between between_middle)

namespace Commit

def ofParts : Nat → List (Nat × List Value) → List Commit
  | _,[] => []
  | start,p :: parts => ⟨p.1,start + p.2.length⟩ :: ofParts (start + p.2.length) parts

theorem spans_ofParts (parts : List (Nat × List Value)) (before tail : List Value) :
    spans (before ++ (parts.flatMap Prod.snd ++ tail)) before.length (ofParts before.length parts) =
      parts := by
  induction parts generalizing before with
  | nil => rfl
  | cons p parts ih =>
    have hrest := ih (before ++ p.2)
    have hwhole : before ++ p.2 ++ (parts.flatMap Prod.snd ++ tail) =
        before ++ ((p :: parts).flatMap Prod.snd ++ tail) := by simp
    rw [List.length_append,hwhole] at hrest
    have hfirst : between (before ++ ((p :: parts).flatMap Prod.snd ++ tail)) before.length
        (before.length + p.2.length) = p.2 := by
      rw [List.flatMap_cons,List.append_assoc,between_middle]
    rw [ofParts,spans,hrest,hfirst]

theorem last_ofParts (parts : List (Nat × List Value)) (start : Nat) :
    last start (ofParts start parts) = start + (parts.flatMap Prod.snd).length := by
  induction parts generalizing start with
  | nil => rfl
  | cons p parts ih =>
    have hstep : last start (ofParts start (p :: parts)) =
      last (start + p.2.length) (ofParts (start + p.2.length) parts) := rfl
    rw [hstep,ih,List.flatMap_cons,List.length_append,Nat.add_assoc]

theorem spans_append (vs : List Value) (cs ds : List Commit) (start : Nat) :
    spans vs start (cs ++ ds) = spans vs start cs ++ spans vs (last start cs) ds := by
  induction cs generalizing start with
  | nil => rfl
  | cons c cs ih =>
    rw [List.cons_append,spans,spans,ih]
    rfl

end Commit

variable {tests : List (List Value → Bool)}

/-! ## One step -/

namespace Scan
variable {vs : List Value} {chosen : List Nat} {start : Nat} {cs : List Commit}

/-- A scan takes the longest span of an alternative that is free, if no alternative before it takes any.
-/
theorem next (h : Scan tests vs chosen start cs) {i stop : Nat} (hi : i ∉ chosen)
    (ht : TakesSpan tests vs i start stop)
    (hmax : ∀ later, TakesSpan tests vs i start later → later ≤ stop)
    (hfirst : ∀ j < i, ∀ stop, ¬TakesSpan tests vs j start stop) :
    ∃ rest, cs = ⟨i,stop⟩ :: rest ∧ Scan tests vs (i :: chosen) stop rest := by
  cases h with
  | done hd =>
    rcases hd with hend | hnone
    · obtain ⟨_,_,_,hlt,hle⟩ := ht
      omega
    · exact absurd ht (hnone i hi stop)
  | @commit _ _ j stop' rest _ ht' hmax' hfirst' hrest =>
    have hji : j = i := by
      rcases Nat.lt_trichotomy j i with hlt | rfl | hlt
      · exact absurd ht' (hfirst j hlt stop')
      · rfl
      · exact absurd ht (hfirst' i hlt hi stop)
    subst hji
    have hstop : stop' = stop := Nat.le_antisymm (hmax _ ht') (hmax' _ ht)
    exact ⟨rest,by rw [hstop],hstop ▸ hrest⟩

theorem ends (h : Scan tests vs chosen start cs)
    (hnone : ∀ i ∉ chosen, ∀ stop, ¬TakesSpan tests vs i start stop) : cs = [] := by
  cases h with
  | done _ => rfl
  | commit hi ht _ _ _ => exact absurd ht (hnone _ hi _)

end Scan

/-- What stands before a place does not matter for the spans there. -/
theorem takesSpan_append {before vs : List Value} {i k : Nat} :
    TakesSpan tests (before ++ vs) i before.length (before.length + k) ↔ TakesSpan tests vs i 0 k := by
  rw [takesSpan_iff,← Nat.zero_add k,takesSpan_iff,List.drop_left,List.drop_zero,Nat.zero_add]

/-! ## One part after the other -/

/-- The alternative takes just the first nodes, not those after them, and none before it takes any. -/
structure TakesFirst (tests : List (List Value → Bool)) (i : Nat) (ws rest : List Value) : Prop where
  takes : TakesSpan tests (ws ++ rest) i 0 ws.length
  longest : ∀ k, TakesSpan tests (ws ++ rest) i 0 k → k ≤ ws.length
  first : ∀ j < i, ∀ k, ¬TakesSpan tests (ws ++ rest) j 0 k

inductive InTurn (tests : List (List Value → Bool)) : List (Nat × List Value) → List Value → Prop
  | nil {rest : List Value} : InTurn tests [] rest
  | cons {i : Nat} {ws : List Value} {parts : List (Nat × List Value)} {rest : List Value} :
      TakesFirst tests i ws (parts.flatMap Prod.snd ++ rest) → InTurn tests parts rest →
      InTurn tests ((i,ws) :: parts) rest

/-- A span from the start on is one of the first nodes. -/
theorem takesSpan_accepts {alternatives : List Pattern} {vs : List Value} {i k : Nat} :
    TakesSpan (alternatives.map Pattern.accepts) vs i 0 k ↔ ∃ p, alternatives[i]? = some p ∧
      p.accepts (vs.take k) = true ∧ 0 < k ∧ k ≤ vs.length := by
  rw [← Nat.zero_add k,takesSpan_iff,Nat.zero_add,List.drop_zero,List.getElem?_map]
  constructor
  · rintro ⟨test,htest,htake⟩
    obtain ⟨p,hp,rfl⟩ := Option.map_eq_some_iff.1 htest
    exact ⟨p,hp,htake⟩
  · rintro ⟨p,hp,htake⟩
    exact ⟨p.accepts,by rw [hp]; rfl,htake⟩

/-- A pattern accepts the part and nothing longer, and no pattern before it accepts nodes that begin as
the part does. -/
theorem TakesFirst.of_accepts {alternatives : List Pattern} {i : Nat} {p : Pattern}
    (hp : alternatives[i]? = some p) {v : Value} {ws rest : List Value}
    (haccepts : p.accepts (v :: ws) = true)
    (hmax : ∀ k ≤ (ws ++ rest).length, p.accepts (v :: (ws ++ rest).take k) = true → k ≤ ws.length)
    (hfirst : ∀ j < i, ∀ q, alternatives[j]? = some q → ∀ more, q.accepts (v :: more) = false) :
    TakesFirst (alternatives.map Pattern.accepts) i (v :: ws) rest := by
  refine ⟨takesSpan_accepts.2 ⟨p,hp,?_,by simp,by simp⟩,?_,?_⟩
  · rwa [List.take_left]
  · intro k hk
    obtain ⟨q,hq,htake,h0,hlen⟩ := takesSpan_accepts.1 hk
    obtain ⟨k,rfl⟩ := Nat.exists_eq_succ_of_ne_zero (Nat.pos_iff_ne_zero.1 h0)
    cases hp.symm.trans hq
    exact Nat.succ_le_succ (hmax k (Nat.le_of_succ_le_succ hlen) htake)
  · intro j hj k hk
    obtain ⟨q,hq,htake,h0,-⟩ := takesSpan_accepts.1 hk
    obtain ⟨k,rfl⟩ := Nat.exists_eq_succ_of_ne_zero (Nat.pos_iff_ne_zero.1 h0)
    have hno := hfirst j hj q hq ((ws ++ rest).take k)
    rw [List.cons_append,List.take_succ_cons,hno] at htake
    cases htake

theorem TakesFirst.scan {i : Nat} {ws rest : List Value} (h : TakesFirst tests i ws rest)
    {before : List Value} {chosen : List Nat} (hi : i ∉ chosen) {cs : List Commit}
    (hscan : Scan tests (before ++ (ws ++ rest)) chosen before.length cs) :
    ∃ cs', cs = ⟨i,before.length + ws.length⟩ :: cs' ∧
      Scan tests (before ++ (ws ++ rest)) (i :: chosen) (before.length + ws.length) cs' := by
  refine hscan.next hi (takesSpan_append.2 h.takes) ?_ ?_
  · intro later hlater
    obtain ⟨k,rfl⟩ := Nat.exists_eq_add_of_le hlater.le
    exact Nat.add_le_add_left (h.longest k (takesSpan_append.1 hlater)) _
  · intro j hj stop ht
    obtain ⟨k,rfl⟩ := Nat.exists_eq_add_of_le ht.le
    exact h.first j hj k (takesSpan_append.1 ht)

theorem InTurn.scan {parts : List (Nat × List Value)} {tail : List Value} (h : InTurn tests parts tail)
    (honce : (parts.map Prod.fst).Nodup) (before : List Value) {chosen : List Nat}
    (hchosen : ∀ p ∈ parts, p.1 ∉ chosen) {cs : List Commit}
    (hscan : Scan tests (before ++ (parts.flatMap Prod.snd ++ tail)) chosen before.length cs) :
    ∃ chosen' rest, cs = Commit.ofParts before.length parts ++ rest ∧
      (∀ i, i ∈ chosen' ↔ i ∈ parts.map Prod.fst ∨ i ∈ chosen) ∧
      Scan tests (before ++ (parts.flatMap Prod.snd ++ tail)) chosen'
        (before.length + (parts.flatMap Prod.snd).length) rest := by
  induction h generalizing before chosen cs with
  | nil => exact ⟨chosen,cs,rfl,by simp,hscan⟩
  | @cons i ws parts tail hfirst _ ih =>
    obtain ⟨hfresh,honce⟩ := List.nodup_cons.1 honce
    obtain ⟨hnew,hchosen⟩ := List.forall_mem_cons.1 hchosen
    have hwhole : before ++ (((i,ws) :: parts).flatMap Prod.snd ++ tail) =
        before ++ (ws ++ (parts.flatMap Prod.snd ++ tail)) := by simp
    have hwhole' : before ++ (((i,ws) :: parts).flatMap Prod.snd ++ tail) =
        before ++ ws ++ (parts.flatMap Prod.snd ++ tail) := by simp
    rw [hwhole] at hscan
    obtain ⟨rest,rfl,hstep⟩ := hfirst.scan hnew hscan
    rw [← hwhole,hwhole',← List.length_append] at hstep
    have hfresh' : ∀ p ∈ parts, p.1 ∉ i :: chosen := by
      intro p hp hmem
      rcases List.mem_cons.1 hmem with he | hmem
      · exact hfresh (List.mem_map.2 ⟨p,hp,he⟩)
      · exact hchosen p hp hmem
    obtain ⟨chosen',rest',hrest,hmem,hscan'⟩ := ih honce _ hfresh' hstep
    refine ⟨chosen',rest',?_,fun j => ?_,?_⟩
    · rw [hrest,Commit.ofParts,List.length_append]
      rfl
    · rw [hmem,List.map_cons,List.mem_cons,List.mem_cons]
      tauto
    · rw [hwhole']
      simpa [Nat.add_assoc] using hscan'

/-- Of a value that is made of parts in turn, each alternative has its part, and there is nothing else. -/
theorem InTurn.get? {parts : List (Nat × List Value)} (h : InTurn tests parts [])
    (honce : (parts.map Prod.fst).Nodup) {v : Value} (hv : v.flatten = parts.flatMap Prod.snd) (i : Nat) :
    (v.shareBy tests).get? i = (parts.lookup i).map ofNodes := by
  obtain ⟨cs,hscan,-,-,hget⟩ := v.exists_scan tests
  rw [hv,← List.append_nil (parts.flatMap _)] at hscan
  obtain ⟨chosen,rest,rfl,-,hrest⟩ := h.scan honce [] (by simp) hscan
  have hnone : rest = [] := by
    refine hrest.ends fun i _ stop ht => ?_
    obtain ⟨_,_,_,hlt,hle⟩ := ht
    simp at hlt hle
    omega
  have hspans := Commit.spans_ofParts parts [] []
  rw [List.nil_append,List.append_nil] at hspans
  rw [hget,hv,hnone,List.append_nil]
  exact congrArg (fun l : List (Nat × List Value) => (l.lookup i).map ofNodes) hspans

end StyleExpansion
