import StyleExpansion.Proofs.Matching.Greedy

/-! # Nodes that do not compete

Where every alternative takes single nodes only, the kind of a node is the first alternative that takes it.
If no two nodes are of one kind, the greedy scan gives each node to its kind: the alternatives before take
it not, and its own is still free. So the order of the nodes does not matter. The first kind may come twice
if one of the later alternatives takes it again and no one between takes it.
-/
namespace StyleExpansion
open Value (ofNodes)
open Pattern (between)

section Kinds
variable (tests : List (List Value → Bool)) (again : Option Nat)

/-- The first alternative that takes the node alone. -/
def kind? (n : Value) : Option Nat := tests.findIdx? fun test => test [n]

def ofKind (i : Nat) (vs : List Value) : List Value := vs.filter fun n => kind? tests n == some i

/-- The node of an alternative: the first one of its kind, or the second one of the first kind if the
alternative takes that again. -/
def nodeOf? (i : Nat) (vs : List Value) : Option Value :=
  if again = some i then (ofKind tests 0 vs)[1]? else (ofKind tests i vs)[0]?

/-- The tests take single nodes, and what takes the first kind again is alone in this among the
alternatives up to it. -/
structure TakesNodes : Prop where
  single : ∀ test ∈ tests, ∀ vs, test vs = true → vs.length = 1
  repeats : ∀ a, again = some a → a ≠ 0 ∧ tests[a]? = tests[0]? ∧ ∀ j test, 0 < j → j < a →
    tests[j]? = some test → ∀ n : Value, n.isSubstitution = false → kind? tests n = some 0 →
      test [n] = false

/-- Every node has a kind, and no two are of one kind, but for two of the first one if it may come
twice. -/
structure Apart (vs : List Value) : Prop where
  plain : ∀ n ∈ vs, n.isSubstitution = false
  kinds : ∀ n ∈ vs, (kind? tests n).isSome = true
  once : ∀ i, (ofKind tests i vs).length ≤ if i = 0 ∧ again.isSome = true then 2 else 1

end Kinds

variable {tests : List (List Value → Bool)} {again : Option Nat}

theorem kind?_eq_some {n : Value} {i : Nat} (h : kind? tests n = some i) :
    (∃ test, tests[i]? = some test ∧ test [n] = true) ∧
      ∀ j < i, ∀ test, tests[j]? = some test → test [n] = false := by
  obtain ⟨hlt,htake,hfirst⟩ := List.findIdx?_eq_some_iff_getElem.1 h
  refine ⟨⟨_,List.getElem?_eq_getElem hlt,htake⟩,?_⟩
  intro j hj test htest
  obtain ⟨_,rfl⟩ := List.getElem?_eq_some_iff.1 htest
  simpa using hfirst j hj

theorem ofKind_append (i : Nat) (vs ws : List Value) :
    ofKind tests i (vs ++ ws) = ofKind tests i vs ++ ofKind tests i ws := List.filter_append vs ws

theorem ofKind_concat {n : Value} {i : Nat} (h : kind? tests n = some i) (j : Nat) (vs : List Value) :
    ofKind tests j (vs ++ [n]) = ofKind tests j vs ++ if j = i then [n] else [] := by
  have hone : ofKind tests j [n] = if j = i then [n] else [] := by
    rw [ofKind,List.filter_singleton,h]
    by_cases hj : j = i
    · simp [hj]
    · rw [if_neg hj,show (some i == some j) = false from beq_false_of_ne fun he =>
        hj (Option.some.inj he).symm]
      rfl
  rw [ofKind_append,hone]

theorem nodeOf?_append {i : Nat} {vs : List Value} {n : Value} (h : nodeOf? tests again i vs = some n)
    (ws : List Value) : nodeOf? tests again i (vs ++ ws) = some n := by
  have hkeep : ∀ {as bs : List Value} {k : Nat}, as[k]? = some n → (as ++ bs)[k]? = some n := by
    intro as bs k hk
    rw [List.getElem?_append_left (List.getElem?_eq_some_iff.1 hk).1,hk]
  rw [nodeOf?] at h ⊢
  by_cases ha : again = some i
  · rw [if_pos ha] at h ⊢
    rw [ofKind_append]
    exact hkeep h
  · rw [if_neg ha] at h ⊢
    rw [ofKind_append]
    exact hkeep h

theorem TakesNodes.kind?_ne (ht : TakesNodes tests again) {a : Nat} (ha : again = some a) (n : Value) :
    kind? tests n ≠ some a := by
  intro h
  obtain ⟨hne,hsame,-⟩ := ht.repeats a ha
  obtain ⟨⟨test,htest,htake⟩,hfirst⟩ := kind?_eq_some h
  rw [hfirst 0 (by omega) test (hsame ▸ htest)] at htake
  cases htake

theorem Apart.exists_nodeOf? (ht : TakesNodes tests again) {vs : List Value}
    (h : Apart tests again vs) {n : Value} (hn : n ∈ vs) :
    ∃ i < tests.length, nodeOf? tests again i vs = some n := by
  obtain ⟨i,hi⟩ := Option.isSome_iff_exists.1 (h.kinds n hn)
  obtain ⟨⟨test,htest,-⟩,-⟩ := kind?_eq_some hi
  have hlt : i < tests.length := (List.getElem?_eq_some_iff.1 htest).1
  have hnot : again ≠ some i := fun ha => ht.kind?_ne ha n hi
  have hmem : n ∈ ofKind tests i vs := List.mem_filter.2 ⟨hn,by simp [hi]⟩
  obtain ⟨k,hk⟩ := List.mem_iff_getElem?.1 hmem
  have hroom := h.once i
  have hlen : k < (ofKind tests i vs).length := (List.getElem?_eq_some_iff.1 hk).1
  cases k with
  | zero => exact ⟨i,hlt,by rw [nodeOf?,if_neg hnot,hk]⟩
  | succ k =>
    split at hroom
    · next htwo =>
      obtain ⟨rfl,hsome⟩ := htwo
      obtain ⟨a,ha⟩ := Option.isSome_iff_exists.1 hsome
      obtain ⟨-,hsame,-⟩ := ht.repeats a ha
      obtain rfl : k = 0 := by omega
      refine ⟨a,?_,by rw [nodeOf?,if_pos ha,hk]⟩
      rw [htest] at hsame
      exact (List.getElem?_eq_some_iff.1 hsame).1
    · omega

theorem nodeOf?_mem {i : Nat} {vs : List Value} {n : Value} (h : nodeOf? tests again i vs = some n) :
    n ∈ vs := by
  rw [nodeOf?] at h
  split at h <;> exact (List.mem_filter.1 (List.mem_of_getElem? h)).1

def isApart (tests : List (List Value → Bool)) (again : Option Nat) (vs : List Value) : Bool :=
  vs.all fun n => !n.isSubstitution && (kind? tests n).any fun i =>
    (ofKind tests i vs).length ≤ if i = 0 ∧ again.isSome = true then 2 else 1

theorem apart_of_isApart {vs : List Value} (h : isApart tests again vs = true) :
    Apart tests again vs := by
  have hall : ∀ n ∈ vs, n.isSubstitution = false ∧ ∃ i, kind? tests n = some i ∧
      (ofKind tests i vs).length ≤ if i = 0 ∧ again.isSome = true then 2 else 1 := by
    intro n hn
    have hn := List.all_eq_true.1 h n hn
    rw [Bool.and_eq_true,Bool.not_eq_true',Option.any_eq_true] at hn
    exact hn.imp id fun ⟨i,hi,hroom⟩ => ⟨i,hi,of_decide_eq_true hroom⟩
  refine ⟨fun n hn => (hall n hn).1,fun n hn => ?_,fun i => ?_⟩
  · obtain ⟨i,hi,-⟩ := (hall n hn).2
    rw [hi]
    rfl
  · cases hkind : ofKind tests i vs with
    | nil => exact Nat.zero_le _
    | cons n ns =>
      have hmem : n ∈ ofKind tests i vs := hkind ▸ List.mem_cons_self
      obtain ⟨hn,hi⟩ := List.mem_filter.1 hmem
      obtain ⟨j,hj,hroom⟩ := (hall n hn).2
      obtain rfl : j = i := by simpa [hj] using hi
      exact hkind ▸ hroom

/-! ## The scan -/

/-- One more node goes to an alternative that is free and takes it, while no free one before does. -/
theorem exists_home (ht : TakesNodes tests again) {vs : List Value} {n : Value}
    (h : Apart tests again (vs ++ [n])) : ∃ i, nodeOf? tests again i vs = none ∧
      (∃ test, tests[i]? = some test ∧ test [n] = true) ∧
      (∀ j < i, nodeOf? tests again j vs = none → ∀ test, tests[j]? = some test → test [n] = false) ∧
      ∀ j, nodeOf? tests again j (vs ++ [n]) = if j = i then some n else nodeOf? tests again j vs := by
  obtain ⟨c,hc⟩ := Option.isSome_iff_exists.1 (h.kinds n (by simp))
  obtain ⟨htakes,hfirst⟩ := kind?_eq_some hc
  cases hbefore : ofKind tests c vs with
  | nil =>
    have hnot : again ≠ some c := fun ha => ht.kind?_ne ha n hc
    refine ⟨c,by rw [nodeOf?,if_neg hnot,hbefore]; rfl,htakes,fun j hj _ => hfirst j hj,?_⟩
    intro j
    rw [nodeOf?,nodeOf?,ofKind_concat hc,ofKind_concat hc]
    by_cases hj : j = c
    · subst hj
      simp [hnot,hbefore]
    · by_cases hzero : 0 = c
      · subst hzero
        simp [hj,hbefore]
      · simp [hj,hzero]
  | cons u rest =>
    have hroom := h.once c
    rw [ofKind_concat hc,if_pos rfl,hbefore] at hroom
    simp only [List.length_append,List.length_cons,List.length_nil] at hroom
    split at hroom
    · next htwo =>
      obtain ⟨rfl,hsome⟩ := htwo
      obtain ⟨a,ha⟩ := Option.isSome_iff_exists.1 hsome
      obtain ⟨hne,hsame,halone⟩ := ht.repeats a ha
      obtain rfl : rest = [] := List.eq_nil_of_length_eq_zero (by omega)
      refine ⟨a,by rw [nodeOf?,if_pos ha,hbefore]; rfl,hsame ▸ htakes,?_,?_⟩
      · intro j hj hfree test htest
        rcases Nat.eq_zero_or_pos j with rfl | hpos
        · rw [nodeOf?,if_neg (by simp [ha,hne]),hbefore] at hfree
          cases hfree
        · exact halone j test hpos hj htest n (h.plain n (by simp)) hc
      · intro j
        rw [nodeOf?,nodeOf?,ofKind_concat hc,ofKind_concat hc]
        by_cases hj : j = a
        · subst hj
          simp [ha,hbefore]
        · have hother : again ≠ some j := by
            rw [ha]
            exact fun he => hj (Option.some.inj he).symm
          by_cases hzero : j = 0
          · subst hzero
            simp [hother,hj,hbefore]
          · simp [hother,hj,hzero]
    · omega

theorem Apart.of_append {vs ws : List Value} (h : Apart tests again (vs ++ ws)) :
    Apart tests again vs := by
  refine ⟨fun n hn => h.plain n (List.mem_append_left ws hn),
    fun n hn => h.kinds n (List.mem_append_left ws hn),fun i => ?_⟩
  have hroom := h.once i
  rw [ofKind,List.filter_append,List.length_append] at hroom
  exact Nat.le_trans (Nat.le_add_right _ _) hroom

theorem takesSpan_node (ht : TakesNodes tests again) {vs ws : List Value} {n : Value} {i stop : Nat} :
    TakesSpan tests (vs ++ n :: ws) i vs.length stop ↔
      stop = vs.length + 1 ∧ ∃ test, tests[i]? = some test ∧ test [n] = true := by
  have hnode : between (vs ++ n :: ws) vs.length (vs.length + 1) = [n] :=
    Pattern.between_middle vs [n] ws
  constructor
  · rintro ⟨test,htest,htake,hlt,hle⟩
    have hone := ht.single test (List.mem_of_getElem? htest) _ htake
    rw [Pattern.length_between hle] at hone
    obtain rfl : stop = vs.length + 1 := by omega
    exact ⟨rfl,test,htest,hnode ▸ htake⟩
  · rintro ⟨rfl,test,htest,htake⟩
    refine ⟨test,htest,by rwa [hnode],Nat.lt_succ_self _,?_⟩
    simp

/-- The scan of nodes that do not compete takes them one by one to the end. -/
theorem exists_scan_apart (ht : TakesNodes tests again) {vs ws : List Value}
    (h : Apart tests again (vs ++ ws)) {chosen : List Nat}
    (hchosen : ∀ i, i ∈ chosen ↔ (nodeOf? tests again i vs).isSome = true) :
    ∃ cs, Scan tests (vs ++ ws) chosen vs.length cs ∧ Commit.last vs.length cs = (vs ++ ws).length ∧
      ∀ i ∉ chosen, (Commit.spans (vs ++ ws) vs.length cs).lookup i =
        (nodeOf? tests again i (vs ++ ws)).map fun n => [n] := by
  induction ws generalizing vs chosen with
  | nil =>
    refine ⟨[],.done (Or.inl (by simp)),by simp [Commit.last],?_⟩
    intro i hi
    rw [hchosen,Option.not_isSome_iff_eq_none] at hi
    simp [Commit.spans,hi]
  | cons n ws ih =>
    have hcut : vs ++ n :: ws = vs ++ [n] ++ ws := List.append_cons vs n ws
    have hmore : Apart tests again (vs ++ [n] ++ ws) := hcut ▸ h
    obtain ⟨i,hfree,htakes,hfirst,hhome⟩ := exists_home ht hmore.of_append
    have hchosen' : ∀ j, j ∈ i :: chosen ↔ (nodeOf? tests again j (vs ++ [n])).isSome = true := by
      intro j
      rw [hhome j,List.mem_cons,hchosen j]
      by_cases hj : j = i <;> simp [hj]
    obtain ⟨cs,hscan,hlast,hlookup⟩ := ih hmore hchosen'
    rw [List.length_append,List.length_singleton] at hscan hlast hlookup
    rw [← hcut] at hscan hlast hlookup
    have hi : i ∉ chosen := by rw [hchosen,hfree]; exact Bool.false_ne_true
    refine ⟨⟨i,vs.length + 1⟩ :: cs,.commit hi ((takesSpan_node ht).2 ⟨rfl,htakes⟩) ?_ ?_ hscan,hlast,?_⟩
    · intro later hlater
      exact Nat.le_of_eq ((takesSpan_node ht).1 hlater).1
    · intro j hj hjfree stop hspan
      obtain ⟨-,test,htest,htake⟩ := (takesSpan_node ht).1 hspan
      rw [hchosen,Option.not_isSome_iff_eq_none] at hjfree
      rw [hfirst j hj hjfree test htest] at htake
      cases htake
    · intro j hj
      rw [Commit.spans,List.lookup_cons]
      by_cases hji : j = i
      · subst hji
        have hnode : between (vs ++ n :: ws) vs.length (vs.length + 1) = [n] :=
          Pattern.between_middle vs [n] ws
        have hhas : nodeOf? tests again j (vs ++ n :: ws) = some n := by
          rw [hcut]
          exact nodeOf?_append (by rw [hhome,if_pos rfl]) ws
        simp [hnode,hhas]
      · rw [beq_false_of_ne hji]
        exact hlookup j fun hm => (List.mem_cons.1 hm).elim hji hj

/-! ## The shares -/

theorem Shares.ext_get? {s t : Shares} (hlen : s.found.length = t.found.length)
    (hget : ∀ i, s.get? i = t.get? i) (hleft : s.left = t.left) : s = t := by
  obtain ⟨found,left⟩ := s
  obtain ⟨found',left'⟩ := t
  cases (hleft : left = left')
  congr 1
  refine List.ext_getElem hlen fun i hi hi' => ?_
  have h := hget i
  simpa [get?,List.getElem?_eq_getElem hi,List.getElem?_eq_getElem hi'] using h

/-- Of nodes that do not compete each alternative gets the one of its kind, and nothing is left. -/
theorem Value.shareBy_apart (ht : TakesNodes tests again) {v : Value} (h : Apart tests again v.flatten) :
    (v.shareBy tests).found.length = tests.length ∧ (v.shareBy tests).left = [] ∧
      ∀ i, (v.shareBy tests).get? i = nodeOf? tests again i v.flatten := by
  have hempty : ∀ i, i ∈ [] ↔ (nodeOf? tests again i []).isSome = true := by
    intro i
    simp [nodeOf?,ofKind]
  obtain ⟨cs,hscan,hlast,hlookup⟩ := exists_scan_apart ht (List.nil_append v.flatten ▸ h) hempty
  obtain ⟨cs',hscan',hleft,hsize,hget⟩ := exists_scan tests v
  obtain rfl := hscan.unique hscan'
  refine ⟨hsize,?_,fun i => ?_⟩
  · rw [hleft]
    exact List.drop_eq_nil_of_le (Nat.le_of_eq hlast.symm)
  · rw [hget i]
    refine (congrArg (Option.map ofNodes) (hlookup i List.not_mem_nil)).trans ?_
    rw [Option.map_map]
    exact Option.map_id'

theorem eq_of_perm_of_length_le_one {vs ws : List Value} (h : ws.Perm vs) (hlen : vs.length ≤ 1) :
    ws = vs := by
  cases vs with
  | nil => exact h.eq_nil
  | cons n vs =>
    obtain rfl : vs = [] := List.eq_nil_of_length_eq_zero (by simpa using hlen)
    exact List.perm_singleton.1 h

/-- Nodes that do not compete are shared out alike in any order, in which those of a kind that may come
twice keep theirs. -/
theorem Value.shareBy_perm (ht : TakesNodes tests again) {v w : Value} (h : Apart tests again v.flatten)
    (hperm : w.flatten.Perm v.flatten)
    (hfirst : again.isSome = true → ofKind tests 0 w.flatten = ofKind tests 0 v.flatten) :
    w.shareBy tests = v.shareBy tests := by
  have hkind : ∀ i, ofKind tests i w.flatten = ofKind tests i v.flatten := by
    intro i
    have hroom := h.once i
    split at hroom
    · next htwo => exact htwo.1 ▸ hfirst htwo.2
    · exact eq_of_perm_of_length_le_one (hperm.filter _) hroom
  have hw : Apart tests again w.flatten :=
    ⟨fun n hn => h.plain n (hperm.mem_iff.1 hn),fun n hn => h.kinds n (hperm.mem_iff.1 hn),
      fun i => (hkind i).symm ▸ h.once i⟩
  obtain ⟨hsize,hleft,hget⟩ := shareBy_apart ht h
  obtain ⟨hsize',hleft',hget'⟩ := shareBy_apart ht hw
  refine Shares.ext_get? (hsize'.trans hsize.symm) (fun i => ?_) (hleft'.trans hleft.symm)
  rw [hget',hget,nodeOf?,nodeOf?,hkind,hkind]

end StyleExpansion
