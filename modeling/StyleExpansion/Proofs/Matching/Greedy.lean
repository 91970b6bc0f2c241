import StyleExpansion.Pattern.Reader
import StyleExpansion.Proofs.Matching

/-! # Matching is the greedy partition

What sharing a value out comes to, apart from the way in which it is done: a scan of the nodes from the
left, in which each step gives the first alternative that is not chosen yet and takes a span its longest
span. There is one such scan, and the shares are its spans.
-/
namespace StyleExpansion
open Value (ofNodes)
open Pattern (between)

/-- A step of a scan: the alternative that is chosen and the place where its span ends. -/
structure Commit where
  alternative : Nat
  stop : Nat
deriving Repr,DecidableEq

namespace Commit

def spans (vs : List Value) : Nat → List Commit → List (Nat × List Value)
  | _,[] => []
  | start,c :: cs => (c.alternative,between vs start c.stop) :: spans vs c.stop cs

def last (start : Nat) (cs : List Commit) : Nat := cs.foldl (fun _ c => c.stop) start

end Commit

section Scan
variable (tests : List (List Value → Bool)) (vs : List Value)

def TakesSpan (i start stop : Nat) : Prop :=
  ∃ test, tests[i]? = some test ∧ test (between vs start stop) = true ∧ start < stop ∧ stop ≤ vs.length

/-- The commits of a scan from a place on, when some alternatives have been chosen before. -/
inductive Scan : List Nat → Nat → List Commit → Prop
  | done {chosen : List Nat} {start : Nat} :
      (start = vs.length ∨ ∀ i ∉ chosen, ∀ stop, ¬TakesSpan tests vs i start stop) →
      Scan chosen start []
  | commit {chosen : List Nat} {start i stop : Nat} {rest : List Commit} : i ∉ chosen →
      TakesSpan tests vs i start stop →
      (∀ later, TakesSpan tests vs i start later → later ≤ stop) →
      (∀ j < i, j ∉ chosen → ∀ stop, ¬TakesSpan tests vs j start stop) →
      Scan (i :: chosen) stop rest → Scan chosen start (⟨i,stop⟩ :: rest)

/-- The shares are the spans of the commits and what is left is the rest of the nodes. -/
structure Partition (commits : List Commit) (s : Shares) : Prop where
  distinct : (commits.map Commit.alternative).Nodup
  ascending : (0 :: commits.map Commit.stop).Pairwise (· < ·)
  within : ∀ c ∈ commits, c.stop ≤ vs.length
  size : s.found.length = tests.length
  found : ∀ i, (s.get? i).map Value.flatten = (Commit.spans vs 0 commits).lookup i
  left : s.left = vs.drop (Commit.last 0 commits)
  whole : (Commit.spans vs 0 commits).flatMap (·.2) ++ s.left = vs
  accepted : ∀ x ∈ Commit.spans vs 0 commits, ∃ test, tests[x.1]? = some test ∧ test x.2 = true

end Scan

/-! ## There is at most one scan -/

section Facts
variable {tests : List (List Value → Bool)} {vs : List Value}

theorem Scan.unique {chosen : List Nat} {start : Nat} {cs cs' : List Commit}
    (h : Scan tests vs chosen start cs) (h' : Scan tests vs chosen start cs') : cs = cs' := by
  have hgoes : ∀ {chosen : List Nat} {start i stop : Nat},
      (start = vs.length ∨ ∀ i ∉ chosen, ∀ stop, ¬TakesSpan tests vs i start stop) →
      i ∉ chosen → ¬TakesSpan tests vs i start stop := by
    rintro chosen start i stop (hend | hnone) hi ht
    · obtain ⟨_,_,_,hlt,hle⟩ := ht
      omega
    · exact hnone i hi stop ht
  induction h generalizing cs' with
  | done hd =>
    cases h' with
    | done _ => rfl
    | commit hi ht _ _ _ => exact absurd ht (hgoes hd hi)
  | @commit _ _ i stop _ hi ht hmax hfirst _ ih =>
    cases h' with
    | done hd => exact absurd ht (hgoes hd hi)
    | @commit _ _ j stop' _ hj ht' hmax' hfirst' hrest' =>
      have hij : i = j := by
        rcases Nat.lt_trichotomy i j with hlt | rfl | hlt
        · exact absurd ht (hfirst' i hlt hi stop)
        · rfl
        · exact absurd ht' (hfirst j hlt hj stop')
      subst hij
      have hstop : stop = stop' := Nat.le_antisymm (hmax' _ ht) (hmax _ ht')
      subst hstop
      rw [ih hrest']

theorem Scan.alternatives {chosen : List Nat} {start : Nat} {cs : List Commit}
    (h : Scan tests vs chosen start cs) :
    (cs.map Commit.alternative).Nodup ∧ ∀ c ∈ cs, c.alternative ∉ chosen := by
  induction h with
  | done _ => simp
  | @commit chosen _ i _ rest hi _ _ _ _ ih =>
    have hfresh : i ∉ rest.map Commit.alternative := by
      intro hm
      obtain ⟨c,hc,he⟩ := List.mem_map.1 hm
      exact ih.2 c hc (he ▸ List.mem_cons_self)
    refine ⟨List.nodup_cons.2 ⟨hfresh,ih.1⟩,fun c hc => ?_⟩
    rcases List.mem_cons.1 hc with rfl | hc
    · exact hi
    · exact fun hm => ih.2 c hc (List.mem_cons_of_mem _ hm)

theorem Scan.stops {chosen : List Nat} {start : Nat} {cs : List Commit}
    (h : Scan tests vs chosen start cs) :
    (start :: cs.map Commit.stop).Pairwise (· < ·) ∧ ∀ c ∈ cs, c.stop ≤ vs.length := by
  induction h with
  | done _ => simp
  | @commit _ start _ stop rest _ ht _ _ _ ih =>
    obtain ⟨_,_,_,hlt,hle⟩ := ht
    refine ⟨List.pairwise_cons.2 ⟨fun e he => ?_,ih.1⟩,?_⟩
    · rcases List.mem_cons.1 he with rfl | he
      · exact hlt
      · exact Nat.lt_trans hlt ((List.pairwise_cons.1 ih.1).1 e he)
    · intro c hc
      rcases List.mem_cons.1 hc with rfl | hc
      · exact hle
      · exact ih.2 c hc

/-- The spans of a scan, in their order, and the rest are the nodes from the place on. -/
theorem Scan.whole {chosen : List Nat} {start : Nat} {cs : List Commit}
    (h : Scan tests vs chosen start cs) :
    (Commit.spans vs start cs).flatMap (·.2) ++ vs.drop (Commit.last start cs) = vs.drop start := by
  induction h with
  | done _ => rfl
  | @commit _ start _ stop rest _ ht _ _ _ ih =>
    obtain ⟨_,_,_,hlt,_⟩ := ht
    have hcut : between vs start stop ++ vs.drop stop = vs.drop start := by
      conv_rhs => rw [← List.take_append_drop (stop - start) (vs.drop start)]
      rw [List.drop_drop,List.take_drop,Nat.add_sub_cancel' (Nat.le_of_lt hlt),between]
    simp only [Commit.spans,List.flatMap_cons,List.append_assoc]
    rw [← hcut,← ih]
    rfl

theorem Commit.subset_of_mem_spans {start : Nat} {cs : List Commit} {x : Nat × List Value}
    (h : x ∈ Commit.spans vs start cs) : x.2 ⊆ vs := by
  induction cs generalizing start with
  | nil => cases h
  | cons c cs ih =>
    rcases List.mem_cons.1 h with rfl | h
    · exact Pattern.between_subset vs start c.stop
    · exact ih h

theorem Scan.accepted {chosen : List Nat} {start : Nat} {cs : List Commit}
    (h : Scan tests vs chosen start cs) :
    ∀ x ∈ Commit.spans vs start cs, ∃ test, tests[x.1]? = some test ∧ test x.2 = true := by
  induction h with
  | done _ => simp [Commit.spans]
  | commit _ ht _ _ _ ih =>
    obtain ⟨test,hi,hp,_,_⟩ := ht
    intro x hx
    rcases List.mem_cons.1 hx with rfl | hx
    · exact ⟨test,hi,hp⟩
    · exact ih x hx

theorem Scan.lookup {chosen : List Nat} {start : Nat} {cs : List Commit}
    (h : Scan tests vs chosen start cs) {i : Nat} (hi : i ∈ chosen) :
    (Commit.spans vs start cs).lookup i = none := by
  induction h with
  | done _ => rfl
  | @commit _ _ j _ _ hj _ _ _ _ ih =>
    have hne : (i == j) = false := beq_false_of_ne fun he => hj (he ▸ hi)
    rw [Commit.spans,List.lookup_cons,hne]
    exact ih (List.mem_cons_of_mem _ hi)

/-! ## Handing out is a scan -/

theorem takesSpan_iff {i start k : Nat} : TakesSpan tests vs i start (start + k) ↔
    ∃ test, tests[i]? = some test ∧
      test ((vs.drop start).take k) = true ∧ 0 < k ∧ k ≤ (vs.drop start).length := by
  have hcut : between vs start (start + k) = (vs.drop start).take k := List.take_drop.symm
  rw [TakesSpan,hcut,List.length_drop]
  refine exists_congr fun test => and_congr_right fun _ => and_congr_right fun _ => ?_
  omega

theorem TakesSpan.le {i start stop : Nat} (h : TakesSpan tests vs i start stop) : start ≤ stop := by
  obtain ⟨_,_,_,hlt,_⟩ := h
  exact Nat.le_of_lt hlt

namespace Shares

/-- The shares in the course of a scan: what is left begins at a place, and the alternatives with a share
are those that have been chosen. -/
structure At (tests : List (List Value → Bool)) (vs : List Value) (chosen : List Nat) (start : Nat)
    (s : Shares) : Prop where
  left : s.left = vs.drop start
  size : s.found.length = tests.length
  free : ∀ i < tests.length, (s.found[i]? = some none ↔ i ∉ chosen)

variable {chosen : List Nat} {start : Nat} {s : Shares}

theorem getElem?_entries {i : Nat} {x : ((List Value → Bool) × Option Value) × Nat} :
    ((tests.zip s.found).zipIdx)[i]? = some x ↔
      tests[i]? = some x.1.1 ∧ s.found[i]? = some x.1.2 ∧ x.2 = i := by
  rw [List.getElem?_zipIdx,Option.map_eq_some_iff]
  constructor
  · rintro ⟨y,hy,rfl⟩
    rw [List.getElem?_zip_eq_some] at hy
    exact ⟨hy.1,hy.2,Nat.zero_add i⟩
  · rintro ⟨ht,hf,hi⟩
    exact ⟨x.1,List.getElem?_zip_eq_some.2 ⟨ht,hf⟩,by rw [Nat.zero_add,← hi]⟩

/-- An alternative that is free and is not offered a share takes no span. -/
theorem At.not_takes (hs : s.At tests vs chosen start) {i : Nat} (hi : i ∉ chosen)
    (h : ∀ x, ((tests.zip s.found).zipIdx)[i]? = some x →
      (if x.1.2.isSome then none else (longestSpan x.1.1 s.left).map fun k => (x.2,k)) = none)
    (stop : Nat) : ¬TakesSpan tests vs i start stop := by
  intro ht
  obtain ⟨k,rfl⟩ := Nat.exists_eq_add_of_le ht.le
  obtain ⟨test,htest,hp,h0,hk⟩ := takesSpan_iff.1 ht
  have hfree := (hs.free i (List.getElem?_eq_some_iff.1 htest).1).2 hi
  have hnone := h ((test,none),i) (getElem?_entries.2 ⟨htest,hfree,rfl⟩)
  simp only [Option.isSome_none,Bool.false_eq_true,if_false,Option.map_eq_none_iff,hs.left,
    longestSpan_eq_none_iff] at hnone
  simp [hnone k h0 hk] at hp

theorem nextShare_eq_none (hs : s.At tests vs chosen start) (h : s.nextShare tests = none) :
    ∀ i ∉ chosen, ∀ stop, ¬TakesSpan tests vs i start stop :=
  fun _ hi => hs.not_takes hi fun x hx =>
    List.findSome?_eq_none_iff.1 h x (List.mem_of_getElem? hx)

theorem nextShare_eq_some (hs : s.At tests vs chosen start) {i k : Nat}
    (h : s.nextShare tests = some (i,k)) : i ∉ chosen ∧ TakesSpan tests vs i start (start + k) ∧
      (∀ later, TakesSpan tests vs i start later → later ≤ start + k) ∧
      ∀ j < i, j ∉ chosen → ∀ stop, ¬TakesSpan tests vs j start stop := by
  obtain ⟨before,⟨⟨test,share⟩,index⟩,after,hl,hx,hbefore⟩ := List.findSome?_eq_some_iff.1 h
  have hget : ((tests.zip s.found).zipIdx)[before.length]? = some ((test,share),index) := by
    rw [hl,List.getElem?_append_right (Nat.le_refl _),Nat.sub_self]
    rfl
  obtain ⟨htest,hshare,rfl⟩ := getElem?_entries.1 hget
  split at hx
  · cases hx
  · next hnone =>
    obtain ⟨m,hk,he⟩ := Option.map_eq_some_iff.1 hx
    obtain ⟨rfl,rfl⟩ := Prod.mk.inj he
    rw [hs.left,longestSpan_eq_some_iff] at hk
    obtain ⟨hk,hmax⟩ := hk
    rw [Option.not_isSome_iff_eq_none.1 hnone] at hshare
    refine ⟨(hs.free _ (List.getElem?_eq_some_iff.1 htest).1).1 hshare,
      takesSpan_iff.2 ⟨test,htest,hk⟩,fun later hlater => ?_,fun j hj hfree => ?_⟩
    · obtain ⟨d,rfl⟩ := Nat.exists_eq_add_of_le hlater.le
      obtain ⟨test',htest',hd⟩ := takesSpan_iff.1 hlater
      rw [htest] at htest'
      cases htest'
      exact Nat.add_le_add_left (hmax d hd) start
    · refine hs.not_takes hfree fun x hx => hbefore x ?_
      rw [hl,List.getElem?_append_left hj] at hx
      exact List.mem_of_getElem? hx

theorem At.give (hs : s.At tests vs chosen start) (i k : Nat) :
    (s.give i k).At tests vs (i :: chosen) (start + k) := by
  refine ⟨?_,?_,fun j hj => ?_⟩
  · rw [Shares.give,hs.left,List.drop_drop]
  · rw [Shares.give,List.length_set,hs.size]
  · have hj' : j < s.found.length := by rw [hs.size]; exact hj
    rw [Shares.give,List.getElem?_set,List.mem_cons,not_or]
    by_cases hij : i = j
    · subst hij
      simp [hj']
    · rw [if_neg hij,hs.free j hj]
      exact ⟨fun h => ⟨fun he => hij he.symm,h⟩,fun h => h.2⟩

theorem give_get? {i k : Nat} (hi : i < s.found.length) (j : Nat) :
    (s.give i k).get? j = if i = j then some (ofNodes (s.left.take k)) else s.get? j := by
  rw [get?,Shares.give,List.getElem?_set]
  by_cases hij : i = j
  · simp [hij ▸ hi,hij]
  · rw [if_neg hij,if_neg hij]
    rfl

theorem give_free {i k : Nat} (hi : s.found[i]? = some none) :
    (s.give i k).found.countP Option.isNone + 1 = s.found.countP Option.isNone := by
  obtain ⟨hlt,hnone⟩ := List.getElem?_eq_some_iff.1 hi
  have hpos : 0 < s.found.countP Option.isNone :=
    List.countP_pos_iff.2 ⟨none,List.mem_of_getElem? hi,rfl⟩
  rw [Shares.give,List.countP_set hlt,hnone]
  simp only [Option.isNone_none,if_true,Option.isNone_some,Bool.false_eq_true,if_false]
  omega

/-- The shares after a scan: each commit has given its alternative its span. -/
theorem handOut_scan (hs : s.At tests vs chosen start) {n : Nat}
    (hn : s.found.countP Option.isNone ≤ n) : ∃ cs, Scan tests vs chosen start cs ∧
      (handOut tests n s).left = vs.drop (Commit.last start cs) ∧
      (handOut tests n s).found.length = tests.length ∧
      ∀ i, (handOut tests n s).get? i =
        (((Commit.spans vs start cs).lookup i).map ofNodes).or (s.get? i) := by
  induction n generalizing s chosen start with
  | zero =>
    refine ⟨[],.done (Or.inr fun i hi stop ht => ?_),hs.left,hs.size,fun i => rfl⟩
    obtain ⟨_,htest,_⟩ := ht
    have hfree := (hs.free i (List.getElem?_eq_some_iff.1 htest).1).2 hi
    have hpos : 0 < s.found.countP Option.isNone :=
      List.countP_pos_iff.2 ⟨none,List.mem_of_getElem? hfree,rfl⟩
    omega
  | succ n ih =>
    rw [handOut]
    cases hnext : s.nextShare tests with
    | none =>
      exact ⟨[],.done (Or.inr (nextShare_eq_none hs hnext)),hs.left,hs.size,fun i => rfl⟩
    | some x =>
      obtain ⟨i,k⟩ := x
      obtain ⟨hi,ht,hmax,hfirst⟩ := nextShare_eq_some hs hnext
      have htest := ht
      obtain ⟨_,htest,_⟩ := htest
      have hlt := (List.getElem?_eq_some_iff.1 htest).1
      have hfree := (hs.free i hlt).2 hi
      have hcount := give_free (k := k) hfree
      obtain ⟨cs,hscan,hleft,hsize,hget⟩ := ih (hs.give i k) (by omega)
      refine ⟨⟨i,start + k⟩ :: cs,.commit hi ht hmax hfirst hscan,hleft,hsize,fun j => ?_⟩
      have hcut : s.left.take k = between vs start (start + k) := by
        rw [hs.left,between,List.take_drop]
      rw [hget j,give_get? (hs.size ▸ hlt),hcut,Commit.spans,List.lookup_cons]
      by_cases hij : i = j
      · subst hij
        rw [hscan.lookup List.mem_cons_self]
        simp
      · rw [if_neg hij,beq_false_of_ne fun he => hij he.symm]

end Shares

end Facts

theorem Value.exists_scan (tests : List (List Value → Bool)) (v : Value) :
    ∃ cs, Scan tests v.flatten [] 0 cs ∧ (v.shareBy tests).left = v.flatten.drop (Commit.last 0 cs) ∧
      (v.shareBy tests).found.length = tests.length ∧
      ∀ i, (v.shareBy tests).get? i = ((Commit.spans v.flatten 0 cs).lookup i).map ofNodes := by
  have hstart : Shares.At tests v.flatten [] 0 ⟨tests.map fun _ => none,v.flatten⟩ := by
    refine ⟨rfl,List.length_map _,fun i hi => ?_⟩
    simp [hi]
  have hcount : (tests.map fun _ => (none : Option Value)).countP Option.isNone ≤ tests.length :=
    Nat.le_trans List.countP_le_length (Nat.le_of_eq (List.length_map _))
  obtain ⟨cs,hscan,hleft,hsize,hget⟩ := Shares.handOut_scan hstart hcount
  refine ⟨cs,hscan,hleft,hsize,fun i => ?_⟩
  have hnone : (⟨tests.map fun _ => none,v.flatten⟩ : Shares).get? i = none := by
    rw [Shares.get?,List.getElem?_map]
    cases tests[i]? <;> rfl
  rw [shareBy,hget i,hnone,Option.or_none]

/-- There is exactly one scan of the nodes of a value, and the shares are its spans. -/
theorem Value.shareBy_partition (tests : List (List Value → Bool)) (v : Value) :
    ∃ commits, (∀ cs, Scan tests v.flatten [] 0 cs ↔ cs = commits) ∧
      Partition tests v.flatten commits (v.shareBy tests) := by
  obtain ⟨commits,hscan,hleft,hsize,hget⟩ := exists_scan tests v
  refine ⟨commits,fun cs => ⟨fun h => h.unique hscan,fun h => h ▸ hscan⟩,hscan.alternatives.1,
    hscan.stops.1,hscan.stops.2,hsize,fun i => ?_,hleft,?_,hscan.accepted⟩
  · rw [hget i]
    cases hl : (Commit.spans v.flatten 0 commits).lookup i with
    | none => rfl
    | some span =>
      obtain ⟨before,after,hmem,_⟩ := List.lookup_eq_some_iff.1 hl
      have hsub : span ⊆ v.flatten := Commit.subset_of_mem_spans (x := (i,span))
        (hmem ▸ List.mem_append_right _ List.mem_cons_self)
      exact congrArg some ((flatten_areNodes v).mono hsub).flatten_ofNodes
  · rw [hleft]
    exact hscan.whole

/-- Matching a value against alternatives that are given by their texts is the greedy partition: there is
exactly one scan of the nodes in which each step chooses the first alternative not chosen yet that takes a
span, with its longest span; the shares are the spans of its commits and the remainder is what they leave;
spans and remainder are the nodes in their order; and each alternative accepts its share. -/
theorem Value.share_partition (alternatives : List String) (v : Value) :
    ∃ commits,
      (∀ cs, Scan (alternatives.map fun text => (Pattern.ofText text).accepts) v.flatten [] 0 cs ↔
        cs = commits) ∧
      Partition (alternatives.map fun text => (Pattern.ofText text).accepts) v.flatten commits
        (v.share (alternatives.map Pattern.ofText)) := by
  have hshare : v.share (alternatives.map Pattern.ofText) =
      v.shareBy (alternatives.map fun text => (Pattern.ofText text).accepts) := by
    rw [share,List.map_map]
    rfl
  rw [hshare]
  exact shareBy_partition _ v

end StyleExpansion
