import Mathlib
import StyleExpansion.Proofs.Declaration.Importance
import StyleExpansion.Proofs.Expander.SelectorLists

/-! # Recovery in a list of declarations

A block is read item by item, an item being what stands between two semicolons outside of all blocks. So a
semicolon parts what is read before it from what is read after it, and what is wrong with one item does no
harm to the others. An item is a declaration or nothing at all: it is nothing if it is empty, if no name
stands in front of it or if no colon follows the name. A nested rule is no item of its own. It is part of
the item that it stands in, which goes on after its block up to the next semicolon.
-/
namespace StyleExpansion
open Component Token

namespace Declaration

/-- Nothing is open where the text ends: a semicolon after it is a token of its own, and its blocks are
closed. -/
structure Ended (d : String) : Prop where
  semicolon : ∃ xs, lexemes (d.toList ++ [';']) = xs ++ [⟨.semicolon,[';']⟩]
  closed : ∀ c ∈ ofText d, c.isClosed = true

def IsItem (m : String) : Prop := ∀ c ∈ ofText m, c.isSemicolon = false

inductive Lacks (p : Component → Bool) : List Component → Prop
  | nothing {cs : List Component} (h : allSkipped cs = true) : Lacks p cs
  | other {before rest : List Component} {c : Component} (h : allSkipped before = true)
    (hc : c.isSkipped = false) (hp : p c = false) : Lacks p (before ++ c :: rest)

/-- An item without a name in front, which may be empty, or without a colon after its name. -/
inductive Malformed : List Component → Prop
  | unnamed {cs : List Component} (h : Lacks isName cs) : Malformed cs
  | uncoloned {before rest : List Component} {name : String} {source : List Char}
    (h : allSkipped before = true) (hcolon : Lacks (isToken .colon) rest) :
    Malformed (before ++ .plain (.ident name) source :: rest)

/-! ## Items -/

theorem dropWhile_skipped_append {before : List Component} (h : allSkipped before = true)
    (cs : List Component) :
    (before ++ cs).dropWhile Component.isSkipped = cs.dropWhile Component.isSkipped :=
  List.dropWhile_append_of_pos (List.all_eq_true.1 h)

theorem Lacks.eq_false {p : Component → Bool} {cs : List Component} (h : Lacks p cs) {c : Component}
    {rest : List Component} (hcs : cs.dropWhile Component.isSkipped = c :: rest) : p c = false := by
  cases h with
  | nothing h =>
    rw [List.dropWhile_eq_nil_iff.2 (List.all_eq_true.1 h)] at hcs
    cases hcs
  | other h hc hp =>
    rw [dropWhile_skipped_append h,List.dropWhile_cons_of_neg (by simp [hc])] at hcs
    cases hcs
    exact hp

/-- The first component that means something passes a test or not. -/
theorem lacks_or_exists (p : Component → Bool) (cs : List Component) : Lacks p cs ∨
    ∃ before c rest, cs = before ++ c :: rest ∧ allSkipped before = true ∧ p c = true := by
  induction cs with
  | nil => exact Or.inl (.nothing rfl)
  | cons c cs ih =>
    cases hc : c.isSkipped with
    | false =>
      cases hp : p c with
      | false =>
        have hfirst : Lacks p ([] ++ c :: cs) := .other rfl hc hp
        exact Or.inl hfirst
      | true => exact Or.inr ⟨[],c,cs,rfl,rfl,hp⟩
    | true =>
      have hmore : ∀ {before : List Component}, allSkipped before = true →
          allSkipped (c :: before) = true := fun h => by simpa [allSkipped,hc] using h
      rcases ih with h | ⟨before,d,rest,rfl,hbefore,hd⟩
      · cases h with
        | nothing h => exact Or.inl (.nothing (hmore h))
        | other h hd hp => exact Or.inl (.other (hmore h) hd hp)
      · exact Or.inr ⟨c :: before,d,rest,rfl,hmore hbefore,hd⟩

theorem Malformed.ofComponents? {cs : List Component} (h : Malformed cs) :
    Declaration.ofComponents? cs = none := by
  unfold Declaration.ofComponents?
  cases h with
  | unnamed h =>
    split
    · next hcs => cases h.eq_false hcs
    · rfl
  | @uncoloned before rest name source h hcolon =>
    have hname : (before ++ .plain (.ident name) source :: rest).dropWhile Component.isSkipped =
        .plain (.ident name) source :: rest := dropWhile_skipped_append h _
    rw [hname]
    dsimp only
    split
    · next hrest => cases hcolon.eq_false hrest
    · rfl

/-- An item is malformed, or a name, a colon and the components of a value. -/
theorem malformed_or_ofComponents? (cs : List Component) :
    Malformed cs ∨ ∃ d, Declaration.ofComponents? cs = some d := by
  rcases lacks_or_exists isName cs with h | ⟨before,c,rest,rfl,hbefore,hc⟩
  · exact Or.inl (.unnamed h)
  obtain ⟨name,source,rfl⟩ : ∃ name source, c = .plain (.ident name) source := by
    unfold isName isIdent at hc
    split at hc
    · exact ⟨_,_,rfl⟩
    · cases hc
  rcases lacks_or_exists (isToken .colon) rest with h | ⟨after,d,value,rfl,hafter,hd⟩
  · exact Or.inl (.uncoloned hbefore h)
  obtain ⟨colon,rfl⟩ : ∃ colon, d = .plain .colon colon := by
    cases d with
    | block => cases hd
    | plain t colon => exact ⟨colon,by rw [show t = .colon by simpa [isToken] using hd]⟩
  exact Or.inr ⟨_,ofComponents?_named hbefore hafter name source colon value⟩

/-- An item is no declaration exactly if it is malformed. -/
theorem ofComponents?_eq_none_iff {cs : List Component} :
    Declaration.ofComponents? cs = none ↔ Malformed cs := by
  refine ⟨fun h => (malformed_or_ofComponents? cs).resolve_right ?_,Malformed.ofComponents?⟩
  rintro ⟨d,hd⟩
  rw [h] at hd
  cases hd

/-- An item is one declaration, or nothing if it is malformed. -/
theorem IsItem.all_eq {m : String} (h : IsItem m) :
    all (ofText m) = (ofComponents? (ofText m)).toList := by
  rw [all,splitAt_of_free h]
  cases hd : ofComponents? (ofText m) <;> simp [hd]

/-! ## Joined texts -/

theorem Ended.isSealed {d : String} (h : Ended d) : Sealed d.toList := by
  obtain ⟨xs,hxs⟩ := h.semicolon
  exact sealed_of_last (isBreak_of_mark (by decide)) hxs rfl

/-- A semicolon parts what is read before it from what is read after it. -/
theorem Ended.all_append {d : String} (h : Ended d) (e : String) :
    all (ofText (d ++ ";" ++ e)) = all (ofText d) ++ all (ofText e) := by
  have htext : (d ++ ";" ++ e).toList = d.toList ++ ';' :: e.toList := by simp
  rw [ofText,htext,parse_append_mark h.isSealed h.closed (by decide) (by simp [markToken])
    (by simp [markToken]),all,splitAt_append_cons rfl,List.filterMap_append]
  rfl

theorem all_intercalate {ds : List String} (h : ∀ d ∈ ds.dropLast, Ended d) :
    all (ofText (";".intercalate ds)) = ds.flatMap fun d => all (ofText d) := by
  induction ds with
  | nil => simp [ofText,parse_nil,all,splitAt,ofComponents?]
  | cons d ds ih =>
    cases ds with
    | nil => simp
    | cons e ds =>
      rw [List.dropLast_cons_cons] at h
      obtain ⟨hd,hds⟩ := List.forall_mem_cons.1 h
      rw [String.intercalate_cons_cons,hd.all_append,ih hds]
      rfl

theorem dropLast_subset_of_insert {α : Type} (as bs : List α) (a : α) :
    (as ++ bs).dropLast ⊆ (as ++ a :: bs).dropLast := by
  cases bs with
  | nil =>
    rw [List.append_nil,List.dropLast_concat]
    exact List.dropLast_subset as
  | cons b bs =>
    rw [List.dropLast_append_of_ne_nil (by simp),List.dropLast_append_of_ne_nil (by simp),
      List.dropLast_cons_cons]
    exact ((List.sublist_cons_self a _).append_left as).subset

/-! ## Nested rules -/

theorem Lacks.append {p : Component → Bool} {cs : List Component} (h : Lacks p cs)
    (hcs : allSkipped cs = false) (ds : List Component) : Lacks p (cs ++ ds) := by
  cases h with
  | nothing h =>
    rw [h] at hcs
    cases hcs
  | other h hc hp =>
    rw [List.append_assoc,List.cons_append]
    exact .other h hc hp

theorem not_allSkipped_of_mem {cs : List Component} {c : Component} (h : c ∈ cs)
    (hc : c.isSkipped = false) : allSkipped cs = false := by
  rw [allSkipped,List.all_eq_false]
  exact ⟨c,h,by simp [hc]⟩

/-- What ends with a block and is malformed stays so with more after it. -/
theorem Malformed.append {cs : List Component} {kind : Opening} {source : List Char}
    {contents : List Component} {closed : Bool}
    (h : Malformed (cs ++ [.block kind source contents closed])) (ds : List Component) :
    Malformed (cs ++ [.block kind source contents closed] ++ ds) := by
  generalize hall : cs ++ [.block kind source contents closed] = all at h
  have hlast : all.getLast? = some (.block kind source contents closed) := by simp [← hall]
  cases h with
  | unnamed h =>
    exact .unnamed (h.append (not_allSkipped_of_mem (List.mem_of_getLast? hlast) rfl) ds)
  | uncoloned h hcolon =>
    rw [List.append_assoc,List.cons_append]
    refine .uncoloned h (hcolon.append ?_ ds)
    rw [List.getLast?_append_cons] at hlast
    rcases List.mem_cons.1 (List.mem_of_getLast? hlast) with hname | hrest
    · cases hname
    · exact not_allSkipped_of_mem hrest rfl

/-- Items fail one at a time. Of two texts with a semicolon in between the declarations are those of the
first and then those of the second, if nothing is open where the first one ends. An item is at most one
declaration, and none exactly if it is malformed. A malformed item may be left out of a block, wherever it
stands. A nested rule that is malformed takes along what follows it up to the next semicolon. -/
theorem all_recovers :
    (∀ d e, Ended d → all (ofText (d ++ ";" ++ e)) = all (ofText d) ++ all (ofText e)) ∧
    (∀ m, IsItem m → (all (ofText m)).length ≤ 1 ∧ (all (ofText m) = [] ↔ Malformed (ofText m))) ∧
    (∀ before m after, IsItem m → Malformed (ofText m) →
      (∀ d ∈ (before ++ m :: after).dropLast, Ended d) →
      all (ofText (";".intercalate (before ++ m :: after))) =
        all (ofText (";".intercalate (before ++ after)))) ∧
    ∀ rule e cs source contents, ofText rule = cs ++ [.block (.bracket .curly) source contents true] →
      IsItem rule → Malformed (ofText rule) → IsItem e → all (ofText (rule ++ e)) = [] := by
  have hnone : ∀ m, IsItem m → Malformed (ofText m) → all (ofText m) = [] := by
    intro m hm h
    rw [hm.all_eq,h.ofComponents?]
    rfl
  refine ⟨fun d e hd => hd.all_append e,?_,?_,?_⟩
  · intro m hm
    rw [hm.all_eq,← ofComponents?_eq_none_iff]
    cases ofComponents? (ofText m) <;> simp
  · intro before m after hm h hended
    have hless : ∀ d ∈ (before ++ after).dropLast, Ended d :=
      fun d hd => hended d (dropLast_subset_of_insert before after m hd)
    rw [all_intercalate hended,all_intercalate hless,List.flatMap_append,List.flatMap_cons,
      hnone m hm h,List.nil_append,List.flatMap_append]
  · intro rule e cs source contents hrule hitem h he
    have htext : ofText (rule ++ e) = ofText rule ++ ofText e := by
      rw [ofText,String.toList_append]
      exact parse_append hrule e.toList
    have hboth : IsItem (rule ++ e) := by
      intro c hc
      rw [htext] at hc
      exact (List.mem_append.1 hc).elim (hitem c) (he c)
    rw [hrule] at h
    exact hnone _ hboth (by rw [htext,hrule]; exact h.append _)

/-- Semicolons in a string, in brackets and in a nested rule part nothing, and a nested rule between two
declarations changes neither. -/
theorem all_recovers_nested_rule :
    Ended "a:(;) \";\"" ∧ Ended "&:hover\x7bx:y;z:w\x7d" ∧ IsItem "&:hover\x7bx:y;z:w\x7d" ∧
    Malformed (ofText "&:hover\x7bx:y;z:w\x7d") ∧
    all (ofText ("a:(;) \";\"" ++ ";" ++ "b:c")) = all (ofText "a:(;) \";\"") ++ all (ofText "b:c") ∧
    all (ofText (";".intercalate ["a:(;) \";\"","&:hover\x7bx:y;z:w\x7d","b:c"])) =
      all (ofText (";".intercalate ["a:(;) \";\"","b:c"])) ∧
    all (ofText ("&:hover\x7bx:y;z:w\x7d" ++ " b:c")) = [] := by
  have hd : Ended "a:(;) \";\"" := by
    refine ⟨⟨[⟨.ident "a",['a']⟩,⟨.colon,[':']⟩,⟨.opening (.bracket .round),['(']⟩,⟨.semicolon,[';']⟩,
      ⟨.closing .round,[')']⟩,⟨.space,[' ']⟩,⟨.quoted ";",['"',';','"']⟩],by cbv⟩,List.all_eq_true.1 ?_⟩
    cbv
  have hm : Ended "&:hover\x7bx:y;z:w\x7d" := by
    refine ⟨⟨[⟨.delim '&',['&']⟩,⟨.colon,[':']⟩,⟨.ident "hover",['h','o','v','e','r']⟩,
      ⟨.opening (.bracket .curly),['\x7b']⟩,⟨.ident "x",['x']⟩,⟨.colon,[':']⟩,⟨.ident "y",['y']⟩,
      ⟨.semicolon,[';']⟩,⟨.ident "z",['z']⟩,⟨.colon,[':']⟩,⟨.ident "w",['w']⟩,
      ⟨.closing .curly,['\x7d']⟩],by cbv⟩,List.all_eq_true.1 ?_⟩
    cbv
  have hrule : ofText "&:hover\x7bx:y;z:w\x7d" = [.plain (.delim '&') ['&'],.plain .colon [':'],
      .plain (.ident "hover") ['h','o','v','e','r']] ++ [.block (.bracket .curly) ['\x7b']
        [.plain (.ident "x") ['x'],.plain .colon [':'],.plain (.ident "y") ['y'],.plain .semicolon [';'],
          .plain (.ident "z") ['z'],.plain .colon [':'],.plain (.ident "w") ['w']] true] := by cbv
  have hitem : IsItem "&:hover\x7bx:y;z:w\x7d" := by
    rw [IsItem,hrule]
    simp [isSemicolon,isToken]
  have hmalformed : Malformed (ofText "&:hover\x7bx:y;z:w\x7d") := by
    have hfirst : Lacks isName ([] ++ ofText "&:hover\x7bx:y;z:w\x7d") := by
      rw [hrule]
      exact .other rfl rfl rfl
    exact .unnamed hfirst
  have hafter : (ofText " b:c").all (fun c => !c.isSemicolon) = true := by cbv
  have hafter : IsItem " b:c" := fun c hc => by simpa using List.all_eq_true.1 hafter c hc
  refine ⟨hd,hm,hitem,hmalformed,all_recovers.1 _ _ hd,?_,
    all_recovers.2.2.2 _ _ _ _ _ hrule hitem hmalformed hafter⟩
  exact all_recovers.2.2.1 ["a:(;) \";\""] "&:hover\x7bx:y;z:w\x7d" ["b:c"] hitem hmalformed
    (List.forall_mem_cons.2 ⟨hd,List.forall_mem_cons.2 ⟨hm,List.forall_mem_nil _⟩⟩)

/-- After a nested rule a declaration is lost that would be read by itself, and a nested rule that begins
with a name and a colon is read as a declaration. -/
theorem nested_rule_counts :
    all (ofText "&:hover\x7bx:y\x7d color:red") = [] ∧
    all (ofText "color:red") = [⟨"color","red",false⟩] ∧
    all (ofText "a:hover\x7bx:y\x7d") = [⟨"a","hover\x7bx:y\x7d",false⟩] := by
  refine ⟨?_,?_,?_⟩ <;> cbv

end Declaration

end StyleExpansion
