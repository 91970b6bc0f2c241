import Mathlib
import StyleExpansion.Proofs.Value.Written
import StyleExpansion.Value.Importance

/-! # The last nodes of a value

The nodes of a value are those of its components that mean something, in their order. So the last node is
that of the last such component, and an exclamation mark and a word among the nodes are tokens of the text.
-/
namespace StyleExpansion.Value
open Token Component

theorem readComponents_append_eq_ok {cs ds : List Component} {vs : List Value} :
    readComponents (cs ++ ds) = .ok vs ↔
      ∃ us ws, readComponents cs = .ok us ∧ readComponents ds = .ok ws ∧ vs = us ++ ws := by
  constructor
  · intro h
    induction cs generalizing vs with
    | nil => exact ⟨[],vs,rfl,h,rfl⟩
    | cons c cs ih =>
      obtain ⟨o,rest,ho,hrest,rfl⟩ := readComponents_cons_eq_ok.1 h
      obtain ⟨us,ws,hus,hws,rfl⟩ := ih hrest
      exact ⟨o.toList ++ us,ws,readComponents_cons_eq_ok.2 ⟨o,us,ho,hus,rfl⟩,hws,
        by rw [List.append_assoc]⟩
  · rintro ⟨us,ws,hus,hws,rfl⟩
    exact readComponents_append hus hws

theorem isSkipped_of_readComponent {c : Component} (h : readComponent c = .ok none) :
    c.isSkipped = true := by
  rcases readComponent_cases h with ⟨hc,_⟩ | ⟨_,_,_,_,_,hv⟩ | ⟨nodes,hv | hv | ⟨name,hv⟩⟩
  · exact hc
  all_goals cases hv

theorem readComponents_of_allSkipped {cs : List Component} (h : allSkipped cs = true) :
    readComponents cs = .ok [] := by
  induction cs with
  | nil => rfl
  | cons c cs ih =>
    obtain ⟨hc,hcs⟩ := List.forall_mem_cons.1 (List.all_eq_true.1 h)
    exact readComponents_cons_eq_ok.2
      ⟨none,[],readComponent_of_isSkipped hc,ih (List.all_eq_true.2 hcs),rfl⟩

/-- The last node is that of the last component that means something. -/
theorem exists_last_of_readComponents {cs : List Component} {us : List Value} {v : Value}
    (h : readComponents cs = .ok (us ++ [v])) : ∃ front c skipped, cs = front ++ c :: skipped ∧
      readComponents front = .ok us ∧ readComponent c = .ok (some v) ∧ allSkipped skipped = true := by
  induction cs using List.reverseRecOn with
  | nil => simp [readComponents] at h
  | append_singleton cs c ih =>
    obtain ⟨ws,last,hws,hlast,hall⟩ := readComponents_append_eq_ok.1 h
    obtain ⟨o,rest,ho,hrest,rfl⟩ := readComponents_cons_eq_ok.1 hlast
    cases hrest
    cases o with
    | none =>
      have hc := isSkipped_of_readComponent ho
      rw [Option.toList_none,List.append_nil,List.append_nil] at hall
      obtain ⟨front,d,skipped,rfl,hfront,hd,hskipped⟩ := ih (hall ▸ hws)
      exact ⟨front,d,skipped ++ [c],by simp,hfront,hd,by simpa [allSkipped,hc] using hskipped⟩
    | some w =>
      obtain ⟨rfl,hv⟩ := List.append_inj' hall rfl
      cases hv
      exact ⟨cs,c,[],rfl,hws,ho,rfl⟩

theorem dropImportance?_append (us : List Value) {mark word : Value}
    (hmark : mark.isOperator "!" = true) (hword : word.isIdent "important" = true) :
    dropImportance? (us ++ [mark,word]) = some us := by
  induction us with
  | nil => simp [dropImportance?,hmark,hword]
  | cons u us ih =>
    rw [List.cons_append,dropImportance?,ih]
    · rfl
    · intro m he
      have hlen := congrArg List.length he
      simp at hlen

theorem exists_token {c : Component} {v : Value} (h : readComponent c = .ok (some v))
    (hv : (∃ symbol, v = operator symbol) ∨ ∃ name, v = ident name) :
    ∃ t source, c = .plain t source ∧ ofToken? t = some v := by
  rcases readComponent_cases h with ⟨_,hw⟩ | ⟨t,source,w,hc,hw,he⟩ | ⟨nodes,hw | hw | ⟨name,hw⟩⟩
  · cases hw
  · cases he
    exact ⟨t,source,hc,hw⟩
  · cases hw
    rcases hv with ⟨_,hv⟩ | ⟨_,hv⟩ <;> cases hv
  · cases hw
    rcases hv with ⟨_,hv⟩ | ⟨_,hv⟩ <;> cases hv
  · cases hw
    rcases ofCall_eq name nodes with ⟨_,hcall⟩ | hcall <;> rw [hcall] at hv <;>
      rcases hv with ⟨_,hv⟩ | ⟨_,hv⟩ <;> cases hv

/-- An exclamation mark among the nodes is one of the text. -/
theorem eq_bang_of_readComponent {c : Component} {v : Value} (h : readComponent c = .ok (some v))
    (hv : v.isOperator "!" = true) : ∃ source, c = .plain (.delim '!') source := by
  have hop := isOperator_iff.1 hv
  obtain ⟨t,source,rfl,ht⟩ := exists_token h (Or.inl ⟨_,hop⟩)
  refine ⟨source,?_⟩
  rw [hop] at ht
  cases t with
  | delim mark =>
    have hsymbol : String.singleton mark = "!" := operator.inj (Option.some.inj ht)
    have hmark : mark = '!' := by simpa using congrArg String.toList hsymbol
    rw [hmark]
  | comma =>
    have hsymbol : "," = "!" := operator.inj (Option.some.inj ht)
    exact absurd hsymbol (by simp)
  | _ => cases ht

theorem eq_word_of_readComponent {c : Component} {v : Value} (h : readComponent c = .ok (some v))
    (hv : v.isIdent "important" = true) : ∃ name source, c = .plain (.ident name) source ∧
      Text.sameName name "important" = true := by
  obtain ⟨name,rfl⟩ : ∃ name, v = ident name := by
    cases v <;> first | exact ⟨_,rfl⟩ | cases hv
  obtain ⟨t,source,rfl,ht⟩ := exists_token h (Or.inr ⟨_,rfl⟩)
  cases t <;> cases ht
  exact ⟨name,source,rfl,hv⟩

theorem flatten_withoutImportance (v : Value) :
    v.withoutImportance.flatten = (dropImportance? v.flatten).getD v.flatten := by
  unfold withoutImportance
  split
  · next us hdrop =>
    obtain ⟨_,_,hnodes,_,_⟩ := dropImportance?_eq_some hdrop
    have hsub : us ⊆ v.flatten := by
      rw [hnodes]
      exact List.subset_append_left us _
    rw [hdrop,((flatten_areNodes v).mono hsub).flatten_list]
    rfl
  · next hdrop =>
    rw [hdrop]
    rfl

end StyleExpansion.Value
