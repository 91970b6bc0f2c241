import StyleExpansion.Error
import StyleExpansion.Proofs.Value.Segments

/-! # What can be written

Whether a value has a text is a matter of its nodes one by one: what stands next to a node, and in what
lists it is, changes the text between the nodes only.
-/
namespace StyleExpansion.Value

def IsWritable (v : Value) : Prop := ∃ s, v.write = .ok s

theorem writeAll_cons_eq_ok {isFirst : Bool} {v : Value} {vs : List Value}
    (h : v.isEmpty = false) : (∃ s, writeAll isFirst (v :: vs) = .ok s) ↔
      v.IsWritable ∧ ∃ s, writeAll false vs = .ok s := by
  rw [writeAll,h]
  cases hv : v.write with
  | error c => simp [IsWritable,hv,bind,Except.bind]
  | ok s =>
    cases writeAll false vs with
    | error c => simp [bind,Except.bind]
    | ok t => simp [IsWritable,hv,bind,Except.bind,pure,Except.pure]

/-- A value has a text exactly if each of its nodes has one. -/
theorem isWritable_iff (v : Value) : v.IsWritable ↔ ∀ n ∈ v.flatten, n.IsWritable := by
  induction v using list_induction with
  | node v hlist hnode => simp [hnode]
  | lists vs ih =>
    rw [IsWritable,write,flatten_list]
    generalize true = isFirst
    induction vs generalizing isFirst with
    | nil => simp [writeAll,flattenAll]
    | cons v vs ihs =>
      have hrest := ihs fun w hw => ih w (List.mem_cons_of_mem v hw)
      cases h : v.isEmpty with
      | true =>
        rw [writeAll,if_pos h,flattenAll,(isEmpty_iff v).1 h,List.nil_append]
        exact hrest isFirst
      | false =>
        rw [writeAll_cons_eq_ok h,flattenAll,List.forall_mem_append,ih v List.mem_cons_self,
          hrest false]

theorem generate_eq_ok {v : Value} : (∃ text, v.generate = .ok text) ↔ v.IsWritable := by
  unfold generate render IsWritable
  cases v.write with
  | error c => exact ⟨nofun,nofun⟩
  | ok s => exact ⟨fun _ => ⟨s,rfl⟩,fun _ => ⟨_,rfl⟩⟩

end StyleExpansion.Value
