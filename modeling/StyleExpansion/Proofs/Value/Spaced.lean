import StyleExpansion.Error
import StyleExpansion.Proofs.Value.Segments

/-! # Lists inside lists

A comma is written without a space before it only if it stands in the list that is written. So a list that
begins with a comma is not written inside another list like its nodes are there. A value without such lists
is written like the list of its nodes.
-/
namespace StyleExpansion.Value

def leadsWithComma : Value → Bool
  | list nodes => (flattenAll nodes).head?.any (isOperator ",")
  | _ => false

mutual
def isSpaced : Value → Bool
  | list nodes => allSpaced nodes
  | _ => true
def allSpaced : List Value → Bool
  | [] => true
  | v :: vs => v.isSpaced && !v.leadsWithComma && allSpaced vs
end

theorem allSpaced_iff {vs : List Value} : allSpaced vs = true ↔
    ∀ v ∈ vs, v.isSpaced = true ∧ v.leadsWithComma = false := by
  induction vs with
  | nil => simp [allSpaced]
  | cons v vs ih => simp [allSpaced,ih,and_assoc]

theorem isSpaced_list {vs : List Value} : (list vs).isSpaced = true ↔
    ∀ v ∈ vs, v.isSpaced = true ∧ v.leadsWithComma = false := by
  rw [isSpaced,allSpaced_iff]

theorem ne_list_of_mem_flatten {v n : Value} (h : n ∈ v.flatten) (vs : List Value) : n ≠ list vs := by
  induction v using list_induction with
  | node v hlist hnode =>
    rw [hnode,List.mem_singleton] at h
    rw [h]
    exact hlist vs
  | lists ws ih =>
    rw [flatten_list,flattenAll_eq_flatMap] at h
    obtain ⟨w,hw,h⟩ := List.mem_flatMap.1 h
    exact ih w hw h

theorem isSpaced_of_node {v : Value} (h : v.flatten = [v]) :
    v.isSpaced = true ∧ v.leadsWithComma = false := by
  rcases list_or_node v with ⟨nodes,rfl⟩ | ⟨hlist,_⟩
  · exact absurd rfl (ne_list_of_mem_flatten (v := list nodes) (by simp [h]) nodes)
  · exact ⟨isSpaced.eq_2 v hlist,leadsWithComma.eq_2 v hlist⟩

theorem isSpaced_list_of_nodes {vs : List Value} (h : ∀ v ∈ vs, v.flatten = [v] ∨ v = empty) :
    (list vs).isSpaced = true := by
  rw [isSpaced_list]
  intro v hv
  rcases h v hv with h | rfl
  · exact isSpaced_of_node h
  · exact ⟨rfl,rfl⟩

/-- Values without commas are spaced with commas between them. -/
theorem isSpaced_join {vs : List Value} (h : ∀ v ∈ vs, v.isSpaced = true)
    (hfree : ∀ v ∈ vs, ∀ n ∈ v.flatten, n.isOperator "," = false) :
    (join "," vs).isSpaced = true := by
  have hmem : ∀ {ws : List Value} {w : Value}, w ∈ interleave "," ws → w = operator "," ∨ w ∈ ws := by
    intro ws w hw
    cases ws with
    | nil => cases hw
    | cons u us =>
      rw [interleave_cons,List.mem_cons,List.mem_flatMap] at hw
      rcases hw with rfl | ⟨x,hx,hw⟩
      · exact Or.inr List.mem_cons_self
      · rcases List.mem_cons.1 hw with rfl | hw
        · exact Or.inl rfl
        · rw [List.mem_singleton.1 hw]
          exact Or.inr (List.mem_cons_of_mem _ hx)
  rw [join,isSpaced_list]
  intro w hw
  rcases hmem hw with rfl | hw
  · exact ⟨rfl,rfl⟩
  · refine ⟨h w hw,?_⟩
    have hw := hfree w hw
    cases w with
    | list nodes =>
      rw [flatten] at hw
      rw [leadsWithComma]
      cases hn : flattenAll nodes with
      | nil => rfl
      | cons n ns => simp [hw n (by simp [hn])]
    | _ => rfl

/-! ## Writing -/

theorem writeAll_of_isEmpty {v : Value} {vs : List Value} (h : v.isEmpty = true) (isFirst : Bool) :
    writeAll isFirst (v :: vs) = writeAll isFirst vs := by
  rw [writeAll,if_pos h]

theorem writeAll_cons {v : Value} {vs : List Value} (h : v.isEmpty = false) (isFirst : Bool) :
    writeAll isFirst (v :: vs) = do
      let s ← v.write
      let more ← writeAll false vs
      return gap isFirst v ++ s ++ more := by
  rw [writeAll,if_neg (by simp [h])]

theorem isEmpty_of_node {v : Value} (h : v.flatten = [v]) : v.isEmpty = false := by
  rw [← Bool.not_eq_true,isEmpty_iff,h]
  simp

theorem writeAll_append {vs : List Value} (h : AreNodes vs) (hne : vs ≠ []) (isFirst : Bool)
    (ws : List Value) : writeAll isFirst (vs ++ ws) = do
      let s ← writeAll isFirst vs
      let more ← writeAll false ws
      return s ++ more := by
  induction vs generalizing isFirst with
  | nil => exact absurd rfl hne
  | cons v vs ih =>
    have hv := isEmpty_of_node (h v List.mem_cons_self)
    rw [List.cons_append,writeAll_cons hv,writeAll_cons hv]
    cases vs with
    | nil =>
      rw [List.nil_append,writeAll]
      cases v.write <;> cases writeAll false ws <;> simp [bind,Except.bind,pure,Except.pure]
    | cons u us =>
      rw [ih (h.mono (List.subset_cons_self _ _)) (by simp)]
      cases v.write <;> cases writeAll false (u :: us) <;> cases writeAll false ws <;>
        simp [bind,Except.bind,pure,Except.pure]

/-- The space before nodes is that before the first of them. -/
theorem writeAll_gap {v : Value} {vs : List Value} (h : v.isEmpty = false) (isFirst : Bool) :
    writeAll isFirst (v :: vs) = (writeAll true (v :: vs)).map (gap isFirst v ++ ·) := by
  rw [writeAll_cons h,writeAll_cons h]
  have hgap : gap true v = [] := rfl
  rw [hgap]
  cases v.write <;> cases writeAll false vs <;> simp [bind,Except.bind,pure,Except.pure,Except.map]

theorem writeAll_singleton {v : Value} (h : v.flatten = [v]) : v.write = writeAll true v.flatten := by
  have hgap : gap true v = [] := rfl
  rw [h,writeAll_cons (isEmpty_of_node h),hgap,writeAll]
  cases v.write <;> simp [bind,Except.bind,pure,Except.pure]

/-- The first node of a list is no comma, so it takes the same space as the list. -/
theorem gap_of_flatten {v n : Value} {ns : List Value} (hcomma : v.leadsWithComma = false)
    (hn : v.flatten = n :: ns) (isFirst : Bool) : gap isFirst v = gap isFirst n := by
  rcases list_or_node v with ⟨nodes,rfl⟩ | ⟨_,hnode⟩
  · rw [flatten] at hn
    rw [leadsWithComma,hn,List.head?_cons,Option.any_some] at hcomma
    have hlist : (list nodes).isOperator "," = false := rfl
    rw [gap,gap,hcomma,hlist]
  · rw [hnode] at hn
    cases hn
    rfl

/-- A spaced value in a list is written like its nodes there. -/
theorem writeAll_flatten {v : Value} (hv : v.write = writeAll true v.flatten)
    (hcomma : v.leadsWithComma = false) {vs ws : List Value}
    (hrest : ∀ isFirst, writeAll isFirst vs = writeAll isFirst ws) (isFirst : Bool) :
    writeAll isFirst (v :: vs) = writeAll isFirst (v.flatten ++ ws) := by
  cases he : v.isEmpty with
  | true => rw [writeAll_of_isEmpty he,(isEmpty_iff v).1 he,List.nil_append,hrest]
  | false =>
    have hne : v.flatten ≠ [] := by
      rw [ne_eq,← isEmpty_iff,he]
      simp
    obtain ⟨n,ns,hn⟩ := List.exists_cons_of_ne_nil hne
    have hfirst : n.isEmpty = false := isEmpty_of_node (flatten_areNodes v n (by simp [hn]))
    rw [writeAll_cons he,writeAll_append (flatten_areNodes v) hne,hrest,hv,hn,
      writeAll_gap hfirst isFirst,gap_of_flatten hcomma hn]
    cases writeAll true (n :: ns) <;> cases writeAll false ws <;> rfl

/-- A spaced value is written like the list of its nodes. -/
theorem write_eq_writeAll (v : Value) (h : v.isSpaced = true) : v.write = writeAll true v.flatten := by
  induction v using list_induction with
  | node v hlist hnode => exact writeAll_singleton hnode
  | lists vs ih =>
    rw [isSpaced_list] at h
    rw [write,flatten_list]
    generalize true = isFirst
    induction vs generalizing isFirst with
    | nil => rfl
    | cons v vs ihs =>
      obtain ⟨⟨hv,hcomma⟩,hvs⟩ := List.forall_mem_cons.1 h
      rw [flattenAll]
      exact writeAll_flatten (ih v List.mem_cons_self hv) hcomma
        (ihs (fun w hw => ih w (List.mem_cons_of_mem v hw)) hvs) isFirst

/-! ## Texts -/

/-- The text of a spaced value is that of the list of its nodes. -/
theorem generate_list_flatten {v : Value} (h : v.isSpaced = true) :
    (list v.flatten).generate = v.generate := by
  rw [generate,generate,render,render,write,write_eq_writeAll v h]

/-- A list stands inside a value that is a list, or inside a list that does so. -/
inductive Inside (nodes : List Value) : Value → Prop
  | here {vs : List Value} (h : list nodes ∈ vs) : Inside nodes (list vs)
  | deeper {v : Value} {vs : List Value} (hv : v ∈ vs) (h : Inside nodes v) : Inside nodes (list vs)

theorem leadsWithComma_list {nodes : List Value} : (list nodes).leadsWithComma = false ↔
    (list nodes).flatten.head? ≠ some (operator ",") := by
  rw [leadsWithComma,flatten,← Bool.not_eq_true]
  cases flattenAll nodes with
  | nil => simp
  | cons n ns => simp [isOperator_iff]

theorem isSpaced_of_inside (v : Value)
    (h : ∀ nodes, Inside nodes v → (list nodes).flatten.head? ≠ some (operator ",")) :
    v.isSpaced = true := by
  induction v using list_induction with
  | node v hlist hnode => exact (isSpaced_of_node hnode).1
  | lists vs ih =>
    rw [isSpaced_list]
    intro v hv
    refine ⟨ih v hv fun nodes hn => h nodes (.deeper hv hn),?_⟩
    rcases list_or_node v with ⟨nodes,rfl⟩ | ⟨_,hnode⟩
    · exact leadsWithComma_list.2 (h nodes (.here hv))
    · exact (isSpaced_of_node hnode).2

/-- A value is spaced if no list inside it begins with a comma. -/
theorem isSpaced_iff_inside {v : Value} : v.isSpaced = true ↔
    ∀ nodes, Inside nodes v → (list nodes).flatten.head? ≠ some (operator ",") := by
  constructor
  · intro h nodes hn
    induction hn with
    | here hmem => exact leadsWithComma_list.1 (isSpaced_list.1 h _ hmem).2
    | deeper hv _ ih => exact ih (isSpaced_list.1 h _ hv).1
  · exact isSpaced_of_inside v

/-- The text of a value does not depend on how its lists are nested, if no list inside another one begins
with a comma: it is that of the list of its nodes, and if the one has none the other has none either, for
the same reason. -/
theorem generate_eq_generate_nodes {v : Value}
    (h : ∀ nodes, Inside nodes v → (list nodes).flatten.head? ≠ some (operator ",")) :
    v.generate = (list v.flatten).generate :=
  (generate_list_flatten (isSpaced_iff_inside.2 h)).symm

/-- Lists inside lists, one of them empty and one between commas. -/
theorem generate_eq_generate_nodes_commas :
    (∀ nodes, Inside nodes (list [list [ident "a",empty],operator ",",
        list [list [number "1"],operator ","],function "f" [list [operator ","]]]) →
      (list nodes).flatten.head? ≠ some (operator ",")) ∧
    (list [list [ident "a",empty],operator ",",
      list [list [number "1"],operator ","],function "f" [list [operator ","]]]).generate =
    (list [ident "a",operator ",",number "1",operator ",",
      function "f" [list [operator ","]]]).generate := by
  have hspaced : (list [list [ident "a",empty],operator ",",
    list [list [number "1"],operator ","],function "f" [list [operator ","]]]).isSpaced = true := rfl
  exact ⟨isSpaced_iff_inside.1 hspaced,generate_eq_generate_nodes (isSpaced_iff_inside.1 hspaced)⟩

-- A list that begins with a comma has a space before it.
example : (list [ident "a",list [operator ",",ident "b"]]).generate = .ok "a , b" := rfl

end StyleExpansion.Value
