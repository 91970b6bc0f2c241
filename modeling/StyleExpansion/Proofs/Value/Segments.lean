import StyleExpansion.Value.Segments

/-! # Nodes and segments

The nodes of a value are no lists, so values made of some of them have these as their nodes. Splitting
at an operator takes off one run after the other, and joining puts an operator before all but the first.
-/
namespace StyleExpansion.Value

def AreNodes (vs : List Value) : Prop := ∀ v ∈ vs, v.flatten = [v]

theorem flatten_areNodes (v : Value) : AreNodes v.flatten := by
  induction v using list_induction with
  | node v hlist hnode =>
    rw [hnode]
    exact fun w hw => List.mem_singleton.1 hw ▸ hnode
  | lists vs ih =>
    rw [flatten_list,flattenAll_eq_flatMap]
    intro w hw
    obtain ⟨v,hv,hw⟩ := List.mem_flatMap.1 hw
    exact ih v hv w hw

theorem AreNodes.mono {vs ws : List Value} (h : AreNodes vs) (hw : ws ⊆ vs) : AreNodes ws :=
  fun w hm => h w (hw hm)

theorem AreNodes.flattenAll {vs : List Value} (h : AreNodes vs) : flattenAll vs = vs := by
  induction vs with
  | nil => rfl
  | cons v vs ih =>
    rw [Value.flattenAll,h v List.mem_cons_self,ih (h.mono (List.subset_cons_self v vs))]
    rfl

theorem AreNodes.flatten_ofNodes {vs : List Value} (h : AreNodes vs) : (ofNodes vs).flatten = vs := by
  rw [Value.flatten_ofNodes,h.flattenAll]

theorem AreNodes.flatten_list {vs : List Value} (h : AreNodes vs) : (list vs).flatten = vs := by
  rw [Value.flatten_list,h.flattenAll]

/-! ## Splitting -/

section Runs
variable {symbol : String}

theorem runs_of_free {vs : List Value} (h : ∀ v ∈ vs, v.isOperator symbol = false) :
    runs symbol vs = [vs] := by
  induction vs with
  | nil => rfl
  | cons v vs ih =>
    rw [runs,h v List.mem_cons_self,ih fun w hw => h w (List.mem_cons_of_mem _ hw)]
    rfl

/-- An operator ends a run, and the runs before it do not depend on what follows. -/
theorem runs_operator (vs rest : List Value) :
    runs symbol (vs ++ operator symbol :: rest) = runs symbol vs ++ runs symbol rest := by
  induction vs with
  | nil => simp [runs,isOperator]
  | cons v vs ih =>
    rw [List.cons_append,runs,runs,ih]
    split
    · rfl
    · cases h : runs symbol vs with
      | nil => exact absurd h (runs_ne_nil symbol vs)
      | cons r rs => rfl

theorem runs_append {vs : List Value} (h : ∀ v ∈ vs, v.isOperator symbol = false)
    (rest : List Value) : runs symbol (vs ++ operator symbol :: rest) = vs :: runs symbol rest := by
  rw [runs_operator,runs_of_free h]
  rfl

/-- Splitting at an operator undoes putting it between rows. -/
theorem runs_intercalate {rows : List (List Value)} (hne : rows ≠ [])
    (h : ∀ r ∈ rows, ∀ v ∈ r, v.isOperator symbol = false) :
    runs symbol ([operator symbol].intercalate rows) = rows := by
  induction rows with
  | nil => exact absurd rfl hne
  | cons r rows ih =>
    obtain ⟨hr,hrest⟩ := List.forall_mem_cons.1 h
    cases rows with
    | nil => simpa [List.intercalate] using runs_of_free hr
    | cons s rows =>
      rw [List.intercalate_cons_cons,List.append_assoc,List.singleton_append,runs_append hr,
        ih (by simp) hrest]

theorem free_of_mem_runs {vs r : List Value} (hr : r ∈ runs symbol vs) :
    ∀ v ∈ r, v.isOperator symbol = false := by
  induction vs generalizing r with
  | nil =>
    rw [runs,List.mem_singleton] at hr
    simp [hr]
  | cons w vs ih =>
    rw [runs] at hr
    split at hr
    · rcases List.mem_cons.1 hr with rfl | hr
      · simp
      · exact ih hr
    · next hw =>
      rw [Bool.not_eq_true] at hw
      cases he : runs symbol vs with
      | nil => exact absurd he (runs_ne_nil symbol vs)
      | cons first rest =>
        rw [he] at hr ih
        rcases List.mem_cons.1 hr with rfl | hr
        · exact List.forall_mem_cons.2 ⟨hw,ih List.mem_cons_self⟩
        · exact ih (List.mem_cons_of_mem _ hr)

theorem mem_of_mem_runs {vs r : List Value} (hr : r ∈ runs symbol vs) : r ⊆ vs := by
  induction vs generalizing r with
  | nil =>
    rw [runs,List.mem_singleton] at hr
    exact hr ▸ List.Subset.refl _
  | cons v vs ih =>
    rw [runs] at hr
    split at hr
    · rcases List.mem_cons.1 hr with rfl | hr
      · exact List.nil_subset _
      · exact List.Subset.trans (ih hr) (List.subset_cons_self v vs)
    · split at hr
      · next first rest he =>
        rw [he] at ih
        rcases List.mem_cons.1 hr with rfl | hr
        · exact List.cons_subset_cons v (ih List.mem_cons_self)
        · exact List.Subset.trans (ih (List.mem_cons_of_mem _ hr)) (List.subset_cons_self v vs)
      · rw [List.mem_singleton] at hr
        rw [hr]
        exact List.cons_subset_cons v (List.nil_subset _)

theorem exists_mem_runs {vs : List Value} {v : Value} (hv : v ∈ vs)
    (h : v.isOperator symbol = false) : ∃ r ∈ runs symbol vs, v ∈ r := by
  induction vs with
  | nil => cases hv
  | cons w vs ih =>
    rw [runs]
    rcases List.mem_cons.1 hv with rfl | hv
    · rw [if_neg (by simp [h])]
      split
      · exact ⟨_,List.mem_cons_self,List.mem_cons_self⟩
      · exact ⟨_,List.mem_cons_self,List.mem_cons_self⟩
    · obtain ⟨r,hr,hm⟩ := ih hv
      split
      · exact ⟨r,List.mem_cons_of_mem _ hr,hm⟩
      · split
        · next first rest he =>
          rw [he] at hr
          rcases List.mem_cons.1 hr with rfl | hr
          · exact ⟨_,List.mem_cons_self,List.mem_cons_of_mem _ hm⟩
          · exact ⟨r,List.mem_cons_of_mem _ hr,hm⟩
        · next he => exact absurd he (runs_ne_nil symbol vs)

theorem flatten_of_mem_runs {v : Value} {r : List Value} (hr : r ∈ runs symbol v.flatten) :
    (list r).flatten = r := ((flatten_areNodes v).mono (mem_of_mem_runs hr)).flatten_list

theorem segments_of_runs {v : Value} (h : ∀ r ∈ runs symbol v.flatten, r ≠ []) :
    v.segments symbol = (runs symbol v.flatten).map list := by
  apply List.filter_eq_self.2
  intro s hs
  obtain ⟨r,hr,rfl⟩ := List.mem_map.1 hs
  rw [Bool.not_eq_true',← Bool.not_eq_true,isEmpty_iff,flatten_of_mem_runs hr]
  exact h r hr

theorem flatten_of_mem_segments {v s : Value} (h : s ∈ v.segments symbol) :
    s.flatten ≠ [] ∧ s.flatten ⊆ v.flatten := by
  obtain ⟨hm,he⟩ := List.mem_filter.1 h
  obtain ⟨r,hr,rfl⟩ := List.mem_map.1 hm
  refine ⟨?_,by rw [flatten_of_mem_runs hr]; exact mem_of_mem_runs hr⟩
  rw [Bool.not_eq_true',← Bool.not_eq_true,isEmpty_iff] at he
  exact he

theorem free_of_mem_segments {v s : Value} (h : s ∈ v.segments symbol) :
    ∀ n ∈ s.flatten, n.isOperator symbol = false := by
  obtain ⟨r,hr,rfl⟩ := List.mem_map.1 (List.mem_filter.1 h).1
  rw [flatten_of_mem_runs hr]
  exact free_of_mem_runs hr

theorem flatten_of_list_mem_segments {v : Value} {r : List Value} (h : list r ∈ v.segments symbol) :
    (list r).flatten = r := by
  obtain ⟨s,hs,he⟩ := List.mem_map.1 (List.mem_filter.1 h).1
  cases he
  exact flatten_of_mem_runs hs

/-- The segments of a value that is two values with an operator between them. -/
theorem segments_append {v a b : Value}
    (h : v.flatten = a.flatten ++ operator symbol :: b.flatten) :
    v.segments symbol = a.segments symbol ++ b.segments symbol := by
  rw [segments,allSegments,h,runs_operator,List.map_append,List.filter_append]
  rfl

theorem segments_ne_nil {v n : Value} (hn : n ∈ v.flatten) (h : n.isOperator symbol = false) :
    v.segments symbol ≠ [] := by
  obtain ⟨r,hr,hm⟩ := exists_mem_runs hn h
  refine List.ne_nil_of_mem (List.mem_filter.2 ⟨List.mem_map_of_mem hr,?_⟩)
  rw [Bool.not_eq_true',← Bool.not_eq_true,isEmpty_iff,flatten_of_mem_runs hr]
  exact List.ne_nil_of_mem hm

end Runs

/-! ## Joining -/

theorem interleave_cons (symbol : String) (v : Value) (vs : List Value) :
    interleave symbol (v :: vs) = v :: vs.flatMap fun w => [operator symbol,w] := by
  induction vs generalizing v with
  | nil => rfl
  | cons w vs ih =>
    rw [interleave,ih]
    rfl

/-- The nodes of joined values: an operator stands before those of each value but the first. -/
theorem flatten_join (symbol : String) (v : Value) (vs : List Value) :
    (join symbol (v :: vs)).flatten =
      v.flatten ++ (vs.map flatten).flatMap fun r => operator symbol :: r := by
  rw [join,flatten_list,interleave_cons,flattenAll]
  congr 1
  induction vs with
  | nil => rfl
  | cons w vs ih =>
    rw [List.flatMap_cons,List.cons_append,List.singleton_append,flattenAll,flattenAll,ih]
    rfl

theorem flatten_join_append {symbol : String} {vs ws : List Value} (hv : vs ≠ []) (hw : ws ≠ []) :
    (join symbol (vs ++ ws)).flatten =
      (join symbol vs).flatten ++ operator symbol :: (join symbol ws).flatten := by
  obtain ⟨v,vs,rfl⟩ := List.exists_cons_of_ne_nil hv
  obtain ⟨w,ws,rfl⟩ := List.exists_cons_of_ne_nil hw
  rw [List.cons_append,flatten_join,flatten_join,flatten_join]
  simp [List.flatMap_append]

theorem flatten_join_eq (symbol : String) (vs : List Value) :
    (join symbol vs).flatten = [operator symbol].intercalate (vs.map flatten) := by
  induction vs with
  | nil => rfl
  | cons v vs ih =>
    cases vs with
    | nil => simp [flatten_join,List.intercalate]
    | cons w ws =>
      rw [← List.singleton_append,flatten_join_append (by simp) (by simp),ih,List.map_append,List.map_cons,
        List.map_cons,List.map_nil,List.singleton_append,List.intercalate_cons_cons,flatten_join]
      simp

theorem runs_join {symbol : String} {vs : List Value} (hv : vs ≠ [])
    (h : ∀ v ∈ vs, ∀ n ∈ v.flatten, n.isOperator symbol = false) :
    runs symbol (join symbol vs).flatten = vs.map flatten := by
  rw [flatten_join_eq]
  refine runs_intercalate (by simpa using hv) ?_
  intro r hr
  obtain ⟨v,hmem,rfl⟩ := List.mem_map.1 hr
  exact h v hmem

/-! ## Splitting and joining -/

/-- Putting the operator between the runs of some nodes gives these nodes back. -/
theorem intercalate_runs (symbol : String) (vs : List Value) :
    [operator symbol].intercalate (runs symbol vs) = vs := by
  induction vs with
  | nil => simp [runs,List.intercalate]
  | cons v vs ih =>
    obtain ⟨r,rs,hruns⟩ := List.exists_cons_of_ne_nil (runs_ne_nil symbol vs)
    rw [runs]
    split
    · next hv =>
      rw [isOperator_iff.1 hv,hruns,List.intercalate_cons_cons,← hruns,ih]
      rfl
    · rw [hruns] at ih ⊢
      cases rs with
      | nil => simpa [List.intercalate] using ih
      | cons s rs =>
        rw [List.intercalate_cons_cons] at ih ⊢
        rw [List.cons_append,List.cons_append,ih]

theorem map_flatten_allSegments (symbol : String) (v : Value) :
    (v.allSegments symbol).map flatten = runs symbol v.flatten := by
  rw [allSegments,List.map_map]
  exact (List.map_congr_left fun r hr => flatten_of_mem_runs hr).trans (List.map_id _)

theorem map_flatten_segments (symbol : String) (v : Value) : (v.segments symbol).map flatten =
    ((v.allSegments symbol).map flatten).filter fun r => !r.isEmpty := by
  have hempty : ∀ s : Value, s.isEmpty = s.flatten.isEmpty := by
    intro s
    rw [Bool.eq_iff_iff,isEmpty_iff,List.isEmpty_iff]
  rw [segments,List.filter_map]
  exact congrArg _ (List.filter_congr fun s _ => congrArg _ (hempty s))

/-- Splitting and joining are inverse: joining the segments of a value gives its nodes, and values without
the operator are the segments of what they are joined to, one for each. The empty ones among them are left
out where only the segments that are not empty count. -/
theorem segments_join_inverse (symbol : String) :
    (∀ v : Value, (join symbol (v.allSegments symbol)).flatten = v.flatten) ∧
    ∀ vs : List Value, (∀ v ∈ vs, operator symbol ∉ v.flatten) →
      (vs ≠ [] → ((join symbol vs).allSegments symbol).map flatten = vs.map flatten) ∧
      (join symbol vs).segments symbol =
        ((join symbol vs).allSegments symbol).filter (fun s => !s.isEmpty) ∧
      ((join symbol vs).segments symbol).map flatten =
        (vs.map flatten).filter fun r => !r.isEmpty := by
  constructor
  · intro v
    rw [flatten_join_eq,map_flatten_allSegments,intercalate_runs]
  · intro vs h
    have hfree : ∀ v ∈ vs, ∀ n ∈ v.flatten, n.isOperator symbol = false := by
      intro v hv n hn
      rw [Bool.eq_false_iff,ne_eq,isOperator_iff]
      rintro rfl
      exact h v hv hn
    have hall : vs ≠ [] → ((join symbol vs).allSegments symbol).map flatten = vs.map flatten :=
      fun hne => (map_flatten_allSegments symbol _).trans (runs_join hne hfree)
    refine ⟨hall,rfl,?_⟩
    rw [map_flatten_segments]
    by_cases hne : vs = []
    · rw [hne]
      rfl
    · rw [hall hne]

/-- Three values, one of them nested and one empty, are joined with slashes and split again. -/
theorem segments_join_inverse_slash :
    (∀ v ∈ [list [ident "a",list [operator ","]],empty,number "1"],
      operator "/" ∉ v.flatten) ∧
    ((join "/" [list [ident "a",list [operator ","]],empty,number "1"]).segments "/").map flatten =
      [[ident "a",operator ","],[number "1"]] := by
  have hfree : ∀ v ∈ [list [ident "a",list [operator ","]],empty,number "1"],
      operator "/" ∉ v.flatten := by
    simp [empty,flatten,flattenAll]
  exact ⟨hfree,((segments_join_inverse "/").2 _ hfree).2.2⟩

end StyleExpansion.Value
