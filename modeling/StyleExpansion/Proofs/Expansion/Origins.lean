import StyleExpansion.Proofs.Expansion.Names
import StyleExpansion.Proofs.Matching

/-! # Where the nodes of an expansion come from

A shorthand makes no nodes of its own: it gives its longhands nodes of its value, written-out defaults,
and commas where it joins layers. One level of expansion after the other keeps to these.
-/
namespace StyleExpansion
open Value

def defaultNames : List String :=
  ["unset","initial","auto","none","normal","medium","currentcolor","all","ease","running","repeat",
   "border-box","padding-box","scroll","add","match-source","center","transparent","block","row",
   "column","dense","start","collapse","preserve","preserve-breaks","wrap","nowrap","solid",
   "outside","disc"]

def defaults : List Value :=
  defaultNames.map ident ++ [number "0",number "1",percentage "0",dimension "0" "s"]

/-- All nodes that an expansion may hold beside those of the value. -/
def literals : List Value := operator "," :: defaults

def Drawn (ds vs : List Value) (w : Value) : Prop := ∀ n ∈ w.flatten, n ∈ vs ∨ n ∈ ds

def AllDrawn (ds vs ws : List Value) : Prop := ∀ w ∈ ws, Drawn ds vs w

section Drawn
variable {ds vs : List Value}

theorem AllDrawn.nil : AllDrawn ds vs [] := by
  intro w hw
  cases hw

theorem AllDrawn.cons {w : Value} {ws : List Value} (h : Drawn ds vs w) (hs : AllDrawn ds vs ws) :
    AllDrawn ds vs (w :: ws) := List.forall_mem_cons.2 ⟨h,hs⟩

theorem AllDrawn.append {us ws : List Value} (h : AllDrawn ds vs us) (hs : AllDrawn ds vs ws) :
    AllDrawn ds vs (us ++ ws) := List.forall_mem_append.2 ⟨h,hs⟩

theorem Drawn.mono {ds' vs' : List Value} {w : Value} (h : Drawn ds vs w) (hv : vs ⊆ vs')
    (hd : ds ⊆ ds') : Drawn ds' vs' w := fun n hn => (h n hn).imp (@hv n) (@hd n)

/-- What is drawn from a drawn value is drawn from where that is. -/
theorem Drawn.trans {w x : Value} (h : Drawn ds w.flatten x) (hw : Drawn ds vs w) :
    Drawn ds vs x := fun n hn => (h n hn).elim (hw n) Or.inr

theorem drawn_of_subset {w : Value} (h : w.flatten ⊆ vs) : Drawn ds vs w := fun _ hn => Or.inl (h hn)

theorem drawn_self (v : Value) : Drawn ds v.flatten v := drawn_of_subset (List.Subset.refl _)

theorem drawn_empty : Drawn ds vs empty := by
  intro n hn
  rw [empty,flatten,flattenAll] at hn
  cases hn

theorem drawn_list {ws : List Value} (h : AllDrawn ds vs ws) : Drawn ds vs (list ws) := by
  intro n hn
  rw [flatten_list,flattenAll_eq_flatMap] at hn
  obtain ⟨w,hw,hn⟩ := List.mem_flatMap.1 hn
  exact h w hw n hn

theorem drawn_ofNodes {ws : List Value} (h : AllDrawn ds vs ws) : Drawn ds vs (ofNodes ws) := by
  intro n hn
  rw [flatten_ofNodes,← flatten_list] at hn
  exact drawn_list h n hn

theorem drawn_ofNodesOr {ws : List Value} {d : Value} (h : AllDrawn ds vs ws) (hd : Drawn ds vs d) :
    Drawn ds vs (ofNodesOr ws d) := by
  unfold ofNodesOr
  split
  · exact hd
  · exact drawn_ofNodes h

theorem drawn_getD {o : Option Value} {d : Value} (h : ∀ w, o = some w → Drawn ds vs w)
    (hd : Drawn ds vs d) : Drawn ds vs (o.getD d) := by
  cases o with
  | none => exact hd
  | some w => exact h w rfl

theorem drawn_presentOr {ws : List Value} {d : Value} (h : AllDrawn ds vs ws) (hd : Drawn ds vs d)
    (i : Nat) : Drawn ds vs (presentOr ws i d) := by
  apply drawn_getD _ hd
  intro w hw
  exact h w (List.mem_of_getElem? (Option.filter_eq_some_iff.1 hw).1)

theorem allDrawn_of_nodes {v : Value} {ws : List Value} (h : ws ⊆ v.flatten) :
    AllDrawn ds v.flatten ws := by
  intro w hw
  apply drawn_of_subset
  rw [flatten_areNodes v w (h hw)]
  exact List.cons_subset.2 ⟨h hw,List.nil_subset _⟩

theorem drawn_nodeOr {v d : Value} (hd : Drawn ds v.flatten d) (i : Nat) :
    Drawn ds v.flatten (v.nodeOr i d) := by
  rw [nodeOr,List.getD_eq_getElem?_getD]
  apply drawn_getD _ hd
  intro w hw
  exact allDrawn_of_nodes (List.Subset.refl _) w (List.mem_of_getElem? hw)

theorem allSegments_drawn (v : Value) (symbol : String) :
    AllDrawn ds v.flatten (v.allSegments symbol) := by
  intro s hs
  obtain ⟨r,hr,rfl⟩ := List.mem_map.1 hs
  apply drawn_of_subset
  rw [flatten_of_mem_runs hr]
  exact mem_of_mem_runs hr

theorem segments_drawn (v : Value) (symbol : String) :
    AllDrawn ds v.flatten (v.segments symbol) :=
  fun s hs => allSegments_drawn v symbol s (List.mem_of_mem_filter hs)

theorem share_drawn {tests : List (List Value → Bool)} {v w : Value} {i : Nat}
    (h : (v.shareBy tests).get? i = some w) : Drawn ds v.flatten w := by
  obtain ⟨_,_,_,_,hs⟩ := shareBy_passes h
  exact drawn_of_subset hs

theorem drawn_get {tests : List (List Value → Bool)} {v d : Value} (hd : Drawn ds v.flatten d)
    (i : Nat) : Drawn ds v.flatten ((v.shareBy tests).get i d) :=
  drawn_getD (o := (v.shareBy tests).get? i) (fun _ hw => share_drawn hw) hd

theorem drawn_default {d : Value} (h : d ∈ defaults) : Drawn defaults vs d := by
  have hnode : d.flatten = [d] := by
    rcases List.mem_append.1 h with h | h
    · obtain ⟨name,_,rfl⟩ := List.mem_map.1 h
      simp [flatten]
    · simp only [List.mem_cons,List.not_mem_nil,or_false] at h
      rcases h with rfl | rfl | rfl | rfl <;> simp [flatten]
  intro n hn
  rw [hnode,List.mem_singleton] at hn
  exact Or.inr (hn ▸ h)

theorem drawn_ident {name : String} (h : name ∈ defaultNames) : Drawn defaults vs (ident name) :=
  drawn_default (List.mem_append_left _ (List.mem_map_of_mem h))

/-- The share of an alternative, or an identifier for what is left out. -/
theorem get_drawn {tests : List (List Value → Bool)} {v : Value} {name : String}
    (h : name ∈ defaultNames) (i : Nat) :
    Drawn defaults v.flatten ((v.shareBy tests).get i (ident name)) := drawn_get (drawn_ident h) i

theorem AllDrawn.literal {ws : List Value} (h : AllDrawn defaults vs ws) : AllDrawn literals vs ws :=
  fun w hw => (h w hw).mono (List.Subset.refl _) (List.subset_cons_self _ _)

end Drawn

def Draws {n : Nat} (ds : List Value) (read : Value → Vector Value n) : Prop :=
  ∀ v : Value, AllDrawn ds v.flatten (read v).toList

theorem Draws.literal {n : Nat} {read : Value → Vector Value n} (h : Draws defaults read) :
    Draws literals read := fun v => (h v).literal

theorem mem_flatten_join {symbol : String} {vs : List Value} {n : Value}
    (h : n ∈ (join symbol vs).flatten) : n = operator symbol ∨ ∃ w ∈ vs, n ∈ w.flatten := by
  cases vs with
  | nil =>
    rw [join,interleave,flatten,flattenAll] at h
    cases h
  | cons v vs =>
    rw [flatten_join,List.mem_append] at h
    rcases h with h | h
    · exact Or.inr ⟨v,List.mem_cons_self,h⟩
    · obtain ⟨r,hr,hn⟩ := List.mem_flatMap.1 h
      obtain ⟨w,hw,rfl⟩ := List.mem_map.1 hr
      rcases List.mem_cons.1 hn with rfl | hn
      · exact Or.inl rfl
      · exact Or.inr ⟨w,List.mem_cons_of_mem _ hw,hn⟩

/-- Reading layer by layer adds nothing but the commas between the layers. -/
theorem Draws.layered {n : Nat} {read : Value → Vector Value n} (h : Draws defaults read) :
    Draws literals fun v => v.layered read := by
  intro v w hw m hm
  obtain ⟨i,hi,rfl⟩ := List.getElem_of_mem hw
  simp only [Value.layered,Vector.getElem_toList,Vector.getElem_ofFn] at hm
  rcases mem_flatten_join hm with rfl | ⟨x,hx,hm⟩
  · exact Or.inr List.mem_cons_self
  · obtain ⟨row,hrow,rfl⟩ := List.mem_map.1 hx
    obtain ⟨layer,hl,rfl⟩ := List.mem_map.1 hrow
    have hx := h layer _ (Vector.mem_toList_iff.2 (Vector.getElem_mem (by simpa using hi)))
    exact (hx.mono (flatten_of_mem_segments hl).2 (List.subset_cons_self _ _)) m hm

end StyleExpansion
