import Mathlib
import StyleExpansion.Expander
import StyleExpansion.Proofs.Token.Sealed
import StyleExpansion.Proofs.Value.Segments

/-! # What a value is read from

White space, comments and the text of the tokens mean nothing to a value. They can be taken away from the
components of a text, or from its tokens before these are put into blocks: the components are the same.
So a value depends only on the tokens of its text that mean something.
-/
namespace StyleExpansion

namespace Component

mutual
def bare : Component → Option Component
  | plain t _ => if t.isSkipped then none else some (plain t [])
  | block kind _ contents closed => some (block kind [] (bareOf contents) closed)
def bareOf : List Component → List Component
  | [] => []
  | c :: cs =>
    match c.bare with
    | none => bareOf cs
    | some b => b :: bareOf cs
end

theorem bareOf_eq (cs : List Component) : bareOf cs = cs.filterMap bare := by
  induction cs with
  | nil => rfl
  | cons c cs ih =>
    rw [bareOf,List.filterMap_cons,ih]
    cases c.bare <;> rfl

end Component

namespace Nesting
open Component

def bare (n : Nesting) : Nesting :=
  ⟨n.frames.map fun f => ⟨f.kind,[],f.contents.filterMap Component.bare⟩,
    n.outermost.filterMap Component.bare⟩

theorem bare_add_none (n : Nesting) {c : Component} (h : c.bare = none) : (n.add c).bare = n.bare := by
  obtain ⟨frames,outermost⟩ := n
  cases frames <;> simp [add,bare,h]

theorem bare_add_some (n : Nesting) {c b : Component} (h : c.bare = some b) :
    (n.add c).bare = n.bare.add b := by
  obtain ⟨frames,outermost⟩ := n
  cases frames <;> simp [add,bare,h]

theorem bare_close (n : Nesting) (closed : Bool) : (n.close closed).bare = n.bare.close closed := by
  obtain ⟨frames,outermost⟩ := n
  cases frames with
  | nil => rfl
  | cons f fs =>
    have hblock : (block f.kind f.source f.contents.reverse closed).bare =
        some (block f.kind [] (f.contents.filterMap Component.bare).reverse closed) := by
      rw [Component.bare,bareOf_eq,List.filterMap_reverse]
    exact bare_add_some ⟨fs,outermost⟩ hblock

theorem bare_push_skipped (n : Nesting) {x : Lexeme} (h : x.token.isSkipped = true) :
    (n.push x).bare = n.bare := by
  obtain ⟨token,source⟩ := x
  cases token with
  | space => exact bare_add_none n rfl
  | comment => exact bare_add_none n rfl
  | _ => cases h

theorem bare_push (n : Nesting) {x : Lexeme} (h : x.token.isSkipped = false) :
    (n.push x).bare = n.bare.push ⟨x.token,[]⟩ := by
  have hplain : (plain x.token x.source).bare = some (plain x.token []) := by simp [Component.bare,h]
  have hends : ∀ b, n.bare.endsInnermost b = n.endsInnermost b := by
    intro b
    obtain ⟨frames,outermost⟩ := n
    cases frames <;> rfl
  obtain ⟨token,source⟩ := x
  cases token with
  | opening kind => rfl
  | closing b =>
    simp only [push,hends]
    split
    · exact bare_close n true
    · exact bare_add_some n hplain
  | _ => exact bare_add_some n hplain

theorem bare_foldl_push (xs : List Lexeme) (n : Nesting) :
    (xs.foldl push n).bare = (((xs.map Lexeme.token).filter fun t => !t.isSkipped).map
      fun t => ⟨t,[]⟩).foldl push n.bare := by
  induction xs generalizing n with
  | nil => rfl
  | cons x xs ih =>
    rw [List.foldl_cons,ih,List.map_cons]
    cases h : x.token.isSkipped with
    | true => rw [bare_push_skipped n h,List.filter_cons_of_neg (by simp [h])]
    | false => rw [bare_push n h,List.filter_cons_of_pos (by simp [h]),List.map_cons,List.foldl_cons]

theorem bare_components (n : Nesting) : bareOf n.components = n.bare.components := by
  have hclose : ∀ (fs : List Frame) (m : Nesting),
      (fs.foldl (fun m _ => m.close false) m).bare =
        (fs.map fun f => (⟨f.kind,[],f.contents.filterMap Component.bare⟩ : Frame)).foldl
          (fun m _ => m.close false) m.bare := by
    intro fs
    induction fs with
    | nil => intro m; rfl
    | cons f fs ih => intro m; rw [List.foldl_cons,ih,bare_close,List.map_cons,List.foldl_cons]
  have hall := congrArg Nesting.outermost (hclose n.frames n)
  rw [bareOf_eq,components,List.filterMap_reverse]
  exact congrArg List.reverse hall

end Nesting

/-- Bare components are those of the tokens that mean something. -/
theorem Component.bareOf_parse (s : List Char) :
    bareOf (parse s) = ofLexemes ((meaningfulTokens s).map fun t => ⟨t,[]⟩) := by
  rw [parse,ofLexemes,Nesting.bare_components,Nesting.bare_foldl_push]
  rfl

namespace Value
open Component

theorem mapError_map_toOption {ε ε' α β : Type} (r : Except ε α) (f : ε → ε') (g : α → β) :
    ((r.mapError f).map g).toOption = r.toOption.map g := by
  cases r <;> rfl

theorem map_toOption {ε α β : Type} (r : Except ε α) (g : α → β) :
    (r.map g).toOption = r.toOption.map g := by
  cases r <;> rfl

theorem map_eq_ok {ε α β : Type} {r : Except ε α} {g : α → β} {b : β} :
    r.map g = .ok b ↔ ∃ a, r = .ok a ∧ g a = b := by
  cases r <;> simp [Except.map]

theorem mapError_eq_ok {ε ε' α : Type} {r : Except ε α} {f : ε → ε'} {a : α} :
    r.mapError f = .ok a ↔ r = .ok a := by
  cases r <;> simp [Except.mapError]

theorem readComponents_cons (c : Component) (cs : List Component) :
    (readComponents (c :: cs)).toOption = (readComponent c).toOption.bind fun o =>
      match o with
      | none => (readComponents cs).toOption
      | some v => (readComponents cs).toOption.map (v :: ·) := by
  rw [readComponents]
  rcases readComponent c with m | _ | v
  · rfl
  · rfl
  · exact map_toOption _ _

theorem readComponent_of_isSkipped {c : Component} (h : c.isSkipped = true) :
    readComponent c = .ok none := by
  cases c with
  | plain t source =>
    have ht : t.isSkipped = true := h
    rw [readComponent,if_pos ht]
  | block => cases h

theorem readComponents_cons_eq_ok {c : Component} {cs : List Component} {vs : List Value} :
    readComponents (c :: cs) = .ok vs ↔
      ∃ o us, readComponent c = .ok o ∧ readComponents cs = .ok us ∧ vs = o.toList ++ us := by
  rw [readComponents]
  rcases readComponent c with m | _ | v
  · exact ⟨nofun,nofun⟩
  · cases readComponents cs with
    | error m => exact ⟨nofun,nofun⟩
    | ok us => simp [eq_comm]
  · cases readComponents cs with
    | error m => exact ⟨nofun,nofun⟩
    | ok us => simp [Except.map,eq_comm]

mutual
theorem readComponent_bare (c : Component) : (readComponent c).toOption =
    match c.bare with
    | none => some none
    | some b => (readComponent b).toOption := by
  cases c with
  | plain t source =>
    cases h : t.isSkipped with
    | true => simp [readComponent,bare,h,Except.toOption]
    | false => simp [readComponent,bare,h]
  | block kind source contents closed =>
    have hcontents := readComponents_bare contents
    rw [bare]
    cases kind with
    | bracket b =>
      cases b with
      | curly => rfl
      | _ => simp only [readComponent,mapError_map_toOption,hcontents]
    | function name => simp only [readComponent,mapError_map_toOption,hcontents]
theorem readComponents_bare (cs : List Component) :
    (readComponents cs).toOption = (readComponents (bareOf cs)).toOption := by
  cases cs with
  | nil => rfl
  | cons c cs =>
    have hc := readComponent_bare c
    have hcs := readComponents_bare cs
    rw [readComponents_cons,hc,hcs,bareOf]
    cases c.bare with
    | none => rfl
    | some b => rw [readComponents_cons]
end

/-- Whether a text is a value, and which one, depends on its tokens that mean something. -/
theorem read_congr {v w : String} (h : meaningfulTokens v.toList = meaningfulTokens w.toList) :
    (read v).toOption = (read w).toOption := by
  rw [read,read,map_toOption,map_toOption,readComponents_bare,readComponents_bare (ofText w),ofText,
    ofText,bareOf_parse,bareOf_parse,h]

/-! ## Nodes only -/

theorem ofCall_eq (name : String) (nodes : List Value) :
    (∃ text, ofCall name nodes = url text) ∨ ofCall name nodes = function name nodes := by
  unfold ofCall
  split
  · split
    · exact Or.inl ⟨_,rfl⟩
    · exact Or.inr rfl
  · exact Or.inr rfl

theorem ofCall_node (name : String) (arguments : List Value) :
    (ofCall name arguments).flatten = [ofCall name arguments] := by
  rcases ofCall_eq name arguments with ⟨_,h⟩ | h <;> rw [h] <;> simp [flatten]

/-- What a component that can stand in a value is: white space or a comment, which give no node, a token
with a node of its own, or a block. -/
theorem readComponent_cases {c : Component} {o : Option Value} (h : readComponent c = .ok o) :
    c.isSkipped = true ∧ o = none ∨
      (∃ t source v, c = .plain t source ∧ ofToken? t = some v ∧ o = some v) ∨
      ∃ nodes, o = some (parens nodes) ∨ o = some (brackets nodes) ∨
        ∃ name, o = some (ofCall name nodes) := by
  cases c with
  | plain t source =>
    rw [readComponent] at h
    split at h
    · next hs =>
      cases h
      exact Or.inl ⟨hs,rfl⟩
    · split at h
      · next v hv =>
        cases h
        exact Or.inr (Or.inl ⟨t,source,v,rfl,hv,rfl⟩)
      · cases h
  | block kind source contents closed =>
    rcases kind with name | (_ | _ | _) <;> rw [readComponent] at h
    · obtain ⟨nodes,_,hv⟩ := map_eq_ok.1 h
      exact Or.inr (Or.inr ⟨nodes,Or.inr (Or.inr ⟨name,hv.symm⟩)⟩)
    · obtain ⟨nodes,_,hv⟩ := map_eq_ok.1 h
      exact Or.inr (Or.inr ⟨nodes,Or.inl hv.symm⟩)
    · obtain ⟨nodes,_,hv⟩ := map_eq_ok.1 h
      exact Or.inr (Or.inr ⟨nodes,Or.inr (Or.inl hv.symm)⟩)
    · cases h

theorem node_of_readComponent {c : Component} {v : Value} (h : readComponent c = .ok (some v)) :
    v.flatten = [v] := by
  rcases readComponent_cases h with ⟨_,hv⟩ | ⟨t,_,w,_,hw,hv⟩ | ⟨nodes,hv | hv | ⟨name,hv⟩⟩
  · cases hv
  · cases hv
    cases t <;> cases hw <;> simp [flatten]
  · cases hv
    simp [flatten]
  · cases hv
    simp [flatten]
  · cases hv
    exact ofCall_node name nodes

theorem areNodes_of_readComponents {cs : List Component} {vs : List Value}
    (h : readComponents cs = .ok vs) : AreNodes vs := by
  induction cs generalizing vs with
  | nil =>
    cases h
    exact nofun
  | cons c cs ih =>
    obtain ⟨o,us,ho,hus,rfl⟩ := readComponents_cons_eq_ok.1 h
    refine List.forall_mem_append.2 ⟨?_,ih hus⟩
    intro v hv
    exact node_of_readComponent (ho.trans (congrArg _ (Option.mem_toList.1 hv)))

end Value

end StyleExpansion
