import StyleExpansion.Proofs.Pattern.Substitutions
import StyleExpansion.Proofs.Pattern.Words

/-! # Arguments of any kind

Some functions take any nodes as their arguments. The type that stands for them takes a substitution in
front of the nodes as a type always does, that is alone, so the arguments are any nodes that do not begin
with a substitution and go on behind it. This is so for every function that writes a shape or a path.
-/
namespace StyleExpansion.Pattern

/-- A substitution in front of the nodes is the only one of them. -/
def FrontAlone (vs : List Value) : Prop := ∀ s ∈ vs.head?, s.isSubstitution = true → vs.length = 1

instance (vs : List Value) : Decidable (FrontAlone vs) :=
  inferInstanceAs (Decidable (∀ s ∈ vs.head?, s.isSubstitution = true → vs.length = 1))

theorem derives_anyValue_iff {vs : List Value} (hvs : vs ≠ []) :
    (type "any-value").Derives vs 0 vs.length ↔ FrontAlone vs := by
  obtain ⟨v,more,rfl⟩ := List.exists_cons_of_ne_nil hvs
  have hpos : 0 < (v :: more).length := Nat.succ_pos _
  constructor
  · intro hd s hs ht
    cases hs
    generalize hj : (v :: more).length = j at hd ⊢
    cases hd with
    | typeSubstitution _ _ => rfl
    | anyValue hw hplain _ _ =>
      cases hw
      rw [ht] at hplain
      cases hplain
    | basicType _ _ hn _ _ => exact absurd rfl hn
    | namedType _ _ hn _ _ _ => exact absurd rfl hn
  · intro hfront
    cases ht : v.isSubstitution with
    | true =>
      rw [hfront v rfl ht]
      exact .typeSubstitution rfl ht
    | false => exact .anyValue rfl ht hpos (Nat.le_refl _)

theorem derives_optional_iff {p : Pattern} {vs : List Value} (hvs : vs ≠ []) :
    (optional p).Derives vs 0 vs.length ↔ p.Derives vs 0 vs.length := by
  have hpos := List.length_pos_iff.2 hvs
  constructor
  · intro hd
    rcases hd.of_optional with h | h
    · omega
    · exact h.2
  · exact fun hd => hd.optional hpos

theorem derives_function_iff {name found : String} {body : Pattern} {arguments : List Value} :
    (function name body).Derives [.function found arguments] 0 1 ↔
      Text.sameName found name = true ∧ body.Derives arguments 0 arguments.length := by
  constructor
  · intro hd
    cases hd with
    | function hv hname hbody =>
      cases hv
      exact ⟨hname,hbody⟩
  · exact fun h => .function rfl h.1 h.2

theorem derives_oneOf_iff {items : List Pattern} {vs : List Value} {i j : Nat} :
    (oneOf items).Derives vs i j ↔ ∃ p ∈ items, p.Derives vs i j := by
  constructor
  · intro hd
    cases hd with
    | oneOf hmem hp => exact ⟨_,hmem,hp⟩
  · rintro ⟨p,hmem,hp⟩
    exact .oneOf hmem hp

theorem derives_iff_only {p q : Pattern} {vs : List Value} (hv : Plain vs) (hp : p.choices = [q])
    {i j : Nat} : p.Derives vs i j ↔ q.Derives vs i j := by
  rw [derives_iff_choices hv (by rw [hp]; exact List.cons_ne_nil q []),hp]
  simp

/-- One node is derived from items in any number just if one of them derives it. -/
theorem derives_anyOf_one_iff {items : List Pattern} {v : Value} :
    (anyOf items).Derives [v] 0 1 ↔ ∃ p ∈ items, p.Derives [v] 0 1 := by
  constructor
  · intro hd
    cases hd with
    | @anyOf ps _ _ _ _ hps hsub hc =>
      cases hc with
      | @link _ p _ _ _ m _ hp hfilled hrest =>
        have hm : m = 1 := Nat.le_antisymm hrest.le (hfilled rfl)
        subst hm
        exact ⟨p,hsub.subset List.mem_cons_self,hp⟩
  · rintro ⟨p,hmem,hp⟩
    exact .anyOf (List.cons_ne_nil p []) (List.singleton_subperm_iff.2 hmem)
      (.link hp (fun _ => Nat.one_pos) .endOfChain)

def shapeFunctions : List String :=
  ["inset","circle","ellipse","polygon","path","rect","xywh","shape"]

/-- The functions that write a path to move along. -/
def pathFunctions : List String := "ray" :: shapeFunctions

section Shapes
variable {found : String} {arguments : List Value}

theorem plain_of_path (h : Text.isOneOf pathFunctions found = true) :
    Plain [.function found arguments] := by
  intro v hv
  cases List.mem_singleton.1 hv
  exact Shorthand.isOneOf_disjoint (by decide +kernel) h

def shapeCall (name : String) : Pattern :=
  if name == "circle" || name == "ellipse" then function name (optional (type "any-value"))
  else function name (type "any-value")

theorem derives_shapeCall_iff (ha : arguments ≠ []) {name : String} :
    (shapeCall name).Derives [.function found arguments] 0 1 ↔
      Text.sameName found name = true ∧ FrontAlone arguments := by
  rw [shapeCall]
  split
  · rw [derives_function_iff,derives_optional_iff ha,derives_anyValue_iff ha]
  · rw [derives_function_iff,derives_anyValue_iff ha]

theorem derives_shape_iff (hplain : Plain [.function found arguments]) (ha : arguments ≠ []) :
    (type "basic-shape").Derives [.function found arguments] 0 1 ↔
      Text.isOneOf shapeFunctions found = true ∧ FrontAlone arguments := by
  have hchoices : (type "basic-shape").choices = [oneOf (shapeFunctions.map shapeCall)] := rfl
  rw [derives_iff_only hplain hchoices,derives_oneOf_iff,Text.isOneOf,List.any_eq_true]
  simp only [List.mem_map,exists_exists_and_eq_and,derives_shapeCall_iff ha]
  constructor
  · rintro ⟨name,hmem,hname,hfront⟩
    exact ⟨⟨name,hmem,hname⟩,hfront⟩
  · rintro ⟨⟨name,hmem,hname⟩,hfront⟩
    exact ⟨name,hmem,hname,hfront⟩

theorem derives_offsetPath_iff (h : Text.isOneOf pathFunctions found = true)
    (ha : arguments ≠ []) :
    (property "offset-path").Derives [.function found arguments] 0 1 ↔ FrontAlone arguments := by
  have hplain : Plain [.function found arguments] := plain_of_path h
  have hchoices : (property "offset-path").choices = [oneOf [keyword "none",
    anyOf [oneOf [type "ray-function",type "url",type "basic-shape"],type "coord-box"]]] := rfl
  have hray : (type "ray-function").Derives [.function found arguments] 0 1 ↔
      Text.sameName found "ray" = true ∧ FrontAlone arguments := by
    rw [derives_iff_only hplain (q := shapeCall "ray") rfl,derives_shapeCall_iff ha]
  have hurl : ¬(type "url").Derives [.function found arguments] 0 1 := by
    have htype : Value.basicTypes.lookup "url" = some Value.isUrl := rfl
    intro hd
    obtain ⟨-,v,hv,htest⟩ := hd.of_basicType hplain (by decide) htype
    cases hv
    have hnot : Value.isUrl (.function found arguments) = false :=
      Shorthand.isOneOf_disjoint (by decide +kernel) h
    rw [hnot] at htest
    cases htest
  have hbox : ¬(type "coord-box").Derives [.function found arguments] 0 1 := by
    rw [derives_iff_only hplain (q := .words ["content-box","padding-box","border-box","fill-box",
      "stroke-box","view-box"]) rfl]
    intro hd
    cases (Shorthand.words_derived hd).2
  have hnone : ¬(keyword "none").Derives [.function found arguments] 0 1 := by
    intro hd
    cases hd with
    | keyword hv ht =>
      cases hv
      cases ht
  rw [derives_iff_only hplain hchoices,derives_oneOf_iff]
  simp only [List.mem_cons,List.not_mem_nil,or_false,exists_eq_or_imp,exists_eq_left,hnone,false_or,
    derives_anyOf_one_iff,derives_oneOf_iff,hray,hurl,hbox,derives_shape_iff hplain ha]
  rw [← or_and_right]
  have h : Text.sameName found "ray" = true ∨ Text.isOneOf shapeFunctions found = true := by
    simpa [pathFunctions,Text.isOneOf] using h
  exact and_iff_right h

end Shapes

/-- Any nodes are taken by the type for any nodes, as the arguments of every function that writes a basic
shape, and as those of every function that writes a path, just if no substitution stands in front of
others. -/
theorem accepts_arguments_iff {arguments : List Value} (ha : arguments ≠ []) :
    ((ofText "<any-value>").accepts arguments = true ↔ FrontAlone arguments) ∧
    (∀ found, Text.isOneOf shapeFunctions found = true →
      ((ofText "<basic-shape>").accepts [.function found arguments] = true ↔ FrontAlone arguments)) ∧
    ∀ found, Text.isOneOf pathFunctions found = true →
      ((ofText "<'offset-path'>").accepts [.function found arguments] = true ↔ FrontAlone arguments) := by
  refine ⟨?_,fun found hfound => ?_,fun found hfound => ?_⟩
  · have hany : ofText "<any-value>" = type "any-value" :=
      ofText_type (by decide +kernel) (by decide +kernel)
    rw [hany,accepts_iff_derives (type_withinLimits _ (by decide)),derives_anyValue_iff ha]
  · have hshape : ofText "<basic-shape>" = type "basic-shape" :=
      ofText_type (by decide +kernel) (by decide +kernel)
    have hpath : Text.isOneOf pathFunctions found = true := by
      rw [pathFunctions,Text.isOneOf,List.any_cons,← Text.isOneOf,hfound,Bool.or_true]
    rw [hshape,accepts_iff_derives (type_withinLimits _ (by decide)),List.length_singleton,
      derives_shape_iff (plain_of_path hpath) ha]
    exact and_iff_right hfound
  · have hoffset : ofText "<'offset-path'>" = property "offset-path" :=
      ofText_property (by decide +kernel) (by decide +kernel)
    rw [hoffset,accepts_iff_derives (property_withinLimits _ (by decide)),List.length_singleton]
    exact derives_offsetPath_iff hfound ha

/-- A substitution behind other arguments, and one in front of them. -/
theorem accepts_arguments_iff_inset :
    (Text.isOneOf shapeFunctions "Inset" = true ∧
      (ofText "<basic-shape>").accepts
        [.function "Inset" [.dimension "1" "px",.function "var" [.ident "--x"]]] = true) ∧
    Text.isOneOf pathFunctions "ray" = true ∧
      (ofText "<'offset-path'>").accepts
        [.function "ray" [.function "var" [.ident "--x"],.dimension "1" "px"]] = false := by
  have hshape : Text.isOneOf shapeFunctions "Inset" = true := by decide +kernel
  have hpath : Text.isOneOf pathFunctions "ray" = true := by decide +kernel
  refine ⟨⟨hshape,?_⟩,hpath,?_⟩
  · exact ((accepts_arguments_iff (List.cons_ne_nil _ _)).2.1 _ hshape).2 (by decide +kernel)
  · rw [Bool.eq_false_iff,Ne,(accepts_arguments_iff (List.cons_ne_nil _ _)).2.2 _ hpath]
    decide +kernel

end StyleExpansion.Pattern
