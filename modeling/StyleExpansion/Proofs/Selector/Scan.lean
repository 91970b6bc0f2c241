import StyleExpansion.Selector

/-! # The form of a selector

The loop over the components of a selector finds a target exactly if the selector has the form of one: a
class or a type, and a chain that is read as its state. Once the class or the type is found the loop adds
to the state only, and without one it never ends with a target.
-/
namespace StyleExpansion.Selector
open Component

def readState : List Component → Option (List Char)
  | [] => some []
  | .plain .colon _ :: .plain .colon _ :: c :: cs =>
    (readPseudo true c).bind fun s => (readState cs).map (s ++ ·)
  | .plain .colon _ :: c :: cs =>
    (readPseudo false c).bind fun s => (readState cs).map (s ++ ·)
  | c :: cs => if c.isSkipped && allSkipped cs then some [] else none

def formTarget (types : Bool) (cs : List Component) : Option Target :=
  match uncommented cs with
  | .plain (.delim '.') _ :: .plain (.ident name) _ :: rest => (readState rest).map (targetOf name)
  | .plain (.ident name) _ :: rest =>
    if types then (readState rest).map (targetOf name.toLower) else none
  | _ => none

def found (types : Bool) (base : Option String) (state : List Char) (cs : List Component) :
    Option Target :=
  (scan types base state cs).toOption.join

section Pseudo
variable {types : Bool} {base : Option String} {state : List Char}

theorem scan_dot (source : List Char) (cs : List Component) :
    scan types base state (.plain (.delim '.') source :: cs) =
      if base.isNone && state.isEmpty then
        match cs with
        | [] => .error ()
        | .plain (.ident name) _ :: rest => scan types (some name) state rest
        | _ => .ok none
      else .ok none := by
  rw [scan.eq_def]
  rfl

theorem scan_delim {mark : Char} (h : mark ≠ '.') (source : List Char) (cs : List Component) :
    scan types base state (.plain (.delim mark) source :: cs) = .ok none := by
  unfold scan
  split <;> simp_all

theorem found_double (first second : List Char) (c : Component) (cs : List Component) :
    found types base state (.plain .colon first :: .plain .colon second :: c :: cs) =
      (readPseudo true c).bind fun text => found types base (state ++ text) cs := by
  rw [found,scan]
  cases readPseudo true c <;> rfl

theorem found_single (source : List Char) {c : Component} {cs : List Component}
    (h : ∀ source d ds, c = .plain .colon source → cs = d :: ds → False) :
    found types base state (.plain .colon source :: c :: cs) =
      (readPseudo false c).bind fun text => found types base (state ++ text) cs := by
  by_cases hc : ∃ second, c = .plain .colon second
  · obtain ⟨second,rfl⟩ := hc
    cases cs with
    | nil => rfl
    | cons d ds => exact (h second d ds rfl rfl).elim
  · rw [found,scan]
    · cases readPseudo false c <;> rfl
    · exact fun second hs _ => hc ⟨second,hs⟩
    · exact fun second _ _ hs _ => hc ⟨second,hs⟩

/-- The loop ends without a target at a component that is no colon before another one, that is not the
white space at the end, and that is no class or type in front of everything. -/
theorem found_out_of_place {c : Component} {cs : List Component}
    (hcolon : ∀ source d ds, c = .plain .colon source → cs = d :: ds → False)
    (hskip : ¬(c.isSkipped && allSkipped cs) = true)
    (hfirst : c.head ≠ .colon → (base.isNone && state.isEmpty) = false) :
    found types base state (c :: cs) = none := by
  cases c with
  | block => rfl
  | plain t source =>
    cases t with
    | colon =>
      cases cs with
      | nil => rfl
      | cons d ds => exact (hcolon source d ds rfl rfl).elim
    | space =>
      have hrest : ¬allSkipped cs = true := hskip
      rw [found,scan,if_neg hrest]
      rfl
    | ident name =>
      rw [found,scan,hfirst nofun]
      rfl
    | delim mark =>
      by_cases hmark : mark = '.'
      · subst hmark
        rw [found,scan_dot,hfirst nofun]
        rfl
      · rw [found,scan_delim hmark]
        rfl
    | _ => rfl

end Pseudo

theorem exists_space {c : Component} (h : c.isComment = false) (hskip : c.isSkipped = true) :
    ∃ source, c = .plain .space source := by
  match c,h,hskip with
  | .plain .space source,_,_ => exact ⟨source,rfl⟩

/-- After a class or a type the loop reads a state, which it adds to the one so far. -/
theorem found_some (types : Bool) (base : String) (state : List Char) {cs : List Component}
    (hcs : ∀ c ∈ cs, c.isComment = false) :
    found types (some base) state cs = (readState cs).map fun s => targetOf base (state ++ s) := by
  induction cs using readState.induct generalizing state with
  | case1 => simp [found,scan,readState,Except.toOption]
  | case2 first second c cs ih =>
    rw [found_double,readState,Option.map_bind]
    refine congrArg _ (funext fun s => ?_)
    rw [ih _ fun d hd => hcs d (by simp [hd])]
    simp [Option.map_map,Function.comp_def]
  | case3 source c cs hcolon ih =>
    rw [found_single source hcolon,readState.eq_3 _ _ _ hcolon,Option.map_bind]
    refine congrArg _ (funext fun s => ?_)
    rw [ih _ fun d hd => hcs d (by simp [hd])]
    simp [Option.map_map,Function.comp_def]
  | case4 c cs hdouble hsingle hskip =>
    rw [readState.eq_4 _ _ hdouble hsingle,if_pos hskip]
    rw [Bool.and_eq_true] at hskip
    obtain ⟨source,rfl⟩ := exists_space (hcs c (by simp)) hskip.1
    rw [found,scan,if_pos hskip.2]
    simp [Except.toOption]
  | case5 c cs hdouble hsingle hskip =>
    rw [readState.eq_4 _ _ hdouble hsingle,if_neg hskip,Option.map_none]
    exact found_out_of_place hsingle hskip fun _ => rfl

theorem ne_nil_of_readPseudo {doubled : Bool} {c : Component} {s : List Char}
    (h : readPseudo doubled c = some s) : s ≠ [] := by
  have htext : ∀ name, pseudoText doubled name ≠ [] := by
    intro name
    unfold pseudoText
    simp only
    split <;> simp
  unfold readPseudo at h
  split at h
  · cases h
    exact htext _
  · cases h
    exact List.append_ne_nil_of_left_ne_nil (htext _) _
  · cases h

/-- Nothing becomes the class or the type once there is a state. -/
theorem found_none (types : Bool) {state : List Char} (hstate : state ≠ []) (cs : List Component) :
    found types none state cs = none := by
  induction cs using readState.induct generalizing state with
  | case1 => rfl
  | case2 first second c cs ih =>
    rw [found_double]
    exact Option.bind_eq_none_iff.2 fun text _ => ih (List.append_ne_nil_of_left_ne_nil hstate text)
  | case3 source c cs hcolon ih =>
    rw [found_single source hcolon]
    exact Option.bind_eq_none_iff.2 fun text _ => ih (List.append_ne_nil_of_left_ne_nil hstate text)
  | case4 c cs hdouble hsingle hskip =>
    match c,hskip with
    | .plain .space source,hskip =>
      have hrest : allSkipped cs = true := hskip
      rw [found,scan,if_pos hrest]
      rfl
    | .plain .comment source,_ => rfl
  | case5 c cs hdouble hsingle hskip =>
    exact found_out_of_place hsingle hskip fun _ => by simp [hstate]

/-- A selector that begins with a colon has no target. -/
theorem found_colon (types : Bool) (source : List Char) (cs : List Component) :
    found types none [] (.plain .colon source :: cs) = none := by
  cases cs with
  | nil => rfl
  | cons c cs =>
    by_cases hc : ∃ second d ds, c = .plain .colon second ∧ cs = d :: ds
    · obtain ⟨second,d,ds,rfl,rfl⟩ := hc
      rw [found_double]
      exact Option.bind_eq_none_iff.2 fun text htext => found_none types (ne_nil_of_readPseudo htext) ds
    · rw [found_single source fun second d ds hs hds => hc ⟨second,d,ds,hs,hds⟩]
      exact Option.bind_eq_none_iff.2 fun text htext => found_none types (ne_nil_of_readPseudo htext) cs

/-- A selector that begins neither with a class nor with a type has no target. -/
theorem found_formless {types : Bool} {cs : List Component}
    (hclass : ∀ dot name source rest,
      cs = .plain (.delim '.') dot :: .plain (.ident name) source :: rest → False)
    (htype : ∀ name source rest, cs = .plain (.ident name) source :: rest → False) :
    found types none [] cs = none := by
  cases cs with
  | nil => rfl
  | cons c cs =>
    cases c with
    | block => rfl
    | plain t source =>
      cases t with
      | colon => exact found_colon types source cs
      | ident name => exact (htype name source cs rfl).elim
      | space =>
        rw [found,scan]
        split <;> rfl
      | delim mark =>
        by_cases hmark : mark = '.'
        · subst hmark
          have hfirst : ((none : Option String).isNone && ([] : List Char).isEmpty) = true := rfl
          rw [found,scan_dot,if_pos hfirst]
          split
          · rfl
          · next name second rest => exact (hclass source name second rest rfl).elim
          · rfl
        · rw [found,scan_delim hmark]
          rfl
      | _ => rfl

theorem not_isComment_of_mem_uncommented (cs : List Component) :
    ∀ c ∈ uncommented cs, c.isComment = false := by
  intro c hc
  simpa using (List.mem_filter.1 ((List.dropWhile_suffix _).subset hc)).2

theorem readTarget_eq_formTarget (types : Bool) (cs : List Component) :
    readTarget types cs = formTarget types cs := by
  have hcomment := not_isComment_of_mem_uncommented cs
  change found types none [] (uncommented cs) = formTarget types cs
  unfold formTarget
  split
  · next dot name source rest h =>
    rw [h] at hcomment
    have hclass : found types none [] (.plain (.delim '.') dot :: .plain (.ident name) source :: rest) =
        found types (some name) [] rest := rfl
    rw [h,hclass,found_some types name [] fun c hc => hcomment c (by simp [hc])]
    rfl
  · next name source rest h =>
    rw [h] at hcomment
    cases types with
    | false => rw [h]; rfl
    | true =>
      have htype : found true none [] (.plain (.ident name) source :: rest) =
          found true (some name.toLower) [] rest := rfl
      rw [h,htype,found_some true name.toLower [] fun c hc => hcomment c (by simp [hc])]
      rfl
  · next hclass htype => exact found_formless hclass htype

end StyleExpansion.Selector
