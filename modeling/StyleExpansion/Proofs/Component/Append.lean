import Mathlib.Data.List.Induction
import StyleExpansion.Component.Lossless
import StyleExpansion.Proofs.Token.Sealed

/-! # Components of joined texts

Lexemes that leave no block open have components of their own, before other lexemes and inside a block
alike. So the components of a text that ends with a closed block do not depend on what follows.
-/
namespace StyleExpansion

namespace Nesting

/-- The same reading, after some components outside of all blocks. -/
def after (out : List Component) (n : Nesting) : Nesting := ⟨n.frames,n.outermost ++ out⟩

theorem add_after (out : List Component) (n : Nesting) (c : Component) :
    (n.after out).add c = (n.add c).after out := by
  obtain ⟨frames,outermost⟩ := n
  cases frames <;> rfl

theorem close_after (out : List Component) (n : Nesting) (closed : Bool) :
    (n.after out).close closed = (n.close closed).after out := by
  obtain ⟨frames,outermost⟩ := n
  cases frames with
  | nil => rfl
  | cons f fs => exact add_after out ⟨fs,outermost⟩ _

theorem push_after (out : List Component) (n : Nesting) (x : Lexeme) :
    (n.after out).push x = (n.push x).after out := by
  have hends : ∀ b, (n.after out).endsInnermost b = n.endsInnermost b := fun _ => rfl
  unfold push
  split
  · rfl
  · rw [hends]
    split
    · exact close_after out n true
    · exact add_after out n _
  · exact add_after out n _

theorem foldl_push_after (out : List Component) (xs : List Lexeme) (n : Nesting) :
    xs.foldl push (n.after out) = (xs.foldl push n).after out := by
  induction xs generalizing n with
  | nil => rfl
  | cons x xs ih => rw [List.foldl_cons,push_after,ih,List.foldl_cons]

theorem components_after (out : List Component) (n : Nesting) :
    (n.after out).components = out.reverse ++ n.components := by
  have hclose : ∀ (fs : List Frame) (m : Nesting),
      fs.foldl (fun m _ => m.close false) (m.after out) =
        (fs.foldl (fun m _ => m.close false) m).after out := by
    intro fs
    induction fs with
    | nil => intro m; rfl
    | cons f fs ih => intro m; rw [List.foldl_cons,close_after,ih,List.foldl_cons]
  have hframes : (n.after out).frames = n.frames := rfl
  rw [components,hframes,hclose,components,after,List.reverse_append]

theorem components_of_no_frames {n : Nesting} (h : n.frames = []) :
    n.components = n.outermost.reverse := by
  rw [components,h]
  rfl

def inside (f : Frame) (fs : List Frame) (out : List Component) (n : Nesting) : Nesting :=
  ⟨n.frames ++ {f with contents := n.outermost ++ f.contents} :: fs,out⟩

section Inside
variable (f : Frame) (fs : List Frame) (out : List Component)

theorem add_inside (n : Nesting) (c : Component) :
    (n.inside f fs out).add c = (n.add c).inside f fs out := by
  obtain ⟨frames,outermost⟩ := n
  cases frames <;> rfl

/-- A lexeme that does not end the block does the same inside it. -/
theorem push_inside (n : Nesting) {x : Lexeme}
    (h : n.frames = [] → x.token ≠ .closing f.kind.closer) :
    (n.inside f fs out).push x = (n.push x).inside f fs out := by
  obtain ⟨frames,outermost⟩ := n
  cases frames with
  | nil =>
    unfold push
    split
    · rfl
    · next b hb =>
      have hne : (f.kind.closer == b) = false := by
        rw [beq_eq_false_iff_ne]
        rintro rfl
        exact h rfl hb
      have hout : ((⟨[],outermost⟩ : Nesting).inside f fs out).endsInnermost b = false := hne
      have hin : (⟨[],outermost⟩ : Nesting).endsInnermost b = false := rfl
      simp only [hout,hin,Bool.false_eq_true,if_false]
      exact add_inside f fs out _ _
    · exact add_inside f fs out _ _
  | cons g gs =>
    have hends : ∀ b, ((⟨g :: gs,outermost⟩ : Nesting).inside f fs out).endsInnermost b =
        (⟨g :: gs,outermost⟩ : Nesting).endsInnermost b := fun _ => rfl
    unfold push
    split
    · rfl
    · rw [hends]
      split
      · exact add_inside f fs out ⟨gs,outermost⟩ _
      · exact add_inside f fs out _ _
    · exact add_inside f fs out _ _

/-- The end of the text completes the same blocks inside another one, and then that one. -/
theorem components_inside (n : Nesting) : (n.inside f [] []).components =
    [.block f.kind f.source (f.contents.reverse ++ n.components) false] := by
  have hclose : ∀ (gs : List Frame) (m : Nesting), m.frames.length = gs.length →
      ((gs ++ [f]).foldl (fun m _ => m.close false) (m.inside f [] [])).outermost =
        [.block f.kind f.source
          (f.contents.reverse ++ (gs.foldl (fun m _ => m.close false) m).outermost.reverse) false] := by
    intro gs
    induction gs with
    | nil =>
      intro m hm
      obtain ⟨frames,outermost⟩ := m
      cases List.eq_nil_of_length_eq_zero hm
      simp [inside,close,add]
    | cons g gs ih =>
      intro m hm
      obtain ⟨frames,outermost⟩ := m
      obtain ⟨x,xs,rfl⟩ := List.exists_cons_of_length_eq_add_one hm
      have hstep : ((⟨x :: xs,outermost⟩ : Nesting).inside f [] []).close false =
          ((⟨x :: xs,outermost⟩ : Nesting).close false).inside f [] [] :=
        add_inside f [] [] ⟨xs,outermost⟩ _
      rw [List.cons_append,List.foldl_cons,hstep,List.foldl_cons]
      apply ih
      cases xs with
      | nil => simpa [close,add,eq_comm] using hm
      | cons y ys => simpa [close,add] using hm
  have hlast : ∀ (gs : List Frame) (m : Nesting),
      (gs ++ [{f with contents := n.outermost ++ f.contents}]).foldl (fun m _ => m.close false) m =
        (gs ++ [f]).foldl (fun m _ => m.close false) m := by
    intro gs m
    rw [List.foldl_append,List.foldl_append]
    rfl
  have hframes : (n.inside f [] []).frames =
      n.frames ++ [{f with contents := n.outermost ++ f.contents}] := rfl
  rw [components,hframes,hlast,hclose n.frames n rfl]
  rfl

end Inside

/-- A lexeme adds one component outside of all blocks, and leaves none open then, or no such component. -/
theorem push_outermost_cases (n : Nesting) (x : Lexeme) : (n.push x).outermost = n.outermost ∨
    ∃ c, n.push x = ⟨[],c :: n.outermost⟩ := by
  obtain ⟨frames,outermost⟩ := n
  unfold push
  split
  · exact Or.inl rfl
  · split
    · rcases frames with _ | ⟨f,_ | ⟨g,gs⟩⟩
      · exact Or.inl rfl
      · exact Or.inr ⟨_,rfl⟩
      · exact Or.inl rfl
    · cases frames with
      | nil => exact Or.inr ⟨_,rfl⟩
      | cons f fs => exact Or.inl rfl
  · cases frames with
    | nil => exact Or.inr ⟨_,rfl⟩
    | cons f fs => exact Or.inl rfl

theorem push_outermost (n : Nesting) (x : Lexeme) : n.outermost ⊆ (n.push x).outermost := by
  rcases push_outermost_cases n x with hsame | ⟨c,hpush⟩
  · rw [hsame]
    exact List.Subset.refl _
  · rw [hpush]
    exact List.subset_cons_self c n.outermost

theorem foldl_push_outermost (xs : List Lexeme) (n : Nesting) :
    n.outermost ⊆ (xs.foldl push n).outermost := by
  induction xs generalizing n with
  | nil => exact List.Subset.refl _
  | cons x xs ih => exact List.Subset.trans (push_outermost n x) (ih _)

/-- Lexemes among which no bracket of the block is left over do the same inside it. -/
theorem foldl_push_inside (f : Frame) (fs : List Frame) (out : List Component) (xs : List Lexeme)
    (n : Nesting)
    (h : ∀ c ∈ (xs.foldl push n).outermost, c.isToken (.closing f.kind.closer) = false) :
    xs.foldl push (n.inside f fs out) = (xs.foldl push n).inside f fs out := by
  induction xs generalizing n with
  | nil => rfl
  | cons x xs ih =>
    have hx : n.frames = [] → x.token ≠ .closing f.kind.closer := by
      intro hn ht
      have hmem : Component.plain x.token x.source ∈ (n.push x).outermost := by
        obtain ⟨frames,outermost⟩ := n
        cases hn
        simp [push,ht,endsInnermost,add]
      have hfree := h _ (foldl_push_outermost xs _ hmem)
      simp [Component.isToken,ht] at hfree
    rw [List.foldl_cons,push_inside f fs out n hx,List.foldl_cons]
    exact ih _ h

/-- A lexeme that completes a block outside of all others is the bracket of that block. -/
theorem closing_of_push {n : Nesting} {x : Lexeme} {kind : Opening} {source : List Char}
    {contents out : List Component} (h : n.push x = ⟨[],.block kind source contents true :: out⟩) :
    x.token = .closing kind.closer := by
  obtain ⟨frames,outermost⟩ := n
  unfold push at h
  split at h
  · cases h
  · next b hb =>
    split at h
    · next hends =>
      match frames with
      | [] => cases hends
      | [f] =>
        have hcloser : f.kind.closer = b := by simpa [endsInnermost] using hends
        cases h
        rw [hb,hcloser]
      | f :: g :: gs => cases h
    · cases frames <;> cases h
  · cases frames <;> cases h

theorem push_plain {t : Token} (ho : ∀ kind, t ≠ .opening kind) (hc : ∀ b, t ≠ .closing b)
    (n : Nesting) (source : List Char) : n.push ⟨t,source⟩ = n.add (.plain t source) := by
  unfold push
  split
  · next kind h => exact absurd h (ho kind)
  · next b h => exact absurd h (hc b)
  · rfl

theorem frames_of_add {n : Nesting} {c : Component} (h : (n.add c).frames = []) : n.frames = [] := by
  obtain ⟨frames,outermost⟩ := n
  cases frames with
  | nil => rfl
  | cons f fs => cases h

/-- A lexeme that adds a token outside of all blocks is that token. -/
theorem plain_of_push {n : Nesting} {x : Lexeme} {t : Token} {source : List Char}
    (ht : ∀ b, t ≠ .closing b) {out : List Component}
    (h : n.push x = ⟨[],.plain t source :: out⟩) : x = ⟨t,source⟩ := by
  obtain ⟨frames,outermost⟩ := n
  obtain ⟨token,text⟩ := x
  unfold push at h
  split at h
  · cases h
  · next b hb =>
    split at h
    · next hends =>
      match frames with
      | [] => cases hends
      | [f] => cases h
      | f :: g :: gs => cases h
    · cases frames <;> cases h
      exact absurd hb (ht b)
  · cases frames <;> cases h
    rfl

/-- Completing a block adds no plain component outside of all blocks. -/
theorem plain_of_mem_close {n : Nesting} {closed : Bool} {t : Token} {source : List Char}
    (h : .plain t source ∈ (n.close closed).outermost) : .plain t source ∈ n.outermost := by
  obtain ⟨frames,outermost⟩ := n
  rcases frames with _ | ⟨f,_ | ⟨g,gs⟩⟩
  · exact h
  · simpa [close,add] using h
  · exact h

/-- A plain component outside of all blocks was there already, or is the lexeme. -/
theorem plain_of_mem_push {n : Nesting} {x : Lexeme} {t : Token} {source : List Char}
    (h : .plain t source ∈ (n.push x).outermost) :
    .plain t source ∈ n.outermost ∨ x = ⟨t,source⟩ := by
  obtain ⟨frames,outermost⟩ := n
  obtain ⟨token,text⟩ := x
  have hadd : ∀ c : Component, .plain t source ∈ (add ⟨frames,outermost⟩ c).outermost →
      .plain t source ∈ outermost ∨ c = .plain t source := by
    intro c hc
    cases frames with
    | nil => exact (List.mem_cons.1 hc).symm.imp id Eq.symm
    | cons f fs => exact Or.inl hc
  have hplain : Component.plain token text = .plain t source → (⟨token,text⟩ : Lexeme) = ⟨t,source⟩ := by
    intro hc
    cases hc
    rfl
  unfold push at h
  split at h
  · exact Or.inl h
  · split at h
    · exact Or.inl (plain_of_mem_close h)
    · exact (hadd _ h).imp id hplain
  · exact (hadd _ h).imp id hplain

/-- The first components outside of all blocks are those of the first lexemes. -/
theorem exists_prefix {xs : List Lexeme} {cs ds : List Component}
    (h : (xs.foldl push empty).outermost.reverse = cs ++ ds) :
    ∃ ys zs, xs = ys ++ zs ∧ ys.foldl push empty = ⟨[],cs.reverse⟩ := by
  induction xs using List.reverseRecOn generalizing ds with
  | nil =>
    have hcs : cs = [] := (List.append_eq_nil_iff.1 h.symm).1
    exact ⟨[],[],rfl,by rw [hcs]; rfl⟩
  | append_singleton xs x ih =>
    rw [List.foldl_append,List.foldl_cons,List.foldl_nil] at h
    rcases push_outermost_cases (xs.foldl push empty) x with hsame | ⟨c,hpush⟩
    · rw [hsame] at h
      obtain ⟨ys,zs,rfl,hys⟩ := ih h
      exact ⟨ys,zs ++ [x],by rw [List.append_assoc],hys⟩
    · rw [hpush,List.reverse_cons] at h
      rcases List.eq_nil_or_concat ds with rfl | ⟨ds,d,rfl⟩
      · refine ⟨xs ++ [x],[],by rw [List.append_nil],?_⟩
        rw [List.append_nil] at h
        rw [List.foldl_append,List.foldl_cons,List.foldl_nil,hpush,← h]
        simp
      · rw [List.concat_eq_append,← List.append_assoc] at h
        obtain ⟨ys,zs,rfl,hys⟩ := ih (List.append_inj' h rfl).1
        exact ⟨ys,zs ++ [x],by rw [List.append_assoc],hys⟩

/-- A block that is open at the end is the last component. -/
theorem components_open {n : Nesting} (h : n.frames ≠ []) :
    ∃ kind source contents, n.components =
      n.outermost.reverse ++ [.block kind source contents false] := by
  have hlast : ∀ (fs : List Frame) (f : Frame) (out : List Component), ∃ kind source contents,
      (f :: fs).foldl (fun m _ => m.close false) (⟨f :: fs,out⟩ : Nesting) =
        ⟨[],.block kind source contents false :: out⟩ := by
    intro fs
    induction fs with
    | nil => intro f out; exact ⟨_,_,_,rfl⟩
    | cons g gs ih => intro f out; exact ih _ out
  obtain ⟨frames,outermost⟩ := n
  obtain ⟨f,fs,rfl⟩ := List.exists_cons_of_ne_nil h
  obtain ⟨kind,source,contents,he⟩ := hlast fs f outermost
  refine ⟨kind,source,contents,?_⟩
  rw [components,he,List.reverse_cons]

/-- No component is empty that is complete, and no opening of one that is not. -/
def Solid (n : Nesting) : Prop :=
  (∀ c ∈ n.outermost, c.text ≠ []) ∧ ∀ f ∈ n.frames, f.source ≠ []

theorem Solid.add {n : Nesting} (h : n.Solid) {c : Component} (hc : c.text ≠ []) :
    (n.add c).Solid := by
  obtain ⟨frames,outermost⟩ := n
  cases frames with
  | nil => exact ⟨List.forall_mem_cons.2 ⟨hc,h.1⟩,h.2⟩
  | cons f fs =>
    have hf := List.forall_mem_cons.1 h.2
    exact ⟨h.1,List.forall_mem_cons.2 ⟨hf.1,hf.2⟩⟩

theorem Solid.close {n : Nesting} (h : n.Solid) (closed : Bool) : (n.close closed).Solid := by
  obtain ⟨frames,outermost⟩ := n
  cases frames with
  | nil => exact h
  | cons f fs =>
    have hf := List.forall_mem_cons.1 h.2
    have hfs : Solid ⟨fs,outermost⟩ := ⟨h.1,hf.2⟩
    refine hfs.add ?_
    simp [Component.text,hf.1]

theorem Solid.push {n : Nesting} (h : n.Solid) {x : Lexeme} (hx : x.source ≠ []) :
    (n.push x).Solid := by
  unfold Nesting.push
  split
  · exact ⟨h.1,List.forall_mem_cons.2 ⟨hx,h.2⟩⟩
  · split
    · exact h.close true
    · exact h.add hx
  · exact h.add hx

end Nesting

namespace Component

/-- The component is no block that is still open at the end of the text. -/
def isClosed : Component → Bool
  | plain _ _ => true
  | block _ _ _ closed => closed

def Complete (xs : List Lexeme) : Prop := (xs.foldl Nesting.push .empty).frames = []

theorem complete_of_isClosed {xs : List Lexeme} (h : ∀ c ∈ ofLexemes xs, c.isClosed = true) :
    Complete xs := by
  by_cases hf : (xs.foldl Nesting.push .empty).frames = []
  · exact hf
  · obtain ⟨kind,source,contents,he⟩ := Nesting.components_open hf
    have hlast := h (.block kind source contents false) (by simp [ofLexemes,he])
    cases hlast

theorem Complete.foldl_push {xs : List Lexeme} (h : Complete xs) : xs.foldl Nesting.push .empty =
    Nesting.empty.after (xs.foldl Nesting.push .empty).outermost := by
  generalize hn : xs.foldl Nesting.push .empty = n
  rw [Complete,hn] at h
  obtain ⟨frames,outermost⟩ := n
  cases h
  rfl

theorem Complete.append {xs ys : List Lexeme} (hx : Complete xs) (hy : Complete ys) :
    Complete (xs ++ ys) := by
  rw [Complete,List.foldl_append,hx.foldl_push,Nesting.foldl_push_after]
  exact hy

/-- After lexemes that leave no block open, other lexemes have components of their own. -/
theorem ofLexemes_append {xs : List Lexeme} (h : Complete xs) (ys : List Lexeme) :
    ofLexemes (xs ++ ys) = ofLexemes xs ++ ofLexemes ys := by
  rw [ofLexemes,List.foldl_append,h.foldl_push,Nesting.foldl_push_after,Nesting.components_after,
    ofLexemes,Nesting.components_of_no_frames h]
  rfl

/-- A token that opens no block and closes none is a component by itself. -/
theorem ofLexemes_plain {t : Token} (ho : ∀ kind, t ≠ .opening kind) (hc : ∀ b, t ≠ .closing b)
    (source : List Char) (ys : List Lexeme) :
    ofLexemes (⟨t,source⟩ :: ys) = .plain t source :: ofLexemes ys := by
  have hpush : Nesting.empty.push ⟨t,source⟩ = ⟨[],[.plain t source]⟩ :=
    Nesting.push_plain ho hc .empty source
  have hcomplete : Complete [⟨t,source⟩] := by
    rw [Complete,List.foldl_cons,hpush]
    rfl
  rw [← List.singleton_append,ofLexemes_append hcomplete,ofLexemes,List.foldl_cons,hpush]
  rfl

/-- Lexemes between the brackets of a block have the components that they have by themselves. -/
theorem ofLexemes_block {xs : List Lexeme} (h : Complete xs) {kind : Opening}
    (hfree : ∀ c ∈ ofLexemes xs, c.isToken (.closing kind.closer) = false)
    (source closing : List Char) (ys : List Lexeme) :
    ofLexemes (⟨.opening kind,source⟩ :: (xs ++ ⟨.closing kind.closer,closing⟩ :: ys)) =
      .block kind source (ofLexemes xs) true :: ofLexemes ys := by
  have hcomponents : ofLexemes xs = (xs.foldl Nesting.push .empty).outermost.reverse :=
    Nesting.components_of_no_frames h
  have hout : ∀ c ∈ (xs.foldl Nesting.push .empty).outermost,
      c.isToken (.closing kind.closer) = false := by
    intro c hc
    exact hfree c (by rw [hcomponents]; simpa using hc)
  have hopen : Nesting.empty.push ⟨.opening kind,source⟩ =
      Nesting.empty.inside ⟨kind,source,[]⟩ [] [] := rfl
  have hinside : xs.foldl Nesting.push (Nesting.empty.push ⟨.opening kind,source⟩) =
      ⟨[⟨kind,source,(xs.foldl Nesting.push .empty).outermost⟩],[]⟩ := by
    rw [hopen,Nesting.foldl_push_inside _ _ _ xs .empty hout,Nesting.inside,h]
    simp
  have hclose : Nesting.push ⟨[⟨kind,source,(xs.foldl Nesting.push .empty).outermost⟩],[]⟩
      ⟨.closing kind.closer,closing⟩ =
      Nesting.empty.after [.block kind source (ofLexemes xs) true] := by
    simp [Nesting.push,Nesting.endsInnermost,Nesting.close,Nesting.add,Nesting.after,Nesting.empty,
      hcomponents]
  rw [ofLexemes,List.foldl_cons,List.foldl_append,hinside,List.foldl_cons,hclose,
    Nesting.foldl_push_after,Nesting.components_after]
  rfl

/-- Lexemes after a bracket that is not closed have the components that they have by themselves. -/
theorem ofLexemes_open_block {xs : List Lexeme} {kind : Opening}
    (hfree : ∀ c ∈ ofLexemes xs, c.isToken (.closing kind.closer) = false) (source : List Char) :
    ofLexemes (⟨.opening kind,source⟩ :: xs) = [.block kind source (ofLexemes xs) false] := by
  have hout : ∀ c ∈ (xs.foldl Nesting.push .empty).outermost,
      c.isToken (.closing kind.closer) = false := by
    intro c hc
    apply hfree c
    by_cases hf : (xs.foldl Nesting.push .empty).frames = []
    · rw [ofLexemes,Nesting.components_of_no_frames hf]
      simpa using hc
    · obtain ⟨k,s,d,he⟩ := Nesting.components_open hf
      rw [ofLexemes,he]
      simp [hc]
  have hopen : Nesting.empty.push ⟨.opening kind,source⟩ =
      Nesting.empty.inside ⟨kind,source,[]⟩ [] [] := rfl
  rw [ofLexemes,List.foldl_cons,hopen,Nesting.foldl_push_inside _ _ _ xs .empty hout,
    Nesting.components_inside]
  rfl

/-- The last component, if it is no open block, is complete with the last lexeme. -/
theorem exists_last_push {xs : List Lexeme} {cs : List Component} {c : Component}
    (h : ofLexemes xs = cs ++ [c]) (hc : c.isClosed = true) : Complete xs ∧ ∃ ys x, xs = ys ++ [x] ∧
      (ys.foldl Nesting.push .empty).push x = ⟨[],c :: cs.reverse⟩ := by
  have hcomplete : Complete xs := by
    by_cases hf : (xs.foldl Nesting.push .empty).frames = []
    · exact hf
    · obtain ⟨k,s,d,he⟩ := Nesting.components_open hf
      rw [ofLexemes,he] at h
      obtain ⟨_,hlast⟩ := List.append_inj' h rfl
      cases hlast
      cases hc
  refine ⟨hcomplete,?_⟩
  rcases List.eq_nil_or_concat xs with rfl | ⟨ys,x,rfl⟩
  · cases cs <;> cases h
  rw [List.concat_eq_append] at h hcomplete ⊢
  refine ⟨ys,x,rfl,?_⟩
  rw [ofLexemes,Nesting.components_of_no_frames hcomplete,List.reverse_eq_iff,List.reverse_append] at h
  rw [Complete] at hcomplete
  rw [List.foldl_append,List.foldl_cons,List.foldl_nil] at h hcomplete
  generalize (ys.foldl Nesting.push .empty).push x = n at h hcomplete ⊢
  obtain ⟨frames,outermost⟩ := n
  cases h
  cases hcomplete
  rfl

/-- Lexemes whose last component is a closed block end with the bracket of that block. -/
theorem eq_concat_of_closed_block {xs : List Lexeme} {cs : List Component} {kind : Opening}
    {source : List Char} {contents : List Component}
    (h : ofLexemes xs = cs ++ [.block kind source contents true]) :
    Complete xs ∧ ∃ ys x, xs = ys ++ [x] ∧ x.token = .closing kind.closer := by
  obtain ⟨hcomplete,ys,x,hxs,hlast⟩ := exists_last_push h rfl
  exact ⟨hcomplete,ys,x,hxs,Nesting.closing_of_push hlast⟩

/-- Lexemes whose last component is a token that closes nothing end with that token. -/
theorem eq_concat_of_plain {xs : List Lexeme} {cs : List Component} {t : Token} {source : List Char}
    (ht : ∀ b, t ≠ .closing b) (h : ofLexemes xs = cs ++ [.plain t source]) :
    Complete xs ∧ ∃ ys, xs = ys ++ [⟨t,source⟩] := by
  obtain ⟨hcomplete,ys,x,hxs,hlast⟩ := exists_last_push h rfl
  rw [Nesting.plain_of_push ht hlast] at hxs
  exact ⟨hcomplete,ys,hxs⟩

/-- The components before the last ones are those of the first lexemes. -/
theorem exists_prefix {xs : List Lexeme} {cs ds : List Component} (h : ofLexemes xs = cs ++ ds)
    (hds : ds ≠ []) : ∃ ys zs, xs = ys ++ zs ∧ Complete ys ∧ ofLexemes ys = cs := by
  obtain ⟨es,hout⟩ : ∃ es, (xs.foldl Nesting.push .empty).outermost.reverse = cs ++ es := by
    by_cases hf : (xs.foldl Nesting.push .empty).frames = []
    · exact ⟨ds,by rwa [ofLexemes,Nesting.components_of_no_frames hf] at h⟩
    · obtain ⟨kind,source,contents,he⟩ := Nesting.components_open hf
      obtain ⟨es,e,rfl⟩ := (List.eq_nil_or_concat ds).resolve_left hds
      rw [ofLexemes,he,List.concat_eq_append,← List.append_assoc] at h
      exact ⟨es,(List.append_inj' h rfl).1⟩
  obtain ⟨ys,zs,hxs,hys⟩ := Nesting.exists_prefix hout
  have hcomplete : Complete ys := by rw [Complete,hys]
  refine ⟨ys,zs,hxs,hcomplete,?_⟩
  rw [ofLexemes,Nesting.components_of_no_frames hcomplete,hys,List.reverse_reverse]

/-! ## Texts -/

theorem parse_nil : parse [] = [] := by
  rw [parse,lexemes]
  rfl

theorem text_ne_nil_of_mem_parse {s : List Char} {c : Component} (hc : c ∈ parse s) : c.text ≠ [] := by
  have hread : ∀ (xs : List Lexeme) (n : Nesting), n.Solid → (∀ x ∈ xs, x.source ≠ []) →
      (xs.foldl Nesting.push n).Solid := by
    intro xs
    induction xs with
    | nil => exact fun n hn _ => hn
    | cons x xs ih =>
      intro n hn hxs
      have hxs := List.forall_mem_cons.1 hxs
      exact ih _ (hn.push hxs.1) hxs.2
  have hend : ∀ (fs : List Frame) (n : Nesting), n.Solid →
      (fs.foldl (fun m _ => m.close false) n).Solid := by
    intro fs
    induction fs with
    | nil => exact fun n hn => hn
    | cons f fs ih => exact fun n hn => ih _ (hn.close false)
  have hempty : Nesting.empty.Solid := ⟨by simp [Nesting.empty],by simp [Nesting.empty]⟩
  have hsolid := hread (lexemes s) .empty hempty (lexemes_source_ne_nil s)
  exact (hend _ _ hsolid).1 c (List.mem_reverse.1 hc)

/-- A plain component of a text is one of its lexemes. -/
theorem mem_lexemes_of_mem_parse {s : List Char} {t : Token} {source : List Char}
    (h : .plain t source ∈ parse s) : ⟨t,source⟩ ∈ lexemes s := by
  have hread : ∀ (xs : List Lexeme) (n : Nesting), .plain t source ∈ (xs.foldl Nesting.push n).outermost →
      .plain t source ∈ n.outermost ∨ ⟨t,source⟩ ∈ xs := by
    intro xs
    induction xs with
    | nil => exact fun n hn => Or.inl hn
    | cons x xs ih =>
      intro n hn
      rcases ih _ hn with hx | hxs
      · rcases Nesting.plain_of_mem_push hx with hn | rfl
        · exact Or.inl hn
        · exact Or.inr List.mem_cons_self
      · exact Or.inr (List.mem_cons_of_mem _ hxs)
  have hend : ∀ (fs : List Frame) (n : Nesting),
      .plain t source ∈ (fs.foldl (fun m _ => m.close false) n).outermost →
      .plain t source ∈ n.outermost := by
    intro fs
    induction fs with
    | nil => exact fun n hn => hn
    | cons f fs ih => exact fun n hn => Nesting.plain_of_mem_close (ih _ hn)
  rcases hread _ _ (hend _ _ (List.mem_reverse.1 h)) with hempty | hmem
  · cases hempty
  · exact hmem

/-- The first components of a text are those of their own text, if it is sealed and the text of the
others may follow it. -/
theorem parse_textOf {s : List Char} {cs ds : List Component} (h : parse s = cs ++ ds) (hds : ds ≠ [])
    (hsealed : Sealed (textOf cs)) (hfollows : Token.Follows (textOf ds)) : parse (textOf cs) = cs := by
  obtain ⟨ys,zs,hxs,_,hys⟩ := exists_prefix h hds
  have hs : s = textOf cs ++ textOf ds := by rw [← textOf_append,← h,textOf_parse]
  have hsource : ys.flatMap Lexeme.source = textOf cs := by
    have hclosing : ∀ x ∈ ys, ∀ b, x.token = .closing b → x.source = closingText b :=
      fun x hx => lexemes_closing s x (by rw [hxs]; exact List.mem_append_left zs hx)
    rw [← hys,ofLexemes,Nesting.text_components,Nesting.text_foldl _ hclosing]
    rfl
  have hlexemes : lexemes (textOf cs) = ys := hsealed.lexemes_eq hfollows (hs ▸ hxs) hsource
  rw [parse,hlexemes,hys]

/-- The components of two texts with a mark in between, the first of them closed. -/
theorem parse_append_mark {s : List Char} (hs : Sealed s) (hclosed : ∀ c ∈ parse s, c.isClosed = true)
    {c : Char} (hc : c ∈ Token.marks) (ho : ∀ kind, Token.markToken c ≠ .opening kind)
    (hb : ∀ b, Token.markToken c ≠ .closing b) (t : List Char) :
    parse (s ++ c :: t) = parse s ++ .plain (Token.markToken c) [c] :: parse t := by
  rw [parse,lexemes_append_mark hs hc,ofLexemes_append (complete_of_isClosed hclosed),
    ofLexemes_plain ho hb]
  rfl

/-- The components of a text that ends with a mark as its last token do not depend on what follows. -/
theorem parse_append_of_last {s : List Char} {ys : List Lexeme} {x : Lexeme} {c : Char}
    (hc : c ∈ Token.marks) (hxs : lexemes s = ys ++ [x]) (hx : x.source = [c])
    (hcomplete : Complete (lexemes s)) (t : List Char) : parse (s ++ t) = parse s ++ parse t := by
  have hs : s = ys.flatMap Lexeme.source ++ [c] := by
    rw [← lexemes_source s,hxs,List.flatMap_append]
    simp [hx]
  have hlexemes : lexemes (s ++ t) = lexemes s ++ lexemes t := by
    rw [hs] at hxs ⊢
    rw [List.append_assoc]
    exact lexemes_append_of_last hc hxs hx t
  rw [parse,hlexemes,ofLexemes_append hcomplete]
  rfl

/-- The components of a text that ends with a closed curly block do not depend on what follows. -/
theorem parse_append {s : List Char} {cs : List Component} {source : List Char}
    {contents : List Component}
    (h : parse s = cs ++ [.block (.bracket .curly) source contents true]) (t : List Char) :
    parse (s ++ t) = parse s ++ parse t := by
  obtain ⟨hcomplete,ys,x,hxs,hx⟩ := eq_concat_of_closed_block h
  have hsource : x.source = ['\x7d'] :=
    lexemes_closing s x (by simp [hxs]) .curly hx
  exact parse_append_of_last (by decide) hxs hsource hcomplete t

/-- The components of a text that ends with a semicolon do not depend on what follows. -/
theorem parse_append_semicolon {s : List Char} {cs : List Component} {source : List Char}
    (h : parse s = cs ++ [.plain .semicolon source]) (t : List Char) :
    parse (s ++ t) = parse s ++ parse t := by
  obtain ⟨hcomplete,ys,hxs⟩ := eq_concat_of_plain (by simp) h
  have hsource : source = [';'] := lexemes_semicolon s ⟨.semicolon,source⟩ (by simp [hxs]) rfl
  exact parse_append_of_last (by decide) hxs hsource hcomplete t

/-- A text that is sealed, whose blocks are all closed and that has no curly bracket left over is the
contents of the curly block around it. -/
structure Enclosable (s : List Char) : Prop where
  isSealed : Sealed s
  closed : ∀ c ∈ parse s, c.isClosed = true
  free : ∀ c ∈ parse s, c.isToken (.closing .curly) = false

theorem parse_block {s : List Char} (h : Enclosable s) (t : List Char) :
    parse ('\x7b' :: (s ++ '\x7d' :: t)) =
      .block (.bracket .curly) ['\x7b'] (parse s) true :: parse t := by
  have hlexemes : lexemes ('\x7b' :: (s ++ '\x7d' :: t)) =
      ⟨.opening (.bracket .curly),['\x7b']⟩ ::
        (lexemes s ++ ⟨.closing .curly,['\x7d']⟩ :: lexemes t) := by
    rw [lexemes_mark (by decide),lexemes_append_mark h.isSealed (by decide)]
    rfl
  have hfree : ∀ c ∈ ofLexemes (lexemes s),
      c.isToken (.closing (Opening.bracket .curly).closer) = false := h.free
  rw [parse,hlexemes]
  exact ofLexemes_block (complete_of_isClosed h.closed) hfree _ _ _

/-- A text that has no curly bracket left over is the contents of the curly block before it that it does
not close. -/
theorem parse_open_block {s : List Char} (hfree : ∀ c ∈ parse s, c.isToken (.closing .curly) = false) :
    parse ('\x7b' :: s) = [.block (.bracket .curly) ['\x7b'] (parse s) false] := by
  have hlexemes : lexemes ('\x7b' :: s) = ⟨.opening (.bracket .curly),['\x7b']⟩ :: lexemes s :=
    lexemes_mark (by decide) s
  have hfree : ∀ c ∈ ofLexemes (lexemes s),
      c.isToken (.closing (Opening.bracket .curly).closer) = false := hfree
  rw [parse,hlexemes]
  exact ofLexemes_open_block hfree _

open Token in
/-- A text that is not sealed ends with a token that is no bracket, and so does the text with a curly
bracket after it, which is part of that token. -/
theorem parse_curly_of_not_sealed {s : List Char} (hs : ¬Sealed s)
    (hclosed : ∀ c ∈ parse s, c.isClosed = true) : ∃ cs t source u,
    parse s = cs ++ [.plain t source] ∧
    parse (s ++ ['\x7d']) = cs ++ [.plain u (source ++ ['\x7d'])] ∧ ∀ b, u ≠ .closing b := by
  obtain ⟨xs,c,r,ho,hself,hbreak⟩ := exists_open_of_not_sealed hs
  have hcurly : IsBreak '\x7d' := isBreak_of_mark (by decide)
  have hend := ho.2 '\x7d' hcurly
  have hlexemes : lexemes s = xs ++ [⟨(next c r).1,c :: r⟩] := by
    rw [hself,lexemes_of_rest_nil ho.1]
  have hlexemes' : lexemes (s ++ ['\x7d']) = xs ++ [⟨(next c (r ++ ['\x7d'])).1,c :: (r ++ ['\x7d'])⟩] := by
    rw [hbreak _ hcurly,lexemes_of_rest_nil hend]
  have hcomplete : Complete (xs ++ [⟨(next c r).1,c :: r⟩]) := by
    apply complete_of_isClosed
    rw [← hlexemes]
    exact hclosed
  have hopening : ∀ kind, (next c (r ++ ['\x7d'])).1 ≠ .opening kind := by
    intro kind h
    obtain ⟨b,hb,hsuffix⟩ := next_opening h
    rw [hend,← List.cons_append] at hsuffix
    obtain ⟨p,hp⟩ := hsuffix
    obtain ⟨_,hlast⟩ := List.append_inj' hp rfl
    cases hlast
    exact absurd hb (by decide)
  have hclosing : ∀ b, (next c (r ++ ['\x7d'])).1 ≠ .closing b := by
    intro b h
    have hrest := (next_closing h).1
    rw [hend] at hrest
    exact absurd hrest (by simp)
  have hplain : ∀ kind, (next c r).1 ≠ .opening kind := by
    intro kind h
    rw [Complete,List.foldl_append,h] at hcomplete
    cases hcomplete
  have hplain' : ∀ b, (next c r).1 ≠ .closing b := by
    intro b h
    obtain ⟨hr,hc⟩ := next_closing h
    rw [ho.1] at hr
    subst hr
    have htake : (next c ['\x7d']).2 = ['\x7d'] := by
      cases b <;> cases hc
      · rw [next_round (Or.inr rfl)]
      · rw [next_mark (by decide)]
      · rw [next_mark (by decide)]
    exact absurd (hend.symm.trans htake) (by simp)
  have hbefore : Complete xs := by
    rw [Complete,List.foldl_append,List.foldl_cons,List.foldl_nil,
      Nesting.push_plain hplain hplain'] at hcomplete
    exact Nesting.frames_of_add hcomplete
  refine ⟨ofLexemes xs,(next c r).1,c :: r,_,?_,?_,hclosing⟩
  · rw [parse,hlexemes,ofLexemes_append hbefore,ofLexemes_plain hplain hplain']
    rfl
  · rw [parse,hlexemes',ofLexemes_append hbefore,ofLexemes_plain hopening hclosing]
    rfl

end Component

end StyleExpansion
