import Mathlib.Data.List.TakeWhile
import StyleExpansion.Proofs.Selector.Scan

/-! # The language of simple selectors

What a selector with a target looks like, apart from any way of reading it: white space, a class or a
type, a chain of pseudo-classes and pseudo-elements, white space. Exactly the selectors of this form have
a target, and the target says what was written.
-/
namespace StyleExpansion.Selector
open Component

/-- A pseudo-class or a pseudo-element: whether two colons are before its name, and its arguments if it
is a function. -/
structure Pseudo where
  doubled : Bool
  name : String
  arguments : Option (List Component)

namespace Pseudo

inductive Named : String → Option (List Component) → Component → Prop
  | ident (name : String) (source : List Char) : Named name none (.plain (.ident name) source)
  | function (name : String) (source : List Char) (arguments : List Component) (closed : Bool) :
    Named name (some arguments) (.block (.function name) source arguments closed)

inductive Written : Pseudo → List Component → Prop
  | single {name : String} {arguments : Option (List Component)} {c : Component} (source : List Char)
    (h : Named name arguments c) : Written ⟨false,name,arguments⟩ [.plain .colon source,c]
  | double {name : String} {arguments : Option (List Component)} {c : Component}
    (first second : List Char) (h : Named name arguments c) :
    Written ⟨true,name,arguments⟩ [.plain .colon first,.plain .colon second,c]

def isElement (p : Pseudo) : Bool :=
  p.doubled || ["before","after","first-line","first-letter"].contains p.name.toLower

def argumentsText : Option (List Component) → String
  | none => ""
  | some arguments => "(" ++ String.ofList (Text.trim (textOf arguments)) ++ ")"

/-- How a state names a pseudo-class or a pseudo-element. -/
def text (p : Pseudo) : String :=
  (if p.isElement then "::" else ":") ++ p.name.toLower ++ argumentsText p.arguments

inductive Chain : List Pseudo → List Component → Prop
  | nil : Chain [] []
  | cons {p : Pseudo} {ps : List Pseudo} {cs ds : List Component} (h : Written p cs) (hs : Chain ps ds) :
    Chain (p :: ps) (cs ++ ds)

def chainText (ps : List Pseudo) : String := String.join (ps.map text)

def state (ps : List Pseudo) : Option String := if ps = [] then none else some (chainText ps)

end Pseudo

/-- The components of a class, or of a type where types count, and what it is called in a target. -/
inductive Base (types : Bool) : String → List Component → Prop
  | ofClass (name : String) (dot source : List Char) :
    Base types name [.plain (.delim '.') dot,.plain (.ident name) source]
  | ofType (name : String) (source : List Char) (h : types = true) :
    Base types name.toLower [.plain (.ident name) source]

def IsSpace (c : Component) : Prop := ∃ source, c = .plain .space source

/-- The components are a simple selector, comments apart, of this target. -/
def Simple (types : Bool) (cs : List Component) (t : Target) : Prop :=
  ∃ before base chain after ps,
    (cs.filter fun c => !c.isComment) = before ++ base ++ chain ++ after ∧
    (∀ c ∈ before, IsSpace c) ∧ Base types t.selector base ∧ Pseudo.Chain ps chain ∧
    (∀ c ∈ after, IsSpace c) ∧ t.state = Pseudo.state ps

/-! ## Pseudo-classes and pseudo-elements -/

theorem isSpace_iff {c : Component} (h : c.isComment = false) : IsSpace c ↔ c.isSkipped = true := by
  constructor
  · rintro ⟨source,rfl⟩
    rfl
  · intro hskip
    match c,h,hskip with
    | .plain .space source,_,_ => exact ⟨source,rfl⟩

theorem pseudoText_toList (doubled : Bool) (name : String) :
    pseudoText doubled name =
      ((if (⟨doubled,name,none⟩ : Pseudo).isElement then "::" else ":") ++ name.toLower).toList := by
  rw [pseudoText,String.toList_append]
  refine congrArg (· ++ _) ?_
  unfold Pseudo.isElement oneColonElements
  split <;> rfl

theorem readPseudo_named {name : String} {arguments : Option (List Component)} {c : Component}
    (h : Pseudo.Named name arguments c) (doubled : Bool) :
    readPseudo doubled c = some (Pseudo.text ⟨doubled,name,arguments⟩).toList := by
  cases h <;>
    simp [readPseudo,pseudoText_toList,Pseudo.text,Pseudo.argumentsText,Pseudo.isElement,callText]

theorem exists_named {doubled : Bool} {c : Component} {s : List Char} (h : readPseudo doubled c = some s) :
    ∃ name arguments, Pseudo.Named name arguments c ∧
      s = (Pseudo.text ⟨doubled,name,arguments⟩).toList := by
  have hnamed : ∃ name arguments, Pseudo.Named name arguments c := by
    unfold readPseudo at h
    split at h
    · exact ⟨_,_,.ident _ _⟩
    · exact ⟨_,_,.function _ _ _ _⟩
    · cases h
  obtain ⟨name,arguments,hnamed⟩ := hnamed
  exact ⟨name,arguments,hnamed,Option.some.inj (h.symm.trans (readPseudo_named hnamed doubled))⟩

/-! ## Chains -/

/-- One step of reading a state: a pseudo-class or a pseudo-element is in front of the rest. -/
theorem readState_written {p : Pseudo} {cs : List Component} (h : p.Written cs) (ds : List Component) :
    readState (cs ++ ds) = (readState ds).map (p.text.toList ++ ·) := by
  cases h with
  | @single name arguments c source h =>
    have hread := readPseudo_named h false
    cases h <;> simp [readState,hread]
  | @double name arguments c first second h =>
    have hread := readPseudo_named h true
    simp [readState,hread]

theorem readState_spaces {cs : List Component} (h : ∀ c ∈ cs, IsSpace c) : readState cs = some [] := by
  cases cs with
  | nil => rfl
  | cons c cs =>
    obtain ⟨source,rfl⟩ := h c List.mem_cons_self
    have hrest : allSkipped cs = true := by
      refine List.all_eq_true.2 fun d hd => ?_
      obtain ⟨source,rfl⟩ := h d (List.mem_cons_of_mem _ hd)
      rfl
    simp [readState,hrest,isSkipped,Token.isSkipped]

def IsState (cs : List Component) (s : List Char) : Prop :=
  ∃ ps chain after, cs = chain ++ after ∧ Pseudo.Chain ps chain ∧ (∀ c ∈ after, IsSpace c) ∧
    s = (Pseudo.chainText ps).toList

theorem chainText_cons (p : Pseudo) (ps : List Pseudo) :
    (Pseudo.chainText (p :: ps)).toList = p.text.toList ++ (Pseudo.chainText ps).toList := by
  simp [Pseudo.chainText]

theorem IsState.cons {p : Pseudo} {cs ds : List Component} {s : List Char} (h : p.Written cs)
    (hs : IsState ds s) : IsState (cs ++ ds) (p.text.toList ++ s) := by
  obtain ⟨ps,chain,after,rfl,hchain,hafter,rfl⟩ := hs
  exact ⟨p :: ps,cs ++ chain,after,by simp,.cons h hchain,hafter,(chainText_cons p ps).symm⟩

theorem readState_of_isState {cs : List Component} {s : List Char} (h : IsState cs s) :
    readState cs = some s := by
  obtain ⟨ps,chain,after,rfl,hchain,hafter,rfl⟩ := h
  induction hchain with
  | nil => exact readState_spaces hafter
  | cons h _ ih => rw [List.append_assoc,readState_written h,ih,chainText_cons,Option.map_some]

theorem isState_of_readPseudo (colons : List Component) {doubled : Bool} {c : Component}
    {cs : List Component} {s : List Char}
    (hread : ((readPseudo doubled c).bind fun s => (readState cs).map (s ++ ·)) = some s)
    (hcolons : ∀ {name arguments}, Pseudo.Named name arguments c →
      Pseudo.Written ⟨doubled,name,arguments⟩ (colons ++ [c]))
    (ih : ∀ {s}, readState cs = some s → IsState cs s) : IsState (colons ++ c :: cs) s := by
  obtain ⟨_,hpseudo,hmap⟩ := Option.bind_eq_some_iff.1 hread
  obtain ⟨rest,hrest,rfl⟩ := Option.map_eq_some_iff.1 hmap
  obtain ⟨name,arguments,hnamed,rfl⟩ := exists_named hpseudo
  simpa using IsState.cons (hcolons hnamed) (ih hrest)

/-- What is read as a state is a chain with white space after it. -/
theorem isState_of_readState {cs : List Component} {s : List Char} (hread : readState cs = some s)
    (hcs : ∀ c ∈ cs, c.isComment = false) : IsState cs s := by
  induction cs using readState.induct generalizing s with
  | case1 =>
    obtain rfl := Option.some.inj hread
    exact ⟨[],[],[],rfl,.nil,by simp,rfl⟩
  | case2 first second c cs ih =>
    rw [readState] at hread
    exact isState_of_readPseudo [_,_] hread (.double first second) fun h =>
      ih h fun d hd => hcs d (by simp [hd])
  | case3 source c cs hcolon ih =>
    rw [readState.eq_3 _ _ _ hcolon] at hread
    exact isState_of_readPseudo [_] hread (.single source) fun h =>
      ih h fun d hd => hcs d (by simp [hd])
  | case4 c cs hdouble hsingle hskip =>
    rw [readState.eq_4 _ _ hdouble hsingle,if_pos hskip] at hread
    obtain rfl := Option.some.inj hread
    rw [Bool.and_eq_true] at hskip
    refine ⟨[],[],_,rfl,.nil,fun d hd => (isSpace_iff (hcs d hd)).2 ?_,rfl⟩
    rcases List.mem_cons.1 hd with rfl | hd
    · exact hskip.1
    · exact List.all_eq_true.1 hskip.2 d hd
  | case5 c cs hdouble hsingle hskip =>
    rw [readState.eq_4 _ _ hdouble hsingle,if_neg hskip] at hread
    cases hread

/-! ## Targets -/

theorem text_ne_nil (p : Pseudo) : p.text.toList ≠ [] := by
  unfold Pseudo.text
  split <;> simp

theorem state_targetOf (selector : String) (ps : List Pseudo) :
    (targetOf selector (Pseudo.chainText ps).toList).state = Pseudo.state ps := by
  cases ps with
  | nil => rfl
  | cons p ps =>
    have hne : (Pseudo.chainText (p :: ps)).toList ≠ [] := by
      rw [chainText_cons]
      exact List.append_ne_nil_of_left_ne_nil (text_ne_nil p) _
    rw [targetOf,List.isEmpty_eq_false_iff.2 hne,String.ofList_toList]
    rfl

/-- White space in front of a class or a type is passed over. -/
theorem dropWhile_before {types : Bool} {name : String} {before base rest : List Component}
    (hbefore : ∀ c ∈ before, IsSpace c) (hbase : Base types name base) :
    (before ++ (base ++ rest)).dropWhile isSkipped = base ++ rest := by
  rw [List.dropWhile_append_of_pos]
  · cases hbase <;> rfl
  · intro c hc
    obtain ⟨source,rfl⟩ := hbefore c hc
    rfl

theorem readTarget_of_simple {types : Bool} {cs : List Component} {t : Target}
    (h : Simple types cs t) : readTarget types cs = some t := by
  obtain ⟨before,base,chain,after,ps,hcs,hbefore,hbase,hchain,hafter,hstate⟩ := h
  have hread := readState_of_isState ⟨ps,chain,after,rfl,hchain,hafter,rfl⟩
  have htarget : targetOf t.selector (Pseudo.chainText ps).toList = t :=
    congrArg (Target.mk t.selector) ((state_targetOf t.selector ps).trans hstate.symm)
  rw [List.append_assoc,List.append_assoc] at hcs
  rw [readTarget_eq_formTarget]
  unfold formTarget uncommented
  rw [hcs,dropWhile_before hbefore hbase]
  revert htarget
  generalize t.selector = selector at hbase
  intro htarget
  cases hbase with
  | ofClass dot source => exact (congrArg (Option.map _) hread).trans (congrArg some htarget)
  | ofType name source htypes =>
    exact (if_pos htypes).trans ((congrArg (Option.map _) hread).trans (congrArg some htarget))

/-- A base and what is read as a state after it make a simple selector. -/
theorem simple_of_readState {types : Bool} {name : String} {cs base rest : List Component} {s : List Char}
    (hcs : uncommented cs = base ++ rest)
    (hbase : Base types name base) (hread : readState rest = some s) :
    Simple types cs (targetOf name s) := by
  have hplain : ∀ c ∈ cs.filter fun c => !c.isComment, c.isComment = false := by
    intro c hc
    simpa using (List.mem_filter.1 hc).2
  have hall := List.takeWhile_append_dropWhile (p := isSkipped) (l := cs.filter fun c => !c.isComment)
  rw [← uncommented,hcs] at hall
  have hrest : ∀ c ∈ rest, c.isComment = false := fun c hc => hplain c (by rw [← hall]; simp [hc])
  obtain ⟨ps,chain,after,rfl,hchain,hafter,rfl⟩ := isState_of_readState hread hrest
  refine ⟨_,base,chain,after,ps,by simpa using hall.symm,fun c hc => ?_,hbase,hchain,hafter,
    state_targetOf name ps⟩
  exact (isSpace_iff (hplain c ((List.takeWhile_sublist _).subset hc))).2 (List.mem_takeWhile_imp hc)

/-- A selector has a target exactly if it is a simple selector, and the target is the one written: the
class without its escapes or the type in small letters, and the pseudo-classes and pseudo-elements. -/
theorem readTarget_eq_some_iff (types : Bool) (cs : List Component) (t : Target) :
    readTarget types cs = some t ↔ Simple types cs t := by
  refine ⟨fun h => ?_,readTarget_of_simple⟩
  rw [readTarget_eq_formTarget] at h
  unfold formTarget at h
  split at h
  · next dot name source rest hcs =>
    obtain ⟨s,hread,rfl⟩ := Option.map_eq_some_iff.1 h
    exact simple_of_readState hcs (.ofClass name dot source) hread
  · next name source rest hcs =>
    split at h
    · next htypes =>
      obtain ⟨s,hread,rfl⟩ := Option.map_eq_some_iff.1 h
      exact simple_of_readState hcs (.ofType name source htypes) hread
    · cases h
  · cases h

example : readTarget false (ofText " .md\\:flex:Not( .a )/**/:before ") =
    some ⟨"md:flex",some ":not(.a)::before"⟩ := by cbv

end StyleExpansion.Selector
