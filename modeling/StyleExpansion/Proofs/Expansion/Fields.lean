import Mathlib.Data.List.Forall2
import StyleExpansion.Proofs.Expansion.Names
import StyleExpansion.Proofs.Matching

/-! # Fields

Most longhands are fields: the share of one alternative, or a default. A pattern that covers the
alternative and accepts the default is fitted by whatever is shared out. Fields of layers fit layer by
layer and are joined.
-/
namespace StyleExpansion
open Pattern

abbrev AllFit (ps : List Pattern) (ws : List Value) : Prop :=
  List.Forall₂ (fun p w => p.Fits (Value.flatten w)) ps ws

def coverLevels : Nat := 12

abbrev AllCovered (ps qs : List Pattern) : Prop :=
  List.Forall₂ (fun p q => covered coverLevels p q = true) ps qs

theorem AllFit.covered {ps qs : List Pattern} {ws : List Value} (h : AllFit ps ws)
    (hq : AllCovered ps qs) : AllFit qs ws := by
  induction h generalizing qs with
  | nil =>
    cases hq
    exact .nil
  | cons hp _ ih =>
    cases hq with
    | cons hq hqs => exact .cons (hp.covered hq) (ih hqs)

def isKnown (p : Pattern) (w : Value) : Bool :=
  !w.flatten.isEmpty && (w.flatten.all fun v => !v.isSubstitution) && p.accepts w.flatten

theorem fits_of_isKnown {p : Pattern} {w : Value} (h : isKnown p w = true) : p.Fits w.flatten := by
  simp only [isKnown,Bool.and_eq_true] at h
  obtain ⟨⟨hf,hp⟩,ha⟩ := h
  refine .of_accepts ha (by simpa using hf) ?_
  intro v hv
  simpa using List.all_eq_true.1 hp v hv

theorem fits_getD {p : Pattern} {o : Option Value} {d : Value} (hd : p.Fits d.flatten)
    (ho : ∀ w, o = some w → p.Fits w.flatten) : p.Fits (o.getD d).flatten := by
  cases o with
  | none => exact hd
  | some w => exact ho w rfl

structure Field where
  index : Nat
  default : Value

namespace Field

def value (f : Field) (s : Shares) : Value := s.get f.index f.default

def isSound (alternatives : List Pattern) (p : Pattern) (f : Field) : Bool :=
  isKnown p f.default && alternatives[f.index]?.any fun q => covered coverLevels q p

theorem value_fits {alternatives : List Pattern} {p : Pattern} {f : Field}
    (h : f.isSound alternatives p = true) {v : Value} (hv : Plain v.flatten) :
    p.Fits (f.value (v.share alternatives)).flatten := by
  rw [isSound,Bool.and_eq_true] at h
  apply fits_getD (o := (v.share alternatives).get? f.index) (fits_of_isKnown h.1)
  intro w hw
  obtain ⟨q,hq,hfit⟩ := Value.share_fits hw hv
  have hc := h.2
  rw [hq,Option.any_some] at hc
  exact hfit.covered hc

end Field

structure Fields (ps : List Pattern) where
  alternatives : List Pattern
  fields : List Field
  sound : List.Forall₂ (fun p f => f.isSound alternatives p = true) ps fields

namespace Fields

variable {ps : List Pattern}

def read (fs : Fields ps) (v : Value) : List Value :=
  fs.fields.map fun f => f.value (v.share fs.alternatives)

theorem fits (fs : Fields ps) {v : Value} (hv : Plain v.flatten) : AllFit ps (fs.read v) :=
  List.forall₂_map_right_iff.2 (fs.sound.imp fun _ _ hs => Field.value_fits hs hv)

theorem defaults_fit (fs : Fields ps) : AllFit ps (fs.fields.map Field.default) := by
  refine List.forall₂_map_right_iff.2 (fs.sound.imp ?_)
  intro p f hs
  rw [Field.isSound,Bool.and_eq_true] at hs
  exact fits_of_isKnown hs.1

end Fields

structure Constants (ps : List Pattern) where
  values : List Value
  known : List.Forall₂ (fun p w => isKnown p w = true) ps values

theorem Constants.fits {ps : List Pattern} (c : Constants ps) : AllFit ps c.values :=
  c.known.imp fun _ _ hk => fits_of_isKnown hk

/-! ## Layers -/

/-- Where the fields of every layer fit, the joined fields fit the repetitions. -/
theorem Value.layered_fits {n : Nat} {read : Value → Vector Value n} {v : Value} {ps : List Pattern}
    (hv : v.layers ≠ []) (h : ∀ w ∈ v.layers, AllFit ps (read w).toList) :
    AllFit (ps.map listed) (v.layered read).toList := by
  obtain ⟨first,hfirst⟩ := List.exists_mem_of_ne_nil _ hv
  have hlen : ps.length = n := by simpa using (h first hfirst).length_eq
  refine List.forall₂_iff_get.2 ⟨by simp [hlen],?_⟩
  intro i hi hi'
  have hin : i < n := by simpa using hi'
  have hrow : (v.layered read).toList.get ⟨i,hi'⟩ =
      join "," ((v.layers.map read).map fun row => row[i]) := by
    simp [layered]
  rw [hrow]
  simp only [List.get_eq_getElem,List.getElem_map]
  refine Fits.join ?_ (by simpa using hv)
  intro r hr
  obtain ⟨row,hrow,rfl⟩ := List.mem_map.1 hr
  obtain ⟨w,hw,rfl⟩ := List.mem_map.1 hrow
  have hfit := (List.forall₂_iff_get.1 (h w hw)).2 i (by omega) (by simpa using hin)
  simpa using hfit

theorem Value.plain_of_mem_layers {v w : Value} (hv : Plain v.flatten) (hw : w ∈ v.layers) :
    Plain w.flatten := fun n hn => hv n ((flatten_of_mem_segments hw).2 hn)

/-! ## Longhands -/

def AllTyped (names : List String) (ws : List Value) : Prop :=
  List.Forall₂ (fun name w => isValueOf name (Value.flatten w) = true) names ws

theorem AllFit.typed {names : List String} {ws : List Value} (h : AllFit (names.map property) ws)
    (hn : ∀ name ∈ names, name.toLower = name) : AllTyped names ws := by
  induction names generalizing ws with
  | nil =>
    cases h
    exact .nil
  | cons name names ih =>
    cases h with
    | cons hf hfs =>
      refine .cons (hf.isValueOf (hn name List.mem_cons_self)) (ih hfs ?_)
      intro m hm
      exact hn m (List.mem_cons_of_mem _ hm)

namespace Shorthand

def Typed (s : Shorthand) (v : Value) : Prop := AllTyped s.longhands (s.assign v).toList

theorem Typed.mem {s : Shorthand} {v : Value} (h : s.Typed v) {l : Longhand}
    (hl : l ∈ s.expand v) : isValueOf l.property l.value.flatten = true := by
  unfold Typed AllTyped at h
  rw [expand] at hl
  generalize (s.assign v).toList = ws at h hl
  generalize s.longhands = names at h hl
  induction h with
  | nil => cases hl
  | cons hv _ ih =>
    rcases List.mem_cons.1 hl with rfl | hl
    · exact hv
    · exact ih hl

theorem typed_of_allFit {s : Shorthand} {v : Value} (hs : s ∈ shorthands)
    (h : AllFit (s.longhands.map property) (s.assign v).toList) : s.Typed v :=
  h.typed (isSettled_of_mem hs).longhands

end Shorthand

end StyleExpansion
