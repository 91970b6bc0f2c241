import StyleExpansion.Proofs.Expansion.Fields

/-! # Parts between slashes

A share that is matched by a notation with slashes is split at them again. None of the patterns between
the slashes has a slash of its own, so the runs are the parts that were matched.
-/
namespace StyleExpansion.Shorthand
open Pattern Value

structure IsPart (p : Pattern) (r : List Value) : Prop where
  free : ∀ v ∈ r, v.isOperator "/" = false
  fits : r ≠ [] → p.Fits r

structure Slashless (p : Pattern) : Prop where
  free : p.avoids "/" 12 = true
  nests : p.withinLimits levels = true

theorem isPart_nil (p : Pattern) : IsPart p [] := by
  refine ⟨?_,fun h => absurd rfl h⟩
  intro v hv
  cases hv

theorem Slashless.isPart {p : Pattern} (hp : Slashless p) {vs : List Value} (hv : Plain vs)
    {i j : Nat} (h : p.Derives vs i j) : IsPart p (between vs i j) := by
  refine ⟨(avoids_sound hp.free h).between,?_⟩
  intro hne
  apply h.fits hp.nests hv
  by_contra hij
  exact hne (between_eq_nil (Nat.le_of_not_lt hij))

def HasParts (ps : List Pattern) (vs : List Value) : Prop :=
  ∃ qs, qs <+: ps ∧ List.Forall₂ IsPart qs (runs "/" vs)

theorem HasParts.get {ps : List Pattern} {vs r : List Value} (h : HasParts ps vs) {i : Nat}
    (hr : (runs "/" vs)[i]? = some r) : ∃ p, ps[i]? = some p ∧ IsPart p r := by
  obtain ⟨qs,⟨rest,rfl⟩,hparts⟩ := h
  obtain ⟨hi,rfl⟩ := List.getElem?_eq_some_iff.1 hr
  have hlen : i < qs.length := by
    rw [hparts.length_eq]
    exact hi
  refine ⟨qs[i],?_,(List.forall₂_iff_get.1 hparts).2 i hlen hi⟩
  rw [List.getElem?_append_left hlen,List.getElem?_eq_getElem hlen]

theorem hasParts_one {p : Pattern} {ps : List Pattern} {vs : List Value} (h : IsPart p vs) :
    HasParts (p :: ps) vs := by
  refine ⟨[p],by simp,?_⟩
  rw [runs_of_free h.free]
  exact .cons h .nil

theorem HasParts.cons {p : Pattern} {ps : List Pattern} {r vs : List Value} (hr : IsPart p r)
    (h : HasParts ps vs) : HasParts (p :: ps) (r ++ operator "/" :: vs) := by
  obtain ⟨qs,hpre,hparts⟩ := h
  refine ⟨p :: qs,by simpa using hpre,?_⟩
  rw [runs_append hr.free]
  exact .cons hr hparts

/-- A position and a size are the parts of their notation, and neither is empty. -/
theorem positionNotation_parts {position : String} {vs : List Value}
    (hp : Slashless (.type position)) (hs : Slashless (.type "bg-size"))
    (h : (positionNotation position).Fits vs) :
    HasParts [.type position,.type "bg-size"] vs ∧ ∀ r ∈ runs "/" vs, r ≠ [] := by
  obtain ⟨m,hfirst,hrest⟩ := h.derives.pair
  have hpart := hp.isPart h.plain hfirst
  have hne := (hfirst.fits hp.nests h.plain (type_lt hfirst)).filled
  have hall := between_zero_length vs
  rcases hrest.of_optional with rfl | ⟨hlt,hrest⟩
  · rw [hall] at hpart hne
    refine ⟨hasParts_one hpart,?_⟩
    rw [runs_of_free hpart.free]
    simpa using hne
  · obtain ⟨_,hl,hsize⟩ := Derives.pair hrest
    obtain ⟨rfl,hop⟩ := hl.of_literal
    have hsecond := hs.isPart h.plain hsize
    have hne' := (hsize.fits hs.nests h.plain (type_lt hsize)).filled
    rw [← hall,between_append hop (Nat.zero_le m) hlt]
    refine ⟨.cons hpart (hasParts_one hsecond),?_⟩
    rw [runs_append hpart.free,runs_of_free hsecond.free]
    simp [hne,hne']

theorem positionPart_fits {position : String} {w x : Value} {i : Nat}
    (hp : Slashless (.type position)) (hs : Slashless (.type "bg-size"))
    (h : (positionNotation position).Fits w.flatten) (hx : positionPart (some w) i = some x) :
    ∃ p, [Pattern.type position,.type "bg-size"][i]? = some p ∧ p.Fits x.flatten := by
  obtain ⟨hparts,hne⟩ := positionNotation_parts hp hs h
  rw [positionPart,Option.bind_some,segments_of_runs hne,List.getElem?_map] at hx
  obtain ⟨r,hr,rfl⟩ := Option.map_eq_some_iff.1 hx
  obtain ⟨p,hi,hpart⟩ := hparts.get hr
  refine ⟨p,hi,?_⟩
  rw [flatten_of_mem_runs (List.mem_of_getElem? hr)]
  exact hpart.fits (hne r (List.mem_of_getElem? hr))

/-- A slice, a width and an outset are the parts of their notation. The width may be empty. -/
theorem sliceNotation_parts {width outset slice : String} {vs : List Value}
    (hn : ∀ name ∈ [slice,width,outset], Slashless (property name))
    (h : (sliceNotation width outset slice).Fits vs) :
    HasParts [property slice,property width,property outset] vs := by
  obtain ⟨m,hfirst,hrest⟩ := h.derives.pair
  have hpart := (hn slice (by simp)).isPart h.plain hfirst
  rw [← between_zero_length vs]
  rcases hrest.of_optional with rfl | ⟨hlt,hrest⟩
  · exact hasParts_one hpart
  · cases hrest with
    | oneOf hmem hrest =>
      rw [List.mem_cons,List.mem_singleton] at hmem
      rcases hmem with rfl | rfl
      · obtain ⟨_,hl,hw⟩ := Derives.pair hrest
        obtain ⟨rfl,hop⟩ := hl.of_literal
        rw [between_append hop (Nat.zero_le m) hlt]
        exact .cons hpart (hasParts_one ((hn width (by simp)).isPart h.plain hw))
      · obtain ⟨_,hl,hrest⟩ := Derives.cons hrest
        obtain ⟨rfl,hop⟩ := hl.of_literal
        obtain ⟨k,hw,hrest⟩ := hrest.cons
        obtain ⟨_,hl,ho⟩ := hrest.pair
        obtain ⟨rfl,hop'⟩ := hl.of_literal
        have hk := hw.le
        have hlast := ho.le
        have hsecond : IsPart (property width) (between vs (m + 1) k) := by
          rcases hw.of_optional with rfl | ⟨_,hw⟩
          · rw [between_eq_nil (Nat.le_refl _)]
            exact isPart_nil _
          · exact (hn width (by simp)).isPart h.plain hw
        rw [between_append hop (Nat.zero_le m) hlt,between_append hop' hk (by omega)]
        exact .cons hpart (.cons hsecond (hasParts_one ((hn outset (by simp)).isPart h.plain ho)))

end StyleExpansion.Shorthand
