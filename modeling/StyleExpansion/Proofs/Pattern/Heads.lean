import StyleExpansion.Proofs.Pattern.Extent

/-! # First nodes

What the first node of nodes that a pattern derives may be: found by opening alternatives and the names of
the dictionary until a term is reached.
-/
namespace StyleExpansion.Pattern

def mayBegin : Nat → Pattern → Value → Bool
  | 0,_,_ => true
  | n + 1,p,v =>
    match p with
    | keyword word => v.isIdent word
    | literal symbol => v.isOperator symbol
    | type name =>
      v.isSubstitution ||
        match Value.basicTypes.lookup name with
        | some test => test v
        | none => name == "any-value" || (ofType? name).any (mayBegin n · v)
    | property name => v.isSubstitution || (ofProperty? name).any (mayBegin n · v)
    | function name _ => v.isCallOf [name]
    | oneOf items => items.any (mayBegin n · v)
    | sequence (item :: _) => mayBegin n item v
    | _ => true

/-- A pattern that may derive nothing may stand before any node, so the first pattern of a sequence
decides even if it derives nothing. -/
theorem mayBegin_sound {n : Nat} {p : Pattern} {vs : List Value} {i j : Nat} (hd : p.Derives vs i j)
    {v : Value} (hv : vs[i]? = some v) : p.mayBegin n v = true := by
  induction n generalizing p i j with
  | zero => rfl
  | succ n ih =>
    cases p with
    | keyword word =>
      cases hd with
      | keyword hv' ht => exact Option.some.inj (hv'.symm.trans hv) ▸ ht
    | literal symbol =>
      cases hd with
      | literal hv' ht => exact Option.some.inj (hv'.symm.trans hv) ▸ ht
    | type name =>
      rw [mayBegin,Bool.or_eq_true]
      cases hd with
      | typeSubstitution hv' ht => exact Or.inl (Option.some.inj (hv'.symm.trans hv) ▸ ht)
      | anyValue _ _ _ _ => exact Or.inr rfl
      | basicType hv' _ _ hl ht =>
        rw [hl]
        exact Or.inr (Option.some.inj (hv'.symm.trans hv) ▸ ht)
      | namedType _ _ _ hl hp hd =>
        rw [hl,hp]
        exact Or.inr (Bool.or_eq_true_iff.2 (Or.inr (ih hd hv)))
    | property name =>
      rw [mayBegin,Bool.or_eq_true]
      cases hd with
      | propertySubstitution hv' ht => exact Or.inl (Option.some.inj (hv'.symm.trans hv) ▸ ht)
      | namedProperty _ hp hd =>
        rw [hp]
        exact Or.inr (ih hd hv)
    | function name body =>
      cases hd with
      | function hv' hn _ =>
        obtain rfl := Option.some.inj (hv'.symm.trans hv)
        simp [mayBegin,Value.isCallOf,Text.isOneOf,hn]
    | oneOf items =>
      cases hd with
      | oneOf hm hd => exact List.any_eq_true.2 ⟨_,hm,ih hd hv⟩
    | sequence items =>
      cases hd with
      | sequence hc =>
        cases items with
        | nil => rfl
        | cons item items =>
          cases hc with
          | link hd _ _ => exact ih hd hv
    | _ => rfl

end StyleExpansion.Pattern
