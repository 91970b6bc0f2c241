import StyleExpansion.Proofs.Pattern.Dictionary

/-! # The extent of derivations

What can be told from a pattern alone about the nodes that it derives: that there are some, that there
is one only, that none is an operator of a given symbol. Where no type derives nothing, a derivation may
be cut out of its list.
-/
namespace StyleExpansion.Pattern

theorem Derivation.chain_lt {ps : List Pattern} {filled : Bool} {vs : List Value} {i j : Nat}
    (h : Derivation (.chain filled ps) vs i j)
    (hp : ∃ p ∈ ps, ∀ i j, p.Derives vs i j → i < j) : i < j := by
  induction ps generalizing i with
  | nil =>
    obtain ⟨p,hm,_⟩ := hp
    cases hm
  | cons q qs ih =>
    cases h with
    | link hd _ hc =>
      have := hd.le
      have := hc.le
      obtain ⟨p,hm,hp⟩ := hp
      rcases List.mem_cons.1 hm with rfl | hm
      · have := hp _ _ hd
        omega
      · have := ih hc ⟨p,hm,hp⟩
        omega

def fills : Nat → Pattern → Bool
  | 0,_ => false
  | n + 1,p =>
    match p with
    | keyword _ => true
    | literal _ => true
    | type name => (ofType? name).all (fills n)
    | property name => (ofProperty? name).all (fills n)
    | function _ _ => true
    | sequence items => items.any (fills n)
    | allOf items => items.any (fills n)
    | anyOf _ => true
    | oneOf items => items.all (fills n)
    | repeated _ least _ _ => least != 0
    | nonEmpty _ => true

theorem fills_sound {n : Nat} {p : Pattern} (h : p.fills n = true) {vs : List Value} {i j : Nat}
    (hd : p.Derives vs i j) : i < j := by
  induction n generalizing p i j with
  | zero => cases h
  | succ n ih =>
    have hany : ∀ {ps : List Pattern}, ps.any (fills n) = true →
        ∃ q ∈ ps, ∀ i j, q.Derives vs i j → i < j := by
      intro ps hps
      obtain ⟨q,hq,hf⟩ := List.any_eq_true.1 hps
      exact ⟨q,hq,fun _ _ hd => ih hf hd⟩
    cases p with
    | keyword word =>
      cases hd
      omega
    | literal symbol =>
      cases hd
      omega
    | type name =>
      cases hd with
      | typeSubstitution _ _ => omega
      | anyValue _ _ hij _ => exact hij
      | basicType _ _ _ _ _ => omega
      | namedType _ _ _ _ hp hd =>
        rw [fills,hp] at h
        exact ih h hd
    | property name =>
      cases hd with
      | propertySubstitution _ _ => omega
      | namedProperty _ hp hd =>
        rw [fills,hp] at h
        exact ih h hd
    | function name body =>
      cases hd
      omega
    | sequence items =>
      cases hd with
      | sequence hc => exact hc.chain_lt (hany h)
    | allOf items =>
      cases hd with
      | allOf hps hc =>
        obtain ⟨q,hq,hf⟩ := hany h
        exact hc.chain_lt ⟨q,hps.mem_iff.2 hq,hf⟩
    | anyOf items =>
      cases hd with
      | anyOf hne _ hc =>
        cases hc with
        | endOfChain => exact absurd rfl hne
        | link hd hf hc =>
          have := hc.le
          have := hf rfl
          omega
    | oneOf items =>
      cases hd with
      | oneOf hm hd => exact ih (List.all_eq_true.1 h _ hm) hd
    | repeated item least most byComma =>
      cases hd with
      | repeated hl _ hr =>
        have := hr.rounds_le
        have : least ≠ 0 := by simpa [fills] using h
        omega
    | nonEmpty item =>
      cases hd with
      | nonEmpty hd hij =>
        have := hd.le
        omega

theorem typeTable_fills : (typeTable.all fun e => e.2.fills 12) = true := by decide +kernel

theorem type_lt {name : String} {vs : List Value} {i j : Nat} (h : (type name).Derives vs i j) :
    i < j := by
  cases h with
  | typeSubstitution _ _ => omega
  | anyValue _ _ hij _ => exact hij
  | basicType _ _ _ _ _ => omega
  | namedType _ _ _ _ hp hd => exact fills_sound (all_of_lookup typeTable_fills hp) hd

theorem Derivation.take {g : Goal} {vs : List Value} {i j : Nat} (h : Derivation g vs i j)
    {k : Nat} (hk : j ≤ k) : Derivation g (vs.take k) i j := by
  have hget : ∀ {vs : List Value} {i : Nat} {v : Value}, vs[i]? = some v → i < k →
      (vs.take k)[i]? = some v := by
    intro vs i v hv hi
    rw [List.getElem?_take_of_lt hi,hv]
  induction h with
  | keyword hv ht => exact keyword (hget hv hk) ht
  | literal hv ht => exact literal (hget hv hk) ht
  | typeSubstitution hv ht => exact typeSubstitution (hget hv hk) ht
  | anyValue hv hs hij hj =>
    apply anyValue (hget hv (by omega)) hs hij
    rw [List.length_take]
    omega
  | basicType hv hs hn hl ht => exact basicType (hget hv hk) hs hn hl ht
  | namedType hv hs hn hl hp hd ih =>
    have := type_lt (.namedType hv hs hn hl hp hd)
    exact namedType (hget hv (by omega)) hs hn hl hp (ih hk)
  | propertySubstitution hv ht => exact propertySubstitution (hget hv hk) ht
  | namedProperty hs hp _ ih =>
    refine namedProperty ?_ hp (ih hk)
    intro v hv
    rw [List.getElem?_take] at hv
    split at hv
    · exact hs v hv
    · cases hv
  | function hv hn hb => exact function (hget hv hk) hn hb
  | sequence _ ih => exact sequence (ih hk)
  | allOf hp _ ih => exact allOf hp (ih hk)
  | anyOf hn hp _ ih => exact anyOf hn hp (ih hk)
  | oneOf hp _ ih => exact oneOf hp (ih hk)
  | repeated hl hm _ ih => exact repeated hl hm (ih hk)
  | nonEmpty _ hij ih => exact nonEmpty (ih hk) hij
  | endOfChain => exact endOfChain
  | link _ hf hc ih ihs =>
    have := hc.le
    exact link (ih (by omega)) hf (ihs hk)
  | noRound => exact noRound
  | round _ hc hd hij ihs ih => exact round (ihs (by omega)) hc (ih hk) hij
  | separated _ hc hv ht hd hij ihs ih =>
    exact separated (ihs (by omega)) hc (hget hv (by omega)) ht (ih hk) hij

/-- What stands before a derivation may be left out, if matching finds it. -/
theorem Derives.drop {p : Pattern} {vs : List Value} {i j : Nat} (h : p.Derives vs i j)
    (hp : p.withinLimits levels = true) : p.Derives (vs.drop i) 0 (j - i) := by
  obtain ⟨k,hk,rfl⟩ := List.mem_map.1 (h.mem_ends hp)
  rw [Nat.add_sub_cancel_left]
  exact mem_ends_derives (List.mem_map.2 ⟨k,by rwa [List.drop_zero],Nat.zero_add k⟩)

def isSingle : Nat → Pattern → Bool
  | 0,_ => false
  | n + 1,p =>
    match p with
    | keyword _ => true
    | literal _ => true
    | type name => name != "any-value" && (ofType? name).all (isSingle n)
    | property name => (ofProperty? name).all (isSingle n)
    | function _ _ => true
    | oneOf items => items.all (isSingle n)
    | nonEmpty item => isSingle n item
    | _ => false

theorem isSingle_sound {n : Nat} {p : Pattern} (h : p.isSingle n = true) {vs : List Value}
    {i j : Nat} (hd : p.Derives vs i j) : j = i + 1 := by
  induction n generalizing p i j with
  | zero => cases h
  | succ n ih =>
    cases p with
    | keyword word =>
      cases hd
      rfl
    | literal symbol =>
      cases hd
      rfl
    | type name =>
      rw [isSingle,Bool.and_eq_true] at h
      cases hd with
      | typeSubstitution _ _ => rfl
      | anyValue _ _ _ _ => simp at h
      | basicType _ _ _ _ _ => rfl
      | namedType _ _ _ _ hp hd =>
        rw [hp] at h
        exact ih h.2 hd
    | property name =>
      cases hd with
      | propertySubstitution _ _ => rfl
      | namedProperty _ hp hd =>
        rw [isSingle,hp] at h
        exact ih h hd
    | function name body =>
      cases hd
      rfl
    | oneOf items =>
      cases hd with
      | oneOf hm hd => exact ih (List.all_eq_true.1 h _ hm) hd
    | nonEmpty item =>
      cases hd with
      | nonEmpty hd _ => exact ih h hd
    | sequence _ => cases h
    | allOf _ => cases h
    | anyOf _ => cases h
    | repeated _ _ _ _ => cases h

/-! ## Operators -/

def FreeOf (symbol : String) (vs : List Value) (i j : Nat) : Prop :=
  ∀ k v, i ≤ k → k < j → vs[k]? = some v → v.isOperator symbol = false

theorem FreeOf.nil {symbol : String} {vs : List Value} {i : Nat} : FreeOf symbol vs i i := by
  intro k v hi hk
  omega

theorem FreeOf.one {symbol : String} {vs : List Value} {i : Nat} {v : Value} (hv : vs[i]? = some v)
    (h : v.isOperator symbol = false) : FreeOf symbol vs i (i + 1) := by
  intro k w hi hk hw
  have : k = i := by omega
  subst this
  rw [hv] at hw
  cases hw
  exact h

theorem FreeOf.append {symbol : String} {vs : List Value} {i m j : Nat} (h : FreeOf symbol vs i m)
    (h' : FreeOf symbol vs m j) : FreeOf symbol vs i j := by
  intro k v hi hk hv
  by_cases hm : k < m
  · exact h k v hi hm hv
  · exact h' k v (by omega) hk hv

theorem Derivation.chain_freeOf {ps : List Pattern} {filled : Bool} {symbol : String}
    {vs : List Value} {i j : Nat} (h : Derivation (.chain filled ps) vs i j)
    (hp : ∀ p ∈ ps, ∀ i j, p.Derives vs i j → FreeOf symbol vs i j) : FreeOf symbol vs i j := by
  induction ps generalizing i with
  | nil =>
    cases h
    exact FreeOf.nil
  | cons p ps ih =>
    cases h with
    | link hd _ hc =>
      have hps := ih hc fun q hq => hp q (List.mem_cons_of_mem _ hq)
      exact (hp p List.mem_cons_self _ _ hd).append hps

theorem Derivation.rounds_freeOf {p : Pattern} {byComma : Bool} {count : Nat} {symbol : String}
    {vs : List Value} {i j : Nat} (h : Derivation (.rounds p byComma count) vs i j)
    (hc : byComma = true → symbol ≠ ",")
    (hp : ∀ i j, p.Derives vs i j → FreeOf symbol vs i j) : FreeOf symbol vs i j := by
  induction count generalizing j with
  | zero =>
    cases h
    exact FreeOf.nil
  | succ count ih =>
    cases h with
    | round hr _ hd _ => exact (ih hr).append (hp _ _ hd)
    | separated hr hb hv ht hd _ =>
      refine (ih hr).append (.append (.one hv ?_) (hp _ _ hd))
      rw [Value.isOperator_iff.1 ht,← Bool.not_eq_true,Value.isOperator_iff,Value.operator.injEq]
      exact (hc (Bool.and_eq_true _ _ ▸ hb).1).symm

def avoids (symbol : String) : Nat → Pattern → Bool
  | 0,_ => false
  | n + 1,p =>
    match p with
    | keyword _ => true
    | literal found => found != symbol
    | type name =>
      name != "any-value" &&
        match Value.basicTypes.lookup name with
        | some test => !test (.operator symbol)
        | none => (ofType? name).all (avoids symbol n)
    | property name => (ofProperty? name).all (avoids symbol n)
    | function _ _ => true
    | sequence items => items.all (avoids symbol n)
    | allOf items => items.all (avoids symbol n)
    | anyOf items => items.all (avoids symbol n)
    | oneOf items => items.all (avoids symbol n)
    | repeated item _ _ byComma => (!byComma || symbol != ",") && avoids symbol n item
    | nonEmpty item => avoids symbol n item

theorem avoids_sound {n : Nat} {p : Pattern} {symbol : String} (h : p.avoids symbol n = true)
    {vs : List Value} {i j : Nat} (hd : p.Derives vs i j) : FreeOf symbol vs i j := by
  induction n generalizing p i j with
  | zero => cases h
  | succ n ih =>
    have hone : ∀ {v : Value} {i : Nat}, vs[i]? = some v → v ≠ .operator symbol →
        FreeOf symbol vs i (i + 1) := by
      intro v i hv hne
      exact .one hv (by rwa [← Bool.not_eq_true,Value.isOperator_iff])
    have hitems : ∀ {ps : List Pattern}, ps.all (avoids symbol n) = true →
        ∀ p ∈ ps, ∀ i j, p.Derives vs i j → FreeOf symbol vs i j := by
      intro ps hps p hp i j hd
      exact ih (List.all_eq_true.1 hps p hp) hd
    cases p with
    | keyword word =>
      cases hd with
      | keyword hv ht =>
        apply hone hv
        rintro rfl
        cases ht
    | literal found =>
      cases hd with
      | literal hv ht =>
        apply hone hv
        rintro rfl
        have := Value.isOperator_iff.1 ht
        simp [avoids] at h
        exact h (Value.operator.inj this).symm
    | type name =>
      rw [avoids,Bool.and_eq_true] at h
      cases hd with
      | typeSubstitution hv ht =>
        apply hone hv
        rintro rfl
        cases ht
      | anyValue _ _ _ _ => simp at h
      | basicType hv _ _ hl ht =>
        apply hone hv
        rintro rfl
        rw [hl] at h
        simp [ht] at h
      | namedType _ _ _ hl hp hd =>
        rw [hl,hp] at h
        exact ih h.2 hd
    | property name =>
      cases hd with
      | propertySubstitution hv ht =>
        apply hone hv
        rintro rfl
        cases ht
      | namedProperty _ hp hd =>
        rw [avoids,hp] at h
        exact ih h hd
    | function name body =>
      cases hd with
      | function hv _ _ => exact hone hv (by simp)
    | sequence items =>
      cases hd with
      | sequence hc => exact hc.chain_freeOf (hitems h)
    | allOf items =>
      cases hd with
      | allOf hps hc => exact hc.chain_freeOf fun p hp => hitems h p (hps.mem_iff.1 hp)
    | anyOf items =>
      cases hd with
      | anyOf _ hps hc => exact hc.chain_freeOf fun p hp => hitems h p (hps.subset hp)
    | oneOf items =>
      cases hd with
      | oneOf hm hd => exact ih (List.all_eq_true.1 h _ hm) hd
    | repeated item least most byComma =>
      rw [avoids,Bool.and_eq_true] at h
      cases hd with
      | repeated _ _ hr =>
        refine hr.rounds_freeOf ?_ fun i j hd => ih h.2 hd
        rintro rfl
        simpa using h.1
    | nonEmpty item =>
      cases hd with
      | nonEmpty hd _ => exact ih h hd

end StyleExpansion.Pattern
