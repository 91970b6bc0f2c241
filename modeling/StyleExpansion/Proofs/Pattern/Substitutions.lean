import StyleExpansion.Proofs.Pattern.Cover
import StyleExpansion.Proofs.Pattern.Notation
import StyleExpansion.Proofs.PropertyName

/-! # Substitutions

A substitution is one node of any type and any property that is referred to by its name. A property of
the dictionary may be asked for its values directly, or by a reference; the answers differ only where a
substitution stands in front.
-/
namespace StyleExpansion.Pattern

/-! ## References -/

theorem ofText_text {p : Pattern} (h : p.isRegular = true) : ofText p.text = p := by
  rw [ofText,parse?,text,String.toList_ofList,Sign.read_spaced (isSpelled_signs p h)]
  exact congrArg (Option.getD · nothing) (ofSigns?_signs h)

theorem ofText_type {name source : String} (hsource : source = "<" ++ name ++ ">")
    (h : isName name = true) : ofText source = type name := by
  have htext : source = (type name).text := by
    rw [hsource,← String.toList_inj]
    simp [text,signs,Sign.spaced,Sign.text,Sign.behind]
  rw [htext]
  exact ofText_text h

theorem ofText_property {name source : String} (hsource : source = "<'" ++ name ++ "'>")
    (h : isName name = true) : ofText source = property name := by
  have htext : source = (property name).text := by
    rw [hsource,← String.toList_inj]
    simp [text,signs,Sign.spaced,Sign.text,Sign.behind]
  rw [htext]
  exact ofText_text h

theorem mem_propertyTable {name : String} {p : Pattern} (h : ofProperty? name = some p) :
    (name,p) ∈ propertyTable := by
  obtain ⟨before,after,htable,_⟩ := List.lookup_eq_some_iff.1 h
  simp [htable]

theorem propertyTable_hyphened :
    (propertyTable.all fun e => PropertyName.isHyphened e.1) = true := by decide +kernel

theorem hyphen_or_small {follows : Bool} {n : List Char} (h : PropertyName.Hyphened follows n) :
    ∀ c ∈ n, c = '-' ∨ PropertyName.isSmall c = true := by
  induction n generalizing follows with
  | nil => simp
  | cons c r ih =>
    rw [PropertyName.Hyphened] at h
    split at h
    · next hc => exact List.forall_mem_cons.2 ⟨Or.inl hc,ih h.2⟩
    · exact List.forall_mem_cons.2 ⟨Or.inr h.1,ih h.2⟩

theorem isName_of_hyphened {name : String} (h : PropertyName.isHyphened name = true) :
    isName name = true := by
  have hwords := PropertyName.hyphened_of_isHyphened h
  refine Sign.isName_iff.2 ⟨?_,fun c hc => ⟨(hwords.worded.chars c hc).1,?_⟩⟩
  · intro hnil
    rw [hnil] at hwords
    cases hwords
  · constructor <;> rintro rfl
    · exact absurd (hyphen_or_small hwords _ hc) (by decide)
    · exact absurd (hyphen_or_small hwords _ hc) (by decide)

theorem name_of_property {name : String} {p : Pattern} (h : ofProperty? name = some p) :
    isName name = true ∧ name.toLower = name := by
  have hname := List.all_eq_true.1 propertyTable_hyphened (name,p) (mem_propertyTable h)
  refine ⟨isName_of_hyphened hname,?_⟩
  have hwords := (PropertyName.hyphened_of_isHyphened hname).worded
  rw [← String.toList_inj,Text.toList_toLower]
  exact (List.map_congr_left fun c hc => (hwords.chars c hc).2).trans (List.map_id' _)

/-! ## Nodes in front -/

def canSkip : Pattern → Bool
  | repeated _ least _ _ => least == 0
  | _ => false

def oneAlone (alone : Pattern → Bool) : List Pattern → Bool
  | [] => false
  | p :: ps => alone p && ps.all canSkip || canSkip p && oneAlone alone ps

def takesAlone : Nat → Pattern → Bool
  | 0,_ => false
  | n + 1,p =>
    match p with
    | type _ => true
    | property _ => true
    | sequence items => oneAlone (takesAlone n) items
    | allOf items => oneAlone (takesAlone n) items
    | anyOf items => items.any (takesAlone n)
    | oneOf items => items.any (takesAlone n)
    | repeated item least most _ => least ≤ 1 && most.all (1 ≤ ·) && takesAlone n item
    | nonEmpty item => takesAlone n item
    | _ => false

def isWorded : Nat → Pattern → Bool
  | 0,_ => false
  | n + 1,p =>
    match p with
    | keyword _ => true
    | literal _ => true
    | function name _ => !Text.isOneOf ["var","env"] name
    | sequence (item :: _) => item.fills n && isWorded n item
    | allOf items => items.all (isWorded n)
    | anyOf items => items.all (isWorded n)
    | oneOf items => items.all (isWorded n)
    | repeated item _ _ _ => isWorded n item
    | nonEmpty item => isWorded n item
    | _ => false

section Alone
variable {vs : List Value} {i : Nat}

theorem canSkip_sound {p : Pattern} (h : p.canSkip = true) : p.Derives vs i i := by
  cases p with
  | repeated item least most byComma =>
    have hleast : least = 0 := by simpa [canSkip] using h
    exact .repeated (Nat.le_of_eq hleast) (fun m _ => Nat.zero_le m) .noRound
  | _ => cases h

theorem chain_skipped {ps : List Pattern} (h : ps.all canSkip = true) :
    Derivation (.chain false ps) vs i i := by
  induction ps with
  | nil => exact .endOfChain
  | cons p ps ih =>
    rw [List.all_cons,Bool.and_eq_true] at h
    exact .link (canSkip_sound h.1) (by simp) (ih h.2)

theorem chain_alone {alone : Pattern → Bool} {ps : List Pattern}
    (halone : ∀ p, alone p = true → p.Derives vs i (i + 1)) (h : oneAlone alone ps = true) :
    Derivation (.chain false ps) vs i (i + 1) := by
  induction ps with
  | nil => cases h
  | cons p ps ih =>
    rw [oneAlone,Bool.or_eq_true,Bool.and_eq_true,Bool.and_eq_true] at h
    rcases h with h | h
    · exact .link (halone p h.1) (by simp) (chain_skipped h.2)
    · exact .link (canSkip_sound h.1) (by simp) (ih h.2)

theorem takesAlone_sound {n : Nat} {p : Pattern} (h : p.takesAlone n = true) {s : Value}
    (hv : vs[i]? = some s) (hs : s.isSubstitution = true) : p.Derives vs i (i + 1) := by
  induction n generalizing p with
  | zero => cases h
  | succ n ih =>
    have hitems : ∀ q : Pattern, q.takesAlone n = true → q.Derives vs i (i + 1) := fun q hq => ih hq
    cases p with
    | type name => exact .typeSubstitution hv hs
    | property name => exact .propertySubstitution hv hs
    | sequence items => exact .sequence (chain_alone hitems h)
    | allOf items => exact .allOf (.refl items) (chain_alone hitems h)
    | anyOf items =>
      obtain ⟨q,hmem,hq⟩ := List.any_eq_true.1 h
      exact .anyOf (List.cons_ne_nil q []) (List.singleton_subperm_iff.2 hmem)
        (.link (ih hq) (fun _ => Nat.lt_succ_self i) .endOfChain)
    | oneOf items =>
      obtain ⟨q,hmem,hq⟩ := List.any_eq_true.1 h
      exact .oneOf hmem (ih hq)
    | repeated item least most byComma =>
      simp only [takesAlone,Bool.and_eq_true,decide_eq_true_eq,Option.all_eq_true] at h
      exact .repeated h.1.1 h.1.2 (.round .noRound (by simp) (ih h.2) (Nat.lt_succ_self i))
    | nonEmpty item => exact .nonEmpty (ih h) (Nat.ne_of_lt (Nat.lt_succ_self i))
    | keyword _ => cases h
    | literal _ => cases h
    | function _ _ => cases h

end Alone

def LeadsPlainly (g : Goal) (vs : List Value) : Prop :=
  ∀ i j, Derivation g vs i j → i < j → PlainAt vs i

section Plain
variable {vs : List Value}

theorem LeadsPlainly.chain {ps : List Pattern} {filled : Bool}
    (h : ∀ p ∈ ps, LeadsPlainly (.whole p) vs) : LeadsPlainly (.chain filled ps) vs := by
  induction ps with
  | nil =>
    intro i j hd hlt
    cases hd
    omega
  | cons p ps ih =>
    intro i j hd hlt
    cases hd with
    | @link _ _ _ _ _ m _ hp _ hc =>
      rcases Nat.lt_or_eq_of_le hp.le with him | rfl
      · exact h p List.mem_cons_self i m hp him
      · exact ih (fun q hq => h q (List.mem_cons_of_mem _ hq)) i j hc hlt

theorem LeadsPlainly.rounds {p : Pattern} {byComma : Bool} {count : Nat} (h : LeadsPlainly (.whole p) vs) :
    LeadsPlainly (.rounds p byComma count) vs := by
  induction count with
  | zero =>
    intro i j hd hlt
    cases hd
    omega
  | succ count ih =>
    intro i j hd hlt
    cases hd with
    | @round _ _ _ _ _ m _ hr _ hp hmj =>
      rcases Nat.lt_or_eq_of_le hr.le with him | rfl
      · exact ih i m hr him
      · exact h i j hp hmj
    | @separated _ _ _ _ _ m _ _ hr hc _ _ _ _ =>
      have hcount := hr.rounds_le
      have hpos : count ≠ 0 := by simpa using (Bool.and_eq_true_iff.1 hc).2
      exact ih i m hr (by omega)

theorem isWorded_sound {n : Nat} {p : Pattern} (h : p.isWorded n = true) :
    LeadsPlainly (.whole p) vs := by
  induction n generalizing p with
  | zero => cases h
  | succ n ih =>
    have hitems : ∀ {ps : List Pattern}, ps.all (isWorded n) = true →
        ∀ q ∈ ps, LeadsPlainly (.whole q) vs := fun hps q hq => ih (List.all_eq_true.1 hps q hq)
    intro i j hd hlt
    cases p with
    | keyword word =>
      intro v hv
      cases hd with
      | keyword hw ht =>
        obtain ⟨name,rfl,-⟩ := Value.isIdent_iff.1 ht
        cases hw.symm.trans hv
        rfl
    | literal symbol =>
      intro v hv
      cases hd with
      | literal hw ht =>
        cases hw.symm.trans hv
        rw [Value.isOperator_iff.1 ht]
        rfl
    | function name body =>
      intro v hv
      cases hd with
      | function hw hname _ =>
        cases hw.symm.trans hv
        rw [isWorded,Bool.not_eq_true',← Text.isOneOf_congr hname] at h
        exact h
    | sequence items =>
      cases items with
      | nil => cases h
      | cons item items =>
        rw [isWorded,Bool.and_eq_true] at h
        cases hd with
        | sequence hc =>
          cases hc with
          | link hp _ _ => exact ih h.2 i _ hp (fills_sound h.1 hp)
    | allOf items =>
      cases hd with
      | allOf hperm hc => exact LeadsPlainly.chain (fun q hq => hitems h q (hperm.mem_iff.1 hq)) i j hc hlt
    | anyOf items =>
      cases hd with
      | anyOf _ hsub hc => exact LeadsPlainly.chain (fun q hq => hitems h q (hsub.subset hq)) i j hc hlt
    | oneOf items =>
      cases hd with
      | oneOf hmem hp => exact hitems h _ hmem i j hp hlt
    | repeated item least most byComma =>
      cases hd with
      | repeated _ _ hr => exact LeadsPlainly.rounds (ih h) i j hr hlt
    | nonEmpty item =>
      cases hd with
      | nonEmpty hp _ => exact ih h i j hp hlt
    | type _ => cases h
    | property _ => cases h

end Plain

/-! ## Values of a property and its reference -/

/-- A property of the dictionary whose values begin with a word of its own. -/
def isWordProperty (name : String) : Bool := (ofProperty? name).any (isWorded 12)

theorem propertyTable_alone :
    (propertyTable.all fun e => e.2.isWorded 12 || e.2.takesAlone 12) = true := by decide +kernel

theorem isWordProperty_eq {name : String} {p : Pattern} (hp : ofProperty? name = some p) :
    isWordProperty name = p.isWorded 12 := by
  rw [isWordProperty,hp,Option.any_some]

example : (propertyTable.filter fun e => e.2.isWorded 12).map Prod.fst =
    ["border-image-repeat","mask-border-repeat","mask-border-mode","font-style","font-variant-caps",
     "font-variant-position","font-variant-emoji","font-synthesis-weight","font-synthesis-style",
     "font-synthesis-small-caps","font-synthesis-position","flex-direction","flex-wrap",
     "scroll-timeline-axis","view-timeline-axis","grid-auto-flow","white-space-collapse",
     "text-wrap-mode","text-wrap-style","text-decoration-line","text-decoration-style",
     "list-style-position","container-type","caret-animation","caret-shape","position-try-order"] := by
  decide +kernel

theorem reference_accepts_iff {name : String} {p : Pattern} (hp : ofProperty? name = some p)
    {vs : List Value} : (ofText ("<'" ++ name ++ "'>")).accepts vs = true ↔
      (property name).Derives vs 0 vs.length := by
  rw [ofText_property rfl (name_of_property hp).1]
  exact accepts_iff_derives (property_withinLimits name (by decide))

theorem isValueOf_iff_derives {name : String} {p : Pattern} (hp : ofProperty? name = some p)
    {vs : List Value} : isValueOf name vs = true ↔
      (∃ w, vs = [w] ∧ w.isWide = true) ∨ p.Derives vs 0 vs.length := by
  rw [isValueOf_iff,(name_of_property hp).2]
  constructor
  · rintro ⟨q,hq,h⟩
    cases hp.symm.trans hq
    exact h
  · exact fun h => ⟨p,hp,h⟩

/-- Whether a lone substitution is a value of a property is told by the pattern of the property. -/
theorem isValueOf_alone {name : String} {p : Pattern} (hp : ofProperty? name = some p) {s : Value}
    (hs : s.isSubstitution = true) : isValueOf name [s] = !isWordProperty name := by
  rw [isWordProperty_eq hp]
  cases hw : p.isWorded 12 with
  | true =>
    rw [Bool.not_true,Bool.eq_false_iff,Ne,isValueOf_iff_derives hp]
    rintro (⟨w,hone,hwide⟩ | hd)
    · cases hone
      cases s with
      | function _ _ => cases hwide
      | _ => cases hs
    · have hplain := isWorded_sound hw 0 1 hd Nat.one_pos s rfl
      rw [hs] at hplain
      cases hplain
  | false =>
    have halone := List.all_eq_true.1 propertyTable_alone (name,p) (mem_propertyTable hp)
    rw [hw,Bool.false_or] at halone
    exact (isValueOf_iff_derives hp).2 (Or.inr (takesAlone_sound halone rfl hs))

/-- The values of a property are the keywords that every property takes and what a reference to the
property accepts, unless a substitution stands in front. A reference accepts a substitution alone and
with nothing behind it, whatever the property is; the values of the property are then those of its
pattern, which take a lone substitution just if they do not begin with a word. -/
theorem isValueOf_iff_reference {name : String} {p : Pattern} (hp : ofProperty? name = some p) :
    (∀ vs : List Value, (∀ s ∈ vs.head?, s.isSubstitution = false) →
      (isValueOf name vs = true ↔ (∃ w, vs = [w] ∧ w.isWide = true) ∨
        (ofText ("<'" ++ name ++ "'>")).accepts vs = true)) ∧
    (∀ s : Value, s.isSubstitution = true →
      (ofText ("<'" ++ name ++ "'>")).accepts [s] = true ∧
        isValueOf name [s] = !isWordProperty name) ∧
    ∀ (s : Value) (more : List Value), s.isSubstitution = true → more ≠ [] →
      (ofText ("<'" ++ name ++ "'>")).accepts (s :: more) = false ∧
        isValueOf name (s :: more) = p.accepts (s :: more) := by
  refine ⟨?_,?_,?_⟩
  · intro vs hvs
    have hplain : PlainAt vs 0 := fun s hs => hvs s (by rwa [List.head?_eq_getElem?])
    rw [isValueOf_iff_derives hp,reference_accepts_iff hp]
    refine or_congr_right ⟨fun hd => .namedProperty hplain hp hd,fun hd => ?_⟩
    generalize vs.length = j at hd ⊢
    cases hd with
    | propertySubstitution hs ht =>
      rw [hplain _ hs] at ht
      cases ht
    | namedProperty _ hq hd =>
      cases hp.symm.trans hq
      exact hd
  · intro s hs
    exact ⟨(reference_accepts_iff hp).2 (.propertySubstitution rfl hs),isValueOf_alone hp hs⟩
  · intro s more hs hmore
    have hpos := List.length_pos_iff.2 hmore
    constructor
    · rw [Bool.eq_false_iff,Ne,reference_accepts_iff hp,List.length_cons]
      intro hd
      generalize hj : more.length + 1 = j at hd
      cases hd with
      | propertySubstitution _ _ => omega
      | namedProperty hplain _ _ =>
        rw [hplain s rfl] at hs
        cases hs
    · rw [isValueOf,(name_of_property hp).2,hp]
      have hlong : ((s :: more).length == 1) = false := by
        rw [List.length_cons,beq_eq_false_iff_ne]
        omega
      simp only [hlong,Bool.false_and,Bool.false_or]

/-- A lone substitution, which is no value of a property of words, and a substitution in front of a list
of names, which a reference does not accept. -/
theorem isValueOf_iff_reference_substitutions :
    (∃ p, ofProperty? "flex-wrap" = some p ∧
      (ofText "<'flex-wrap'>").accepts [.function "var" [.ident "--x"]] = true ∧
      isValueOf "flex-wrap" [.function "var" [.ident "--x"]] = false) ∧
    ∃ p, ofProperty? "font-family" = some p ∧
      (ofText "<'font-family'>").accepts
        [.function "var" [.ident "--x"],.operator ",",.ident "serif"] = false ∧
      isValueOf "font-family" [.function "var" [.ident "--x"],.operator ",",.ident "serif"] =
        p.accepts [.function "var" [.ident "--x"],.operator ",",.ident "serif"] ∧
      isValueOf "font-family" [.function "var" [.ident "--x"],.operator ",",.ident "serif"] = true := by
  have hs : (Value.function "var" [.ident "--x"]).isSubstitution = true := by decide +kernel
  have hword : isWordProperty "flex-wrap" = true := by decide +kernel
  obtain ⟨wrap,hwrap⟩ : ∃ p, ofProperty? "flex-wrap" = some p :=
    Option.isSome_iff_exists.1 (by decide +kernel)
  obtain ⟨family,hfamily⟩ : ∃ p, ofProperty? "font-family" = some p :=
    Option.isSome_iff_exists.1 (by decide +kernel)
  obtain ⟨haccepts,hvalue⟩ := (isValueOf_iff_reference hwrap).2.1 _ hs
  obtain ⟨hrejects,hpattern⟩ := (isValueOf_iff_reference hfamily).2.2 _
    [.operator ",",.ident "serif"] hs (by simp)
  rw [hword] at hvalue
  exact ⟨⟨wrap,hwrap,haccepts,hvalue⟩,family,hfamily,hrejects,hpattern,by decide +kernel⟩

end StyleExpansion.Pattern
