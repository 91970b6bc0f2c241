import StyleExpansion.Proofs.Matching.InTurn
import StyleExpansion.Proofs.Pattern.Dictionary
import StyleExpansion.Proofs.Pattern.Heads
import StyleExpansion.Proofs.Pattern.Words

/-! # Shares of a font

The style, the small capitals, the weight and the width of a font come before its size in any order. The
nodes of each part are the longest span of its alternative where they stand, and no other alternative takes
what they begin with. So the greedy scan of the nodes takes one part after the other, whatever follows, if
only no angle follows an oblique style at their end.
-/
namespace StyleExpansion.Shorthand
open Pattern Value

def widths : List String :=
  ["ultra-condensed","extra-condensed","condensed","semi-condensed","semi-expanded","expanded",
   "extra-expanded","ultra-expanded"]

def angleUnits : List String := ["deg","rad","grad","turn"]

/-- The nodes of a part before the size, by the place of its property among the longhands: the style, the
small capitals, the weight and the width. -/
inductive IsLead : Nat → List Value → Prop
  | italic {v : Value} : v.isIdent "italic" = true → IsLead 0 [v]
  | oblique {v : Value} : v.isIdent "oblique" = true → IsLead 0 [v]
  | slanted {v angle : Value} : v.isIdent "oblique" = true → angle.hasUnit angleUnits = true →
    IsLead 0 [v,angle]
  | smallCaps {v : Value} : v.isIdent "small-caps" = true → IsLead 1 [v]
  | weight {v : Value} : isAmong ["bold","bolder","lighter"] v = true → IsLead 2 [v]
  | number {text : String} : (number text).isZero = false → IsLead 2 [number text]
  | width {v : Value} : isAmong widths v = true → IsLead 3 [v]

def fontAlternatives : List Pattern :=
  [.property "font-style",.words ["normal","small-caps"],.property "font-weight",
   .type "font-stretch-css3"]

def fontTests : List (List Value → Bool) := fontAlternatives.map Pattern.accepts

def firstWords : Nat → List String
  | 0 => ["normal","italic","oblique"]
  | 1 => ["normal","small-caps"]
  | 2 => ["normal","bold","bolder","lighter"]
  | 3 => "normal" :: widths
  | _ => []

def begins (i : Nat) (v : Value) : Bool := isAmong (firstWords i) v || (i == 2 && v.isNumber)

/-! ## First nodes -/

theorem mayBegin_style (v : Value) : mayBegin 5 (.property "font-style") v =
    (v.isSubstitution || begins 0 v) := by
  cases v with
  | ident name => exact (Bool.or_false _).symm
  | _ => rfl

theorem mayBegin_smallCaps (v : Value) : mayBegin 5 (.words ["normal","small-caps"]) v = begins 1 v := by
  cases v with
  | ident name => exact (Bool.or_false _).symm
  | _ => rfl

theorem mayBegin_weight (v : Value) : mayBegin 5 (.property "font-weight") v =
    (v.isSubstitution || begins 2 v) := by
  cases v with
  | ident name =>
    change (false || ((false || (_ || (_ || (false || false)))) || _)) = (false || (_ || false))
    simp only [Bool.or_false,Bool.false_or,Bool.or_assoc]
    rfl
  | function name args =>
    change (_ || ((_ || (false || (false || ((_ || _) || false)))) || false)) = (_ || (false || _))
    simp only [Bool.or_false,Bool.false_or,Bool.or_self_left]
    rfl
  | _ => rfl

theorem mayBegin_width (v : Value) : mayBegin 5 (.type "font-stretch-css3") v =
    (v.isSubstitution || begins 3 v) := by
  cases v with
  | ident name => exact (Bool.or_false _).symm
  | _ => rfl

theorem begins_of_mayBegin {i : Nat} {p : Pattern} (hp : fontAlternatives[i]? = some p) {v : Value}
    (hv : v.isSubstitution = false) (h : p.mayBegin 5 v = true) : begins i v = true := by
  match i with
  | 0 =>
    cases hp
    rwa [mayBegin_style,hv] at h
  | 1 =>
    cases hp
    rwa [mayBegin_smallCaps] at h
  | 2 =>
    cases hp
    rwa [mayBegin_weight,hv] at h
  | 3 =>
    cases hp
    rwa [mayBegin_width,hv] at h
  | _ + 4 => cases hp

/-- A word begins a share only if it is one of its words. -/
theorem begins_eq_false {words : List String} {j : Nat}
    (h : ∀ a ∈ words, ∀ b ∈ firstWords j, Text.sameName a b = false) {v : Value}
    (hv : isAmong words v = true) : begins j v = false := by
  have hnone : isAmong (firstWords j) v = false := isAmong_disjoint h hv
  rw [begins,hnone]
  cases v with
  | ident name => exact Bool.and_false _
  | _ => cases hv

/-- What the first node of a part before the size is: no other part begins with it, and it is no angle,
which could follow an oblique style. -/
structure IsFirst (i : Nat) (v : Value) : Prop where
  plain : v.isSubstitution = false
  upright : v.isAngle = false
  only : ∀ j ≠ i, begins j v = false

theorem isFirst_of_word {words : List String} {i : Nat}
    (h : ∀ j < 4, j ≠ i → ∀ a ∈ words, ∀ b ∈ firstWords j, Text.sameName a b = false) {v : Value}
    (hv : isAmong words v = true) : IsFirst i v := by
  cases v with
  | ident name =>
    refine ⟨rfl,rfl,fun j hj => begins_eq_false (fun a ha b hb => ?_) hv⟩
    by_cases hlt : j < 4
    · exact h j hlt hj a ha b hb
    · obtain ⟨k,rfl⟩ := Nat.exists_eq_add_of_le (Nat.not_lt.1 hlt)
      rw [Nat.add_comm] at hb
      cases hb
  | _ => cases hv

theorem isFirst_number {text : String} (h : (number text).isZero = false) : IsFirst 2 (number text) := by
  refine ⟨rfl,?_,fun j hj => ?_⟩
  · rw [isAngle,h]
    rfl
  · rw [begins,beq_false_of_ne hj]
    rfl

theorem IsLead.exists_first {i : Nat} {ws : List Value} (h : IsLead i ws) :
    ∃ v rest, ws = v :: rest ∧ IsFirst i v := by
  cases h with
  | italic hv => exact ⟨_,_,rfl,isFirst_of_word (by decide +kernel) (isAmong_of_isIdent hv)⟩
  | oblique hv => exact ⟨_,_,rfl,isFirst_of_word (by decide +kernel) (isAmong_of_isIdent hv)⟩
  | slanted hv _ => exact ⟨_,_,rfl,isFirst_of_word (by decide +kernel) (isAmong_of_isIdent hv)⟩
  | smallCaps hv => exact ⟨_,_,rfl,isFirst_of_word (by decide +kernel) (isAmong_of_isIdent hv)⟩
  | weight hv => exact ⟨_,_,rfl,isFirst_of_word (by decide +kernel) hv⟩
  | number hv => exact ⟨_,_,rfl,isFirst_number hv⟩
  | width hv => exact ⟨_,_,rfl,isFirst_of_word (by decide +kernel) hv⟩

/-! ## Shares of a font -/

theorem fontAlternatives_nest : ∀ p ∈ fontAlternatives, p.withinLimits levels = true := by decide +kernel

theorem fontAlternatives_single : ∀ p ∈ fontAlternatives.tail, p.isSingle 5 = true := by decide +kernel

/-- A style of more than one node is an oblique one with its angle. -/
theorem derives_style {vs : List Value} {j : Nat} (h : (Pattern.property "font-style").Derives vs 0 j) :
    j = 1 ∨ j = 2 ∧ ∃ v a, vs[0]? = some v ∧ vs[1]? = some a ∧ v.isIdent "oblique" = true ∧
      (a.isAngle = true ∨ a.isSubstitution = true) := by
  cases h with
  | propertySubstitution _ _ => exact Or.inl rfl
  | namedProperty _ hp h =>
    cases hp
    cases h with
    | oneOf hmem h =>
      simp only [List.mem_cons,List.not_mem_nil,or_false] at hmem
      rcases hmem with rfl | rfl | rfl
      · cases h
        exact Or.inl rfl
      · cases h
        exact Or.inl rfl
      · obtain ⟨m,hkeyword,hoptional⟩ := Derives.pair h
        cases hkeyword with
        | keyword hv ht =>
          rcases Derives.of_optional hoptional with rfl | ⟨-,hangle⟩
          · exact Or.inl rfl
          · obtain ⟨rfl,a,ha,hangle⟩ := Derives.one_of_basicType hangle (by decide) rfl
            exact Or.inr ⟨rfl,_,a,hv,ha,ht,hangle⟩

/-- A share is one node, or an oblique style with its angle. -/
theorem share_of_accepts {i : Nat} {p : Pattern} (hp : fontAlternatives[i]? = some p) {v : Value}
    {rest : List Value} (h : p.accepts (v :: rest) = true) :
    (v.isSubstitution = false → begins i v = true) ∧ (rest = [] ∨ i = 0 ∧ v.isIdent "oblique" = true ∧
      ∃ a, rest = [a] ∧ (a.isAngle = true ∨ a.isSubstitution = true)) := by
  have hmem := List.mem_of_getElem? hp
  have hd := (accepts_iff_derives (fontAlternatives_nest p hmem)).1 h
  refine ⟨fun hv => begins_of_mayBegin hp hv (mayBegin_sound hd rfl),?_⟩
  cases i with
  | zero =>
    cases hp
    rcases derives_style hd with hlen | ⟨hlen,u,a,hu,ha,hoblique,hangle⟩
    · exact Or.inl (List.eq_nil_of_length_eq_zero (Nat.succ.inj hlen))
    · obtain ⟨b,rfl⟩ := List.length_eq_one_iff.1 (Nat.succ.inj hlen)
      cases hu
      cases ha
      exact Or.inr ⟨rfl,hoblique,_,rfl,hangle⟩
  | succ i =>
    have hsingle := fontAlternatives_single p (List.mem_of_getElem? (l := fontAlternatives.tail) hp)
    exact Or.inl (List.eq_nil_of_length_eq_zero (Nat.succ.inj (isSingle_sound hsingle hd)))

theorem isAngle_of_hasUnit {v : Value} (h : v.hasUnit angleUnits = true) : v.isAngle = true :=
  Bool.or_eq_true_iff.2 (Or.inl (Bool.or_eq_true_iff.2 (Or.inl h)))

theorem oblique_derives {v : Value} {vs : List Value} {j : Nat} (hv : vs[0]? = some v)
    (ho : v.isIdent "oblique" = true) (hangle : (Pattern.optional (.type "angle")).Derives vs 1 j) :
    (Pattern.property "font-style").Derives vs 0 j := by
  have hplain : PlainAt vs 0 := by
    intro w hw
    obtain ⟨name,rfl,-⟩ := isIdent_iff.1 ho
    cases hv.symm.trans hw
    rfl
  have hchain : Derivation (.chain false [.keyword "oblique",.optional (.type "angle")]) vs 0 j :=
    .link (.keyword hv ho) (by simp) (.link hangle (by simp) .endOfChain)
  exact .namedProperty hplain rfl (.oneOf (.tail _ (.tail _ (.head _))) (.sequence hchain))

theorem weight_derives {v : Value} (hv : isAmong ["bold","bolder","lighter"] v = true) :
    (Pattern.property "font-weight").Derives [v] 0 1 := by
  cases v with
  | ident name =>
    have hplain : PlainAt [ident name] 0 := by
      rintro _ ⟨⟩
      rfl
    refine .namedProperty hplain rfl ?_
    obtain ⟨word,hword,hname⟩ := List.any_eq_true.1 hv
    simp only [List.mem_cons,List.not_mem_nil,or_false] at hword
    rcases hword with rfl | rfl | rfl
    · exact .oneOf (.head _) (.namedType rfl rfl (by decide) rfl rfl
        (.oneOf (.tail _ (.head _)) (.keyword rfl hname)))
    · exact .oneOf (.tail _ (.head _)) (.keyword rfl hname)
    · exact .oneOf (.tail _ (.tail _ (.head _))) (.keyword rfl hname)
  | _ => cases hv

/-- The nodes of a part are a share of its alternative. -/
theorem IsLead.accepted {i : Nat} {ws : List Value} (h : IsLead i ws) :
    ∃ p, fontAlternatives[i]? = some p ∧ p.accepts ws = true := by
  have hplain : ∀ {v : Value}, v.isSubstitution = false → PlainAt [v] 0 := by
    rintro v hv _ ⟨⟩
    exact hv
  have hderives : ∃ p, fontAlternatives[i]? = some p ∧ p.Derives ws 0 ws.length := by
    cases h with
    | italic hv =>
      obtain ⟨name,rfl,-⟩ := isIdent_iff.1 hv
      exact ⟨_,rfl,.namedProperty (hplain rfl) rfl (.oneOf (.tail _ (.head _)) (.keyword rfl hv))⟩
    | oblique hv =>
      exact ⟨_,rfl,oblique_derives rfl hv (.repeated (Nat.le_refl 0) (by simp) .noRound)⟩
    | @slanted v angle hv hangle =>
      have hplain' : angle.isSubstitution = false := by
        cases angle <;> first | rfl | cases hangle
      have htype : (Pattern.type "angle").Derives [v,angle] 1 2 :=
        .basicType rfl hplain' (by decide) rfl (isAngle_of_hasUnit hangle)
      exact ⟨_,rfl,oblique_derives rfl hv (Derives.optional htype Nat.one_lt_two)⟩
    | smallCaps hv => exact ⟨_,rfl,.oneOf (.tail _ (.head _)) (.keyword rfl hv)⟩
    | weight hv => exact ⟨_,rfl,weight_derives hv⟩
    | number =>
      exact ⟨_,rfl,.namedProperty (hplain rfl) rfl (.oneOf (.head _) (.namedType rfl rfl (by decide) rfl rfl
        (.oneOf (.tail _ (.tail _ (.head _))) (.basicType rfl rfl (by decide) rfl rfl))))⟩
    | @width v hv =>
      cases v with
      | ident name =>
        have hword : isAmong ("normal" :: widths) (ident name) = true :=
          Bool.or_eq_true_iff.2 (Or.inr hv)
        exact ⟨_,rfl,.namedType rfl rfl (by decide) rfl rfl (words_derive rfl hword)⟩
      | _ => cases hv
  obtain ⟨p,hp,hd⟩ := hderives
  exact ⟨p,hp,(accepts_iff_derives (fontAlternatives_nest p (List.mem_of_getElem? hp))).2 hd⟩

/-! ## The scan of the parts -/

section Place
variable {vs before rest : List Value} {v : Value}

/-- A span at a place is a share of what stands there. -/
theorem takesSpan_fontTests {i stop : Nat} :
    TakesSpan fontTests (before ++ rest) i before.length stop ↔ ∃ p k,
      fontAlternatives[i]? = some p ∧ stop = before.length + k ∧ p.accepts (rest.take k) = true ∧ 0 < k ∧
      k ≤ rest.length := by
  constructor
  · intro h
    obtain ⟨k,rfl⟩ := Nat.exists_eq_add_of_le h.le
    obtain ⟨p,hp,htake⟩ := takesSpan_accepts.1 (takesSpan_append.1 h)
    exact ⟨p,k,hp,rfl,htake⟩
  · rintro ⟨p,k,hp,rfl,htake⟩
    exact takesSpan_append.2 (takesSpan_accepts.2 ⟨p,hp,htake⟩)

theorem not_takesSpan {j : Nat} (hv : v.isSubstitution = false) (hb : begins j v = false) (stop : Nat) :
    ¬TakesSpan fontTests (before ++ v :: rest) j before.length stop := by
  intro h
  obtain ⟨p,k,hp,-,htake,h0,-⟩ := takesSpan_fontTests.1 h
  obtain ⟨k,rfl⟩ := Nat.exists_eq_succ_of_ne_zero (Nat.pos_iff_ne_zero.1 h0)
  rw [List.take_succ_cons] at htake
  rw [(share_of_accepts hp htake).1 hv] at hb
  cases hb

end Place

/-- The longest span of a style has two nodes, that of another part one. -/
theorem length_le_of_takesSpan {before rest : List Value} {i stop later : Nat}
    (hstop : stop = before.length + if i = 0 then 2 else 1)
    (h : TakesSpan fontTests (before ++ rest) i before.length later) : later ≤ stop := by
  obtain ⟨p,k,hp,rfl,htake,h0,hk⟩ := takesSpan_fontTests.1 h
  have hlen := List.length_take_of_le hk
  obtain ⟨v,more,hcons⟩ := List.exists_cons_of_length_pos (l := rest.take k) (by omega)
  rw [hcons] at htake hlen
  rw [hstop]
  rcases (share_of_accepts hp htake).2 with rfl | ⟨rfl,-,a,rfl,-⟩
  · rw [List.length_singleton] at hlen
    split <;> omega
  · simp only [List.length_cons,List.length_nil] at hlen
    simp
    omega

def IsApart (ws rest : List Value) : Prop :=
  ∀ v a, ws = [v] → v.isIdent "oblique" = true → rest.head? = some a →
    a.isAngle = false ∧ a.isSubstitution = false

/-- A part before the size is what its alternative takes, and no other one begins as it does. -/
theorem IsLead.takesFirst {i : Nat} {ws rest : List Value} (h : IsLead i ws) (hapart : IsApart ws rest) :
    TakesFirst fontTests i ws rest := by
  obtain ⟨p,hp,haccepts⟩ := h.accepted
  obtain ⟨v,more,rfl,hfirst⟩ := h.exists_first
  refine .of_accepts hp haccepts ?_ ?_
  · intro k hk htake
    rcases (share_of_accepts hp htake).2 with hone | ⟨-,ho,a,htwo,ha⟩
    · have hlen := congrArg List.length hone
      rw [List.length_take_of_le hk,List.length_nil] at hlen
      simp [hlen]
    · have hlen := congrArg List.length htwo
      rw [List.length_take_of_le hk,List.length_singleton] at hlen
      subst hlen
      cases more with
      | nil =>
        obtain ⟨w,rest,rfl⟩ := List.exists_cons_of_length_pos (l := rest) hk
        cases htwo
        obtain ⟨hangle,hplain⟩ := hapart v a rfl ho rfl
        simp [hangle,hplain] at ha
      | cons w more => simp
  · intro j hj q hq more
    rw [Bool.eq_false_iff]
    intro htake
    have hbegins := (share_of_accepts hq htake).1 hfirst.plain
    rw [hfirst.only j (Nat.ne_of_lt hj)] at hbegins
    cases hbegins

/-- What follows a part is the first node of the next one, or of the tail. -/
theorem isApart_next {l : Nat × List Value} {leads : List (Nat × List Value)} {tail : List Value}
    (hleads : ∀ l ∈ leads, IsLead l.1 l.2)
    (hapart : ∀ l', (l :: leads).getLast? = some l' → IsApart l'.2 tail) :
    IsApart l.2 (leads.flatMap Prod.snd ++ tail) := by
  cases leads with
  | nil => exact hapart l rfl
  | cons l' leads =>
    obtain ⟨w,more,hws,hfirst⟩ := (hleads l' List.mem_cons_self).exists_first
    intro _ a _ _ ha
    rw [List.flatMap_cons,hws] at ha
    cases ha
    exact ⟨hfirst.upright,hfirst.plain⟩

/-- The parts before the size are taken one after the other, if nothing that follows an oblique style at
their end is an angle. -/
theorem inTurn_leads {leads : List (Nat × List Value)} (hleads : ∀ l ∈ leads, IsLead l.1 l.2)
    {tail : List Value} (hapart : ∀ l, leads.getLast? = some l → IsApart l.2 tail) :
    InTurn fontTests leads tail := by
  induction leads with
  | nil => exact .nil
  | cons l leads ih =>
    obtain ⟨hlead,hrest⟩ := List.forall_mem_cons.1 hleads
    refine .cons (hlead.takesFirst (isApart_next hrest hapart)) (ih hrest fun l' hl' => ?_)
    exact hapart l' (by rw [List.getLast?_cons,hl']; rfl)

end StyleExpansion.Shorthand
