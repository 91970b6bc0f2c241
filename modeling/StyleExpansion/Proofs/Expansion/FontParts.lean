import Mathlib
import StyleExpansion.Proofs.Expansion.Commas
import StyleExpansion.Proofs.Expansion.FontShares
import StyleExpansion.Proofs.Pattern.Locality

/-! # The parts of a font

A font is its style, its small capitals, its weight and its width, of which each may be missing, then its
size, perhaps a line height, and its family. The shares of the nodes are the parts before the size, and
what they leave is the size and what follows it, unless a number may stand for what is still missing: zero
and a mathematical function are sizes, but weights and angles too.
-/
namespace StyleExpansion.Shorthand
open Pattern Value

/-! ## The size and what follows it -/

def absoluteSizes : List String :=
  ["xx-small","x-small","small","medium","large","x-large","xx-large","xxx-large"]

def sizeWords : List String := absoluteSizes ++ ["larger","smaller","math"]

theorem mayBegin_size (v : Value) : mayBegin 5 (.property "font-size") v =
    (v.isSubstitution || (isAmong sizeWords v || (v.isLength || v.isPercentage))) := by
  cases v with
  | ident name =>
    have hwords : mayBegin 5 (.property "font-size") (ident name) = (Text.isOneOf absoluteSizes name ||
        (Text.isOneOf ["larger","smaller"] name || Text.isOneOf ["math"] name)) := rfl
    have hall : Text.isOneOf sizeWords name = (Text.isOneOf absoluteSizes name ||
        Text.isOneOf ["larger","smaller","math"] name) := List.any_append
    rw [hwords]
    change _ = (Text.isOneOf sizeWords name || false)
    rw [hall,Bool.or_false]
    have hsplit : Text.isOneOf (["larger","smaller"] ++ ["math"]) name =
        (Text.isOneOf ["larger","smaller"] name || Text.isOneOf ["math"] name) := List.any_append
    exact congrArg (_ || ·) hsplit.symm
  | function name args =>
    change (_ || ((_ || false) || ((_ || false) || ((_ || _) || (false || false))))) = (_ || (false || _))
    simp only [Bool.or_false,Bool.false_or,Bool.or_self_left]
    rfl
  | number text => exact Bool.or_false _
  | dimension text unit => exact Bool.or_false _
  | _ => rfl

/-- A font by its parts: those before the size, each at most once, the size, the line height if there is
one, and the family, which has no slash in front. -/
structure FontParts where
  leads : List (Nat × List Value)
  size : Value
  lineHeight : Option Value
  family : List Value
  isLead : ∀ l ∈ leads, IsLead l.1 l.2
  once : (leads.map Prod.fst).Nodup
  sizePlain : size.isSubstitution = false
  sizeAccepted : (Pattern.property "font-size").accepts [size] = true
  heightAccepted : ∀ h ∈ lineHeight, (Pattern.property "line-height").accepts [h] = true
  familyFilled : family ≠ []
  familyHead : ∀ w, family.head? = some w → w.isOperator "/" = false

namespace FontParts
variable (f : FontParts)

def ending : List Value :=
  match f.lineHeight with
  | none => f.family
  | some h => operator "/" :: h :: f.family

def nodes : List Value := f.leads.flatMap Prod.snd ++ f.size :: f.ending

def given (i : Nat) : List Value := (f.leads.lookup i).getD [ident "initial"]

/-- No part before the size may go on with it: unless the size is no number, which a weight and an angle
may be too, there is a weight and no oblique style at the end. -/
def IsClear : Prop :=
  f.size.isNumber = true → (∃ ws, (2,ws) ∈ f.leads) ∧
    ∀ v, f.leads.getLast? = some (0,[v]) → v.isIdent "oblique" = false

/-- A size is one of its words, a length or a percentage. -/
theorem size_cases : isAmong sizeWords f.size = true ∨ f.size.isLength = true ∨
    f.size.isPercentage = true := by
  have hnest : (Pattern.property "font-size").withinLimits levels = true := by decide +kernel
  have hd := (accepts_iff_derives hnest).1 f.sizeAccepted
  have hbegin : (Pattern.property "font-size").mayBegin 5 f.size = true := mayBegin_sound hd rfl
  rw [mayBegin_size,f.sizePlain,Bool.false_or,Bool.or_eq_true,Bool.or_eq_true] at hbegin
  exact hbegin

/-- Of the parts before the size, only a weight may begin with it. -/
theorem begins_size {j : Nat} (h : begins j f.size = true) : j = 2 ∧ f.size.isNumber = true := by
  rcases f.size_cases with hword | hnumeric
  · have hfirst : IsFirst 4 f.size := isFirst_of_word (by decide +kernel) hword
    have hj : j = 4 := by
      by_contra hne
      rw [hfirst.only j hne] at h
      cases h
    subst hj
    cases hsize : f.size <;> simp [hsize,begins,isAmong,firstWords,Text.isOneOf] at h
  · have hword : isAmong (firstWords j) f.size = false := by
      cases hsize : f.size with
      | ident name => simp [hsize,isLength,isPercentage,hasUnit,isZero,isMath,isCallOf] at hnumeric
      | _ => rfl
    rw [begins,hword,Bool.false_or,Bool.and_eq_true,beq_iff_eq] at h
    exact h

theorem size_isAngle : f.size.isAngle = f.size.isNumber := by
  have hcases := f.size_cases
  cases hsize : f.size with
  | number text =>
    have hzero : (number text).isZero = true := by
      simpa [hsize,isAmong,isLength,isPercentage,hasUnit,isMath,isCallOf] using hcases
    rw [isAngle,hzero]
    rfl
  | dimension text unit =>
    have hunit : Text.isOneOf lengthUnits unit = true := by
      simpa [hsize,isAmong,isLength,isPercentage,hasUnit,isZero,isMath,isCallOf] using hcases
    have hangle : Text.isOneOf angleUnits unit = false := isOneOf_disjoint (by decide +kernel) hunit
    have hnone : (dimension text unit).isAngle = ((Text.isOneOf angleUnits unit || false) || false) := rfl
    rw [hnone,hangle]
    rfl
  | _ => rfl

theorem sizeNotation_slash {a b c : Value} (h : sizeNotation.accepts [a,b,c] = true) :
    b.isOperator "/" = true := by
  have hnest : sizeNotation.withinLimits levels = true := by decide +kernel
  have hsingle : (Pattern.property "font-size").isSingle 5 = true := by decide +kernel
  obtain ⟨m,hsize,hrest⟩ := Derives.cons ((accepts_iff_derives hnest).1 h)
  obtain rfl := isSingle_sound hsingle hsize
  obtain ⟨m,hslash,-⟩ := Derives.cons hrest
  obtain ⟨-,hb⟩ := Derives.of_literal hslash
  cases hb
  rfl

/-- A property accepts a node with anything after it in view. -/
theorem derives_of_accepts {p : Pattern} {w : Value} (h : p.accepts [w] = true) (before after : List Value) :
    p.Derives (before ++ w :: after) before.length (before.length + 1) := by
  have hspan : p.Derives ([w] ++ after) 0 1 :=
    mem_ends_derives (List.mem_map.2 ⟨1,(accepts_iff_mem_spans p [w] after).1 h,rfl⟩)
  exact hspan.shift before

theorem fontEnd_eq : fontEnd (f.size :: f.ending) =
    ⟨f.size,f.lineHeight.getD (ident "normal"),ofNodes f.family⟩ := by
  have hfamily : ofNodesOr f.family (ident "initial") = ofNodes f.family :=
    if_neg (by simpa using f.familyFilled)
  unfold fontEnd ending
  cases hheight : f.lineHeight with
  | none =>
    have hno : ¬(((f.size :: f.family).take 3).length == 3 &&
        sizeNotation.accepts ((f.size :: f.family).take 3)) = true := by
      intro h
      rw [Bool.and_eq_true,beq_iff_eq] at h
      obtain ⟨hlen,haccepts⟩ := h
      match hf : f.family with
      | [] => exact f.familyFilled hf
      | [w] => simp [hf] at hlen
      | w :: u :: rest =>
        rw [hf] at haccepts
        have hslash := f.familyHead w (by rw [hf]; rfl)
        rw [sizeNotation_slash haccepts] at hslash
        cases hslash
    rw [if_neg hno]
    simp [hfamily]
  | some h =>
    have hyes : sizeNotation.accepts [f.size,operator "/",h] = true := by
      have hnest : sizeNotation.withinLimits levels = true := by decide +kernel
      refine (accepts_iff_derives hnest).2 (.sequence (.link (m := 1) ?_ (by simp)
        (.link (m := 2) (.literal rfl rfl) (by simp) (.link (m := 3) ?_ (by simp) .endOfChain))))
      · exact derives_of_accepts f.sizeAccepted [] _
      · exact derives_of_accepts (f.heightAccepted h hheight) [f.size,operator "/"] []
    simp [hyes,hfamily]

/-! ## The longhands of a font -/

/-- The longhands give every part its own nodes. -/
def IsRead (ls : List Longhand) : Prop :=
  ∃ style caps weight width family,
    ls = [⟨"font-style",style⟩,⟨"font-variant-caps",caps⟩,⟨"font-weight",weight⟩,⟨"font-stretch",width⟩,
      ⟨"font-size",f.size⟩,⟨"line-height",f.lineHeight.getD (ident "normal")⟩,⟨"font-family",family⟩] ∧
    style.flatten = f.given 0 ∧ caps.flatten = f.given 1 ∧ weight.flatten = f.given 2 ∧
    width.flatten = f.given 3 ∧ family.flatten = f.family

variable {f} {v : Value}

theorem isApart_of_word {l : Nat × List Value} (hl : l ∈ f.leads) {tail : List Value}
    (h : ∀ o a, l = (0,[o]) → o.isIdent "oblique" = true → tail.head? = some a →
      a.isAngle = false ∧ a.isSubstitution = false) : IsApart l.2 tail := by
  intro o a hone ho ha
  obtain ⟨w,more,hws,hfirst⟩ := (f.isLead l hl).exists_first
  rw [hone] at hws
  cases hws
  have hzero : l.1 = 0 := by
    by_contra hne
    have hbegins : begins 0 o = true := by
      obtain ⟨name,rfl,hname⟩ := isIdent_iff.1 ho
      simp [begins,isAmong,firstWords,Text.isOneOf,hname]
    rw [hfirst.only 0 (Ne.symm hne)] at hbegins
    cases hbegins
  exact h o a (Prod.ext hzero hone) ho ha

/-- The scan of a clear font takes the parts before the size and stops there. -/
theorem scan_of_isClear (hclear : f.IsClear) {cs : List Commit} (h : Scan fontTests f.nodes [] 0 cs) :
    cs = Commit.ofParts 0 f.leads := by
  have hapart : ∀ l, f.leads.getLast? = some l → IsApart l.2 (f.size :: f.ending) := by
    intro l hl
    refine isApart_of_word (List.mem_of_getLast? hl) fun o a he ho ha => ?_
    cases ha
    refine ⟨?_,f.sizePlain⟩
    rw [f.size_isAngle]
    by_contra hnumber
    rw [Bool.not_eq_false] at hnumber
    rw [(hclear hnumber).2 o (he ▸ hl)] at ho
    cases ho
  obtain ⟨chosen,rest,rfl,hmem,hrest⟩ := (inTurn_leads f.isLead hapart).scan f.once [] (by simp) h
  have hnone : ∀ i ∉ chosen, ∀ stop, ¬TakesSpan fontTests
      ([] ++ (f.leads.flatMap Prod.snd ++ f.size :: f.ending)) i
      (([] : List Value).length + (f.leads.flatMap Prod.snd).length) stop := by
    intro i hi stop
    rw [List.nil_append,List.length_nil,Nat.zero_add]
    refine not_takesSpan f.sizePlain ?_ stop
    by_contra hbegins
    obtain ⟨rfl,hnumber⟩ := f.begins_size (Bool.not_eq_false _ ▸ hbegins)
    obtain ⟨ws,hws⟩ := (hclear hnumber).1
    exact hi ((hmem 2).2 (Or.inl (List.mem_map.2 ⟨_,hws,rfl⟩)))
  rw [hrest.ends hnone,List.append_nil]
  rfl

theorem exists_two_nodes : ∃ a b rest, f.nodes = a :: b :: rest := by
  have hending : f.ending ≠ [] := by
    unfold ending
    split
    · exact f.familyFilled
    · simp
  obtain ⟨w,ws,hws⟩ := List.exists_cons_of_ne_nil hending
  rw [nodes,hws]
  cases hleads : f.leads.flatMap Prod.snd with
  | nil => exact ⟨_,_,_,rfl⟩
  | cons a as =>
    cases as with
    | nil => exact ⟨_,_,_,rfl⟩
    | cons b bs => exact ⟨_,_,_,rfl⟩

/-- A font is read as the shares of its nodes and what they leave. -/
theorem expand_eq_shares (hv : v.flatten = f.nodes) : StyleExpansion.expand "font" v =
    [⟨"font-style",(v.share fontAlternatives).get 0 (ident "initial")⟩,
     ⟨"font-variant-caps",(v.share fontAlternatives).get 1 (ident "initial")⟩,
     ⟨"font-weight",(v.share fontAlternatives).get 2 (ident "initial")⟩,
     ⟨"font-stretch",(v.share fontAlternatives).get 3 (ident "initial")⟩,
     ⟨"font-size",(fontEnd (v.share fontAlternatives).left).size⟩,
     ⟨"line-height",(fontEnd (v.share fontAlternatives).left).lineHeight⟩,
     ⟨"font-family",(fontEnd (v.share fontAlternatives).left).family⟩] := by
  obtain ⟨a,b,rest,hnodes⟩ := f.exists_two_nodes
  have hlisted : font ∈ shorthands := by simp [shorthands]
  have hcommon : commonValue v.flatten = none := by simp [hv,hnodes,commonValue]
  have hsystem : systemFont v = none := by simp [systemFont,hv,hnodes]
  rw [expand_leaf hlisted (by decide) (by decide +kernel) hcommon,Shorthand.expand]
  simp only [font,hsystem]
  rfl

theorem flatten_get (s : Shares) (i : Nat) (d : Value) :
    (s.get i d).flatten = ((s.get? i).map flatten).getD d.flatten := by
  rw [Shares.get,Shares.get?]
  cases s.found[i]?.join <;> rfl

theorem isRead_of_isClear (hv : v.flatten = f.nodes) (hclear : f.IsClear) :
    f.IsRead (StyleExpansion.expand "font" v) := by
  obtain ⟨commits,hscan,hpartition⟩ := shareBy_partition fontTests v
  rw [hv] at hscan hpartition
  have hcommits := scan_of_isClear hclear ((hscan commits).2 rfl)
  have hspans : Commit.spans f.nodes 0 commits = f.leads :=
    hcommits ▸ Commit.spans_ofParts f.leads [] (f.size :: f.ending)
  have hget : ∀ i, ((v.share fontAlternatives).get i (ident "initial")).flatten = f.given i := by
    intro i
    rw [flatten_get,given,← hspans,← hpartition.found i]
    rfl
  have hleft : (v.share fontAlternatives).left = f.size :: f.ending := by
    refine hpartition.left.trans ?_
    rw [hcommits,Commit.last_ofParts,Nat.zero_add,nodes,List.drop_left]
  have hfamily : f.family ⊆ v.flatten := by
    intro w hw
    rw [hv,nodes,ending]
    cases f.lineHeight <;> simp [hw]
  rw [expand_eq_shares hv,hleft,f.fontEnd_eq]
  exact ⟨_,_,_,_,_,rfl,hget 0,hget 1,hget 2,hget 3,
    ((flatten_areNodes v).mono hfamily).flatten_ofNodes⟩

theorem lookup_eq_none {leads : List (Nat × List Value)} {i : Nat} (hi : i ∉ leads.map Prod.fst) :
    leads.lookup i = none :=
  List.lookup_eq_none_iff.2 fun l hl => by
    have hne : i ≠ l.1 := fun h => hi (h ▸ List.mem_map_of_mem hl)
    simp [hne]

/-- After parts that are taken one after the other, an alternative that is still free has what it takes
there as its share, if nothing else is possible. -/
theorem get?_after_leads {leads : List (Nat × List Value)} (hleads : ∀ l ∈ leads, IsLead l.1 l.2)
    (honce : (leads.map Prod.fst).Nodup) {ws after : List Value}
    (hapart : ∀ l, leads.getLast? = some l → IsApart l.2 (ws ++ after)) {i stop : Nat}
    (hi : i ∉ leads.map Prod.fst)
    (hstop : stop = (leads.flatMap Prod.snd).length + ws.length)
    (ht : TakesSpan fontTests (leads.flatMap Prod.snd ++ (ws ++ after)) i
      (leads.flatMap Prod.snd).length stop)
    (hmax : ∀ later, TakesSpan fontTests (leads.flatMap Prod.snd ++ (ws ++ after)) i
      (leads.flatMap Prod.snd).length later → later ≤ stop)
    (honly : ∀ j ≠ i, ∀ stop, ¬TakesSpan fontTests (leads.flatMap Prod.snd ++ (ws ++ after)) j
      (leads.flatMap Prod.snd).length stop)
    (hv : v.flatten = leads.flatMap Prod.snd ++ (ws ++ after)) :
    ((v.share fontAlternatives).get? i).map flatten = some ws := by
  obtain ⟨commits,hscan,hpartition⟩ := shareBy_partition fontTests v
  rw [hv] at hscan hpartition
  obtain ⟨chosen,rest,rfl,hmem,hrest⟩ :=
    (inTurn_leads hleads hapart).scan honce [] (by simp) ((hscan commits).2 rfl)
  rw [List.nil_append,List.length_nil,Nat.zero_add] at hrest
  have hfree : i ∉ chosen := by simpa [hmem] using hi
  obtain ⟨rest,rfl,-⟩ := hrest.next hfree ht hmax fun j hj => honly j (Nat.ne_of_lt hj)
  have hfirst := Commit.spans_ofParts leads [] (ws ++ after)
  rw [List.nil_append,List.length_nil] at hfirst
  have hshare : between (leads.flatMap Prod.snd ++ (ws ++ after)) (leads.flatMap Prod.snd).length
      stop = ws := by
    rw [hstop,between_middle]
  refine (hpartition.found i).trans ?_
  rw [List.length_nil,Commit.spans_append,hfirst,Commit.last_ofParts,Nat.zero_add,List.lookup_append,
    lookup_eq_none hi,Commit.spans,hshare,List.lookup_cons_self]
  rfl

/-- An oblique style at the end of the parts before a size that is a number takes it as its angle. -/
theorem style_takes_size (hv : v.flatten = f.nodes) (hnumber : f.size.isNumber = true)
    {front : List (Nat × List Value)} {o : Value} (hleads : f.leads = front ++ [(0,[o])])
    (ho : o.isIdent "oblique" = true) :
    ((v.share fontAlternatives).get? 0).map flatten = some [o,f.size] := by
  have hlead := f.isLead
  have honce := f.once
  rw [hleads] at hlead honce
  rw [List.map_append,List.nodup_append] at honce
  obtain ⟨w,more,hws,hfirst⟩ := (hlead (0,[o]) (by simp)).exists_first
  cases hws
  have hflat : v.flatten = front.flatMap Prod.snd ++ ([o,f.size] ++ f.ending) := by
    rw [hv,nodes,hleads]
    simp
  have haccepts : (Pattern.property "font-style").accepts [o,f.size] = true := by
    have htype : (Pattern.type "angle").Derives [o,f.size] 1 2 :=
      .basicType rfl f.sizePlain (by decide) rfl (f.size_isAngle.trans hnumber)
    exact (accepts_iff_derives (fontAlternatives_nest _ (.head _))).2
      (oblique_derives rfl ho (Derives.optional htype Nat.one_lt_two))
  refine get?_after_leads (fun l hl => hlead l (by simp [hl])) honce.1 ?_ ?_ rfl ?_
    (fun _ => length_le_of_takesSpan rfl) ?_ hflat
  · rintro l - _ _ - - ⟨⟩
    exact ⟨hfirst.upright,hfirst.plain⟩
  · exact fun h => honce.2.2 0 h 0 (by simp) rfl
  · exact takesSpan_fontTests.2 ⟨_,2,rfl,rfl,haccepts,by decide,by simp⟩
  · exact fun j hj => not_takesSpan hfirst.plain (hfirst.only j hj)

/-- Without a weight, a size that is a number is taken for it. -/
theorem weight_takes_size (hv : v.flatten = f.nodes) (hnumber : f.size.isNumber = true)
    (hlast : ∀ o, f.leads.getLast? = some (0,[o]) → o.isIdent "oblique" = false)
    (hweight : 2 ∉ f.leads.map Prod.fst) :
    ((v.share fontAlternatives).get? 2).map flatten = some [f.size] := by
  have hplain : PlainAt [f.size] 0 := by
    rintro _ ⟨⟩
    exact f.sizePlain
  have haccepts : (Pattern.property "font-weight").accepts [f.size] = true :=
    (accepts_iff_derives (fontAlternatives_nest _ (.tail _ (.tail _ (.head _))))).2
      (.namedProperty hplain rfl (.oneOf (.head _) (.namedType rfl f.sizePlain (by decide) rfl rfl
        (.oneOf (.tail _ (.tail _ (.head _))) (.basicType rfl f.sizePlain (by decide) rfl hnumber)))))
  refine get?_after_leads f.isLead f.once ?_ hweight rfl ?_ (fun _ => length_le_of_takesSpan rfl) ?_ hv
  · intro l hl
    refine isApart_of_word (List.mem_of_getLast? hl) fun o a he ho _ => ?_
    rw [hlast o (he ▸ hl)] at ho
    cases ho
  · exact takesSpan_fontTests.2 ⟨_,1,rfl,rfl,haccepts,by decide,by simp⟩
  · intro j hj
    refine not_takesSpan f.sizePlain ?_
    by_contra hbegins
    exact hj (f.begins_size (Bool.not_eq_false _ ▸ hbegins)).1

/-- A font is read as its parts just if it is clear: a size that is a number is otherwise taken for the
weight that is missing, or for the angle of the oblique style before it. -/
theorem expand_font_iff (f : FontParts) {v : Value} (hv : v.flatten = f.nodes) :
    f.IsRead (StyleExpansion.expand "font" v) ↔ f.IsClear := by
  refine ⟨fun hread hnumber => ?_,isRead_of_isClear hv⟩
  obtain ⟨style,caps,weight,width,family,hls,hstyle,-,hweight,-⟩ := hread
  rw [expand_eq_shares hv] at hls
  simp only [List.cons.injEq,Longhand.mk.injEq,true_and] at hls
  obtain ⟨hstyle',-,hweight',-⟩ := hls
  rw [← hstyle',flatten_get] at hstyle
  rw [← hweight',flatten_get] at hweight
  have hlast : ∀ o, f.leads.getLast? = some (0,[o]) → o.isIdent "oblique" = false := by
    intro o hl
    by_contra ho
    obtain ⟨front,hleads⟩ := List.getLast?_eq_some_iff.1 hl
    have honce := f.once
    rw [hleads,List.map_append,List.nodup_append] at honce
    have hfree : 0 ∉ front.map Prod.fst := fun h => honce.2.2 0 h 0 (by simp) rfl
    rw [style_takes_size hv hnumber hleads (Bool.not_eq_false _ ▸ ho),given,hleads,List.lookup_append,
      lookup_eq_none hfree] at hstyle
    cases hstyle
  refine ⟨?_,hlast⟩
  by_contra hnone
  have hfree : 2 ∉ f.leads.map Prod.fst := by
    intro h
    obtain ⟨l,hl,he⟩ := List.mem_map.1 h
    exact hnone ⟨l.2,by rw [← he]; exact hl⟩
  rw [weight_takes_size hv hnumber hlast hfree,given,lookup_eq_none hfree] at hweight
  rw [List.singleton_inj.1 hweight] at hnumber
  cases hnumber

/-- An oblique font with an angle and a weight, whose size is zero. -/
def weighted : FontParts where
  leads := [(0,[ident "oblique",dimension "10" "deg"]),(2,[number "700"])]
  size := number "0"
  lineHeight := some (number "1.5")
  family := [ident "serif"]
  isLead := by
    have hslanted : IsLead 0 [ident "oblique",dimension "10" "deg"] :=
      .slanted (by decide +kernel) (by decide +kernel)
    have hnumber : IsLead 2 [number "700"] := .number (by decide +kernel)
    simp [hslanted,hnumber]
  once := by decide
  sizePlain := by decide +kernel
  sizeAccepted := by decide +kernel
  heightAccepted := by
    rintro _ ⟨⟩
    decide +kernel
  familyFilled := by decide
  familyHead := by
    rintro _ ⟨⟩
    rfl

/-- A font of a computed size and nothing before it. -/
def computed : FontParts where
  leads := []
  size := function "calc" [dimension "1" "px",operator "+",dimension "2" "px"]
  lineHeight := none
  family := [ident "serif"]
  isLead := by simp
  once := by decide
  sizePlain := by decide +kernel
  sizeAccepted := by decide +kernel
  heightAccepted := by simp
  familyFilled := by decide
  familyHead := by
    rintro _ ⟨⟩
    rfl

/-- Behind a weight a size may be zero; with nothing before it, a computed size is not read as one. -/
theorem expand_font_weighted :
    weighted.IsRead (StyleExpansion.expand "font" (list weighted.nodes)) ∧
    ¬computed.IsRead (StyleExpansion.expand "font" (list computed.nodes)) := by
  constructor
  · refine (expand_font_iff weighted rfl).2 fun _ => ⟨⟨[number "700"],by simp [weighted]⟩,?_⟩
    rintro _ ⟨⟩
  · intro hread
    have hclear := (expand_font_iff computed rfl).1 hread
    have hnumber : computed.size.isNumber = true := by decide +kernel
    obtain ⟨ws,hws⟩ := (hclear hnumber).1
    cases hws

end FontParts

end StyleExpansion.Shorthand
