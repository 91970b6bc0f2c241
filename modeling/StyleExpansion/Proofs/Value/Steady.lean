import StyleExpansion.Proofs.Text.Case
import StyleExpansion.Proofs.Value.Fractions

/-! # Texts of faithful nodes

Whether the nodes of a text are faithful can be seen from its tokens: names are words, what is written
between quotes has no character that would be escaped as another one, numbers have the size of an integer,
and percentages are in a range where the hundredth of them does no harm.
-/
namespace StyleExpansion

def Token.isSteady : Token → Bool
  | .ident name => IsWord name.toList
  | .number x => x.isBounded
  | .percentage x => x.isSteadyPercent
  | .dimension x unit => x.isBounded && IsWord unit.toList && !startsExponent unit.toList
  | .quoted text => text.toList.all isQuotable
  | .url text => Value.isUrlText text
  | .hash name _ => name.toList.all fun c => isNameChar c && c ≠ '\x00'
  | _ => true

namespace Component
open Token

/-- What is between the brackets of a function that is named like a url: a string that can be written
as a url, or a string and more. -/
def isUrlCall (contents : List Component) : Bool :=
  match meaningful contents with
  | [plain (.quoted text) _] => Value.isUrlText text
  | plain (.quoted _) _ :: _ :: _ => true
  | _ => false

mutual
def isSteady : Component → Bool
  | plain t _ => t.isSteady
  | block (.bracket _) _ contents _ => allSteady contents
  | block (.function name) _ contents _ =>
    IsWord name.toList && (!isUrlName name.toList || isUrlCall contents) && allSteady contents
def allSteady : List Component → Bool
  | [] => true
  | c :: cs => c.isSteady && allSteady cs
end

end Component

namespace Value
open Token Component

theorem isFaithful_of_ofToken {t : Token} (ht : t.isSteady = true) {v : Value}
    (h : ofToken? t = some v) : v.isFaithful = true := by
  cases t with
  | ident name =>
    cases h
    exact ht
  | number x =>
    cases h
    exact decide_eq_true (isNumberText_of_isBounded ht)
  | percentage x =>
    cases h
    exact decide_eq_true (isPercentText_of_isSteadyPercent ht)
  | dimension x unit =>
    cases h
    simp only [Token.isSteady,Bool.and_eq_true] at ht
    simp only [isFaithful,Bool.and_eq_true]
    exact ⟨⟨decide_eq_true (isNumberText_of_isBounded ht.1.1),ht.1.2⟩,ht.2⟩
  | quoted text =>
    cases h
    exact ht
  | url text =>
    cases h
    exact ht
  | hash name isIdent =>
    cases h
    exact ht
  | delim mark =>
    cases h
    rfl
  | comma =>
    cases h
    rfl
  | _ => cases h

/-! ## Functions named like a url -/

theorem sameName_of_isUrlName {name : String} (h : isUrlName name.toList = true) :
    Text.sameName name "url" = true := by
  rw [isUrlName,beq_iff_eq,← Text.toList_toLower] at h
  have hlower : name.toLower = "url" := String.toList_inj.1 h
  have hsame := Text.sameName_toLower name
  rw [hlower] at hsame
  rw [Text.sameName,beq_iff_eq] at hsame ⊢
  exact hsame.symm

theorem readComponents_meaningful {cs : List Component} {vs : List Value}
    (h : readComponents cs = .ok vs) : readComponents (meaningful cs) = .ok vs := by
  induction cs generalizing vs with
  | nil => exact h
  | cons c cs ih =>
    cases hc : c.isSkipped with
    | true =>
      rw [readComponents,readComponent_of_isSkipped hc] at h
      have hcons : meaningful (c :: cs) = meaningful cs := by simp [meaningful,hc]
      rw [hcons]
      exact ih h
    | false =>
      obtain ⟨o,us,ho,hus,rfl⟩ := readComponents_cons_eq_ok.1 h
      have hcons : meaningful (c :: cs) = c :: meaningful cs := by simp [meaningful,hc]
      rw [hcons]
      exact readComponents_cons_eq_ok.2 ⟨o,us,ho,ih hus,rfl⟩

theorem exists_node {c : Component} (hc : c.isSkipped = false) {o : Option Value}
    (h : readComponent c = .ok o) : ∃ v, o = some v := by
  rcases readComponent_cases h with ⟨hs,_⟩ | ⟨_,_,v,_,_,hv⟩ | ⟨nodes,hv | hv | ⟨name,hv⟩⟩
  · rw [hc] at hs
    cases hs
  all_goals exact ⟨_,hv⟩

/-- A function named like a url is read as a url or as a function of a string and more. -/
theorem url_or_beginsWithString {cs : List Component} {vs : List Value} (hcs : isUrlCall cs = true)
    (h : readComponents cs = .ok vs) :
    (∃ text, vs = [string text] ∧ isUrlText text = true) ∨ beginsWithString vs = true := by
  have hmeaningful := readComponents_meaningful h
  unfold isUrlCall at hcs
  split at hcs
  · next text source hm =>
    rw [hm] at hmeaningful
    cases hmeaningful
    exact Or.inl ⟨text,rfl,hcs⟩
  · next text source d ds hm =>
    rw [hm] at hmeaningful
    obtain ⟨o,us,ho,hus,rfl⟩ := readComponents_cons_eq_ok.1 hmeaningful
    cases ho
    obtain ⟨p,ws,hp,_,rfl⟩ := readComponents_cons_eq_ok.1 hus
    have hd : d.isSkipped = false := by
      have hin : d ∈ meaningful cs := by simp [hm]
      simpa using (List.mem_filter.1 hin).2
    obtain ⟨v,rfl⟩ := exists_node hd hp
    exact Or.inr rfl
  · cases hcs

theorem isFaithful_ofCall {name : String} {cs : List Component} {vs : List Value}
    (hname : IsWord name.toList) (hurl : isUrlName name.toList = true → isUrlCall cs = true)
    (h : readComponents cs = .ok vs) (hvs : allFaithful vs = true) :
    (ofCall name vs).isFaithful = true := by
  cases hu : isUrlName name.toList with
  | false =>
    have hcall : ofCall name vs = function name vs := by
      apply ofCall_eq_function
      rw [hu]
      exact nofun
    rw [hcall]
    simp [isFaithful,hname,hu,hvs]
  | true =>
    rcases url_or_beginsWithString (hurl hu) h with ⟨text,rfl,htext⟩ | hbegins
    · rw [ofCall,if_pos (sameName_of_isUrlName hu)]
      exact htext
    · rw [ofCall_eq_function fun _ => hbegins]
      simp [isFaithful,hname,hbegins,hvs]

/-! ## Nodes of steady components -/

mutual
theorem isFaithful_of_readComponent : ∀ (c : Component) {v : Value}, c.isSteady = true →
    readComponent c = .ok (some v) → v.isFaithful = true
  | .plain t source,v,hc,h => by
    rw [readComponent] at h
    split at h
    · cases h
    · split at h
      · next w hw =>
        cases h
        exact isFaithful_of_ofToken hc hw
      · cases h
  | .block (.bracket b) source contents closed,v,hc,h => by
    rw [Component.isSteady] at hc
    cases b with
    | curly => cases h
    | round =>
      rw [readComponent] at h
      obtain ⟨nodes,hnodes,hv⟩ := map_eq_ok.1 h
      cases hv
      exact allFaithful_of_readComponents contents hc (mapError_eq_ok.1 hnodes)
    | square =>
      rw [readComponent] at h
      obtain ⟨nodes,hnodes,hv⟩ := map_eq_ok.1 h
      cases hv
      exact allFaithful_of_readComponents contents hc (mapError_eq_ok.1 hnodes)
  | .block (.function name) source contents closed,v,hc,h => by
    simp only [Component.isSteady,Bool.and_eq_true,Bool.or_eq_true,Bool.not_eq_true',
      decide_eq_true_eq] at hc
    obtain ⟨⟨hname,hurl⟩,hcontents⟩ := hc
    rw [readComponent] at h
    obtain ⟨nodes,hnodes,hv⟩ := map_eq_ok.1 h
    cases hv
    have hread := mapError_eq_ok.1 hnodes
    refine isFaithful_ofCall hname ?_ hread (allFaithful_of_readComponents contents hcontents hread)
    intro hu
    rw [hu] at hurl
    exact hurl.resolve_left nofun
theorem allFaithful_of_readComponents : ∀ (cs : List Component) {vs : List Value},
    allSteady cs = true → readComponents cs = .ok vs → allFaithful vs = true
  | [],vs,_,h => by
    cases h
    rfl
  | c :: cs,vs,hcs,h => by
    rw [allSteady,Bool.and_eq_true] at hcs
    obtain ⟨o,us,ho,hus,rfl⟩ := readComponents_cons_eq_ok.1 h
    have hrest := allFaithful_of_readComponents cs hcs.2 hus
    cases o with
    | none => exact hrest
    | some v =>
      rw [Option.toList_some,List.singleton_append,allFaithful,
        isFaithful_of_readComponent c hcs.1 ho,hrest]
      rfl
end

theorem allFaithful_of_parse {text : String} (hs : allSteady (Component.ofText text) = true) {v : Value}
    (h : parse text = .ok v) : allFaithful v.flatten = true := by
  rw [parse,mapError_eq_ok,read] at h
  obtain ⟨nodes,hnodes,rfl⟩ := map_eq_ok.1 h
  rw [flatten,(areNodes_of_readComponents hnodes).flattenAll]
  exact allFaithful_of_readComponents _ hs hnodes

end Value

end StyleExpansion
