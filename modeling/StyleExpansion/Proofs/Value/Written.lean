import StyleExpansion.Proofs.Component.Append
import StyleExpansion.Proofs.Token.Spelled
import StyleExpansion.Proofs.Value.Reader

/-! # Reading what is written

A node is faithful if what is written for it is read as that node again: its names are words, its numerals
are those that reading gives, and nothing in it would have to be escaped. The text of faithful nodes is
read as these nodes, at every depth of blocks, since what is written between two nodes ends the first.
-/
namespace StyleExpansion.Value
open Token Component

/-! ## Nodes of tokens -/

theorem readComponents_append {cs ds : List Component} {vs ws : List Value}
    (hc : readComponents cs = .ok vs) (hd : readComponents ds = .ok ws) :
    readComponents (cs ++ ds) = .ok (vs ++ ws) := by
  induction cs generalizing vs with
  | nil =>
    cases hc
    exact hd
  | cons c cs ih =>
    obtain ⟨o,us,ho,hus,rfl⟩ := readComponents_cons_eq_ok.1 hc
    rw [List.cons_append,List.append_assoc]
    exact readComponents_cons_eq_ok.2 ⟨o,us ++ ws,ho,ih hus,rfl⟩

/-- No token that cannot stand in a value is among components that are nodes. -/
theorem isToken_of_readComponents {cs : List Component} {vs : List Value}
    (h : readComponents cs = .ok vs) {t : Token} (hs : t.isSkipped = false) (ht : ofToken? t = none) :
    ∀ c ∈ cs, c.isToken t = false := by
  induction cs generalizing vs with
  | nil => nofun
  | cons c cs ih =>
    obtain ⟨o,us,ho,hus,rfl⟩ := readComponents_cons_eq_ok.1 h
    refine List.forall_mem_cons.2 ⟨?_,ih hus⟩
    rw [Bool.eq_false_iff]
    intro hc
    cases c with
    | block => cases hc
    | plain u source =>
      have hu : u = t := by simpa [isToken] using hc
      simp [readComponent,hu,hs,ht] at ho

theorem isToken_closing_of_readComponents {cs : List Component} {vs : List Value}
    (h : readComponents cs = .ok vs) (b : Bracket) : ∀ c ∈ cs, c.isToken (.closing b) = false :=
  isToken_of_readComponents h rfl rfl

structure Reads (ts : List Token) (vs : List Value) : Prop where
  complete : Complete (ts.map (⟨·,[]⟩))
  nodes : readComponents (ofLexemes (ts.map (⟨·,[]⟩))) = .ok vs

theorem reads_nil : Reads [] [] := ⟨rfl,rfl⟩

theorem Reads.append {ts us : List Token} {vs ws : List Value} (ht : Reads ts vs)
    (hu : Reads us ws) : Reads (ts ++ us) (vs ++ ws) := by
  refine ⟨?_,?_⟩
  · rw [List.map_append]
    exact ht.complete.append hu.complete
  · rw [List.map_append,ofLexemes_append ht.complete]
    exact readComponents_append ht.nodes hu.nodes

theorem isSkipped_of_ofToken {t : Token} {v : Value} (h : ofToken? t = some v) :
    t.isSkipped = false := by
  cases t <;> first | rfl | cases h

theorem reads_token {t : Token} {v : Value} (h : ofToken? t = some v) : Reads [t] [v] := by
  have hopening : ∀ kind, t ≠ .opening kind := by
    rintro kind rfl
    cases h
  have hclosing : ∀ b, t ≠ .closing b := by
    rintro b rfl
    cases h
  have hparts : ofLexemes [⟨t,[]⟩] = [.plain t []] := ofLexemes_plain hopening hclosing [] []
  refine ⟨complete_of_isClosed ?_,?_⟩
  · rw [List.map_singleton,hparts]
    simp [isClosed]
  · rw [List.map_singleton,hparts,readComponents,readComponent,isSkipped_of_ofToken h,h]
    rfl

def ofBlock (kind : Opening) (nodes : List Value) : Value :=
  match kind with
  | .function name => ofCall name nodes
  | .bracket .square => brackets nodes
  | .bracket _ => parens nodes

theorem Reads.block {ts : List Token} {vs : List Value} (h : Reads ts vs) {kind : Opening}
    (hk : kind ≠ .bracket .curly) :
    Reads (.opening kind :: (ts ++ [.closing kind.closer])) [ofBlock kind vs] := by
  have hparts : ofLexemes ((.opening kind :: (ts ++ [.closing kind.closer])).map (⟨·,[]⟩)) =
      [.block kind [] (ofLexemes (ts.map (⟨·,[]⟩))) true] := by
    have hfree := isToken_closing_of_readComponents h.nodes kind.closer
    rw [List.map_cons,List.map_append]
    exact ofLexemes_block h.complete hfree [] [] []
  refine ⟨complete_of_isClosed ?_,?_⟩
  · rw [hparts]
    simp [isClosed]
  · rw [hparts,readComponents]
    rcases kind with name | (_ | _ | _)
    · rw [readComponent,h.nodes]
      rfl
    · rw [readComponent,h.nodes]
      rfl
    · rw [readComponent,h.nodes]
      rfl
    · exact absurd rfl hk

/-! ## Nodes of texts -/

theorem meaningfulTokens_of_next {c : Char} {r u : List Char} {t : Token} (h : next c r = (t,u))
    (ht : t.isSkipped = false) : meaningfulTokens (c :: r) = t :: meaningfulTokens u := by
  rw [meaningfulTokens,lexemes_cons,h]
  simp [ht,meaningfulTokens]

def Written (s : List Char) (vs : List Value) : Prop :=
  ∃ ts, Reads ts vs ∧ ∀ u, Ends u → meaningfulTokens (s ++ u) = ts ++ meaningfulTokens u

theorem written_nil : Written [] [] := ⟨[],reads_nil,fun _ _ => rfl⟩

theorem written_token {s : List Char} {t : Token} {v : Value} (h : Spells s t)
    (ht : ofToken? t = some v) : Written s [v] := by
  obtain ⟨c,r,rfl,hnext⟩ := h
  refine ⟨[t],reads_token ht,?_⟩
  intro u hu
  exact meaningfulTokens_of_next (hnext u hu) (isSkipped_of_ofToken ht)

namespace Written
variable {s t : List Char} {vs ws : List Value}

theorem space (h : Written s vs) : Written (' ' :: s) vs := by
  obtain ⟨ts,hts,h⟩ := h
  refine ⟨ts,hts,?_⟩
  intro u hu
  have hspace : ∀ c ∈ [' '], isSpace c = true := by simp [isSpace]
  rw [← h u hu]
  exact meaningfulTokens_space_append hspace (s ++ u)

theorem append (hs : Written s vs) (ht : Written t ws) (hends : ∀ u, Ends u → Ends (t ++ u)) :
    Written (s ++ t) (vs ++ ws) := by
  obtain ⟨ts,hts,hs⟩ := hs
  obtain ⟨us,hus,ht⟩ := ht
  refine ⟨ts ++ us,hts.append hus,?_⟩
  intro u hu
  rw [List.append_assoc,hs _ (hends u hu),ht u hu,List.append_assoc]

/-- Nodes between the brackets of a block are read as the node of the block. -/
theorem block (h : Written s vs) {kind : Opening} (hk : kind ≠ .bracket .curly) {o : List Char}
    {c : Char} (hc : IsEnd c) (hopen : ∀ u,
      meaningfulTokens (o ++ (s ++ c :: u)) = .opening kind :: meaningfulTokens (s ++ c :: u))
    (hclose : ∀ u, meaningfulTokens (c :: u) = .closing kind.closer :: meaningfulTokens u) :
    Written (o ++ s ++ [c]) [ofBlock kind vs] := by
  obtain ⟨ts,hts,h⟩ := h
  refine ⟨_,hts.block hk,?_⟩
  intro u _
  have hsplit : o ++ s ++ [c] ++ u = o ++ (s ++ c :: u) := by simp
  rw [hsplit,hopen,h _ (ends_cons hc u),hclose]
  simp

/-- Round brackets after a text that opens a block with them. -/
theorem round (h : Written s vs) {kind : Opening} (hk : kind.closer = .round) {o : List Char}
    (hopen : ∀ u,
      meaningfulTokens (o ++ (s ++ ')' :: u)) = .opening kind :: meaningfulTokens (s ++ ')' :: u)) :
    Written (o ++ s ++ [')']) [ofBlock kind vs] := by
  refine h.block ?_ isEnd_closeRound hopen ?_
  · rintro rfl
    cases hk
  · intro u
    rw [hk]
    exact meaningfulTokens_of_next (next_round (Or.inr rfl) u) rfl

theorem parens (h : Written s vs) : Written ('(' :: s ++ [')']) [.parens vs] := by
  have hopen : ∀ u, meaningfulTokens (['('] ++ (s ++ ')' :: u)) =
      .opening (.bracket .round) :: meaningfulTokens (s ++ ')' :: u) :=
    fun u => meaningfulTokens_of_next (next_round (Or.inl rfl) (s ++ ')' :: u)) rfl
  exact h.round rfl hopen

theorem brackets (h : Written s vs) : Written ('[' :: s ++ [']']) [.brackets vs] := by
  have hopen : ∀ u, meaningfulTokens (['['] ++ (s ++ ']' :: u)) =
      .opening (.bracket .square) :: meaningfulTokens (s ++ ']' :: u) :=
    fun u => meaningfulTokens_of_next (next_mark (by decide) (s ++ ']' :: u)) rfl
  exact h.block (by simp) (isBreak_of_mark (by decide)).toIsEnd hopen
    fun u => meaningfulTokens_of_next (next_mark (by decide) u) rfl

theorem call (h : Written s vs) {name : String} (hw : IsWord name.toList)
    (hs : isUrlName name.toList = true →
      ∀ u, startsQuote ((s ++ ')' :: u).dropWhile isSpace) = true) :
    Written (name.toList ++ '(' :: s ++ [')']) [ofCall name vs] := by
  have hopen : ∀ u, meaningfulTokens ((name.toList ++ ['(']) ++ (s ++ ')' :: u)) =
      .opening (.function name) :: meaningfulTokens (s ++ ')' :: u) := by
    intro u
    obtain ⟨c,r,hn⟩ := List.exists_cons_of_ne_nil hw.ne_nil
    have hnext := hw.next_call hn (t := s ++ ')' :: u) fun hurl => hs hurl u
    rw [hn] at hnext ⊢
    rw [← hn,String.ofList_toList] at hnext
    rw [List.append_assoc,List.singleton_append,List.cons_append]
    exact meaningfulTokens_of_next hnext rfl
  have hround : Written (name.toList ++ ['('] ++ s ++ [')']) [ofCall name vs] := h.round rfl hopen
  simpa using hround

theorem read_ofList (h : Written s vs) : read (String.ofList s) = .ok (list vs) := by
  obtain ⟨ts,hts,hs⟩ := h
  have htokens : meaningfulTokens s = ts := by
    have hend := hs [] ends_nil
    rw [List.append_nil] at hend
    rw [hend,meaningfulTokens,lexemes]
    simp
  have hread : (readComponents (Component.parse s)).toOption = some vs := by
    rw [readComponents_bare,bareOf_parse,htokens,hts.nodes]
    rfl
  rw [read,ofText,String.toList_ofList]
  cases hp : readComponents (Component.parse s) with
  | error m =>
    rw [hp] at hread
    cases hread
  | ok us =>
    rw [hp] at hread
    cases hread
    rfl

end Written

/-! ## Leaves -/

theorem written_ident {name : String} (h : IsWord name.toList) :
    Written name.toList [ident name] := by
  have hs := h.spells
  rw [String.ofList_toList] at hs
  exact written_token hs rfl

theorem written_hash {text : String} (hne : text.toList ≠ [])
    (h : ∀ c ∈ text.toList, isNameChar c = true ∧ c ≠ '\x00') :
    Written ('#' :: text.toList) [hash text] := by
  have hs := spells_hash hne h
  rw [String.ofList_toList] at hs
  exact written_token hs rfl

theorem written_quote {text : String} (h : ∀ c ∈ text.toList, isQuotable c = true) :
    Written (quote text) [string text] := by
  refine ⟨[.quoted text],reads_token rfl,?_⟩
  intro u _
  have hsplit : quote text ++ u = '"' :: (text.toList.flatMap quotedChar ++ '"' :: u) := by
    simp [quote]
  rw [hsplit]
  exact meaningfulTokens_of_next (next_quote h u) rfl

structure IsNumberText (text : String) : Prop where
  numeral : IsNumeral text.toList
  kept : (readNumeral text.toList).1.text = text

instance (text : String) : Decidable (IsNumberText text) :=
  decidable_of_iff (IsNumeral text.toList ∧ (readNumeral text.toList).1.text = text)
    ⟨fun h => ⟨h.1,h.2⟩,fun h => ⟨h.numeral,h.kept⟩⟩

structure IsPercentText (text : String) : Prop where
  numeral : IsNumeral text.toList
  kept : (readNumeral text.toList).1.percentText = text

instance (text : String) : Decidable (IsPercentText text) :=
  decidable_of_iff (IsNumeral text.toList ∧ (readNumeral text.toList).1.percentText = text)
    ⟨fun h => ⟨h.1,h.2⟩,fun h => ⟨h.numeral,h.kept⟩⟩

theorem IsNumberText.written {text : String} (h : IsNumberText text) :
    Written text.toList [number text] := by
  have hv := written_token h.numeral.spells_number rfl
  rwa [h.kept] at hv

theorem IsPercentText.written {text : String} (h : IsPercentText text) :
    Written (text.toList ++ ['%']) [percentage text] := by
  have hv := written_token h.numeral.spells_percentage rfl
  rwa [h.kept] at hv

theorem IsNumberText.written_dimension {text unit : String} (h : IsNumberText text)
    (hw : IsWord unit.toList) (he : startsExponent unit.toList = false) :
    Written (text.toList ++ unit.toList) [dimension text unit] := by
  have hv := written_token (h.numeral.spells_dimension hw he) rfl
  rwa [h.kept,String.ofList_toList] at hv

theorem written_operator {symbol : String} (h : operators.contains symbol = true) :
    Written symbol.toList [operator symbol] := by
  simp only [operators,List.contains_iff_mem,List.mem_cons,List.not_mem_nil,or_false] at h
  rcases h with rfl | rfl | rfl | rfl | rfl | rfl | rfl | rfl
  · exact written_token (spells_punctuation (c := '/') (by decide)) rfl
  · exact written_token spells_comma rfl
  · exact written_token (spells_sign (c := '+') (Or.inl rfl)) rfl
  · exact written_token (spells_sign (c := '-') (Or.inr rfl)) rfl
  · exact written_token (spells_punctuation (c := '*') (by decide)) rfl
  · exact written_token (spells_punctuation (c := '=') (by decide)) rfl
  · exact written_token (spells_punctuation (c := '<') (by decide)) rfl
  · exact written_token (spells_punctuation (c := '>') (by decide)) rfl

def isUrlText (text : String) : Bool :=
  if text.isEmpty || text.toList.any needsQuotes then text.toList.all isQuotable
  else text.toList.all isUrlChar

theorem written_url {text : String} (h : isUrlText text = true) :
    Written (['u','r','l','('] ++ urlBody text ++ [')']) [url text] := by
  rw [isUrlText] at h
  rw [urlBody]
  split
  · next hq =>
    rw [if_pos hq] at h
    have hname : IsWord "url".toList := by decide
    have hcall := (written_quote (List.all_eq_true.1 h)).call hname fun _ _ => rfl
    have hnode : ofCall "url" [string text] = url text := by simp [ofCall,Text.sameName_refl]
    rw [hnode] at hcall
    exact hcall
  · next hq =>
    rw [if_neg hq] at h
    have hs := spells_url (List.all_eq_true.1 h)
    rw [String.ofList_toList] at hs
    exact written_token hs rfl

/-! ## Functions named like a url -/

theorem eq_of_lower {b n : UInt8} (h : (if 65 ≤ b && b ≤ 90 then b + 32 else b) = n) :
    b = n ∨ b = n - 32 := by
  split at h
  · right
    rw [← h]
    simp
  · exact Or.inl h

/-- A name with the letters of `url` is the name after which a url is read. -/
theorem isUrlName_of_sameName {name : String} (h : Text.sameName name "url" = true) :
    isUrlName name.toList = true := by
  have hbytes : Text.lowerBytes name = [117,114,108] := by
    rw [beq_iff_eq.1 h]
    decide +kernel
  obtain ⟨other,hother,hname⟩ : ∃ other ∈ ["url","urL","uRl","uRL","Url","UrL","URl","URL"],
      other.toByteArray.data.toList = name.toByteArray.data.toList := by
    unfold Text.lowerBytes at hbytes
    match hl : name.toByteArray.data.toList with
    | [] | [_] | [_,_] | _ :: _ :: _ :: _ :: _ => simp [hl] at hbytes
    | [a,b,c] =>
      rw [hl] at hbytes
      simp only [List.map_cons,List.map_nil,List.cons.injEq,and_true] at hbytes
      obtain ⟨ha,hb,hc⟩ := hbytes
      rcases eq_of_lower ha with rfl | rfl <;> rcases eq_of_lower hb with rfl | rfl <;>
        rcases eq_of_lower hc with rfl | rfl <;> decide +kernel
  have hsame : other = name := String.toByteArray_inj.1 (ByteArray.ext (Array.ext' hname))
  have hall : ∀ n ∈ ["url","urL","uRl","uRL","Url","UrL","URl","URL"], isUrlName n.toList = true := by
    decide +kernel
  exact hall name (hsame ▸ hother)

def beginsWithString : List Value → Bool
  | string _ :: _ :: _ => true
  | _ => false

theorem ofCall_eq_function {name : String} {arguments : List Value}
    (h : isUrlName name.toList = true → beginsWithString arguments = true) :
    ofCall name arguments = function name arguments := by
  unfold ofCall
  split
  · next text =>
    rw [if_neg]
    intro hname
    cases h (isUrlName_of_sameName hname)
  · rfl

/-! ## Faithful nodes -/

mutual
def isFaithful : Value → Bool
  | ident name => IsWord name.toList
  | number text => IsNumberText text
  | dimension text unit =>
    IsNumberText text && IsWord unit.toList && !startsExponent unit.toList
  | percentage text => IsPercentText text
  | string text => text.toList.all isQuotable
  | hash text => text.toList.all fun c => isNameChar c && c ≠ '\x00'
  | url text => isUrlText text
  | operator _ => true
  | function name arguments =>
    IsWord name.toList && (!isUrlName name.toList || beginsWithString arguments) &&
      allFaithful arguments
  | parens nodes => allFaithful nodes
  | brackets nodes => allFaithful nodes
  | list _ => false
def allFaithful : List Value → Bool
  | [] => true
  | v :: vs => v.isFaithful && allFaithful vs
end

theorem allFaithful_iff {vs : List Value} : allFaithful vs = true ↔ ∀ v ∈ vs, v.isFaithful = true := by
  induction vs with
  | nil => simp [allFaithful]
  | cons v vs ih => simp [allFaithful,ih]

theorem isEmpty_of_isFaithful {v : Value} (h : v.isFaithful = true) : v.isEmpty = false := by
  cases v <;> first | rfl | cases h

theorem writeAll_cons_ok {isFirst : Bool} {v : Value} {vs : List Value} {s : List Char}
    (hv : v.isEmpty = false) (h : writeAll isFirst (v :: vs) = .ok s) :
    ∃ t more, v.write = .ok t ∧ writeAll false vs = .ok more ∧ s = gap isFirst v ++ t ++ more := by
  rw [writeAll,hv] at h
  cases ht : v.write with
  | error c =>
    rw [ht] at h
    cases h
  | ok t =>
    cases hmore : writeAll false vs with
    | error c =>
      rw [ht,hmore] at h
      cases h
    | ok more =>
      rw [ht,hmore] at h
      cases h
      exact ⟨t,more,rfl,rfl,rfl⟩

theorem ends_writeAll {vs : List Value} (hvs : allFaithful vs = true) {s : List Char}
    (h : writeAll false vs = .ok s) {u : List Char} (hu : Ends u) : Ends (s ++ u) := by
  cases vs with
  | nil =>
    rw [writeAll] at h
    cases h
    exact hu
  | cons v vs =>
    rw [allFaithful,Bool.and_eq_true] at hvs
    obtain ⟨t,more,ht,_,rfl⟩ := writeAll_cons_ok (isEmpty_of_isFaithful hvs.1) h
    cases hcomma : v.isOperator "," with
    | false =>
      have hgap : gap false v = [' '] := by simp [gap,hcomma]
      rw [hgap,List.append_assoc,List.append_assoc]
      exact ends_cons (isStop_of_isSpace (by decide)).toIsEnd _
    | true =>
      obtain rfl := isOperator_iff.1 hcomma
      cases ht
      exact ends_cons (isBreak_of_mark (by decide)).toIsEnd _

/-- The arguments of a function that is named like a url begin with a quote. -/
theorem startsQuote_writeAll {vs : List Value} (hvs : beginsWithString vs = true) {s : List Char}
    (h : writeAll true vs = .ok s) (u : List Char) :
    startsQuote ((s ++ u).dropWhile isSpace) = true := by
  unfold beginsWithString at hvs
  split at hvs
  · obtain ⟨t,more,ht,_,rfl⟩ := writeAll_cons_ok rfl h
    cases ht
    rfl
  · cases hvs

mutual
/-- The text of a faithful node is read as that node, before any end. -/
theorem written_write : ∀ (v : Value) {s : List Char}, v.isFaithful = true → v.write = .ok s →
    Written s [v]
  | ident name,s,hv,h => by
    rw [isFaithful,decide_eq_true_eq] at hv
    rw [write,if_neg (by simpa using hv.ne_nil)] at h
    cases h
    exact written_ident hv
  | number text,s,hv,h => by
    rw [isFaithful,decide_eq_true_eq] at hv
    rw [write,writeNumber] at h
    split at h <;> cases h
    rw [List.append_nil]
    exact hv.written
  | dimension text unit,s,hv,h => by
    simp only [isFaithful,Bool.and_eq_true,decide_eq_true_eq,Bool.not_eq_true'] at hv
    rw [write,writeNumber] at h
    split at h
    · cases h
    · split at h <;> cases h
      exact hv.1.1.written_dimension hv.1.2 hv.2
  | percentage text,s,hv,h => by
    rw [isFaithful,decide_eq_true_eq] at hv
    rw [write,writeNumber] at h
    split at h <;> cases h
    exact hv.written
  | string text,s,hv,h => by
    rw [isFaithful] at hv
    rw [write] at h
    cases h
    exact written_quote (List.all_eq_true.1 hv)
  | hash text,s,hv,h => by
    rw [isFaithful] at hv
    rw [write] at h
    split at h
    · cases h
    · next hne =>
      cases h
      exact written_hash (by simpa using hne) (by simpa using hv)
  | url text,s,hv,h => by
    rw [isFaithful] at hv
    rw [write] at h
    cases h
    exact written_url hv
  | operator symbol,s,hv,h => by
    rw [write] at h
    split at h
    · next hop =>
      cases h
      exact written_operator hop
    · cases h
  | function name arguments,s,hv,h => by
    simp only [isFaithful,Bool.and_eq_true,Bool.or_eq_true,decide_eq_true_eq,
      Bool.not_eq_true'] at hv
    obtain ⟨⟨hw,hurl⟩,hargs⟩ := hv
    have hurl : isUrlName name.toList = true → beginsWithString arguments = true := by
      intro hn
      rcases hurl with hn' | hs
      · rw [hn] at hn'
        cases hn'
      · exact hs
    rw [write,if_neg (by simpa using hw.ne_nil)] at h
    obtain ⟨t,ht,rfl⟩ := map_eq_ok.1 h
    have hcall := (written_writeAll arguments hargs ht).call hw fun hn u =>
      startsQuote_writeAll (hurl hn) ht (')' :: u)
    rwa [ofCall_eq_function hurl] at hcall
  | parens nodes,s,hv,h => by
    rw [isFaithful] at hv
    rw [write] at h
    obtain ⟨t,ht,rfl⟩ := map_eq_ok.1 h
    exact (written_writeAll nodes hv ht).parens
  | brackets nodes,s,hv,h => by
    rw [isFaithful] at hv
    rw [write] at h
    obtain ⟨t,ht,rfl⟩ := map_eq_ok.1 h
    exact (written_writeAll nodes hv ht).brackets
  | list _,_,hv,_ => by cases hv
/-- The text of faithful nodes is read as these nodes, before any end. -/
theorem written_writeAll : ∀ (vs : List Value) {isFirst : Bool} {s : List Char},
    allFaithful vs = true → writeAll isFirst vs = .ok s → Written s vs
  | [],_,s,_,h => by
    rw [writeAll] at h
    cases h
    exact written_nil
  | v :: vs,isFirst,s,hvs,h => by
    rw [allFaithful,Bool.and_eq_true] at hvs
    obtain ⟨t,more,ht,hmore,rfl⟩ := writeAll_cons_ok (isEmpty_of_isFaithful hvs.1) h
    have hv := written_write v hvs.1 ht
    have hgap : Written (gap isFirst v ++ t) [v] := by
      unfold gap
      split
      · exact hv
      · exact hv.space
    exact hgap.append (written_writeAll vs hvs.2 hmore) fun u hu => ends_writeAll hvs.2 hmore hu
end

theorem parse_of_write {vs : List Value} (hvs : allFaithful vs = true) {s : List Char}
    (h : writeAll true vs = .ok s) : Value.parse (String.ofList s) = .ok (list vs) := by
  rw [Value.parse,(written_writeAll vs hvs h).read_ofList]
  rfl

end StyleExpansion.Value
