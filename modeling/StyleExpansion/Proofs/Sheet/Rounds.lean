import StyleExpansion.Proofs.Sheet.Turns

/-! # Rounds of the walk

A sheet is walked round by round. A round looks one token ahead; for a style rule it goes back to where it
began, which may be inside the block of an at-rule that was not entered. Every round leaves the reader
further in the text than before, so the walk comes to an end, and that is the end of the block which it is
in. The rules that it finds are those of the components ahead.
-/
namespace StyleExpansion.Sheet
open Token Lexeme Cursor

/-! ## What a round reads -/

def curly : Token := .opening (.bracket .curly)

/-- What a round finds: nothing that counts, a style rule, or the rules of a group. The reader is then
right behind the opening of the block of the rule or the group. -/
inductive Found
  | nothing
  | rule (r : StyleRule)
  | group

def readAtRule (block : Option Bracket) (name : String) (c : Cursor) : Found × Cursor :=
  let d := c.goTo (halts block [.semicolon,curly])
  match d.next? (ends block) with
  | none => (.nothing,⟨d.ahead,none⟩)
  | some (t,e) =>
    if t == curly && Text.isOneOf groupingRules name then (.group,e) else (.nothing,e)

def readStyleRule (block : Option Bracket) (c : Cursor) : Found × Cursor :=
  let d := c.goTo (halts block [curly])
  match d.next? (ends block) with
  | none => (.nothing,⟨d.ahead,none⟩)
  | some (t,e) =>
    if t == curly then
      (.rule (ruleOf ((c.passed (halts block [curly])).flatMap Lexeme.source)
        ((⟨e.rest,none⟩ : Cursor).content (some .curly))),e)
    else (.nothing,e)

/-- What a round finds after a look at the next token. An at-rule is read from behind that token; a style
rule is read from where the round began. -/
def round? (block : Option Bracket) (c : Cursor) : Option (Found × Cursor) :=
  (c.next? (ends block)).map fun p =>
    match p.1 with
    | .atKeyword name => readAtRule block name p.2
    | .semicolon => (.nothing,p.2)
    | .markupOpen => (.nothing,p.2)
    | .markupClose => (.nothing,p.2)
    | _ => readStyleRule block c

mutual
/-- What is read of what has been found, and the place behind it. The declarations of a style rule are
read turn by turn, the rules of a group round by round, and then the block is left. -/
inductive Enters : Found → Cursor → List StyleRule → Cursor → Prop
  | nothing {d : Cursor} : Enters .nothing d [] d
  | rule {d e : Cursor} {r : StyleRule} {rows : List (List Lexeme)}
    (h : Turns .semicolon (some .curly) ⟨d.rest,none⟩ rows e) : Enters (.rule r) d [r] (e.leave .curly)
  | group {d e : Cursor} {rs : List StyleRule} (h : Walk (some .curly) ⟨d.rest,none⟩ rs e) :
    Enters .group d rs (e.leave .curly)

/-- A round of the walk, with the rules that it finds and the place where it ends. -/
inductive Round : Option Bracket → Cursor → List StyleRule → Cursor → Prop
  | read {block : Option Bracket} {c d e : Cursor} {f : Found} {rs : List StyleRule}
    (h : round? block c = some (f,d)) (hd : Enters f d rs e) : Round block c rs e

/-- The rounds of a walk, which ends where a reader finds no token. -/
inductive Walk : Option Bracket → Cursor → List StyleRule → Cursor → Prop
  | done {block : Option Bracket} {c : Cursor} (h : c.next? (ends block) = none) :
    Walk block c [] ⟨c.ahead,none⟩
  | more {block : Option Bracket} {c d e : Cursor} {first rest : List StyleRule}
    (h : Round block c first d) (hs : Walk block d rest e) : Walk block c (first ++ rest) e
end

section
variable {block : Option Bracket} {c d e : Cursor} {f : Found} {rs : List StyleRule}

/-- An at-rule goes on to a semicolon, to a block, or to the end of the block around it. -/
theorem readAtRule_cases (block : Option Bracket) (name : String) (c : Cursor) :
    c.goTo (halts block [.semicolon,curly]) = ⟨c.limit block,none⟩ ∧
      readAtRule block name c = (.nothing,⟨c.limit block,none⟩) ∨
    (∃ source ys, c.goTo (halts block [.semicolon,curly]) = ⟨⟨.semicolon,source⟩ :: ys,none⟩ ∧
      ends block .semicolon = false ∧ readAtRule block name c = (.nothing,⟨ys,none⟩)) ∨
    ∃ source ys, c.goTo (halts block [.semicolon,curly]) = ⟨⟨curly,source⟩ :: ys,none⟩ ∧
      ends block curly = false ∧ readAtRule block name c =
        (if Text.isOneOf groupingRules name then .group else .nothing,⟨ys,some .curly⟩) := by
  rcases goTo_cases block [.semicolon,curly] c with hgo | ⟨⟨t,source⟩,ys,hgo,hends,ht⟩
  · left
    rw [readAtRule,hgo,next?_limit,ahead_limit]
    exact ⟨rfl,rfl⟩
  · right
    rcases List.mem_cons.1 ht with rfl | ht
    · left
      refine ⟨source,ys,hgo,hends,?_⟩
      rw [readAtRule,next?_of_goTo hgo hends rfl]
      rfl
    · right
      obtain rfl := List.mem_singleton.1 ht
      refine ⟨source,ys,hgo,hends,?_⟩
      rw [readAtRule,next?_of_goTo hgo hends rfl]
      cases Text.isOneOf groupingRules name <;> rfl

/-- A style rule goes on to its block, or there is none before the end of the block around it. -/
theorem readStyleRule_cases (block : Option Bracket) (c : Cursor) :
    c.goTo (halts block [curly]) = ⟨c.limit block,none⟩ ∧
      readStyleRule block c = (.nothing,⟨c.limit block,none⟩) ∨
    ∃ source ys, c.goTo (halts block [curly]) = ⟨⟨curly,source⟩ :: ys,none⟩ ∧
      ends block curly = false ∧ readStyleRule block c =
        (.rule (ruleOf ((c.passed (halts block [curly])).flatMap Lexeme.source)
          ((⟨ys,none⟩ : Cursor).content (some .curly))),⟨ys,some .curly⟩) := by
  rcases goTo_cases block [curly] c with hgo | ⟨⟨t,source⟩,ys,hgo,hends,ht⟩
  · left
    rw [readStyleRule,hgo,next?_limit,ahead_limit]
    exact ⟨rfl,rfl⟩
  · right
    obtain rfl := List.mem_singleton.1 ht
    refine ⟨source,ys,hgo,hends,?_⟩
    rw [readStyleRule,next?_of_goTo hgo hends rfl]
    rfl

def beginsRule : Token → Bool
  | .atKeyword _ => false
  | .semicolon => false
  | .markupOpen => false
  | .markupClose => false
  | _ => true

theorem round?_cases (h : round? block c = some (f,d)) :
    (∃ name k, c.next? (ends block) = some (.atKeyword name,k) ∧ readAtRule block name k = (f,d)) ∨
    (∃ t ∈ [Token.semicolon,.markupOpen,.markupClose],
      c.next? (ends block) = some (t,d) ∧ f = .nothing) ∨
    ∃ t k, c.next? (ends block) = some (t,k) ∧ beginsRule t = true ∧
      readStyleRule block c = (f,d) := by
  obtain ⟨⟨t,k⟩,hnext,hread⟩ := Option.map_eq_some_iff.1 h
  cases t with
  | atKeyword name => exact Or.inl ⟨name,k,hnext,hread⟩
  | semicolon =>
    cases hread
    exact Or.inr (Or.inl ⟨_,by simp,hnext,rfl⟩)
  | markupOpen =>
    cases hread
    exact Or.inr (Or.inl ⟨_,by simp,hnext,rfl⟩)
  | markupClose =>
    cases hread
    exact Or.inr (Or.inl ⟨_,by simp,hnext,rfl⟩)
  | _ => exact Or.inr (Or.inr ⟨_,k,hnext,rfl,hread⟩)

theorem round?_eq_none : round? block c = none ↔ c.next? (ends block) = none := Option.map_eq_none_iff

/-! ## Rounds go on -/

/-- A round ends further in the text than it began, and in the same block. -/
theorem round?_leads (h : round? block c = some (f,d)) :
    d.IsPast c ∧ d.limit block = c.limit block ∧ (f = .nothing ∨ d.pending = some .curly) := by
  rcases round?_cases h with ⟨name,k,hnext,hread⟩ | ⟨t,_,hnext,rfl⟩ | ⟨t,k,hnext,_,hread⟩
  · have hlimit := limit_of_next? hnext
    have hpast := isPast_of_next? hnext
    rcases readAtRule_cases block name k with ⟨_,hd⟩ | ⟨source,ys,hgo,hends,hd⟩ |
      ⟨source,ys,hgo,hends,hd⟩
    · cases hread.symm.trans hd
      exact ⟨hpast.of_suffix (goTo_suffix _ k),(limit_limit block k).trans hlimit,Or.inl rfl⟩
    · cases hread.symm.trans hd
      exact ⟨hpast.of_suffix (isPast_of_goTo hgo _).1,(limit_of_goTo hgo hends).trans hlimit,Or.inl rfl⟩
    · cases hread.symm.trans hd
      exact ⟨hpast.of_suffix (isPast_of_goTo hgo _).1,(limit_of_goTo hgo hends).trans hlimit,Or.inr rfl⟩
  · exact ⟨isPast_of_next? hnext,limit_of_next? hnext,Or.inl rfl⟩
  · rcases readStyleRule_cases block c with ⟨_,hd⟩ | ⟨source,ys,hgo,hends,hd⟩
    · cases hread.symm.trans hd
      -- the rule begins where the round did, but the look ahead has seen a token before the end
      exact ⟨isPast_limit (by rw [hnext]; simp),limit_limit block c,Or.inl rfl⟩
    · cases hread.symm.trans hd
      exact ⟨isPast_of_goTo hgo _,limit_of_goTo hgo hends,Or.inr rfl⟩

def Found.resume : Found → Cursor → Cursor
  | .nothing,d => d
  | .rule _,d => ⟨d.settled,none⟩
  | .group,d => ⟨d.settled,none⟩

/-- Behind what has been found the walk is still in the same block. -/
theorem Found.resume_leads (f : Found) (d : Cursor) (block : Option Bracket) :
    (f.resume d).rest <:+ d.rest ∧ (f.resume d).limit block = d.limit block := by
  cases f with
  | nothing => exact ⟨List.suffix_refl _,rfl⟩
  | rule => exact ⟨goTo_suffix _ d,limit_settled block d⟩
  | group => exact ⟨goTo_suffix _ d,limit_settled block d⟩

/-- Wherever a reader stops inside of what has been found, it leaves it at its end. -/
theorem leave_found (hd : d.pending = some .curly)
    (he : e.limit (some .curly) = (⟨d.rest,none⟩ : Cursor).limit (some .curly)) :
    e.leave .curly = ⟨d.settled,none⟩ := by
  obtain ⟨xs,pending⟩ := d
  subst hd
  exact leave_of_limit he

def Finishes (block : Option Bracket) (c : Cursor) : Prop :=
  ∃ rs, ∀ found e, Walk block c found e ↔ found = rs ∧ e = ⟨c.limit block,none⟩

/-- What has been found is read in one way only, to the place behind it. -/
theorem exists_enters (hd : f = .nothing ∨ d.pending = some .curly)
    (hinner : Finishes (some .curly) ⟨d.rest,none⟩) :
    ∃ rs, ∀ found e, Enters f d found e ↔ found = rs ∧ e = f.resume d := by
  cases f with
  | nothing =>
    refine ⟨[],fun found e => ⟨?_,?_⟩⟩
    · intro h
      cases h
      exact ⟨rfl,rfl⟩
    · rintro ⟨rfl,rfl⟩
      exact .nothing
  | rule r =>
    have hcurly : d.pending = some .curly := hd.resolve_left (by simp)
    obtain ⟨rows,k,_,hall⟩ := turns_total .semicolon (some .curly) ⟨d.rest,none⟩
    refine ⟨[r],fun found e => ⟨?_,?_⟩⟩
    · intro h
      cases h with
      | rule hturns => exact ⟨rfl,leave_found hcurly hturns.limit_eq⟩
    · rintro ⟨rfl,rfl⟩
      have hturns := (hall rows k).2 ⟨rfl,rfl⟩
      have hleave : k.leave .curly = (Found.rule r).resume d := leave_found hcurly hturns.limit_eq
      exact hleave ▸ .rule hturns
  | group =>
    have hcurly : d.pending = some .curly := hd.resolve_left (by simp)
    obtain ⟨rs,hall⟩ := hinner
    have hleave : leave .curly ⟨(⟨d.rest,none⟩ : Cursor).limit (some .curly),none⟩ =
        Found.group.resume d := leave_found hcurly (limit_limit (some .curly) ⟨d.rest,none⟩)
    refine ⟨rs,fun found e => ⟨?_,?_⟩⟩
    · intro h
      cases h with
      | group hwalk =>
        obtain ⟨rfl,rfl⟩ := (hall _ _).1 hwalk
        exact ⟨rfl,hleave⟩
    · rintro ⟨rfl,rfl⟩
      exact hleave ▸ .group ((hall _ _).2 ⟨rfl,rfl⟩)

theorem round_iff (h : round? block c = some (f,d)) : Round block c rs e ↔ Enters f d rs e := by
  constructor
  · rintro ⟨hround,hd⟩
    cases h.symm.trans hround
    exact hd
  · exact .read h

/-- Every walk comes to an end: its rounds go on, and so do those inside of a group. -/
theorem walk_finishes (block : Option Bracket) (c : Cursor) : Finishes block c := by
  -- on the length of what is ahead: inside of a group there is less of it, and so there is behind a round
  induction hn : c.rest.length using Nat.strongRecOn generalizing block c with
  | ind n ih =>
    subst hn
    cases hround : round? block c with
    | none =>
      have hnext := round?_eq_none.1 hround
      have hahead := next?_eq_none.1 hnext
      refine ⟨[],fun found e => ⟨?_,?_⟩⟩
      · rintro (hdone | ⟨⟨h,_⟩,_⟩)
        · exact ⟨rfl,by rw [hahead]⟩
        · cases hround.symm.trans h
      · rintro ⟨rfl,rfl⟩
        exact hahead ▸ .done hnext
    | some found =>
      obtain ⟨f,d⟩ := found
      obtain ⟨hpast,hlimit,hpending⟩ := round?_leads hround
      obtain ⟨hsuffix,hresume⟩ := f.resume_leads d block
      obtain ⟨first,hall⟩ := exists_enters hpending (ih _ hpast.2 _ _ rfl)
      obtain ⟨rest,hrest⟩ := ih _ (hpast.of_suffix hsuffix).2 block (f.resume d) rfl
      have hend : (f.resume d).limit block = c.limit block := hresume.trans hlimit
      refine ⟨first ++ rest,fun found e => ⟨?_,?_⟩⟩
      · rintro (hdone | ⟨hr,hs⟩)
        · cases (round?_eq_none.2 hdone).symm.trans hround
        · obtain ⟨rfl,rfl⟩ := (hall _ _).1 ((round_iff hround).1 hr)
          obtain ⟨rfl,rfl⟩ := (hrest _ _).1 hs
          exact ⟨rfl,by rw [hend]⟩
      · rintro ⟨rfl,rfl⟩
        have hr : Round block c first (f.resume d) := .read hround ((hall _ _).2 ⟨rfl,rfl⟩)
        have hs : Walk block (f.resume d) rest ⟨c.limit block,none⟩ :=
          (hrest _ _).2 ⟨rfl,by rw [hend]⟩
        exact .more hr hs

theorem Enters.eq_resume (h : Enters f d rs e) (hd : f = .nothing ∨ d.pending = some .curly) :
    e = f.resume d := by
  obtain ⟨_,hall⟩ := exists_enters hd (walk_finishes _ _)
  exact ((hall _ _).1 h).2

/-- A round reads at least one token, and it stays in its block. -/
theorem Round.leads (h : Round block c rs d) : d.IsPast c ∧ d.limit block = c.limit block := by
  obtain @⟨_,_,k,_,f,_,hround,hd⟩ := h
  obtain ⟨hpast,hlimit,hpending⟩ := round?_leads hround
  obtain ⟨hsuffix,hresume⟩ := f.resume_leads k block
  rw [hd.eq_resume hpending]
  exact ⟨hpast.of_suffix hsuffix,hresume.trans hlimit⟩

/-- There is a next round if and only if there is a next token. -/
theorem exists_round_iff : (∃ rs d, Round block c rs d) ↔ c.next? (ends block) ≠ none := by
  rw [ne_eq,← round?_eq_none]
  constructor
  · rintro ⟨rs,d,⟨hround,_⟩⟩
    simp [hround]
  · intro h
    obtain ⟨⟨f,k⟩,hround⟩ := Option.ne_none_iff_exists'.1 h
    obtain ⟨rs,hall⟩ := exists_enters (round?_leads hround).2.2 (walk_finishes _ _)
    exact ⟨rs,_,.read hround ((hall _ _).2 ⟨rfl,rfl⟩)⟩

/-! ## The rules of a round -/

theorem rulesFrom_style {cs : List Component} (h : ∀ k ∈ cs, k.head ≠ curly) (x : List Char)
    (rest : List Component) :
    rulesFrom (.style x) (cs ++ rest) = rulesFrom (.style (x ++ Component.textOf cs)) rest := by
  induction cs generalizing x with
  | nil => rw [List.nil_append,Component.textOf,List.append_nil]
  | cons k cs ih =>
    obtain ⟨hk,hcs⟩ := List.forall_mem_cons.1 h
    rw [List.cons_append,rulesFrom_push hk,Head.push,ih hcs,Component.textOf,List.append_assoc]

theorem push_begins {k : Component} (hmeaning : isMeaningful k.head = true)
    (hk : beginsRule k.head = true) (x : List Char) : (Head.fresh x).push k = .style (x ++ k.text) := by
  unfold Head.push
  generalize k.head = t at hmeaning hk
  cases t with
  | space => cases hmeaning
  | comment => cases hmeaning
  | atKeyword => cases hk
  | semicolon => cases hk
  | markupOpen => cases hk
  | markupClose => cases hk
  | _ => rfl

def Gathered (x : List Char) (head : Head) : Prop := head = .fresh x ∨ head = .style x

theorem rulesFrom_gathered {x : List Char} {head : Head} (h : Gathered x head) (source : List Char)
    (contents : List Component) (closed : Bool) (cs : List Component) :
    rulesFrom head (.block (.bracket .curly) source contents closed :: cs) =
      ruleOf x contents :: rulesFrom (.fresh []) cs := by
  rcases h with rfl | rfl <;> rw [rulesFrom]

/-- What stands before the block of a style rule is gathered as its prelude. -/
theorem exists_gathered {fs gs : List Component} (hfs : ∀ k ∈ fs, k.isSkipped = true)
    (hgs : ∀ k ∈ gs, k.head ≠ curly)
    (hbegin : ∀ k ∈ gs.head?, isMeaningful k.head = true ∧ beginsRule k.head = true)
    (x : List Char) : ∃ head, Gathered (x ++ Component.textOf (fs ++ gs)) head ∧
      ∀ rest, rulesFrom (.fresh x) (fs ++ gs ++ rest) = rulesFrom head rest := by
  cases gs with
  | nil =>
    rw [List.append_nil]
    exact ⟨_,Or.inl rfl,rulesFrom_skipped hfs x⟩
  | cons k gs =>
    obtain ⟨hmeaning,hk⟩ := hbegin k rfl
    obtain ⟨hcurly,hgs⟩ := List.forall_mem_cons.1 hgs
    refine ⟨_,Or.inr rfl,fun rest => ?_⟩
    rw [List.append_assoc,rulesFrom_skipped hfs,List.cons_append,rulesFrom_push hcurly,
      push_begins hmeaning hk,rulesFrom_style hgs,Component.textOf_append,Component.textOf]
    simp only [List.append_assoc]

def Found.rules : Found → Cursor → List StyleRule
  | .nothing,_ => []
  | .rule r,_ => [r]
  | .group,d => rulesFrom (.fresh []) ((⟨d.rest,none⟩ : Cursor).content (some .curly))

def rulesAhead (block : Option Bracket) (c : Cursor) : List StyleRule :=
  rulesFrom (.fresh c.pendingText) (c.content block)

theorem rulesAhead_none (block : Option Bracket) (xs : List Lexeme) :
    rulesAhead block ⟨xs,none⟩ = rulesFrom (.fresh []) ((⟨xs,none⟩ : Cursor).content block) := by
  rw [rulesAhead,pendingText_none]

theorem rulesAhead_limit (block : Option Bracket) (c : Cursor) :
    rulesAhead block ⟨c.limit block,none⟩ = [] := by
  rw [rulesAhead_none,content_limit,rulesFrom_nil]

theorem rulesAhead_settled (block : Option Bracket) (c : Cursor) :
    rulesAhead block ⟨c.settled,none⟩ = rulesFrom (.fresh []) (c.content block) := by
  rw [rulesAhead_none,content_settled]

/-- The rules of an at-rule are those of its group, and what is not entered of it goes to the next rule.
-/
theorem readAtRule_rules {name : String} (h : readAtRule block name c = (f,d))
    (hspelled : Component.ClosingSpelled c.rest) :
    rulesFrom (.atRule name) (c.content block) = f.rules d ++ rulesAhead block (f.resume d) := by
  have hfree : ∀ k ∈ Component.ofLexemes (before (halts block [.semicolon,curly]) [] c.settled),
      k.isSemicolon = false ∧ k.head ≠ curly := by
    intro k hk
    have hmarks := (halts_eq_false.1 (Component.head_of_mem_before hk)).2
    obtain ⟨hsemicolon,hcurly⟩ : k.head ≠ .semicolon ∧ k.head ≠ curly := by simpa using hmarks
    exact ⟨isToken_of_head hsemicolon,hcurly⟩
  rw [content_goTo (fun _ h => halts_of_ends h [.semicolon,curly]) c,rulesFrom_prelude hfree]
  rcases readAtRule_cases block name c with ⟨hgo,hd⟩ | ⟨source,ys,hgo,hends,hd⟩ |
    ⟨source,ys,hgo,_,hd⟩
  · cases h.symm.trans hd
    rw [hgo,content_limit,rulesFrom_nil]
    exact (rulesAhead_limit block c).symm
  · cases h.symm.trans hd
    rw [hgo,content_cons hends rfl,rulesFrom]
    exact (rulesAhead_none block ys).symm
  · have hys : ys ⊆ c.rest := (isPast_of_goTo hgo none).1.subset
    rw [hgo,curly,content_opening,rulesFrom]
    cases hgroup : Text.isOneOf groupingRules name with
    | true =>
      rw [hgroup,if_pos rfl] at hd
      cases h.symm.trans hd
      rw [if_pos rfl]
      exact congrArg _ (rulesAhead_settled block ⟨ys,some .curly⟩).symm
    | false =>
      -- the walk stays behind the opening, so the text of the block goes to the next prelude
      rw [hgroup,if_neg (by simp)] at hd
      cases h.symm.trans hd
      rw [if_neg (by simp)]
      have htext := pendingText_some (.bracket .curly) (hspelled.mono hys)
      exact congrArg (fun x => rulesFrom (.fresh x) ((⟨ys,some .curly⟩ : Cursor).content block))
        htext.symm

/-- What a style rule goes on to its block with is gathered as its prelude. -/
theorem exists_prelude {t : Token} {k : Cursor} (hnext : c.next? (ends block) = some (t,k))
    (ht : beginsRule t = true) (hspelled : Component.ClosingSpelled c.rest) :
    ∃ head, Gathered ((c.passed (halts block [curly])).flatMap Lexeme.source) head ∧
      ∀ rest, rulesFrom (.fresh c.pendingText)
        (Component.ofLexemes (before (halts block [curly]) [] c.settled) ++ rest) =
          rulesFrom head rest := by
  obtain ⟨x,xs,hahead,_,rfl,_⟩ := next?_eq_some hnext
  have hmarks : ∀ u ∈ [curly], isMeaningful u = true := List.forall_mem_singleton.2 rfl
  have honward : onward isMeaningful [] c.settled = x :: xs := (onward_settled _ c).trans hahead
  have hsplit : Component.ofLexemes (before (halts block [curly]) [] c.settled) =
      Component.ofLexemes (before isMeaningful [] c.settled) ++
        Component.ofLexemes (before (halts block [curly]) [] (x :: xs)) := by
    rw [← honward]
    exact Component.ofLexemes_before (fun _ h => isMeaningful_of_halts hmarks h) c.settled
  have hcurly : ∀ g ∈ Component.ofLexemes (before (halts block [curly]) [] (x :: xs)),
      g.head ≠ curly := by
    intro g hg
    exact List.ne_of_not_mem_cons (halts_eq_false.1 (Component.head_of_mem_before hg)).2
  have hbegin : ∀ g ∈ (Component.ofLexemes (before (halts block [curly]) [] (x :: xs))).head?,
      isMeaningful g.head = true ∧ beginsRule g.head = true := by
    intro g hg
    cases hx : halts block [curly] x.token with
    | true =>
      rw [before_of_stops hx] at hg
      cases hg
    | false =>
      obtain ⟨first,gs,hfirst,hhead⟩ := Component.exists_ofLexemes_before hx xs
      rw [hfirst,List.head?_cons,Option.mem_some] at hg
      rw [← hg,hhead]
      exact ⟨stops_of_onward hahead,ht⟩
  rw [text_passed _ hspelled,hsplit]
  exact exists_gathered (skipped_before c.settled) hcurly hbegin c.pendingText

/-- The rule that is read has all of the text up to its block as its prelude. -/
theorem readStyleRule_rules {t : Token} {k : Cursor} (hnext : c.next? (ends block) = some (t,k))
    (ht : beginsRule t = true) (h : readStyleRule block c = (f,d))
    (hspelled : Component.ClosingSpelled c.rest) :
    rulesAhead block c = f.rules d ++ rulesAhead block (f.resume d) := by
  obtain ⟨head,hhead,hrules⟩ := exists_prelude hnext ht hspelled
  rw [rulesAhead,content_goTo (fun _ h => halts_of_ends h [curly]) c,hrules]
  rcases readStyleRule_cases block c with ⟨hgo,hd⟩ | ⟨source,ys,hgo,_,hd⟩
  · cases h.symm.trans hd
    rw [hgo,content_limit,rulesFrom_nil]
    exact (rulesAhead_limit block c).symm
  · cases h.symm.trans hd
    rw [hgo,curly,content_opening,rulesFrom_gathered hhead]
    exact congrArg _ (rulesAhead_settled block ⟨ys,some .curly⟩).symm

/-- Ahead of a token that opens no block are white space and comments only. -/
theorem content_of_next? {t : Token} {k : Cursor} (h : c.next? (ends block) = some (t,k))
    (ht : t.closer? = none) : ∃ fs source xs, (∀ g ∈ fs, Component.isSkipped g = true) ∧ k = ⟨xs,none⟩ ∧
      c.content block = fs ++ .plain t source :: k.content block := by
  obtain ⟨x,xs,hahead,hx,rfl,rfl⟩ := next?_eq_some h
  have hgo : c.goTo isMeaningful = ⟨x :: xs,none⟩ := congrArg (Cursor.mk · none) hahead
  rw [ht]
  refine ⟨_,x.source,xs,skipped_before c.settled,rfl,?_⟩
  rw [content_goTo (fun _ => isMeaningful_of_ends) c,hgo,content_cons hx ht]

/-- The rules ahead are those that a round finds and those ahead of where the walk goes on. -/
theorem round?_rules (h : round? block c = some (f,d))
    (hspelled : Component.ClosingSpelled c.rest) :
    rulesAhead block c = f.rules d ++ rulesAhead block (f.resume d) := by
  rcases round?_cases h with ⟨name,k,hnext,hread⟩ | ⟨t,ht,hnext,rfl⟩ | ⟨t,k,hnext,ht,hread⟩
  · obtain ⟨fs,source,xs,hfs,-,hcontent⟩ := content_of_next? hnext rfl
    have hk : Component.ClosingSpelled k.rest := hspelled.mono (isPast_of_next? hnext).1.subset
    rw [← readAtRule_rules hread hk,rulesAhead,hcontent,rulesFrom_skipped hfs,rulesFrom]
    rfl
  · have hplain : t.closer? = none ∧ ∀ x source, (Head.fresh x).push (.plain t source) = .fresh [] := by
      simp only [List.mem_cons,List.not_mem_nil,or_false] at ht
      rcases ht with rfl | rfl | rfl <;> exact ⟨rfl,fun _ _ => rfl⟩
    obtain ⟨fs,source,xs,hfs,rfl,hcontent⟩ := content_of_next? hnext hplain.1
    rw [rulesAhead,hcontent,rulesFrom_skipped hfs,rulesFrom,hplain.2]
    exact (rulesAhead_none block xs).symm
  · exact readStyleRule_rules hnext ht hread hspelled

theorem Enters.rules_eq (h : Enters f d rs e)
    (hinner : ∀ {found : List StyleRule} {k : Cursor}, Walk (some .curly) ⟨d.rest,none⟩ found k →
      found = rulesAhead (some .curly) ⟨d.rest,none⟩) : rs = f.rules d := by
  cases h with
  | nothing => rfl
  | rule => rfl
  | group h => exact (hinner h).trans (rulesAhead_none _ _)

/-- The rules of a walk are those of the components ahead of where it begins. -/
theorem Walk.rules_eq (h : Walk block c rs e) (hspelled : Component.ClosingSpelled c.rest) :
    rs = rulesAhead block c := by
  induction hn : c.rest.length using Nat.strongRecOn generalizing block c rs e with
  | ind n ih =>
    subst hn
    cases h with
    | done hnext =>
      have hskip := List.all_eq_true.1 (allSkipped_content.2 hnext)
      rw [rulesAhead,← List.append_nil (c.content block),rulesFrom_skipped hskip,rulesFrom_nil]
    | @more _ _ k _ first rest hr hs =>
      obtain @⟨_,_,d,_,f,_,hround,hd⟩ := hr
      obtain ⟨hpast,_,hpending⟩ := round?_leads hround
      have hnext : (f.resume d).IsPast c := hpast.of_suffix (f.resume_leads d block).1
      have hfirst : first = f.rules d :=
        hd.rules_eq fun h => ih _ hpast.2 h (hspelled.mono hpast.1.subset) rfl
      rw [hd.eq_resume hpending] at hs
      rw [round?_rules hround hspelled,hfirst,ih _ hnext.2 hs (hspelled.mono hnext.1.subset) rfl]

end

/-- Every round of the walk, and every turn of the loops over declarations and over selectors, ends
further in the text than it began and before the end of its block, whatever block a reader is in and
whether or not it has just read the opening of another one. There is a next one exactly as long as there
is a token before the end of the block. So every loop comes to an end, in one way only, and that is the
end of its block: for a sheet the end of the text, where it has found the rules of the sheet. -/
theorem rounds_advance :
    (∀ (block : Option Bracket) (c : Cursor),
      (c.next? (ends block) = none ↔ c.ahead = c.limit block) ∧
      ((∃ rs d, Round block c rs d) ↔ c.next? (ends block) ≠ none) ∧
      (∀ rs d, Round block c rs d → d.IsPast c ∧ d.limit block = c.limit block) ∧
      ∃ rs, ∀ found e, Walk block c found e ↔ found = rs ∧ e = ⟨c.limit block,none⟩) ∧
    (∀ (sep : Token) (block : Option Bracket) (c : Cursor),
      ((∃ row d, Turn sep block c row d) ↔ c.next? (ends block) ≠ none) ∧
      (∀ row d, Turn sep block c row d → d.IsPast c ∧ d.limit block = c.limit block) ∧
      ∃ rows e, e.ahead = c.limit block ∧
        ∀ found k, Turns sep block c found k ↔ found = rows ∧ k = e) ∧
    (∀ (s : List Char) (block : Option Bracket) (c : Cursor), c.rest <:+ lexemes s →
      (∀ d : Cursor, d.IsPast c → d.text.length < c.text.length) ∧
      ∀ rs e, Walk block c rs e → rs = rulesFrom (.fresh c.pendingText) (c.content block)) ∧
    (∀ css rs e, Walk none ⟨lexemes (String.toList css),none⟩ rs e ↔
      rs = rules css ∧ e = ⟨[],none⟩) ∧
    (∀ xs rows e, Turns .semicolon (some .curly) ⟨xs,none⟩ rows e →
      rows.filterMap (fun row => Declaration.ofComponents? (Component.ofLexemes row)) =
        Declaration.all ((⟨xs,none⟩ : Cursor).content (some .curly))) ∧
    ∀ types text rows e, Turns .comma none ⟨lexemes (String.toList text),none⟩ rows e →
      (rows.map fun row => Selector.ofComponents types (Component.ofLexemes row)).filter
        (fun s => !s.text.isEmpty) = Selector.all types text := by
  refine ⟨?rounds,?turns,?places,?sheet,?declarations,?selectors⟩
  case rounds =>
    exact fun block c => ⟨next?_eq_none,exists_round_iff,fun rs d h => h.leads,
      walk_finishes block c⟩
  case turns =>
    refine fun sep block c => ⟨⟨?_,?_⟩,fun row d h => ⟨h.isPast,h.limit_eq⟩,turns_total sep block c⟩
    · rintro ⟨row,d,h⟩
      exact (turn_iff.1 h).1
    · exact fun h => ⟨_,_,.of_next? sep h⟩
  case places =>
    intro s block c hc
    have hspelled : Component.ClosingSpelled c.rest := fun x hx => lexemes_closing s x (hc.subset hx)
    exact ⟨fun d h => h.text_lt hc,fun rs e h => h.rules_eq hspelled⟩
  case sheet =>
    intro css rs e
    obtain ⟨found,hall⟩ := walk_finishes none ⟨lexemes css.toList,none⟩
    have hrules : found = rules css := by
      have h := ((hall _ _).2 ⟨rfl,rfl⟩).rules_eq (lexemes_closing css.toList)
      rw [h,rulesAhead_none,content_whole]
      rfl
    rw [hall,hrules,limit_none]
  case declarations => exact fun xs rows e h => h.declarations
  case selectors => exact fun types text rows e h => h.selectors types

/-- The look ahead goes on behind the block that is not entered, the rule goes back into it. -/
example : (round? none ⟨lexemes "b:c\x7d.d\x7be:f\x7d".toList,some .curly⟩).map
    (fun p => String.ofList p.2.text) = some "e:f\x7d" := by cbv

end StyleExpansion.Sheet
