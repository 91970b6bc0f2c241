import StyleExpansion.Sheet

/-! # The walk over a sheet

What one component does to what has been read since the last complete rule, and the rules it completes.
From that, the rules of joined lists of components: the second list is read from where the first one
leaves off.
-/
namespace StyleExpansion.Sheet
open Component

theorem rulesFrom_nil (h : Head) : rulesFrom h [] = [] := by rw [rulesFrom]

theorem rulesFrom_block {kind : Opening} (hk : kind ≠ .bracket .curly) (h : Head)
    (source : List Char) (contents : List Component) (closed : Bool) (cs : List Component) :
    rulesFrom h (.block kind source contents closed :: cs) =
      rulesFrom (h.push (.block kind source contents closed)) cs := by
  rw [rulesFrom]
  · exact fun _ hc => absurd hc hk
  · exact fun _ hc => absurd hc hk
  · exact fun _ hc => absurd hc hk

/-- A component completes no rule unless it is a curly block. -/
theorem rulesFrom_push {c : Component} (hc : c.head ≠ .opening (.bracket .curly)) (h : Head)
    (cs : List Component) : rulesFrom h (c :: cs) = rulesFrom (h.push c) cs := by
  cases c with
  | plain t source => rw [rulesFrom]
  | block kind source contents closed =>
    have hkind : kind ≠ .bracket .curly := fun hk => hc (by rw [hk]; rfl)
    exact rulesFrom_block hkind h source contents closed cs

/-- An at-rule goes on to a semicolon or a curly block. -/
theorem rulesFrom_prelude {name : String} {cs : List Component}
    (h : ∀ c ∈ cs, c.isSemicolon = false ∧ c.head ≠ .opening (.bracket .curly))
    (rest : List Component) :
    rulesFrom (.atRule name) (cs ++ rest) = rulesFrom (.atRule name) rest := by
  induction cs with
  | nil => rfl
  | cons c cs ih =>
    obtain ⟨⟨hsemicolon,hcurly⟩,hcs⟩ := List.forall_mem_cons.1 h
    have hpush : (Head.atRule name).push c = .atRule name := by
      rw [Head.push,hsemicolon]
      rfl
    rw [List.cons_append,rulesFrom_push hcurly,hpush,ih hcs]

namespace Head

def step (h : Head) (c : Component) : Head :=
  match c,h with
  | .block (.bracket .curly) _ contents closed,.atRule name =>
    if Text.isOneOf groupingRules name then .fresh []
    else .fresh (textOf contents ++ endText (.bracket .curly) closed)
  | .block (.bracket .curly) ..,_ => .fresh []
  | c,h => h.push c

def completed (h : Head) (c : Component) : List StyleRule :=
  match c,h with
  | .block (.bracket .curly) _ contents _,.fresh skipped => [ruleOf skipped contents]
  | .block (.bracket .curly) _ contents _,.style prelude => [ruleOf prelude contents]
  | .block (.bracket .curly) _ contents _,.atRule name =>
    if Text.isOneOf groupingRules name then rulesFrom (.fresh []) contents else []
  | _,_ => []

def after (h : Head) (cs : List Component) : Head := cs.foldl step h

end Head

theorem rulesFrom_cons (h : Head) (c : Component) (cs : List Component) :
    rulesFrom h (c :: cs) = h.completed c ++ rulesFrom (h.step c) cs := by
  cases c with
  | plain t source =>
    rw [rulesFrom]
    rfl
  | block kind source contents closed =>
    by_cases hk : kind = .bracket .curly
    · subst hk
      cases h with
      | fresh skipped =>
        rw [rulesFrom]
        rfl
      | style prelude =>
        rw [rulesFrom]
        rfl
      | atRule name =>
        rw [rulesFrom,Head.completed,Head.step]
        split <;> rfl
    · have hcompleted : h.completed (.block kind source contents closed) = [] := by
        unfold Head.completed
        split <;> simp_all
      have hstep : h.step (.block kind source contents closed) =
          h.push (.block kind source contents closed) := by
        unfold Head.step
        split <;> simp_all
      rw [rulesFrom_block hk,hcompleted,hstep,List.nil_append]

/-- The rules of joined lists of components, the second one read from where the first one leaves off. -/
theorem rulesFrom_append (h : Head) (cs ds : List Component) :
    rulesFrom h (cs ++ ds) = rulesFrom h cs ++ rulesFrom (h.after cs) ds := by
  induction cs generalizing h with
  | nil => rw [rulesFrom_nil]; rfl
  | cons c cs ih => rw [List.cons_append,rulesFrom_cons,ih,rulesFrom_cons,List.append_assoc]; rfl

theorem rulesFrom_concat_plain (h : Head) (cs : List Component) (t : Token) (source : List Char) :
    rulesFrom h (cs ++ [.plain t source]) = rulesFrom h cs := by
  rw [rulesFrom_append,rulesFrom,rulesFrom_nil,List.append_nil]

end StyleExpansion.Sheet
