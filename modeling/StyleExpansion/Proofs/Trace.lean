import Mathlib
import StyleExpansion.Trace

/-! # What a log holds

The entries that a log takes add up: its buffer gets their lines, and a counter gets what they count
under its key, up to its greatest value. Every event enters as many lines of a kind as it counts under
the key of that kind, so a log that began empty has counters that account for its lines.
-/
namespace StyleExpansion

/-! ## Counters -/

namespace Log

def tally (counts : List (String × Nat)) (key : String) : Nat := (counts.lookup key).getD 0

theorem tally_cons (k key : String) (n : Nat) (cs : List (String × Nat)) :
    tally ((k,n) :: cs) key = if k = key then n else tally cs key := by
  rw [tally,List.lookup_cons]
  by_cases h : k = key
  · simp [h]
  · rw [beq_false_of_ne (Ne.symm h),if_neg h]
    rfl

theorem saturated_add (m n : Nat) : saturated (saturated m + n) = saturated (m + n) := by
  unfold saturated
  omega

theorem tally_raise (k key : String) (n : Nat) (cs : List (String × Nat)) :
    tally (raise k n cs) key = if k = key then saturated (tally cs key + n) else tally cs key := by
  induction cs with
  | nil =>
    rw [raise,tally_cons]
    simp [tally]
  | cons c cs ih =>
    obtain ⟨j,m⟩ := c
    rw [raise]
    by_cases hj : j = k
    · rw [if_pos hj,tally_cons,tally_cons,hj]
      split <;> rfl
    · rw [if_neg hj,tally_cons,ih,tally_cons]
      by_cases hk : k = key
      · have hjk : j ≠ key := fun h => hj (h.trans hk.symm)
        rw [if_neg hjk,if_neg hjk]
      · rw [if_neg hk,if_neg hk]

theorem mem_keys_raise {k key : String} {n : Nat} {cs : List (String × Nat)} :
    key ∈ (raise k n cs).map Prod.fst ↔ key = k ∨ key ∈ cs.map Prod.fst := by
  induction cs with
  | nil => simp [raise]
  | cons c cs ih =>
    obtain ⟨j,m⟩ := c
    rw [raise]
    split
    · next hj => simp [hj]
    · rw [List.map_cons,List.mem_cons,ih,List.map_cons,List.mem_cons]
      tauto

theorem nodup_keys_raise {k : String} {n : Nat} {cs : List (String × Nat)}
    (h : (cs.map Prod.fst).Nodup) : ((raise k n cs).map Prod.fst).Nodup := by
  induction cs with
  | nil => exact List.nodup_singleton k
  | cons c cs ih =>
    obtain ⟨j,m⟩ := c
    rw [raise]
    split
    · exact h
    · next hj =>
      rw [List.map_cons,List.nodup_cons] at h ⊢
      refine ⟨fun hm => ?_,ih h.2⟩
      rcases mem_keys_raise.1 hm with hm | hm
      · exact hj hm
      · exact h.1 hm

/-- The order of counters with different keys does not matter. -/
theorem tally_perm {cs ds : List (String × Nat)} (h : cs.Perm ds) (hcs : (cs.map Prod.fst).Nodup)
    (key : String) : tally cs key = tally ds key := by
  induction h with
  | nil => rfl
  | cons c _ ih =>
    obtain ⟨j,m⟩ := c
    rw [tally_cons,tally_cons,ih (List.nodup_cons.1 hcs).2]
  | swap c d l =>
    obtain ⟨j,m⟩ := c
    obtain ⟨k,n⟩ := d
    have hjk : k ≠ j := by
      rintro rfl
      exact (List.nodup_cons.1 hcs).1 List.mem_cons_self
    rw [tally_cons,tally_cons,tally_cons,tally_cons]
    by_cases hk : k = key
    · rw [if_pos hk,if_pos hk,if_neg fun h => hjk (hk.trans h.symm)]
    · rw [if_neg hk,if_neg hk]
  | trans hab _ ihab ihbc =>
    exact (ihab hcs).trans (ihbc ((hab.map Prod.fst).nodup_iff.1 hcs))

theorem sortedCounters_perm (log : Log) : log.sortedCounters.Perm log.counters :=
  List.mergeSort_perm _ _

/-- Counters with different keys are listed in the order of their keys. -/
theorem sortedCounters_increasing {log : Log} (h : (log.counters.map Prod.fst).Nodup) :
    (log.sortedCounters.map Prod.fst).Pairwise (· < ·) := by
  have hle : log.sortedCounters.Pairwise fun a b => decide (a.1 ≤ b.1) = true := by
    apply List.pairwise_mergeSort
    · intro a b c hab hbc
      exact decide_eq_true (le_trans (of_decide_eq_true hab) (of_decide_eq_true hbc))
    · intro a b
      simpa using le_total a.1 b.1
  have hnodup : (log.sortedCounters.map Prod.fst).Nodup :=
    (log.sortedCounters_perm.map Prod.fst).nodup_iff.2 h
  rw [List.pairwise_map]
  refine (hle.and (List.pairwise_map.1 hnodup)).imp fun hab => ?_
  exact lt_of_le_of_ne (of_decide_eq_true hab.1) hab.2

end Log

/-! ## Entries -/

namespace Entry

def line? : Entry → Option String
  | line text => some text
  | count .. => none

def amount (key : String) : Entry → Nat
  | line _ => 0
  | count k n => if k = key then n else 0

def total (key : String) (entries : List Entry) : Nat := (entries.map (amount key)).sum

theorem total_nil (key : String) : total key [] = 0 := rfl

theorem total_cons (key : String) (x : Entry) (xs : List Entry) :
    total key (x :: xs) = x.amount key + total key xs := by
  rw [total,List.map_cons,List.sum_cons,total]

@[simp]
theorem total_append (key : String) (xs ys : List Entry) :
    total key (xs ++ ys) = total key xs + total key ys := by
  simp [total]

theorem total_perm {xs ys : List Entry} (h : xs.Perm ys) (key : String) : total key xs = total key ys :=
  (h.map (amount key)).sum_eq

end Entry

namespace Log

theorem buffer_enterAll (log : Log) (entries : List Entry) :
    (log.enterAll entries).buffer = log.buffer ++ entries.filterMap Entry.line? := by
  induction entries generalizing log with
  | nil => simp [enterAll]
  | cons x entries ih =>
    rw [enterAll,List.foldl_cons]
    refine (ih (log.enter x)).trans ?_
    cases x with
    | line text => simp [enter,Entry.line?]
    | count key n => rfl

theorem nodup_keys_enterAll {log : Log} (h : (log.counters.map Prod.fst).Nodup)
    (entries : List Entry) : ((log.enterAll entries).counters.map Prod.fst).Nodup := by
  induction entries generalizing log with
  | nil => exact h
  | cons x entries ih =>
    apply ih
    cases x with
    | line text => exact h
    | count key n => exact nodup_keys_raise h

/-- A counter that stands for a number stands for the sum after all entries. -/
theorem tally_enterAll {log : Log} {key : String} {n : Nat}
    (h : tally log.counters key = saturated n) (entries : List Entry) :
    tally (log.enterAll entries).counters key = saturated (n + Entry.total key entries) := by
  induction entries generalizing log n with
  | nil => exact h
  | cons x entries ih =>
    have hx : tally (log.enter x).counters key = saturated (n + x.amount key) := by
      cases x with
      | line text => exact h
      | count k m =>
        rw [enter,tally_raise,h,saturated_add,Entry.amount]
        split
        · rfl
        · rfl
    rw [Entry.total_cons,← Nat.add_assoc]
    exact ih hx

end Log

/-! ## Lines -/

/-- The type that a line of the log gives itself: what follows its first nine characters, up to a
quotation mark. -/
def lineType (line : String) : String :=
  String.ofList ((line.toList.drop 9).takeWhile (· ≠ '"'))

def tellsUnparsed (line : String) : Bool :=
  ",\"parsed\":false\x7d".toList.isSuffixOf line.toList

def lineCounters : List (String × (String → Bool)) :=
  [("css.stylesheet_failed",fun l => lineType l == "css.stylesheet.failed"),
   ("css.selector_unparsed",fun l => lineType l == "css.rule" && tellsUnparsed l),
   ("css.declaration_skipped",fun l => lineType l == "css.declaration.skipped"),
   ("css.longhand.dropped",fun l => lineType l == "css.longhand.dropped")]

namespace Event

theorem lineType_typed {kind : String} (h : kind.toList.all (fun c => Text.plain c == [c]) = true)
    (fields : List (String × String)) : lineType (typed kind fields) = kind := by
  have h : ∀ c ∈ kind.toList, Text.plain c = [c] := by simpa using h
  have hkind : kind.toList.flatMap Text.plain = kind.toList :=
    (List.flatMap_congr h).trans (List.flatMap_singleton' _)
  have hquote : ∀ c ∈ kind.toList, decide (c ≠ '"') = true := by
    intro c hc
    refine decide_eq_true fun hq => ?_
    have hplain := h c hc
    rw [hq] at hplain
    cases hplain
  obtain ⟨rest,hrest⟩ : ∃ rest, (typed kind fields).toList =
      "\x7b\"type\":\"".toList ++ (kind.toList ++ '"' :: rest) := by
    cases fields with
    | nil => exact ⟨['\x7d'],by simp [typed,object,Text.logged,Text.plainlyQuoted,Text.plain,hkind]⟩
    | cons f fs =>
      exact ⟨_,by simp [typed,object,Text.logged,Text.plainlyQuoted,Text.plain,hkind]; rfl⟩
  have hstart : "\x7b\"type\":\"".toList.length = 9 := by decide
  rw [lineType,hrest,List.drop_left' hstart,List.takeWhile_append_of_pos hquote]
  simp

theorem tellsUnparsed_rule (selector : String) (isTarget : Bool) :
    tellsUnparsed (typed "css.rule" [("selector",Text.logged selector),
      ("parsed",if isTarget then "true" else "false")]) = !isTarget := by
  obtain ⟨before,hline⟩ : ∃ before, (typed "css.rule" [("selector",Text.logged selector),
      ("parsed",if isTarget then "true" else "false")]).toList = before ++
      (if isTarget then ",\"parsed\":true\x7d" else ",\"parsed\":false\x7d").toList := by
    refine ⟨"\x7b\"type\":\"css.rule\",\"selector\":".toList ++ (Text.logged selector).toList,?_⟩
    cases isTarget <;> simp [typed,object,Text.logged,Text.plainlyQuoted,Text.plain]
  rw [tellsUnparsed,hline]
  cases isTarget with
  | false => exact List.isSuffixOf_iff_suffix.2 (List.suffix_append _ _)
  | true =>
    rw [Bool.not_true,Bool.eq_false_iff]
    intro h
    have hends := List.suffix_or_suffix_of_suffix (List.isSuffixOf_iff_suffix.1 h)
      (List.suffix_append before _)
    revert hends
    decide

/-- An event enters no summary, and as many lines of a kind as it counts under the key of that kind. -/
theorem entries_account (x : Event) :
    (∀ l ∈ x.entries.filterMap Entry.line?, lineType l ≠ "debug.summary") ∧
      ∀ c ∈ lineCounters,
        Entry.total c.1 x.entries = (x.entries.filterMap Entry.line?).countP c.2 := by
  have hrejected := lineType_typed (by decide : "css.stylesheet.failed".toList.all _ = true)
  have hrule := lineType_typed (by decide : "css.rule".toList.all _ = true)
  have hskipped := lineType_typed (by decide : "css.declaration.skipped".toList.all _ = true)
  have hdropped := lineType_typed (by decide : "css.longhand.dropped".toList.all _ = true)
  cases x with
  | sheetRejected reason =>
    simp [entries,lineCounters,List.filterMap_cons,Entry.line?,Entry.total_nil,Entry.total_cons,
      Entry.amount,hrejected]
  | ruleRead selector isTarget =>
    have hrest := tellsUnparsed_rule selector isTarget
    cases isTarget with
    | false =>
      rw [if_neg Bool.false_ne_true] at hrest
      simp [entries,lineCounters,List.filterMap_cons,Entry.line?,Entry.total_nil,Entry.total_cons,
        Entry.amount,hrule,hrest]
    | true =>
      rw [if_pos rfl] at hrest
      simp [entries,lineCounters,Entry.line?,Entry.total_nil,Entry.total_cons,Entry.amount,hrule,hrest]
  | declarationExpanded n =>
    simp [entries,lineCounters,List.filterMap_cons,Entry.line?,Entry.total_nil,Entry.total_cons,
      Entry.amount]
  | declarationSkipped property reason =>
    simp [entries,lineCounters,List.filterMap_cons,Entry.line?,Entry.total_nil,Entry.total_cons,
      Entry.amount,hskipped]
  | longhandDropped property reason =>
    simp [entries,lineCounters,List.filterMap_cons,Entry.line?,Entry.total_nil,Entry.total_cons,
      Entry.amount,hdropped]

theorem flatMap_entries_account (xs : List Event) :
    (∀ l ∈ (xs.flatMap entries).filterMap Entry.line?, lineType l ≠ "debug.summary") ∧
      ∀ c ∈ lineCounters, Entry.total c.1 (xs.flatMap entries) =
        ((xs.flatMap entries).filterMap Entry.line?).countP c.2 := by
  induction xs with
  | nil => simp [Entry.total_nil]
  | cons x xs ih =>
    obtain ⟨hplain,hcount⟩ := x.entries_account
    rw [List.flatMap_cons,List.filterMap_append]
    refine ⟨fun l hl => ?_,fun c hc => ?_⟩
    · rcases List.mem_append.1 hl with hl | hl
      · exact hplain l hl
      · exact ih.1 l hl
    · rw [Entry.total_append,List.countP_append,hcount c hc,ih.2 c hc]

end Event

end StyleExpansion
