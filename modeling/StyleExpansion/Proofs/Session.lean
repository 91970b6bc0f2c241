import Mathlib
import StyleExpansion.Proofs.Trace
import StyleExpansion.Expander.Session

/-! # The log of a session

Between two requests the log holds what single expansions left in it. Then and at any other time its
counters account for the lines of its buffer, and for the declarations of sheets that were expanded
since the last summary. Sheets are worked on side by side, so the entries of a request may come in any
order.
-/
namespace StyleExpansion

/-! ## Declarations of sheets -/

namespace Expander

/-- What the declarations of a sheet give, as far as they are expanded: those of the style rules with a
target, if the sheet is accepted. -/
def expanded (e : Expander) (gate : Gate) (css : String) : List (List Setting) :=
  if (gate css).isSome then []
  else
    ((Sheet.rules css).filter fun r => !(e.targets r).isEmpty).flatMap fun r =>
      (e.declarations r).filterMap fun d => (e.expandProperty d.name d.value).toOption

end Expander

namespace Request

def sheets : Request → List String
  | parseCss css => [css]
  | parseStylesheets sheets => sheets
  | expandProperty _ _ => []

def expanded (gate : Gate) (e : Expander) (r : Request) : List (List Setting) :=
  r.sheets.flatMap (e.expanded gate)

end Request

namespace Event

def expansions : Event → List Nat
  | declarationExpanded n => [n]
  | _ => []

/-- Expanded declarations are counted, and so are their longhands. -/
theorem total_expansions (xs : List Event) :
    Entry.total "css.declarations" (xs.flatMap entries) = (xs.flatMap expansions).length ∧
      Entry.total "css.longhands" (xs.flatMap entries) = (xs.flatMap expansions).sum := by
  induction xs with
  | nil => exact ⟨rfl,rfl⟩
  | cons x xs ih =>
    have hx : Entry.total "css.declarations" x.entries = x.expansions.length ∧
        Entry.total "css.longhands" x.entries = x.expansions.sum := by
      cases x with
      | ruleRead selector isTarget =>
        cases isTarget <;>
          simp [entries,expansions,Entry.total_nil,Entry.total_cons,Entry.amount]
      | _ => simp [entries,expansions,Entry.total_nil,Entry.total_cons,Entry.amount]
    rw [List.flatMap_cons,List.flatMap_cons,Entry.total_append,Entry.total_append,hx.1,hx.2,ih.1,ih.2,
      List.length_append,List.sum_append]
    exact ⟨rfl,rfl⟩

end Event

namespace Expander

theorem expansions_dropped (ls : List Longhand) : (dropped ls).flatMap Event.expansions = [] := by
  rw [List.flatMap_eq_nil_iff]
  intro x hx
  obtain ⟨l,_,hl⟩ := List.mem_filterMap.1 hx
  split at hl <;> cases hl
  rfl

theorem expansions_declarationEvents (e : Expander) (d : Declaration) :
    (e.declarationEvents d).flatMap Event.expansions =
      (e.expandProperty d.name d.value).toOption.toList.map List.length := by
  rw [declarationEvents,expandProperty]
  cases e.longhands d.name d.value with
  | error cause => rfl
  | ok ls =>
    rw [List.flatMap_append,expansions_dropped]
    rfl

theorem expansions_ruleEvents (e : Expander) (r : StyleRule) :
    (e.ruleEvents r).flatMap Event.expansions =
      if (e.targets r).isEmpty then []
      else ((e.declarations r).filterMap fun d =>
        (e.expandProperty d.name d.value).toOption).map List.length := by
  have hread : ((e.selectors r).map fun s =>
      Event.ruleRead s.text s.target.isSome).flatMap Event.expansions = [] := by
    simp [List.flatMap_map,Event.expansions]
  rw [ruleEvents,List.flatMap_append,hread,List.nil_append]
  split
  · rfl
  · rw [List.flatMap_assoc,List.filterMap_eq_flatMap_toList,List.map_flatMap]
    exact List.flatMap_congr fun d _ => e.expansions_declarationEvents d

theorem expansions_sheetEvents (gate : Gate) (e : Expander) (css : String) :
    (e.sheetEvents gate css).flatMap Event.expansions = (e.expanded gate css).map List.length := by
  rw [sheetEvents,expanded]
  cases gate css with
  | some reason => rfl
  | none =>
    simp only [Option.isSome_none,Bool.false_eq_true,if_false]
    rw [List.flatMap_assoc,List.map_flatMap]
    induction Sheet.rules css with
    | nil => rfl
    | cons r rs ih =>
      rw [List.flatMap_cons,ih,expansions_ruleEvents,List.filter_cons]
      cases (e.targets r).isEmpty <;> simp

theorem expansions_events (gate : Gate) (e : Expander) (r : Request) :
    (r.events gate e).flatMap Event.expansions = (r.expanded gate e).map List.length := by
  cases r with
  | parseCss css => simp [Request.events,Request.expanded,Request.sheets,expansions_sheetEvents]
  | parseStylesheets sheets =>
    rw [Request.events,Request.expanded,Request.sheets,List.flatMap_assoc,List.map_flatMap]
    exact List.flatMap_congr fun css _ => expansions_sheetEvents gate e css
  | expandProperty property value =>
    rw [Request.events,propertyEvents]
    split
    · exact expansions_dropped _
    · rfl

end Expander

/-! ## What a log holds since the last summary -/

namespace Request

def allEntries (gate : Gate) (e : Expander) (window : List Request) : List Entry :=
  window.flatMap fun r => r.entries gate e

def allExpanded (gate : Gate) (e : Expander) (window : List Request) : List (List Setting) :=
  window.flatMap fun r => r.expanded gate e

theorem allEntries_eq (gate : Gate) (e : Expander) (window : List Request) :
    allEntries gate e window = (window.flatMap fun r => r.events gate e).flatMap Event.entries := by
  rw [List.flatMap_assoc]
  rfl

theorem expansions_window (gate : Gate) (e : Expander) (window : List Request) :
    (window.flatMap fun r => r.events gate e).flatMap Event.expansions =
      (allExpanded gate e window).map List.length := by
  rw [List.flatMap_assoc,allExpanded,List.map_flatMap]
  exact List.flatMap_congr fun r _ => Expander.expansions_events gate e r

end Request

/-- The log holds what some requests have entered since it was empty: their lines, in some order, and
what they count. -/
structure Log.Holds (gate : Gate) (e : Expander) (window : List Request) (log : Log) : Prop where
  lines : log.buffer.Perm ((Request.allEntries gate e window).filterMap Entry.line?)
  distinct : (log.counters.map Prod.fst).Nodup
  counts : ∀ key, Log.tally log.counters key =
    Log.saturated (Entry.total key (Request.allEntries gate e window))

namespace Log.Holds
open Request

variable {gate : Gate} {e : Expander} {window : List Request} {log : Log}

theorem empty (gate : Gate) (e : Expander) : Log.empty.Holds gate e [] where
  lines := .refl _
  distinct := List.nodup_nil
  counts _ := rfl

theorem enterAll (h : log.Holds gate e window) {r : Request} {entries : List Entry}
    (hp : entries.Perm (r.entries gate e)) :
    (log.enterAll entries).Holds gate e (window ++ [r]) := by
  have hall : allEntries gate e (window ++ [r]) = allEntries gate e window ++ r.entries gate e := by
    simp [allEntries]
  constructor
  · rw [buffer_enterAll,hall,List.filterMap_append]
    exact h.lines.append (hp.filterMap Entry.line?)
  · exact nodup_keys_enterAll h.distinct entries
  · intro key
    rw [tally_enterAll (h.counts key),hall,Entry.total_append,Entry.total_perm hp]

end Log.Holds

/-! ## Sessions -/

/-- What a summary with these counts says after these lines, when it ends the last of some requests, of
which the others left all to it. The lines are all that the requests wrote, and the summary is the only
one among them; its counters are in the order of their keys, and account for the lines and for the
declarations of the sheets. A number above the greatest value of a counter counts as that value, any
other as itself. -/
structure Accounted (gate : Gate) (e : Expander) (window : List Request) (context : String)
    (lines : List String) (counts : List (String × Nat)) : Prop where
  written : lines.Perm ((Request.allEntries gate e window).filterMap Entry.line?)
  sole : (lines ++ [Log.summary context counts]).filter (fun l => lineType l == "debug.summary") =
    [Log.summary context counts]
  increasing : (counts.map Prod.fst).Pairwise (· < ·)
  lines : ∀ c ∈ lineCounters, Log.tally counts c.1 = Log.saturated (lines.countP c.2)
  declarations : Log.tally counts "css.declarations" =
    Log.saturated (Request.allExpanded gate e window).length
  longhands : Log.tally counts "css.longhands" =
    Log.saturated ((Request.allExpanded gate e window).map List.length).sum

/-- A log accounts for itself after the summary of what it holds. -/
theorem Log.Holds.accounted {gate : Gate} {e : Expander} {window : List Request} {log : Log}
    (h : log.Holds gate e window) (context : String) :
    Accounted gate e window context log.buffer log.sortedCounters := by
  obtain ⟨hplain,hcount⟩ := Event.flatMap_entries_account (window.flatMap fun r => r.events gate e)
  obtain ⟨hdeclarations,hlonghands⟩ := Event.total_expansions (window.flatMap fun r => r.events gate e)
  rw [← Request.allEntries_eq] at hplain hcount hdeclarations hlonghands
  rw [Request.expansions_window] at hdeclarations hlonghands
  have hsummary : ∀ counts, lineType (Log.summary context counts) = "debug.summary" :=
    fun counts => Event.lineType_typed (by decide) _
  have hkeys := ((Log.sortedCounters_perm log).map Prod.fst).nodup_iff.2 h.distinct
  have htally : ∀ key, Log.tally log.sortedCounters key =
      Log.saturated (Entry.total key (Request.allEntries gate e window)) := fun key =>
    (Log.tally_perm (Log.sortedCounters_perm log) hkeys key).trans (h.counts key)
  constructor
  · exact h.lines
  · have hnone : log.buffer.filter (fun l => lineType l == "debug.summary") = [] := by
      rw [List.filter_eq_nil_iff]
      intro l hl
      simpa using hplain l (h.lines.mem_iff.1 hl)
    rw [List.filter_append,hnone]
    simp [hsummary]
  · exact Log.sortedCounters_increasing h.distinct
  · intro c hc
    rw [htally,hcount c hc,h.lines.countP_eq]
  · rw [htally,hdeclarations,List.length_map]
  · rw [htally,hlonghands]

namespace Session

/-- A session is created with an empty log, if its path is not empty and a file can be created there. -/
theorem create_eq_ok_iff {obstacle : String → Option FileFault} {gate : Gate} {e : Expander}
    {path : String} {s : Session} : create obstacle gate e path = .ok s ↔
      path.isEmpty = false ∧ obstacle path = none ∧ s = opened gate e := by
  rw [create]
  cases hpath : path.isEmpty with
  | true => simp
  | false => cases hobstacle : obstacle path <;> simp [eq_comm]

/-- The parts of the log that reach the file with the requests, one by one, if the entries of every
request come in some order. -/
inductive Writes : Session → List Request → List (List String) → Prop
  | done (s : Session) : Writes s [] []
  | request {s t : Session} {r : Request} {rs : List Request} {entries : List Entry}
      {part : List String} {parts : List (List String)} (hp : entries.Perm (r.entries s.gate s.expander))
      (hr : s.record r entries = (part,t)) (hrest : Writes t rs parts) :
      Writes s (r :: rs) (part :: parts)

theorem writes_logs (s : Session) (rs : List Request) : Writes s rs (s.logs rs) := by
  induction rs generalizing s with
  | nil => exact .done s
  | cons r rs ih => exact .request (.refl _) rfl (ih _)

/-- The parts of a log that accounts for itself, when some requests have left all to what comes next: a
single expansion writes nothing at once, and every other request writes some lines and a summary. -/
inductive AllAccounted (gate : Gate) (e : Expander) :
    List Request → List Request → List (List String) → Prop
  | done {window : List Request} : AllAccounted gate e window [] []
  | single {window rs : List Request} {r : Request} {parts : List (List String)}
      (hr : r.context? = none) (hrest : AllAccounted gate e (window ++ [r]) rs parts) :
      AllAccounted gate e window (r :: rs) ([] :: parts)
  | summary {window rs : List Request} {r : Request} {context : String} {lines : List String}
      {counts : List (String × Nat)} {parts : List (List String)} (hr : r.context? = some context)
      (h : Accounted gate e (window ++ [r]) context lines counts)
      (hrest : AllAccounted gate e [] rs parts) :
      AllAccounted gate e window (r :: rs) ((lines ++ [Log.summary context counts]) :: parts)

theorem Writes.allAccounted {s : Session} {rs : List Request} {parts : List (List String)}
    (h : Writes s rs parts) {window : List Request} (hs : s.log.Holds s.gate s.expander window) :
    AllAccounted s.gate s.expander window rs parts := by
  induction h generalizing window with
  | done s => exact .done
  | @request s t r rs entries part parts hp hrecord _ ih =>
    have hlog := hs.enterAll hp
    rw [record] at hrecord
    cases hr : r.context? with
    | none =>
      rw [hr] at hrecord
      cases hrecord
      exact .single hr (ih hlog)
    | some context =>
      rw [hr] at hrecord
      cases hrecord
      exact .summary hr (hlog.accounted context) (ih (.empty s.gate s.expander))

/-- The counters of the log account for its lines, whatever requests come, whichever sheets are rejected
and why, and in whatever order the entries of each request reach the log. The lines before a summary are
those of all requests since the summary before, so what single expansions left is among them. -/
theorem counters_account {gate : Gate} {e : Expander} {rs : List Request}
    {parts : List (List String)} (h : Writes (opened gate e) rs parts) :
    AllAccounted gate e [] rs parts :=
  h.allAccounted (.empty gate e)

/-- A longhand that a single expansion dropped, and two rejected sheets whose entries come interleaved:
the summary counts all three. -/
theorem counters_account_interleaved : ∃ (gate : Gate) (dropped failed : String),
    gate ".a,,b\x7b\x7d" = some "Invalid empty selector at :0:4" ∧
    lineType dropped = "css.longhand.dropped" ∧ lineType failed = "css.stylesheet.failed" ∧
    Writes (opened gate {})
      [.expandProperty "color" "%",.parseStylesheets [".a,,b\x7b\x7d",".a,,b\x7b\x7d"]]
      [[],[dropped,failed,failed,Log.summary "parse_stylesheets"
        [("css.longhand.dropped",1),("css.stylesheet_failed",2)]]] ∧
    AllAccounted gate {} []
      [.expandProperty "color" "%",.parseStylesheets [".a,,b\x7b\x7d",".a,,b\x7b\x7d"]]
      [[],[dropped,failed,failed,Log.summary "parse_stylesheets"
        [("css.longhand.dropped",1),("css.stylesheet_failed",2)]]] := by
  let reason := "Invalid empty selector at :0:4"
  let gate : Gate := fun css => if css = ".a,,b\x7b\x7d" then some reason else none
  let dropped := Event.typed "css.longhand.dropped" [("property",Text.logged "color"),
    ("reason",Text.logged "value cannot be serialized: unsupported operator \"%\"")]
  let failed := Event.typed "css.stylesheet.failed" [("reason",Text.logged reason)]
  have hgate : gate ".a,,b\x7b\x7d" = some reason := if_pos rfl
  have hsingle : (Request.expandProperty "color" "%").entries gate {} =
      [.line dropped,.count "css.longhand.dropped" 1] := by
    have hread : Component.ofText "%" = [.plain (.delim '%') ['%']] := by cbv
    have hparse : Value.parse "%" = .ok (.list [.operator "%"]) := by
      rw [Value.parse,Value.read,hread]
      rfl
    have hevents : (Request.expandProperty "color" "%").events gate {} = [.longhandDropped "color"
        "value cannot be serialized: unsupported operator \"%\""] := by
      rw [Request.events,Expander.propertyEvents,Expander.longhands,hparse]
      decide +kernel
    rw [Request.entries,hevents]
    rfl
  have hsheets : (Request.parseStylesheets [".a,,b\x7b\x7d",".a,,b\x7b\x7d"]).entries gate {} =
      [.line failed,.count "css.stylesheet_failed" 1,.line failed,.count "css.stylesheet_failed" 1] := by
    simp only [Request.entries,Request.events,List.flatMap_cons,Expander.sheetEvents,hgate]
    rfl
  have hsorted : Log.sortedCounters ⟨[dropped,failed,failed],
      [("css.longhand.dropped",1),("css.stylesheet_failed",2)]⟩ =
      [("css.longhand.dropped",1),("css.stylesheet_failed",2)] :=
    List.mergeSort_of_pairwise (by decide)
  have hfirst : (opened gate {}).record (.expandProperty "color" "%")
      [.line dropped,.count "css.longhand.dropped" 1] =
      ([],⟨gate,{},⟨[dropped],[("css.longhand.dropped",1)]⟩⟩) := by
    simp [record,opened,Request.context?,Log.enterAll,Log.enter,Log.raise,Log.empty,Log.saturated]
  have hsecond : record ⟨gate,{},⟨[dropped],[("css.longhand.dropped",1)]⟩⟩
      (.parseStylesheets [".a,,b\x7b\x7d",".a,,b\x7b\x7d"])
      [.line failed,.line failed,.count "css.stylesheet_failed" 1,.count "css.stylesheet_failed" 1] =
      ([dropped,failed,failed,Log.summary "parse_stylesheets"
        [("css.longhand.dropped",1),("css.stylesheet_failed",2)]],⟨gate,{},.empty⟩) := by
    simp [record,Request.context?,Log.enterAll,Log.enter,Log.raise,Log.empty,Log.saturated,
      Log.summarize,Log.flush,hsorted]
  have hrest : Writes ⟨gate,{},⟨[dropped],[("css.longhand.dropped",1)]⟩⟩
      [.parseStylesheets [".a,,b\x7b\x7d",".a,,b\x7b\x7d"]]
      [[dropped,failed,failed,Log.summary "parse_stylesheets"
        [("css.longhand.dropped",1),("css.stylesheet_failed",2)]]] := by
    refine .request ?_ hsecond (.done _)
    rw [hsheets]
    exact (List.Perm.swap _ _ _).cons _
  have hwrites : Writes (opened gate {})
      [.expandProperty "color" "%",.parseStylesheets [".a,,b\x7b\x7d",".a,,b\x7b\x7d"]]
      [[],[dropped,failed,failed,Log.summary "parse_stylesheets"
        [("css.longhand.dropped",1),("css.stylesheet_failed",2)]]] :=
    .request (.of_eq hsingle.symm) hfirst hrest
  exact ⟨gate,dropped,failed,hgate,Event.lineType_typed (by decide) _,
    Event.lineType_typed (by decide) _,hwrites,counters_account hwrites⟩

end Session

end StyleExpansion
