import StyleExpansion.Proofs.Session
import StyleExpansion.Proofs.Text.Json

/-! # Lines of a log

Every line of a log is an object of one line. It is JSON if no text in it has a control character that is
not escaped: the object of an event then has the texts that the event tells of for its members, and the
one of a summary the counters. Whatever requests come, a log holds lines of these two kinds only.
-/
namespace StyleExpansion

/-! ## Objects -/

inductive Told
  | text (s : String)
  | flag (b : Bool)
  | counts (cs : List (String × Nat))

namespace Told

def written : Told → String
  | text s => Text.logged s
  | flag b => if b then "true" else "false"
  | counts cs => Event.object (cs.map fun c => (c.1,toString c.2))

def json : Told → Json
  | text s => .ofString s
  | flag b => .bool b
  | counts cs => .record (cs.map fun c => (c.1,.number (toString c.2).toList))

/-- No text in it has a control character that is not escaped. -/
def Clean : Told → Prop
  | text s => Json.Clean s.toList
  | flag _ => True
  | counts cs => ∀ c ∈ cs, Json.Clean c.1.toList

end Told

namespace Event

theorem toList_object (fields : List (String × String)) : (object fields).toList = '\x7b' ::
    ([','].intercalate (fields.map fun f => (Text.logged f.1).toList ++ ':' :: f.2.toList) ++ ['\x7d']) := by
  have hmap : (fields.map fun f => Text.logged f.1 ++ ":" ++ f.2).map String.toList =
      fields.map fun f => (Text.logged f.1).toList ++ ':' :: f.2.toList := by
    rw [List.map_map]
    refine List.map_congr_left fun f _ => ?_
    simp
  rw [object,String.toList_append,String.toList_append,String.toList_intercalate,hmap]
  rfl

theorem mem_intercalate {c : Char} {ts : List (List Char)} (hc : c ≠ ',') :
    c ∈ [','].intercalate ts ↔ ∃ t ∈ ts, c ∈ t := by
  induction ts with
  | nil => simp [List.intercalate]
  | cons t ts ih =>
    cases ts with
    | nil => simp [List.intercalate]
    | cons u ts =>
      rw [List.intercalate_cons_cons,List.append_assoc,List.mem_append,List.mem_append,ih]
      simp [hc]

/-- The characters of an object are those of its fields, and some marks. -/
theorem mem_object {c : Char} {fields : List (String × String)}
    (hc : c ∉ ['\x7b','\x7d',',',':']) : c ∈ (object fields).toList ↔
      ∃ f ∈ fields, c ∈ (Text.logged f.1).toList ∨ c ∈ f.2.toList := by
  simp only [List.mem_cons,List.not_mem_nil,or_false,not_or] at hc
  rw [toList_object]
  simp [mem_intercalate hc.2.2.1,hc]

def WritesMember (f : String × String) (m : String × Json) : Prop :=
  f.1 = m.1 ∧ Json.Clean m.1.toList ∧ Json.Writes (.value m.2) f.2.toList

theorem object_writes {fields : List (String × String)} {members : List (String × Json)}
    (h : List.Forall₂ WritesMember fields members) :
    Json.Writes (.value (Json.record members)) (object fields).toList := by
  rw [toList_object,Json.record]
  refine .object ?_
  rw [List.map_map]
  refine Json.writes_series ?_
  rw [List.forall₂_map_left_iff,List.forall₂_map_right_iff]
  refine h.flip.imp ?_
  rintro ⟨_,j⟩ ⟨name,text⟩ ⟨rfl,hname,hvalue⟩
  rw [Json.toList_logged]
  have hmember : Json.Writes (.member (Json.unitsOf name) j) _ :=
    .member (Json.unquote_plains hname) Json.isBlank_nil Json.isBlank_nil hvalue
  simpa using hmember

end Event

def lineOf (fields : List (String × Told)) : String :=
  Event.object (fields.map fun f => (f.1,f.2.written))

def jsonOf (fields : List (String × Told)) : Json := .record (fields.map fun f => (f.1,f.2.json))

/-- No name and no text in the members has a control character that is not escaped. -/
def AreClean (fields : List (String × Told)) : Prop :=
  ∀ f ∈ fields, Json.Clean f.1.toList ∧ f.2.Clean

namespace Told

theorem written_writes {t : Told} (h : t.Clean) : Json.Writes (.value t.json) t.written.toList := by
  cases t with
  | text s => exact Json.writes_logged_iff.2 ⟨h,rfl⟩
  | flag b =>
    cases b with
    | true => exact .yes
    | false => exact .no
  | counts cs =>
    refine Event.object_writes ?_
    rw [List.forall₂_map_left_iff,List.forall₂_map_right_iff,List.forall₂_same]
    exact fun c hc => ⟨rfl,h c hc,.number (Json.isNumber_toString c.2)⟩

/-- Characters that are not clean are in an object if they are in a field of it. -/
theorem clean_of_object {fields : List (String × String)}
    (h : Json.Clean (Event.object fields).toList) {f : String × String} (hf : f ∈ fields) :
    Json.Clean f.1.toList ∧ Json.Clean f.2.toList := by
  have hall : ∀ c, c ∈ (Text.logged f.1).toList ∨ c ∈ f.2.toList → Json.isClean c = true := by
    intro c hc
    by_cases hmark : c ∈ ['\x7b','\x7d',',',':']
    · have hmarks : Json.Clean ['\x7b','\x7d',',',':'] := by decide
      exact hmarks c hmark
    · exact h c ((Event.mem_object hmark).2 ⟨f,hf,hc⟩)
  exact ⟨Json.clean_of_logged fun c hc => hall c (Or.inl hc),fun c hc => hall c (Or.inr hc)⟩

theorem clean_of_written {t : Told} (h : Json.Clean t.written.toList) : t.Clean := by
  cases t with
  | text s => exact Json.clean_of_logged h
  | flag b => trivial
  | counts cs =>
    intro c hc
    exact (clean_of_object h (List.mem_map_of_mem hc)).1

theorem feed_notMem_logged (s : String) : '\n' ∉ (Text.logged s).toList := by
  rw [Json.toList_logged]
  have hplain : ∀ c, '\n' ∉ Text.plain c := by
    intro c hc
    by_cases hescaped : c ∈ Json.escapedChars
    · obtain ⟨k,hk,hplain,hlookup,-⟩ := Json.plain_of_escaped hescaped
      rw [hplain,List.mem_cons,List.mem_singleton] at hc
      rcases hc with hc | rfl
      · exact absurd hc (by decide)
      · cases hlookup
    · rw [Json.plain_of_not_escaped hescaped,List.mem_singleton] at hc
      exact hescaped (hc ▸ by decide)
  simp [hplain]

theorem feed_notMem_written (t : Told) : '\n' ∉ t.written.toList := by
  cases t with
  | text s => exact feed_notMem_logged s
  | flag b => cases b <;> decide
  | counts cs =>
    rw [written,Event.mem_object (by decide)]
    rintro ⟨f,hf,hfeed | hfeed⟩
    · exact feed_notMem_logged _ hfeed
    · obtain ⟨c,-,rfl⟩ := List.mem_map.1 hf
      rw [Json.toList_toString] at hfeed
      exact absurd (Nat.isDigit_of_mem_toDigits (by decide) (by decide) hfeed) (by decide)

end Told

/-- A line is JSON just if all in it is clean, and then for the object that it tells of. -/
theorem isText_lineOf {fields : List (String × Told)} :
    (AreClean fields → Json.IsText (lineOf fields).toList (jsonOf fields)) ∧
      (¬AreClean fields → ∀ j, ¬Json.IsText (lineOf fields).toList j) := by
  constructor
  · intro h
    refine Json.isText_of_writes (Event.object_writes ?_)
    rw [List.forall₂_map_left_iff,List.forall₂_map_right_iff,List.forall₂_same]
    exact fun f hf => ⟨rfl,(h f hf).1,Told.written_writes (h f hf).2⟩
  · intro hnot j hj
    refine hnot fun f hf => ?_
    have hfield := Told.clean_of_object hj.clean (List.mem_map_of_mem hf)
    exact ⟨hfield.1,Told.clean_of_written hfield.2⟩

theorem feed_notMem_lineOf (fields : List (String × Told)) : '\n' ∉ (lineOf fields).toList := by
  rw [lineOf,Event.mem_object (by decide)]
  rintro ⟨f,hf,hfeed | hfeed⟩
  · exact Told.feed_notMem_logged _ hfeed
  · obtain ⟨g,-,rfl⟩ := List.mem_map.1 hf
    exact Told.feed_notMem_written _ hfeed

/-! ## Events and summaries -/

namespace Event

def told : Event → Option (List (String × Told))
  | sheetRejected reason =>
    some [("type",.text "css.stylesheet.failed"),("reason",.text reason)]
  | ruleRead selector isTarget =>
    some [("type",.text "css.rule"),("selector",.text selector),("parsed",.flag isTarget)]
  | declarationExpanded _ => none
  | declarationSkipped property reason =>
    some [("type",.text "css.declaration.skipped"),("property",.text property),("reason",.text reason)]
  | longhandDropped property reason =>
    some [("type",.text "css.longhand.dropped"),("property",.text property),("reason",.text reason)]

theorem mem_entries_line {x : Event} {line : String} (h : Entry.line line ∈ x.entries) :
    ∃ fields, x.told = some fields ∧ line = lineOf fields := by
  cases x with
  | ruleRead selector isTarget =>
    cases isTarget <;>
    · simp [entries] at h
      exact ⟨_,rfl,h⟩
  | declarationExpanded n => simp [entries] at h
  | _ =>
    simp [entries] at h
    exact ⟨_,rfl,h⟩

def counterKeys : List String :=
  ["css.stylesheet_failed","css.selector_unparsed","css.declarations","css.longhands",
   "css.declaration_skipped","css.longhand.dropped"]

theorem mem_counterKeys {x : Event} {key : String} {n : Nat} (h : Entry.count key n ∈ x.entries) :
    key ∈ counterKeys := by
  cases x with
  | ruleRead selector isTarget =>
    cases isTarget <;> simp [entries] at h
    simp [counterKeys,h.1]
  | declarationExpanded m =>
    simp [entries] at h
    rcases h with ⟨rfl,-⟩ | ⟨rfl,-⟩ <;> simp [counterKeys]
  | _ =>
    simp [entries] at h
    simp [counterKeys,h.1]

theorem clean_counterKeys {key : String} (h : key ∈ counterKeys) : Json.Clean key.toList := by
  have hall : (counterKeys.all fun key => key.toList.all Json.isClean) = true := by decide +kernel
  exact List.all_eq_true.1 (List.all_eq_true.1 hall key h)

end Event

def summaryOf (context : String) (counts : List (String × Nat)) : List (String × Told) :=
  [("type",.text "debug.summary"),("context",.text context),("counts",.counts counts)]

theorem summary_eq (context : String) (counts : List (String × Nat)) :
    Log.summary context counts = lineOf (summaryOf context counts) := rfl

theorem clean_context {r : Request} {context : String} (h : r.context? = some context) :
    Json.Clean context.toList := by
  cases r with
  | parseCss css =>
    cases h
    decide +kernel
  | parseStylesheets sheets =>
    cases h
    decide +kernel
  | expandProperty property value => cases h

theorem areClean_summaryOf {context : String} {counts : List (String × Nat)}
    (hcontext : Json.Clean context.toList) (hkeys : ∀ c ∈ counts, c.1 ∈ Event.counterKeys) :
    AreClean (summaryOf context counts) := by
  have hnames : Json.Clean "type".toList ∧ Json.Clean "context".toList ∧ Json.Clean "counts".toList ∧
      Json.Clean "debug.summary".toList := by decide +kernel
  simp only [AreClean,summaryOf,List.forall_mem_cons]
  exact ⟨⟨hnames.1,hnames.2.2.2⟩,⟨hnames.2.1,hcontext⟩,
    ⟨hnames.2.2.1,fun c hc => Event.clean_counterKeys (hkeys c hc)⟩,by simp⟩

/-- A line tells of an event, or it is a summary, in which all texts are clean. -/
def IsLineOf (xs : List Event) (line : String) (fields : List (String × Told)) : Prop :=
  line = lineOf fields ∧ ((∃ x ∈ xs, x.told = some fields) ∨
    ∃ context counts, fields = summaryOf context counts ∧ AreClean fields)

/-! ## What a log holds -/

/-- The lines of the log are those of the events, and its counters have keys that events use. -/
structure Log.Tells (xs : List Event) (log : Log) : Prop where
  lines : ∀ l ∈ log.buffer, ∃ x ∈ xs, Entry.line l ∈ x.entries
  keys : ∀ c ∈ log.counters, c.1 ∈ Event.counterKeys

namespace Log.Tells
variable {xs : List Event} {log : Log}

theorem empty (xs : List Event) : Log.empty.Tells xs :=
  ⟨fun _ h => absurd h List.not_mem_nil,fun _ h => absurd h List.not_mem_nil⟩

theorem enter (h : log.Tells xs) {x : Event} (hx : x ∈ xs) {y : Entry} (hy : y ∈ x.entries) :
    (log.enter y).Tells xs := by
  cases y with
  | line text =>
    refine ⟨fun l hl => ?_,h.keys⟩
    rcases List.mem_append.1 hl with hl | hl
    · exact h.lines l hl
    · cases List.mem_singleton.1 hl
      exact ⟨x,hx,hy⟩
  | count key n =>
    refine ⟨h.lines,fun c hc => ?_⟩
    rcases Log.mem_keys_raise.1 (List.mem_map_of_mem hc) with hkey | hkey
    · rw [hkey]
      exact Event.mem_counterKeys hy
    · obtain ⟨d,hd,hkey⟩ := List.mem_map.1 hkey
      rw [← hkey]
      exact h.keys d hd

theorem enterAll (h : log.Tells xs) {entries : List Entry}
    (hentries : ∀ y ∈ entries, ∃ x ∈ xs, y ∈ x.entries) : (log.enterAll entries).Tells xs := by
  induction entries generalizing log with
  | nil => exact h
  | cons y entries ih =>
    obtain ⟨⟨x,hx,hy⟩,hrest⟩ := List.forall_mem_cons.1 hentries
    exact ih (h.enter hx hy) hrest

/-- What is written with a summary of the log: its lines, and the summary. -/
theorem lines_summarize (h : log.Tells xs) {context : String} (hcontext : Json.Clean context.toList) :
    ∀ line ∈ (log.summarize context).buffer, ∃ fields, IsLineOf xs line fields := by
  intro line hline
  rcases List.mem_append.1 hline with hline | hline
  · obtain ⟨x,hx,hentry⟩ := h.lines line hline
    obtain ⟨fields,htold,hfields⟩ := Event.mem_entries_line hentry
    exact ⟨fields,hfields,Or.inl ⟨x,hx,htold⟩⟩
  · cases List.mem_singleton.1 hline
    refine ⟨_,summary_eq context _,Or.inr ⟨context,_,rfl,areClean_summaryOf hcontext fun c hc => ?_⟩⟩
    exact h.keys c ((Log.sortedCounters_perm log).mem_iff.1 hc)

end Log.Tells

/-! ## Sessions -/

namespace Session

theorem Writes.lines {s : Session} {rs : List Request} {parts : List (List String)}
    (h : Writes s rs parts) {xs : List Event} (hlog : s.log.Tells xs)
    (hxs : ∀ r ∈ rs, r.events s.gate s.expander ⊆ xs) :
    ∀ part ∈ parts, ∀ line ∈ part, ∃ fields, IsLineOf xs line fields := by
  induction h with
  | done s => exact fun _ hpart => absurd hpart List.not_mem_nil
  | @request s t r rs entries part parts hp hrecord _ ih =>
    obtain ⟨hr,hrest⟩ := List.forall_mem_cons.1 hxs
    have hentered : (s.log.enterAll entries).Tells xs := by
      refine hlog.enterAll fun y hy => ?_
      obtain ⟨x,hx,hentry⟩ := List.mem_flatMap.1 (hp.mem_iff.1 hy)
      exact ⟨x,hr hx,hentry⟩
    rw [record] at hrecord
    cases hcontext : r.context? with
    | none =>
      rw [hcontext] at hrecord
      cases hrecord
      refine List.forall_mem_cons.2 ⟨?_,ih hentered hrest⟩
      exact fun _ hline => absurd hline List.not_mem_nil
    | some context =>
      rw [hcontext] at hrecord
      cases hrecord
      exact List.forall_mem_cons.2 ⟨hentered.lines_summarize (clean_context hcontext),
        ih (.empty xs) hrest⟩

/-- A text in quotes is a JSON string of this text and of no other one, and each line of every session is
one JSON object that has all it tells for its members, just if the texts have no control character but
those that are escaped: the tab, the line feed and the carriage return. With another one the text is no
JSON string and the line no JSON; a summary has none. -/
theorem lines_json (s t : String) {gate : Gate} {e : Expander} {rs : List Request}
    {parts : List (List String)} (h : Writes (opened gate e) rs parts) :
    (Json.Writes (.value (.ofString t)) (Text.logged s).toList ↔ Json.Clean s.toList ∧ t = s) ∧
    ∀ part ∈ parts, ∀ line ∈ part, '\n' ∉ line.toList ∧
      ∃ fields, IsLineOf (rs.flatMap fun r => r.events gate e) line fields ∧
        (AreClean fields → Json.IsText line.toList (jsonOf fields)) ∧
        (¬AreClean fields → ∀ j, ¬Json.IsText line.toList j) := by
  refine ⟨Json.writes_logged_iff,fun part hpart line hline => ?_⟩
  have hevents : ∀ r ∈ rs, r.events gate e ⊆ rs.flatMap fun r => r.events gate e :=
    fun r hr x hx => List.mem_flatMap.2 ⟨r,hr,hx⟩
  obtain ⟨fields,hfields⟩ := h.lines (.empty _) hevents part hpart line hline
  obtain rfl := hfields.1
  exact ⟨feed_notMem_lineOf fields,fields,hfields,isText_lineOf⟩

/-- A dropped longhand whose name is a control character: its line is no JSON. -/
theorem lines_json_control : ∃ line summary,
    Writes (opened (fun _ => none) {}) [.expandProperty "\x01" "%",.parseCss ""] [[],[line,summary]] ∧
    '\n' ∉ line.toList ∧ ∃ fields,
      IsLineOf (([.expandProperty "\x01" "%",.parseCss ""] : List Request).flatMap
        fun r => r.events (fun _ => none) {}) line fields ∧ ¬AreClean fields ∧ ∀ j, ¬Json.IsText line.toList j := by
  let reason := "value cannot be serialized: unsupported operator \"%\""
  let told := [("type",Told.text "css.longhand.dropped"),("property",.text "\x01"),
    ("reason",.text reason)]
  let line := lineOf told
  let summary := Log.summary "parse_css" [("css.longhand.dropped",1)]
  have hsingle : (Request.expandProperty "\x01" "%").entries (fun _ => none) {} =
      [.line line,.count "css.longhand.dropped" 1] := by
    have hread : Component.ofText "%" = [.plain (.delim '%') ['%']] := by cbv
    have hparse : Value.parse "%" = .ok (.list [.operator "%"]) := by
      rw [Value.parse,Value.read,hread]
      rfl
    have hevents : (Request.expandProperty "\x01" "%").events (fun _ => none) {} =
        [.longhandDropped "\x01" reason] := by
      rw [Request.events,Expander.propertyEvents,Expander.longhands,hparse]
      decide +kernel
    rw [Request.entries,hevents]
    rfl
  have hsheet : (Request.parseCss "").entries (fun _ => none) {} = [] := by
    have hrules : Sheet.rules "" = [] := by cbv
    rw [Request.entries,Request.events,Expander.sheetEvents,hrules]
    rfl
  have hfirst : (opened (fun _ => none) {}).record (.expandProperty "\x01" "%")
      [.line line,.count "css.longhand.dropped" 1] =
      ([],⟨fun _ => none,{},⟨[line],[("css.longhand.dropped",1)]⟩⟩) := by
    simp [record,opened,Request.context?,Log.enterAll,Log.enter,Log.raise,Log.empty,Log.saturated]
  have hsecond : record ⟨fun _ => none,{},⟨[line],[("css.longhand.dropped",1)]⟩⟩ (.parseCss "") [] =
      ([line,summary],⟨fun _ => none,{},.empty⟩) := by
    simp [record,Request.context?,Log.enterAll,Log.empty,Log.summarize,Log.flush,Log.sortedCounters,summary]
  have hwrites : Writes (opened (fun _ => none) {}) [.expandProperty "\x01" "%",.parseCss ""]
      [[],[line,summary]] :=
    .request (.of_eq hsingle.symm) hfirst (.request (.of_eq hsheet.symm) hsecond (.done _))
  have hunclean : ¬AreClean told := by
    intro hclean
    have hproperty : Json.Clean "\x01".toList := (hclean ("property",.text "\x01") (by simp [told])).2
    exact absurd hproperty (by decide +kernel)
  have hno : ∀ j, ¬Json.IsText line.toList j := isText_lineOf.2 hunclean
  obtain ⟨-,hlines⟩ := lines_json reason reason hwrites
  obtain ⟨hfeed,fields,hfields,hjson,-⟩ := hlines [line,summary] (by simp) line (by simp)
  exact ⟨line,summary,hwrites,hfeed,fields,hfields,fun hclean => hno _ (hjson hclean),hno⟩

end Session

end StyleExpansion
