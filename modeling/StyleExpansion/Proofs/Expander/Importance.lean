import Mathlib
import StyleExpansion.Proofs.Expander.SelectorLists
import StyleExpansion.Proofs.Expander.Settings
import StyleExpansion.Proofs.Record.Table

/-! # Importance within a rule

The declarations of a block apply in two runs: the ones that are not important and then, if they count,
the important ones, each run in the order of the block. So the order between the two runs does not
matter, and what a rule leaves for a property is what the last important declaration of it gives, or the
last other one if there is none. A table is read key by key: of records set one after the other, the
later answer is put over the earlier one.
-/
namespace StyleExpansion

namespace Record

variable {k : String × Option String × String}

theorem lastValue_append (set new : List Record) (k : String × Option String × String) :
    lastValue (set ++ new) k = (lastValue new k).or (lastValue set k) := by
  simp [lastValue,List.filter_append,List.getLast?_append,Option.map_or]

theorem lastValue_cons (r : Record) (set : List Record) (k : String × Option String × String) :
    lastValue (r :: set) k = (lastValue set k).or (if r.key = k then some r.value else none) := by
  rw [← List.singleton_append,lastValue_append]
  exact congrArg _ (lastValue_concat [] r k)

theorem lastValue_eq_none {set : List Record} (h : ∀ r ∈ set, r.key ≠ k) : lastValue set k = none := by
  have hnone : set.filter (fun r => r.key = k) = [] := by simpa using h
  rw [lastValue,hnone]
  rfl

end Record

namespace Table

variable {t : Table}

def value? (t : Table) (k : String × Option String × String) : Option String :=
  (t.place? k).bind fun i => t.records[i]?.map (·.value)

theorem Indexed.exists_record (h : t.Indexed) {k : String × Option String × String} {i : Nat}
    (hi : t.place? k = some i) : ∃ r, t.records[i]? = some r ∧ r.key = k := (h k i).1 hi

/-- After a value is set, it is the one recorded for its key, and all others are as before. -/
theorem Indexed.value?_put (h : t.Indexed) (r : Record) (k : String × Option String × String) :
    (t.put r).value? k = if r.key = k then some r.value else t.value? k := by
  unfold Table.put
  split
  · next i hi =>
    obtain ⟨s,hs,hkey⟩ := h.exists_record hi
    by_cases hk : r.key = k
    · subst hk
      have hplace : place? ⟨t.records.modify i fun s => {s with value := r.value},t.index⟩ r.key =
        some i := hi
      simp [value?,hplace,Array.getElem?_modify,hs]
    · rw [if_neg hk,value?,value?]
      refine Option.bind_congr fun j hj => ?_
      obtain ⟨u,hu,hu'⟩ := h.exists_record hj
      have hij : i ≠ j := by
        rintro rfl
        rw [hs] at hu
        exact hk (hkey.symm.trans ((congrArg Record.key (Option.some.inj hu)).trans hu'))
      rw [Array.getElem?_modify,if_neg hij]
  · next hn =>
    rw [value?,place?_cons]
    by_cases hk : r.key = k
    · simp [hk]
    · rw [if_neg hk,if_neg hk,value?]
      refine Option.bind_congr fun j hj => ?_
      obtain ⟨u,hu,-⟩ := h.exists_record hj
      have hsize : j ≠ t.records.size := (Array.getElem?_eq_some_iff.1 hu).1.ne
      rw [Array.getElem?_push,if_neg hsize]

/-- After values are set, the last one for a key is recorded, or the one from before if there is none. -/
theorem Indexed.value?_putAll (h : t.Indexed) (set : List Record) (k : String × Option String × String) :
    (t.putAll set).value? k = (Record.lastValue set k).or (t.value? k) := by
  induction set using List.reverseRecOn with
  | nil => rfl
  | append_singleton set r ih =>
    rw [Table.putAll,List.foldl_append,List.foldl_cons,List.foldl_nil,← Table.putAll,
      (h.putAll set).1.value?_put,Record.lastValue_concat,ih]
    split <;> rfl

end Table

namespace Expander

variable (e : Expander)

def given (property : String) (d : Declaration) : Option String :=
  ((e.settings d).find? fun s => s.property = property).map (·.value)

/-- The value that the last of some declarations to give a property one gives it. -/
def lastGiven (ds : List Declaration) (property : String) : Option String :=
  ds.reverse.findSome? (e.given property)

theorem lastGiven_append (ds ds' : List Declaration) (property : String) :
    e.lastGiven (ds ++ ds') property = (e.lastGiven ds' property).or (e.lastGiven ds property) := by
  rw [lastGiven,List.reverse_append,List.findSome?_append]
  rfl

def settingRecords (t : Target) (ss : List Setting) : List Record :=
  ss.map fun s => ⟨t.selector,t.state,s.property,s.value⟩

theorem key_settingRecords {t : Target} {ss : List Setting} {r : Record} (h : r ∈ settingRecords t ss) :
    ∃ s ∈ ss, r.key = (t.selector,t.state,s.property) := by
  obtain ⟨s,hs,rfl⟩ := List.mem_map.1 h
  exact ⟨s,hs,rfl⟩

theorem target_settingRecords {t u : Target} {ss : List Setting} {r : Record} {property : String}
    (h : r ∈ settingRecords u ss) (hkey : r.key = (t.selector,t.state,property)) : u = t := by
  obtain ⟨s,-,hk⟩ := key_settingRecords h
  rw [hk,Prod.mk.injEq,Prod.mk.injEq] at hkey
  exact congrArg₂ Target.mk hkey.1 hkey.2.1

/-- Settings with different names give each name one value. -/
theorem lastValue_settingRecords {ss : List Setting} (h : (ss.map Setting.property).Nodup) (t : Target)
    (property : String) : Record.lastValue (settingRecords t ss) (t.selector,t.state,property) =
      (ss.find? fun s => s.property = property).map (·.value) := by
  induction ss with
  | nil => rfl
  | cons s ss ih =>
    rw [List.map_cons,List.nodup_cons] at h
    rw [settingRecords,List.map_cons,Record.lastValue_cons,← settingRecords,List.find?_cons]
    by_cases hs : s.property = property
    · have hrest : Record.lastValue (settingRecords t ss) (t.selector,t.state,property) = none := by
        refine Record.lastValue_eq_none fun r hr he => h.1 ?_
        obtain ⟨u,hu,hk⟩ := key_settingRecords hr
        have : u.property = s.property := by
          rw [hk] at he
          simpa [hs] using he
        exact this ▸ List.mem_map_of_mem hu
      rw [hrest]
      simp [Record.key,hs]
    · rw [ih h.2]
      simp [Record.key,hs]

/-- What declarations record for a property of a target is what the last of them gives it. -/
theorem lastValue_settings (ds : List Declaration) (t : Target) (property : String) :
    Record.lastValue (settingRecords t (ds.flatMap e.settings)) (t.selector,t.state,property) =
      e.lastGiven ds property := by
  induction ds using List.reverseRecOn with
  | nil => rfl
  | append_singleton ds d ih =>
    have hlast := lastValue_settingRecords (e.settings_nodup d) t property
    rw [settingRecords] at ih hlast ⊢
    rw [List.flatMap_append,List.flatMap_singleton,List.map_append,Record.lastValue_append,ih,hlast,
      lastGiven_append]
    simp [lastGiven,given]

/-- A target is given the same by every selector that it comes from. -/
theorem lastValue_targets {t : Target} {ts : List Target} (h : t ∈ ts) (ss : List Setting)
    (property : String) :
    Record.lastValue (ts.flatMap (settingRecords · ss)) (t.selector,t.state,property) =
      Record.lastValue (settingRecords t ss) (t.selector,t.state,property) := by
  induction ts with
  | nil => cases h
  | cons u ts ih =>
    rw [List.flatMap_cons,Record.lastValue_append]
    by_cases hu : u = t
    · subst hu
      by_cases hts : u ∈ ts
      · rw [ih hts,Option.or_self]
      · have hrest : Record.lastValue (ts.flatMap (settingRecords · ss)) (u.selector,u.state,property) =
            none := by
          refine Record.lastValue_eq_none fun r hr hkey => hts ?_
          obtain ⟨w,hw,hr⟩ := List.mem_flatMap.1 hr
          exact target_settingRecords hr hkey ▸ hw
        rw [hrest,Option.none_or]
    · have hfirst : Record.lastValue (settingRecords u ss) (t.selector,t.state,property) = none :=
        Record.lastValue_eq_none fun r hr hkey => hu (target_settingRecords hr hkey)
      rw [hfirst,Option.or_none,ih ((List.mem_cons.1 h).resolve_left (Ne.symm hu))]

theorem lastValue_listRecords {selectors : String} {t : Target}
    (h : t ∈ (Selector.all e.typeSelectors selectors).filterMap (·.target)) (ds : List Declaration)
    (property : String) :
    Record.lastValue (e.listRecords selectors ds) (t.selector,t.state,property) =
      e.lastGiven (e.applied ds) property :=
  (lastValue_targets h _ property).trans (e.lastValue_settings (e.applied ds) t property)

/-- A rule does to a table what its important declarations and its other ones do, each in their order,
however the two are mixed. For every target, a property has the value that the last important declaration
of it gives, then that of the last other one, then the one from before the rule; and important
declarations that do not count may as well not be there. -/
theorem putAll_listRecords_importance (e : Expander) (selectors : String) (t : Table)
    (ds : List Declaration) :
    (∀ ds' : List Declaration, ds'.filter (!·.important) = ds.filter (!·.important) →
      ds'.filter (·.important) = ds.filter (·.important) →
      t.putAll (e.listRecords selectors ds') = t.putAll (e.listRecords selectors ds)) ∧
    (e.importantDeclarations = true → t.Indexed →
      ∀ target ∈ (Selector.all e.typeSelectors selectors).filterMap (·.target), ∀ property,
        (t.putAll (e.listRecords selectors ds)).value? (target.selector,target.state,property) =
          ((e.lastGiven (ds.filter (·.important)) property).or
            (e.lastGiven (ds.filter (!·.important)) property)).or
          (t.value? (target.selector,target.state,property))) ∧
    (e.importantDeclarations = false →
      t.putAll (e.listRecords selectors ds) =
        t.putAll (e.listRecords selectors (ds.filter (!·.important)))) := by
  refine ⟨fun ds' hothers himportant => ?_,fun hoption ht target htarget property => ?_,fun hoption => ?_⟩
  · have happlied : e.applied ds' = e.applied ds := by rw [applied,applied,hothers,himportant]
    rw [listRecords,listRecords,happlied]
  · have happlied : e.applied ds = ds.filter (!·.important) ++ ds.filter (·.important) := by
      rw [applied,hoption]
      rfl
    rw [ht.value?_putAll,e.lastValue_listRecords htarget,happlied,lastGiven_append]
  · have happlied : e.applied (ds.filter (!·.important)) = e.applied ds := by
      simp [applied,hoption]
    rw [listRecords,listRecords,happlied]

/-- An important side between two margins on all sides. -/
def importantBetween : List Declaration :=
  [⟨"margin","1px",false⟩,⟨"margin-top","2px",true⟩,⟨"margin","3px",false⟩]

def importantBefore : List Declaration :=
  [⟨"margin-top","2px",true⟩,⟨"margin","1px",false⟩,⟨"margin","3px",false⟩]

/-- The important side stands wherever it is, and the last margin is that of the other sides. -/
theorem putAll_listRecords_importantBetween :
    Table.empty.putAll (({} : Expander).listRecords ".a" importantBefore) =
      Table.empty.putAll (({} : Expander).listRecords ".a" importantBetween) ∧
    (Table.empty.putAll (({} : Expander).listRecords ".a" importantBetween)).value?
      ("a",none,"margin-top") = some "2px" ∧
    (Table.empty.putAll (({} : Expander).listRecords ".a" importantBetween)).value?
      ("a",none,"margin-left") = some "3px" ∧
    Table.empty.putAll
        (({importantDeclarations := false} : Expander).listRecords ".a" importantBetween) =
      Table.empty.putAll (({importantDeclarations := false} : Expander).listRecords ".a"
        (importantBetween.filter (!·.important))) := by
  have htargets : (Selector.all true ".a").filterMap (·.target) = [⟨"a",none⟩] := by cbv
  have htarget : (⟨"a",none⟩ : Target) ∈ (Selector.all true ".a").filterMap (·.target) :=
    htargets ▸ List.mem_singleton_self _
  have htop : ({} : Expander).lastGiven (importantBetween.filter (·.important)) "margin-top" =
      some "2px" := by decide +kernel
  have hleft : ({} : Expander).lastGiven (importantBetween.filter (·.important)) "margin-left" =
      none := by decide +kernel
  have hmargin : ({} : Expander).lastGiven (importantBetween.filter (!·.important)) "margin-left" =
      some "3px" := by decide +kernel
  obtain ⟨hmixed,hvalue,-⟩ := putAll_listRecords_importance {} ".a" Table.empty importantBetween
  have hvalue := hvalue rfl Table.empty_indexed ⟨"a",none⟩ htarget
  refine ⟨hmixed importantBefore rfl rfl,?_,?_,?_⟩
  · rw [hvalue "margin-top",htop]
    rfl
  · rw [hvalue "margin-left",hleft,hmargin]
    rfl
  · exact (putAll_listRecords_importance {importantDeclarations := false} ".a" Table.empty
      importantBetween).2.2 rfl

end Expander

end StyleExpansion
