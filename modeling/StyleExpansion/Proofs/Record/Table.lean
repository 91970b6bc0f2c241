import Mathlib
import StyleExpansion.Expander

/-! # What a table holds

A table that began empty holds one record for each key that was set, in the order in which the keys
were set first, each with the value that was set last, and its index leads from every key to the place
of its record. Setting one value keeps the index in step with the records; all else follows for the
list of records, on which setting is a search for the key.
-/
namespace StyleExpansion

namespace Record

theorem ext_key {r s : Record} (hk : r.key = s.key) (hv : r.value = s.value) : r = s := by
  rcases r with ⟨a,b,c,d⟩
  rcases s with ⟨a',b',c',d'⟩
  simp only [key,Prod.mk.injEq] at hk
  obtain ⟨rfl,rfl,rfl⟩ := hk
  exact congrArg _ hv

theorem put_of_fresh {rs : List Record} {r : Record} (h : r.key ∉ rs.map key) :
    put rs r = rs ++ [r] := by
  induction rs with
  | nil => rfl
  | cons s rs ih =>
    rw [List.map_cons,List.mem_cons,not_or] at h
    rw [put,if_neg (Ne.symm h.1),ih h.2,List.cons_append]

/-- Where a key stands at one place only, setting its value changes this place. -/
theorem put_eq_modify {rs : List Record} {r : Record} {i : Nat}
    (h : ∀ j, (∃ s, rs[j]? = some s ∧ s.key = r.key) ↔ j = i) :
    put rs r = rs.modify i fun s => {s with value := r.value} := by
  induction rs generalizing i with
  | nil =>
    obtain ⟨s,hs,_⟩ := (h i).2 rfl
    cases hs
  | cons s rs ih =>
    by_cases hk : s.key = r.key
    · have hi : 0 = i := (h 0).1 ⟨s,rfl,hk⟩
      subst hi
      rw [put,if_pos hk,List.modify_zero_cons]
    · cases i with
      | zero =>
        obtain ⟨u,hu,hr⟩ := (h 0).2 rfl
        cases hu
        exact absurd hr hk
      | succ i =>
        have hrest : ∀ j, (∃ s, rs[j]? = some s ∧ s.key = r.key) ↔ j = i := by
          intro j
          have hj := h (j + 1)
          rw [List.getElem?_cons_succ] at hj
          rw [hj]
          omega
        rw [put,if_neg hk,ih hrest,List.modify_succ_cons]

theorem mem_put {rs : List Record} {r s : Record} (h : (rs.map key).Nodup) :
    s ∈ put rs r ↔ s = r ∨ s ∈ rs ∧ s.key ≠ r.key := by
  induction rs with
  | nil => simp [put]
  | cons u rs ih =>
    rw [List.map_cons,List.nodup_cons] at h
    rw [put]
    by_cases hk : u.key = r.key
    · have hr : {u with value := r.value} = r := ext_key hk rfl
      rw [if_pos hk,hr,List.mem_cons,List.mem_cons]
      constructor
      · rintro (rfl | hs)
        · exact Or.inl rfl
        · refine Or.inr ⟨Or.inr hs,?_⟩
          intro he
          exact h.1 (List.mem_map.2 ⟨s,hs,he.trans hk.symm⟩)
      · rintro (rfl | ⟨rfl | hs,hn⟩)
        · exact Or.inl rfl
        · exact absurd hk hn
        · exact Or.inr hs
    · rw [if_neg hk,List.mem_cons,List.mem_cons,ih h.2]
      constructor
      · rintro (rfl | rfl | ⟨hs,hn⟩)
        · exact Or.inr ⟨Or.inl rfl,hk⟩
        · exact Or.inl rfl
        · exact Or.inr ⟨Or.inr hs,hn⟩
      · rintro (rfl | ⟨rfl | hs,hn⟩)
        · exact Or.inr (Or.inl rfl)
        · exact Or.inl rfl
        · exact Or.inr (Or.inr ⟨hs,hn⟩)

def lastValue (set : List Record) (k : String × Option String × String) : Option String :=
  ((set.filter fun r => r.key = k).getLast?).map value

theorem lastValue_concat (set : List Record) (r : Record) (k : String × Option String × String) :
    lastValue (set ++ [r]) k = if r.key = k then some r.value else lastValue set k := by
  unfold lastValue
  by_cases h : r.key = k <;> simp [List.filter_append,h]

/-- The records are what setting values one after the other comes to: the keys in the order in which
they were set first, each once, and with each key the value that was set last. -/
structure Latest (rs set : List Record) : Prop where
  keys : rs.map key = (set.map key).eraseDups
  once : (rs.map key).Nodup
  values : ∀ r ∈ rs, lastValue set r.key = some r.value

theorem latest_nil : Latest [] [] := ⟨rfl,List.nodup_nil,by simp⟩

theorem eraseDups_concat {α : Type} [BEq α] [LawfulBEq α] (as : List α) (a : α) :
    (as ++ [a]).eraseDups = as.eraseDups ++ if as.elem a then [] else [a] := by
  rw [List.eraseDups_append,List.removeAll]
  by_cases h : a ∈ as
  · simp [h]
  · simp [h,List.eraseDups_cons]

theorem Latest.put {rs set : List Record} (h : Latest rs set) (r : Record) :
    Latest (put rs r) (set ++ [r]) := by
  have hm : r.key ∈ rs.map key ↔ r.key ∈ set.map key := by rw [h.keys,List.mem_eraseDups]
  refine ⟨?_,?_,?_⟩
  · rw [put_key,List.map_append,List.map_singleton,eraseDups_concat,← h.keys]
    by_cases hk : r.key ∈ set.map key
    · rw [if_pos (hm.2 hk),if_pos (List.elem_eq_true_of_mem hk),List.append_nil]
    · rw [if_neg (mt hm.1 hk),if_neg (mt List.mem_of_elem_eq_true hk)]
  · rw [put_key]
    split
    · exact h.once
    · next hk =>
      refine List.nodup_append.2 ⟨h.once,by simp,?_⟩
      intro a ha b hb hab
      rw [List.mem_singleton.1 hb] at hab
      exact hk (hab ▸ ha)
  · intro s hs
    rw [lastValue_concat]
    rcases (mem_put h.once).1 hs with rfl | ⟨hs,hn⟩
    · rw [if_pos rfl]
    · rw [if_neg (Ne.symm hn)]
      exact h.values s hs

theorem Latest.putAll {rs set : List Record} (h : Latest rs set) (new : List Record) :
    Latest (putAll rs new) (set ++ new) := by
  induction new generalizing rs set with
  | nil => simpa [Record.putAll] using h
  | cons r new ih => simpa [Record.putAll] using ih (h.put r)

/-- The value that is set last is that of a record after which its key is not set. -/
theorem lastValue_append_cons (before : List Record) {r : Record} {after : List Record}
    (h : ∀ s ∈ after, s.key ≠ r.key) : lastValue (before ++ r :: after) r.key = some r.value := by
  have hafter : after.filter (fun s => s.key = r.key) = [] := by simpa using h
  simp [lastValue,hafter]

theorem mem_keys_of_lastValue {set : List Record} {k : String × Option String × String} {v : String}
    (h : lastValue set k = some v) : k ∈ set.map key := by
  obtain ⟨r,hr,-⟩ := Option.map_eq_some_iff.1 h
  have hmem := List.mem_filter.1 (List.mem_of_getLast? hr)
  exact List.mem_map.2 ⟨r,hmem.1,of_decide_eq_true hmem.2⟩

/-- The latest records are those with a value that was set last. -/
theorem Latest.mem_iff {rs set : List Record} (h : Latest rs set) (r : Record) :
    r ∈ rs ↔ lastValue set r.key = some r.value := by
  refine ⟨h.values r,fun hr => ?_⟩
  have hk : r.key ∈ rs.map key := by
    rw [h.keys,List.mem_eraseDups]
    exact mem_keys_of_lastValue hr
  obtain ⟨s,hs,hsk⟩ := List.mem_map.1 hk
  have hv : some s.value = some r.value := by rw [← h.values s hs,hsk,hr]
  exact ext_key hsk (Option.some.inj hv) ▸ hs

/-- Of the records with a key that are set, one is set last. -/
theorem exists_last {α : Type} {f : α → Record} {xs : List α} {k : String × Option String × String}
    (h : k ∈ (xs.map f).map key) : ∃ before x after, xs = before ++ x :: after ∧ (f x).key = k ∧
      ∀ y ∈ after, (f y).key ≠ k := by
  induction xs using List.reverseRecOn with
  | nil => cases h
  | append_singleton xs x ih =>
    by_cases hx : (f x).key = k
    · exact ⟨xs,x,[],rfl,hx,by simp⟩
    · have hxs : k ∈ (xs.map f).map key := by simpa [Ne.symm hx] using h
      obtain ⟨before,y,after,rfl,hy,hafter⟩ := ih hxs
      refine ⟨before,y,after ++ [x],by simp,hy,?_⟩
      exact List.forall_mem_append.2 ⟨hafter,List.forall_mem_singleton.2 hx⟩

/-! ## Setting what has been set -/

theorem put_cons_of_eq {s r : Record} (h : s.key = r.key) (rs : List Record) :
    put (s :: rs) r = r :: rs := by
  rw [put,if_pos h]
  exact congrArg (· :: rs) (ext_key h rfl)

theorem put_cons_of_ne {s r : Record} (h : s.key ≠ r.key) (rs : List Record) :
    put (s :: rs) r = s :: put rs r := by
  rw [put,if_neg h]

theorem put_put_of_eq {r s : Record} (h : s.key = r.key) (rs : List Record) :
    put (put rs s) r = put rs r := by
  induction rs with
  | nil => exact put_cons_of_eq h []
  | cons u rs ih =>
    by_cases hu : u.key = r.key
    · rw [put_cons_of_eq (hu.trans h.symm),put_cons_of_eq h,put_cons_of_eq hu]
    · have hus : u.key ≠ s.key := fun he => hu (he.trans h)
      rw [put_cons_of_ne hus,put_cons_of_ne hu,ih,put_cons_of_ne hu]

/-- A record whose key is there may be set before or after a record with another key. -/
theorem put_comm {rs : List Record} {r s : Record} (hr : r.key ∈ rs.map key) (hs : s.key ≠ r.key) :
    put (put rs s) r = put (put rs r) s := by
  induction rs with
  | nil => cases hr
  | cons u rs ih =>
    by_cases hur : u.key = r.key
    · have hus : u.key ≠ s.key := fun h => hs (h.symm.trans hur)
      rw [put_cons_of_ne hus,put_cons_of_eq hur,put_cons_of_eq hur,put_cons_of_ne (Ne.symm hs)]
    · rw [List.map_cons,List.mem_cons] at hr
      have hr := hr.resolve_left (Ne.symm hur)
      by_cases hus : u.key = s.key
      · rw [put_cons_of_eq hus,put_cons_of_ne hs,put_cons_of_ne hur,put_cons_of_eq hus]
      · rw [put_cons_of_ne hus,put_cons_of_ne hur,put_cons_of_ne hur,put_cons_of_ne hus,ih hr]

/-- A record whose key is there may be set before or after any records with other keys. -/
theorem putAll_put_comm {rs : List Record} {r : Record} (hr : r.key ∈ rs.map key) {new : List Record}
    (hnew : r.key ∉ new.map key) : put (putAll rs new) r = putAll (put rs r) new := by
  induction new generalizing rs with
  | nil => rfl
  | cons s new ih =>
    rw [List.map_cons,List.mem_cons,not_or] at hnew
    have hmem : r.key ∈ (put rs s).map key := by
      rw [put_key]
      split
      · exact hr
      · exact List.mem_append_left _ hr
    rw [putAll,List.foldl_cons,← putAll,ih hmem hnew.2,put_comm hr (Ne.symm hnew.1)]
    rfl

/-- Setting the outcome of a setting sets the same as that one. -/
theorem putAll_put {ts : List Record} (h : (ts.map key).Nodup) (rs : List Record) (r : Record) :
    putAll rs (put ts r) = put (putAll rs ts) r := by
  induction ts generalizing rs with
  | nil => rfl
  | cons t ts ih =>
    rw [List.map_cons,List.nodup_cons] at h
    by_cases ht : t.key = r.key
    · have hmem : r.key ∈ (put rs t).map key := by
        rw [put_key,← ht]
        split
        · assumption
        · simp
      have hrest : put (putAll (put rs t) ts) r = putAll (put (put rs t) r) ts :=
        putAll_put_comm hmem (ht ▸ h.1)
      rw [put_put_of_eq ht] at hrest
      rw [put_cons_of_eq ht]
      exact hrest.symm
    · rw [put_cons_of_ne ht]
      exact ih h.2 (put rs t)

/-- Setting the outcome of some settings is the same as doing them one by one. -/
theorem putAll_putAll (rs set : List Record) : putAll rs (putAll [] set) = putAll rs set := by
  induction set using List.reverseRecOn with
  | nil => rfl
  | append_singleton set r ih =>
    have honce := (latest_nil.putAll set).once
    rw [putAll,putAll,putAll,List.foldl_append,List.foldl_append,← putAll,← putAll,← putAll]
    exact (putAll_put honce rs r).trans (congrArg (put · r) ih)

end Record

namespace Table

/-- The index leads from a key to a place exactly where a record with the key stands there. -/
def Indexed (t : Table) : Prop :=
  ∀ k i, t.place? k = some i ↔ ∃ r, t.records[i]? = some r ∧ r.key = k

theorem empty_indexed : empty.Indexed := by
  intro k i
  simp [place?,empty]

theorem place?_cons (rs : Array Record) (index : List ((String × Option String × String) × Nat))
    (k k' : String × Option String × String) (i : Nat) :
    place? ⟨rs,(k,i) :: index⟩ k' = if k = k' then some i else place? ⟨rs,index⟩ k' := by
  by_cases h : k = k' <;> simp [place?,h]

theorem Indexed.fresh {t : Table} (h : t.Indexed) {k : String × Option String × String}
    (hk : t.place? k = none) : k ∉ t.records.toList.map Record.key := by
  intro hm
  obtain ⟨r,hr,he⟩ := List.mem_map.1 hm
  obtain ⟨i,hi⟩ := List.getElem?_of_mem hr
  have := (h k i).2 ⟨r,by simpa using hi,he⟩
  rw [hk] at this
  cases this

/-- Setting a value keeps the index in step with the records. -/
theorem Indexed.put {t : Table} (h : t.Indexed) (r : Record) : (t.put r).Indexed := by
  intro k j
  unfold Table.put
  split
  · next i hi =>
    have hkey : (∃ s, (t.records.modify i fun s => {s with value := r.value})[j]? = some s ∧
        s.key = k) ↔ ∃ s, t.records[j]? = some s ∧ s.key = k := by
      rw [Array.getElem?_modify]
      split
      · constructor
        · rintro ⟨s,hs,hk⟩
          obtain ⟨u,hu,rfl⟩ := Option.map_eq_some_iff.1 hs
          exact ⟨u,hu,hk⟩
        · rintro ⟨s,hs,hk⟩
          exact ⟨{s with value := r.value},by rw [hs]; rfl,hk⟩
      · rfl
    exact (h k j).trans hkey.symm
  · next hn =>
    have hf := h.fresh hn
    rw [place?_cons,Array.getElem?_push]
    by_cases hk : r.key = k
    · rw [if_pos hk]
      constructor
      · intro hj
        cases hj
        exact ⟨r,if_pos rfl,hk⟩
      · rintro ⟨s,hs,he⟩
        split at hs
        · next hj => rw [hj]
        · refine absurd (List.mem_map.2 ⟨s,?_,he.trans hk.symm⟩) hf
          exact List.mem_of_getElem? (by simpa using hs)
    · rw [if_neg hk]
      apply (h k j).trans
      constructor
      · rintro ⟨s,hs,he⟩
        have hj : j ≠ t.records.size := by
          have := (Array.getElem?_eq_some_iff.1 hs).1
          omega
        exact ⟨s,by rw [if_neg hj]; exact hs,he⟩
      · rintro ⟨s,hs,he⟩
        split at hs
        · cases hs
          exact absurd he hk
        · exact ⟨s,hs,he⟩

/-- On the records, setting a value by the index is setting it by search. -/
theorem Indexed.put_records {t : Table} (h : t.Indexed) (r : Record) :
    (t.put r).records.toList = Record.put t.records.toList r := by
  unfold Table.put
  split
  · next i hi =>
    rw [Array.toList_modify]
    symm
    apply Record.put_eq_modify
    intro j
    have hj := h r.key j
    rw [hi,Option.some.injEq] at hj
    rw [eq_comm,hj]
    simp
  · next hn => rw [Record.put_of_fresh (h.fresh hn),Array.toList_push]

theorem Indexed.putAll {t : Table} (h : t.Indexed) (rs : List Record) :
    (t.putAll rs).Indexed ∧ (t.putAll rs).records.toList = Record.putAll t.records.toList rs := by
  induction rs generalizing t with
  | nil => exact ⟨h,rfl⟩
  | cons r rs ih =>
    obtain ⟨hi,hr⟩ := ih (h.put r)
    exact ⟨hi,by rw [Table.putAll,List.foldl_cons,← Table.putAll,hr,h.put_records]; rfl⟩

/-- A table holds what was set: the latest records, found by their keys. -/
structure Holds (t : Table) (set : List Record) : Prop where
  latest : Record.Latest t.records.toList set
  indexed : t.Indexed
  places : ∀ k, (∃ i, t.place? k = some i) ↔ k ∈ set.map Record.key

theorem putAll_holds_empty (set : List Record) : (empty.putAll set).Holds set := by
  obtain ⟨hi,hr⟩ := empty_indexed.putAll set
  have hl : Record.Latest (empty.putAll set).records.toList set := by
    rw [hr]
    exact Record.latest_nil.putAll set
  refine ⟨hl,hi,?_⟩
  intro k
  rw [← List.mem_eraseDups,← hl.keys]
  constructor
  · rintro ⟨i,h⟩
    obtain ⟨r,hr,hk⟩ := (hi k i).1 h
    exact List.mem_map.2 ⟨r,List.mem_of_getElem? (by simpa using hr),hk⟩
  · intro h
    obtain ⟨r,hr,hk⟩ := List.mem_map.1 h
    obtain ⟨i,h⟩ := List.getElem?_of_mem hr
    exact ⟨i,(hi k i).2 ⟨r,by simpa using h,hk⟩⟩

end Table

namespace Expander

variable {gate : Gate}

theorem parseSheet_eq_putAll {css : String} (h : gate css = none) (e : Expander) :
    e.parseSheet gate css = Record.putAll [] (e.sheetRecords css) := by
  rw [parseSheet,h]
  exact (Table.empty_indexed.putAll _).2

/-- The records of an accepted sheet are the latest of those that its rules set. -/
theorem parseSheet_latest {css : String} (h : gate css = none) (e : Expander) :
    Record.Latest (e.parseSheet gate css) (e.sheetRecords css) := by
  rw [parseSheet_eq_putAll h]
  exact Record.latest_nil.putAll _

theorem parseSheet_of_rejected {css : String} (h : gate css ≠ none) (e : Expander) :
    e.parseSheet gate css = [] := if_pos (Option.isSome_iff_ne_none.2 h)

/-- Whatever values are set from the empty table on, the table holds them, and so the records of every
sheet that is accepted, by whatever gate, are the latest of those that its rules set. -/
theorem table_holds_set : (∀ set : List Record, (Table.empty.putAll set).Holds set) ∧
    ∀ (gate : Gate) (e : Expander) (css : String), gate css = none →
      ∃ t : Table, t.Holds (e.sheetRecords css) ∧ e.parseSheet gate css = t.records.toList := by
  refine ⟨Table.putAll_holds_empty,?_⟩
  intro gate e css h
  refine ⟨_,Table.putAll_holds_empty _,?_⟩
  rw [parseSheet,h]
  rfl

/-- A sheet that sets one key twice has one record, with the later value. -/
theorem table_holds_set_twice : ∃ t : Table,
    t.Holds (({} : Expander).sheetRecords ".a{x:y;x:z}") ∧
      ({} : Expander).parseSheet (fun _ => none) ".a{x:y;x:z}" = t.records.toList :=
  table_holds_set.2 (fun _ => none) {} ".a{x:y;x:z}" rfl

end Expander

end StyleExpansion
