import StyleExpansion.Pattern.Reader

/-! # The signs of a pattern

Every pattern whose combinations have at least two items is written with signs. An item that does not
bind tighter than what it stands in, or that is repeated as a group, is put between brackets. The
reader makes the same pattern of these signs again. Within a level it keeps one list for every way of
joining items, so that reading is stated once for all of them: the signs of some items leave a level
that, when it is ended as far as these items are joined, holds the items and nothing new besides.
-/
namespace StyleExpansion.Pattern

def rank : Pattern → Nat
  | sequence _ => 1
  | allOf _ => 2
  | anyOf _ => 3
  | oneOf _ => 4
  | _ => 0

def isRepeated : Pattern → Bool
  | repeated .. => true
  | _ => false

def separator : Nat → List Sign
  | 0 => []
  | 1 => [.doubleAmpersand]
  | 2 => [.doubleBar]
  | _ => [.bar]

def joined : Nat → List Pattern → Pattern
  | 0 => sequence
  | 1 => allOf
  | 2 => anyOf
  | _ => oneOf

def grouped (needed : Bool) (xs : List Sign) : List Sign :=
  if needed then .groupOpen :: (xs ++ [.groupClose false]) else xs

def multiplier (least : Nat) (most : Option Nat) (byComma : Bool) : List Sign :=
  if byComma then [.hash,.range least most] else [.range least most]

mutual
def signs : Pattern → List Sign
  | keyword word => [.keyword word]
  | type name => [.type name]
  | property name => [.property name]
  | literal symbol => [.literal symbol]
  | function name body => .function name :: (signs body ++ [.callClose])
  | sequence items => signsOf 0 items
  | allOf items => signsOf 1 items
  | anyOf items => signsOf 2 items
  | oneOf items => signsOf 3 items
  | repeated item least most byComma =>
    grouped (item.rank != 0 || item.isRepeated) (signs item) ++ multiplier least most byComma
  | nonEmpty item => .groupOpen :: (signs item ++ [.groupClose true])
def signsOf (r : Nat) : List Pattern → List Sign
  | [] => []
  | p :: ps =>
    grouped (decide (r < p.rank)) (signs p) ++
      if ps.isEmpty then [] else separator r ++ signsOf r ps
end

def isWord (s : String) : Bool := !s.toList.isEmpty && s.toList.all Sign.isWordChar

def isName (s : String) : Bool :=
  !s.toList.isEmpty && s.toList.all fun c => !Text.isBlank c && c != '>' && c != '\''

mutual
/-- Every combination in the pattern has at least two items, every word and name can be written, and
counts are within their limit. -/
def isRegular : Pattern → Bool
  | keyword word => isWord word
  | type name | property name => isName name
  | literal symbol => symbol == "/" || symbol == ","
  | function name body => isWord name && body.isRegular
  | sequence items | allOf items | anyOf items | oneOf items =>
    decide (2 ≤ items.length) && allRegular items
  | repeated item least most _ =>
    decide (least < Sign.countLimit) && most.all (fun n => decide (n < Sign.countLimit)) &&
      item.isRegular
  | nonEmpty item => item.isRegular
def allRegular : List Pattern → Bool
  | [] => true
  | p :: ps => p.isRegular && allRegular ps
end

/-! ## Levels -/

namespace Level

def extend (l : Level) : Nat → List Pattern → Level
  | 0,ps => {l with terms := ps.reverse ++ l.terms}
  | 1,ps => {l with alls := ps.reverse ++ l.alls}
  | 2,ps => {l with anys := ps.reverse ++ l.anys}
  | _,ps => {l with alternatives := ps.reverse ++ l.alternatives}

def endAt (l : Level) : Nat → Option Level
  | 0 => some l
  | 1 => l.endSequence
  | 2 => l.endAll
  | 3 => l.endAny
  | _ => l.endAny.map fun m => {m with alternatives := [combine oneOf m.alternatives.reverse]}

/-- Nothing is pending that an item of the rank would take in. -/
def IsClear (l : Level) : Nat → Prop
  | 0 => True
  | 1 => l.terms = []
  | 2 => l.terms = [] ∧ l.alls = []
  | 3 => l.terms = [] ∧ l.alls = [] ∧ l.anys = []
  | _ => l.terms = [] ∧ l.alls = [] ∧ l.anys = [] ∧ l.alternatives = []

theorem isClear_start (e : Enclosure) (r : Nat) : (start e).IsClear r := by
  unfold IsClear
  split <;> simp [start]

variable {l m : Level} {r : Nat} {ps qs : List Pattern}

theorem extend_extend : (l.extend r ps).extend r qs = l.extend r (ps ++ qs) := by
  unfold extend
  split <;> simp

theorem IsClear.extend (h : l.IsClear r) (hr : r < 4) : (l.extend r ps).IsClear r := by
  obtain rfl | rfl | rfl | rfl : r = 0 ∨ r = 1 ∨ r = 2 ∨ r = 3 := by omega
  all_goals exact h

theorem IsClear.of_succ (h : l.IsClear (r + 1)) (hr : r < 4) : l.IsClear r := by
  obtain rfl | rfl | rfl | rfl : r = 0 ∨ r = 1 ∨ r = 2 ∨ r = 3 := by omega
  · trivial
  · exact h.1
  · exact ⟨h.1,h.2.1⟩
  · exact ⟨h.1,h.2.1,h.2.2.1⟩

/-- Items of a rank are completed to one item of the next. -/
theorem endAt_succ (hl : l.IsClear (r + 1)) (hr : r < 4) (hps : ps ≠ [])
    (h : m.endAt r = some (l.extend r ps)) :
    m.endAt (r + 1) = some (l.extend (r + 1) [combine (joined r) ps]) := by
  obtain rfl | rfl | rfl | rfl : r = 0 ∨ r = 1 ∨ r = 2 ∨ r = 3 := by omega
  · obtain rfl := Option.some.inj h
    have hl : l.terms = [] := hl
    simp [endAt,extend,endSequence,joined,hl,hps]
  · obtain ⟨ht,ha⟩ := hl
    have h : m.endSequence = _ := h
    simp [endAt,endAll,h,extend,joined,ha]
  · obtain ⟨ht,ha,hn⟩ := hl
    have h : m.endAll = _ := h
    simp [endAt,endAny,h,extend,joined,hn]
  · obtain ⟨ht,ha,hn,hv⟩ := hl
    have h : m.endAny = _ := h
    simp [endAt,h,extend,joined,hv]

theorem enclosure_endSequence (h : l.endSequence = some m) : m.enclosure = l.enclosure := by
  unfold endSequence at h
  split at h <;> cases h
  rfl

theorem enclosure_endAll (h : l.endAll = some m) : m.enclosure = l.enclosure := by
  obtain ⟨k,hk,rfl⟩ := Option.map_eq_some_iff.1 h
  exact (enclosure_endSequence hk :)

theorem enclosure_endAny (h : l.endAny = some m) : m.enclosure = l.enclosure := by
  obtain ⟨k,hk,rfl⟩ := Option.map_eq_some_iff.1 h
  exact (enclosure_endAll hk :)

theorem enclosure_endAt (h : l.endAt r = some m) : m.enclosure = l.enclosure := by
  unfold endAt at h
  split at h
  · cases h
    rfl
  · exact enclosure_endSequence h
  · exact enclosure_endAll h
  · exact enclosure_endAny h
  · obtain ⟨k,hk,rfl⟩ := Option.map_eq_some_iff.1 h
    exact (enclosure_endAny hk :)

/-- A level that ends as one pattern has it for its pattern. -/
theorem finish_of_endAt {p : Pattern} {e : Enclosure}
    (h : l.endAt 4 = some ((start e).extend 4 [p])) : l.finish = some p := by
  obtain ⟨k,hk,hp⟩ := Option.map_eq_some_iff.1 h
  have hp := congrArg Level.alternatives hp
  simp only [extend,start,List.append_nil,List.reverse_cons,List.reverse_nil,List.nil_append,
    List.cons.injEq,and_true] at hp
  rw [finish,hk,Option.map_some,hp]

end Level

/-! ## Reading -/

/-- The signs are read as these items: of a level with nothing pending they make one that is ended as
the former with the items, whatever stands around it and whatever follows. -/
def Reads (r : Nat) (xs : List Sign) (ps : List Pattern) : Prop :=
  ∀ l : Level, l.IsClear r → ∃ m : Level, m.endAt r = some (l.extend r ps) ∧
    ∀ outer rest, Levels.pushAll ⟨l,outer⟩ (xs ++ rest) = Levels.pushAll ⟨m,outer⟩ rest

namespace Reads

variable {r : Nat} {xs ys : List Sign} {ps qs : List Pattern} {p : Pattern}

theorem term {x : Sign} (h : ∀ ls rest, Levels.pushAll ls (x :: rest) = (ls.addTerm p).pushAll rest) :
    Reads 0 [x] [p] :=
  fun l _ => ⟨l.addTerm p,rfl,fun outer rest => h ⟨l,outer⟩ rest⟩

theorem pushAll_separator {l m : Level} (hr : r < 4) (h : m.endAt r = some l) (outer : List Level)
    (rest : List Sign) :
    Levels.pushAll ⟨m,outer⟩ (separator r ++ rest) = Levels.pushAll ⟨l,outer⟩ rest := by
  obtain rfl | rfl | rfl | rfl : r = 0 ∨ r = 1 ∨ r = 2 ∨ r = 3 := by omega
  · obtain rfl := Option.some.inj h
    rfl
  · have h : m.endSequence = _ := h
    simp [separator,Levels.pushAll,Levels.push,Levels.within,h]
  · have h : m.endAll = _ := h
    simp [separator,Levels.pushAll,Levels.push,Levels.within,h]
  · have h : m.endAny = _ := h
    simp [separator,Levels.pushAll,Levels.push,Levels.within,h]

theorem append (hr : r < 4) (hx : Reads r xs ps) (hy : Reads r ys qs) :
    Reads r (xs ++ (separator r ++ ys)) (ps ++ qs) := by
  intro l hl
  obtain ⟨m,hm,hxs⟩ := hx l hl
  obtain ⟨n,hn,hys⟩ := hy (l.extend r ps) (hl.extend hr)
  refine ⟨n,by rw [hn,Level.extend_extend],fun outer rest => ?_⟩
  rw [List.append_assoc,hxs,List.append_assoc,pushAll_separator hr hm,hys]

theorem combine (hr : r < 4) (hps : ps ≠ []) (h : Reads r xs ps) :
    Reads (r + 1) xs [combine (joined r) ps] := by
  intro l hl
  obtain ⟨m,hm,hxs⟩ := h l (hl.of_succ hr)
  exact ⟨m,Level.endAt_succ hl hr hps hm,hxs⟩

theorem loosen {t : Nat} (h : Reads r xs [p]) (hrt : r ≤ t) (ht : t ≤ 4) : Reads t xs [p] := by
  induction t with
  | zero => rwa [Nat.le_zero.1 hrt] at h
  | succ t ih =>
    rcases Nat.eq_or_lt_of_le hrt with rfl | hlt
    · exact h
    · exact combine (by omega) (List.cons_ne_nil _ _) (ih (by omega) (by omega))

theorem enclosed (h : Reads 4 xs [p]) (e : Enclosure) :
    ∃ m : Level, m.enclosure = e ∧ m.finish = some p ∧ ∀ outer rest,
      Levels.pushAll ⟨.start e,outer⟩ (xs ++ rest) = Levels.pushAll ⟨m,outer⟩ rest := by
  obtain ⟨m,hm,hxs⟩ := h (.start e) (Level.isClear_start e 4)
  exact ⟨m,(Level.enclosure_endAt hm).symm,Level.finish_of_endAt hm,hxs⟩

theorem group (required : Bool) (h : Reads 4 xs [p]) :
    Reads 0 (.groupOpen :: (xs ++ [.groupClose required])) [if required then nonEmpty p else p] := by
  intro l _
  obtain ⟨m,he,hm,hxs⟩ := h.enclosed .group
  refine ⟨_,rfl,fun outer rest => ?_⟩
  simp [Levels.pushAll,Levels.push,Levels.enter,hxs,Levels.close,hm,he,Levels.wrapGroup,
    Level.addTerm,Level.extend]

theorem call (name : String) (h : Reads 4 xs [p]) :
    Reads 0 (.function name :: (xs ++ [.callClose])) [function name p] := by
  intro l _
  obtain ⟨m,he,hm,hxs⟩ := h.enclosed (.call name)
  refine ⟨_,rfl,fun outer rest => ?_⟩
  simp [Levels.pushAll,Levels.push,Levels.enter,hxs,Levels.close,hm,he,Levels.wrapCall,
    Level.addTerm,Level.extend]

theorem repeated (least : Nat) (most : Option Nat) (byComma : Bool) (h : Reads 0 xs [p]) :
    Reads 0 (xs ++ multiplier least most byComma) [repeated p least most byComma] := by
  intro l hl
  obtain ⟨m,hm,hxs⟩ := h l hl
  obtain rfl := Option.some.inj hm
  refine ⟨_,rfl,fun outer rest => ?_⟩
  rw [List.append_assoc,hxs]
  cases byComma <;>
    simp [multiplier,Levels.pushAll,Levels.push,Levels.multiply,Level.multiply,Level.extend]

theorem grouped {needed : Bool} {t : Nat} (h : Reads r xs [p]) (hr : r ≤ 4) (ht : t ≤ 4)
    (hrt : needed = false → r ≤ t) : Reads t (grouped needed xs) [p] := by
  cases needed with
  | false => exact h.loosen (hrt rfl) ht
  | true => exact ((h.loosen hr (Nat.le_refl 4)).group false).loosen (Nat.zero_le t) ht

end Reads

theorem rank_le (p : Pattern) : p.rank ≤ 4 := by
  cases p <;> simp [rank]

theorem combine_of_two (wrap : List Pattern → Pattern) {ps : List Pattern} (h : 2 ≤ ps.length) :
    combine wrap ps = wrap ps := by
  obtain _ | ⟨p,_ | ⟨q,qs⟩⟩ := ps
  · cases h
  · exact absurd h (by simp)
  · rfl

/-- Items that make a regular pattern are read as what they make together. -/
theorem Reads.joined {r : Nat} {xs : List Sign} {ps : List Pattern} (hr : r < 4)
    (h : (decide (2 ≤ ps.length) && allRegular ps) = true)
    (hps : allRegular ps = true → 0 < ps.length → Reads r xs ps) : Reads (r + 1) xs [joined r ps] := by
  rw [Bool.and_eq_true,decide_eq_true_eq] at h
  have hpos : 0 < ps.length := Nat.lt_of_lt_of_le (by decide) h.1
  rw [← combine_of_two (Pattern.joined r) h.1]
  exact (hps h.2 hpos).combine hr (List.ne_nil_of_length_pos hpos)

mutual
theorem reads_signs : ∀ p : Pattern, p.isRegular = true → Reads p.rank p.signs [p]
  | keyword _,_ => .term fun _ _ => rfl
  | type _,_ => .term fun _ _ => rfl
  | property _,_ => .term fun _ _ => rfl
  | literal _,_ => .term fun _ _ => rfl
  | function name body,h => by
    rw [isRegular,Bool.and_eq_true] at h
    exact ((reads_signs body h.2).loosen body.rank_le (Nat.le_refl 4)).call name
  | sequence items,h => .joined (by decide) h (reads_signsOf (by decide) items)
  | allOf items,h => .joined (by decide) h (reads_signsOf (by decide) items)
  | anyOf items,h => .joined (by decide) h (reads_signsOf (by decide) items)
  | oneOf items,h => .joined (by decide) h (reads_signsOf (by decide) items)
  | repeated item least most byComma,h => by
    rw [isRegular,Bool.and_eq_true] at h
    refine ((reads_signs item h.2).grouped item.rank_le (Nat.zero_le 4) ?_).repeated least most byComma
    simp only [Bool.or_eq_false_iff,bne_eq_false_iff_eq]
    exact fun h => Nat.le_of_eq h.1
  | nonEmpty item,h => by
    rw [isRegular] at h
    exact ((reads_signs item h).loosen item.rank_le (Nat.le_refl 4)).group true
theorem reads_signsOf {r : Nat} (hr : r < 4) : ∀ ps : List Pattern, allRegular ps = true →
    0 < ps.length → Reads r (signsOf r ps) ps
  | p :: ps,h,_ => by
    rw [allRegular,Bool.and_eq_true] at h
    have hp : Reads r (grouped (decide (r < p.rank)) p.signs) [p] := by
      refine (reads_signs p h.1).grouped p.rank_le (Nat.le_of_lt hr) fun hd => ?_
      exact Nat.not_lt.1 (of_decide_eq_false hd)
    rw [signsOf]
    split
    · next hps =>
      rw [List.append_nil,List.isEmpty_iff.1 hps]
      exact hp
    · next hps =>
      have hlen : 0 < ps.length := by
        rw [List.isEmpty_iff] at hps
        exact List.length_pos_iff.2 hps
      exact hp.append hr (reads_signsOf hr ps h.2 hlen)
end

theorem ofSigns?_signs {p : Pattern} (h : p.isRegular = true) : ofSigns? p.signs = some p := by
  obtain ⟨m,he,hm,hxs⟩ :=
    ((reads_signs p h).loosen p.rank_le (Nat.le_refl 4)).enclosed .whole
  have hpush := hxs [] []
  rw [List.append_nil] at hpush
  simp [ofSigns?,Levels.start,hpush,Levels.pushAll,Levels.finish,hm]

end StyleExpansion.Pattern
