import StyleExpansion.Text.Quoted
import Mathlib.Data.List.Forall2

/-! # JSON texts

Which texts are JSON, and what they stand for. A string stands for its UTF-16 code units, since an escape
may write one half of a character. Between the quotes of a string no control character may stand, and
outside of them only those that are blanks.
-/
namespace StyleExpansion

/-- What a JSON text stands for. A number stands for the way it is written. -/
inductive Json
  | null
  | bool (value : Bool)
  | number (text : List Char)
  | string (units : List Nat)
  | array (items : List Json)
  | object (members : List (List Nat × Json))

namespace Json

/-! ## Strings -/

def unitsOfChar (c : Char) : List Nat :=
  if c.toNat < 0x10000 then [c.toNat]
  else [0xd800 + (c.toNat - 0x10000) / 0x400,0xdc00 + (c.toNat - 0x10000) % 0x400]

def unitsOf (s : String) : List Nat := s.toList.flatMap unitsOfChar

def ofString (s : String) : Json := string (unitsOf s)

def isControl (c : Char) : Bool := c.toNat < 0x20

def escapes : List (Char × Nat) :=
  [('"',0x22),('\\',0x5c),('/',0x2f),('b',0x8),('f',0xc),('n',0xa),('r',0xd),('t',0x9)]

def hexDigits : List (Char × Nat) :=
  [('0',0),('1',1),('2',2),('3',3),('4',4),('5',5),('6',6),('7',7),('8',8),('9',9),
   ('a',10),('b',11),('c',12),('d',13),('e',14),('f',15),
   ('A',10),('B',11),('C',12),('D',13),('E',14),('F',15)]

def hexNumber? (a b c d : Char) : Option Nat := do
  return 0x1000 * (← hexDigits.lookup a) + 0x100 * (← hexDigits.lookup b) +
    0x10 * (← hexDigits.lookup c) + (← hexDigits.lookup d)

def unquote : List Char → Option (List Nat)
  | [] => some []
  | '\\' :: 'u' :: a :: b :: c :: d :: rest =>
    (hexNumber? a b c d).bind fun unit => (unquote rest).map (unit :: ·)
  | '\\' :: c :: rest => (escapes.lookup c).bind fun unit => (unquote rest).map (unit :: ·)
  | c :: rest =>
    if isControl c || c = '"' || c = '\\' then none else (unquote rest).map (unitsOfChar c ++ ·)

/-! ## Texts -/

def IsBlank (w : List Char) : Prop := ∀ c ∈ w, c ∈ [' ','\t','\n','\r']

def IsDigits (ds : List Char) : Prop := ds ≠ [] ∧ ∀ c ∈ ds, c.isDigit = true

def IsWhole (ds : List Char) : Prop := ds = ['0'] ∨ IsDigits ds ∧ ds.head? ≠ some '0'

def IsFraction (t : List Char) : Prop := t = [] ∨ ∃ ds, IsDigits ds ∧ t = '.' :: ds

def IsExponent (t : List Char) : Prop :=
  t = [] ∨ ∃ mark ∈ ['e','E'], ∃ sign ∈ [[],['+'],['-']], ∃ ds, IsDigits ds ∧ t = mark :: (sign ++ ds)

def IsNumber (t : List Char) : Prop :=
  ∃ sign ∈ [[],['-']], ∃ whole fraction exponent, IsWhole whole ∧ IsFraction fraction ∧
    IsExponent exponent ∧ t = sign ++ (whole ++ (fraction ++ exponent))

/-- What texts are written for: a value, a member of an object, or several of either with commas between
them. -/
inductive Part
  | value (j : Json)
  | member (name : List Nat) (j : Json)
  | series (parts : List Part)

/-- The text writes the part. -/
inductive Writes : Part → List Char → Prop
  | null : Writes (.value null) "null".toList
  | yes : Writes (.value (bool true)) "true".toList
  | no : Writes (.value (bool false)) "false".toList
  | number {t : List Char} : IsNumber t → Writes (.value (number t)) t
  | string {body : List Char} {units : List Nat} : unquote body = some units →
      Writes (.value (string units)) ('"' :: (body ++ ['"']))
  | array {items : List Json} {t : List Char} : Writes (.series (items.map .value)) t →
      Writes (.value (array items)) ('[' :: (t ++ [']']))
  | object {members : List (List Nat × Json)} {t : List Char} :
      Writes (.series (members.map fun m => .member m.1 m.2)) t →
      Writes (.value (object members)) ('\x7b' :: (t ++ ['\x7d']))
  | member {body before behind t : List Char} {units : List Nat} {j : Json} :
      unquote body = some units → IsBlank before → IsBlank behind → Writes (.value j) t →
      Writes (.member units j) ('"' :: (body ++ '"' :: (before ++ ':' :: (behind ++ t))))
  | none {w : List Char} : IsBlank w → Writes (.series []) w
  | last {p : Part} {before t behind : List Char} : IsBlank before → Writes p t → IsBlank behind →
      Writes (.series [p]) (before ++ (t ++ behind))
  | more {p q : Part} {ps : List Part} {before t behind u : List Char} : IsBlank before →
      Writes p t → IsBlank behind → Writes (.series (q :: ps)) u →
      Writes (.series (p :: q :: ps)) (before ++ (t ++ (behind ++ ',' :: u)))

/-- The text is JSON for the value. Blanks may stand around it. -/
def IsText (t : List Char) (j : Json) : Prop := Writes (.series [.value j]) t

/-! ## Control characters -/

def isClean (c : Char) : Bool := !isControl c || c = '\t' || c = '\n' || c = '\r'

def Clean (t : List Char) : Prop := ∀ c ∈ t, isClean c = true

instance (t : List Char) : Decidable (Clean t) :=
  decidable_of_iff (t.all isClean = true) List.all_eq_true

theorem clean_nil : Clean [] := fun _ hc => nomatch hc

theorem clean_cons {c : Char} {t : List Char} : Clean (c :: t) ↔ isClean c = true ∧ Clean t :=
  List.forall_mem_cons

theorem clean_append {t u : List Char} : Clean (t ++ u) ↔ Clean t ∧ Clean u := List.forall_mem_append

theorem not_control_of_lookup {table : List (Char × Nat)} (h : ∀ e ∈ table, isControl e.1 = false)
    {c : Char} {n : Nat} (hc : table.lookup c = some n) : isControl c = false := by
  obtain ⟨before,after,htable,_⟩ := List.lookup_eq_some_iff.1 hc
  exact h (c,n) (by simp [htable])

theorem not_control_of_hexNumber {a b c d : Char} {n : Nat} (h : hexNumber? a b c d = some n) :
    ∀ x ∈ [a,b,c,d], isControl x = false := by
  have hdigits : ∀ e ∈ hexDigits, isControl e.1 = false := by decide
  simp only [hexNumber?,Option.bind_eq_bind,Option.bind_eq_some_iff] at h
  obtain ⟨na,ha,nb,hb,nc,hc,nd,hd,-⟩ := h
  simp only [List.forall_mem_cons]
  exact ⟨not_control_of_lookup hdigits ha,not_control_of_lookup hdigits hb,
    not_control_of_lookup hdigits hc,not_control_of_lookup hdigits hd,by simp⟩

/-- No control character stands between the quotes of a string. -/
theorem not_control_of_unquote {body : List Char} {units : List Nat} (h : unquote body = some units) :
    ∀ c ∈ body, isControl c = false := by
  fun_induction unquote body generalizing units with
  | case1 => simp
  | case2 a b c d rest ih =>
    obtain ⟨n,hn,h⟩ := Option.bind_eq_some_iff.1 h
    obtain ⟨us,hrest,-⟩ := Option.map_eq_some_iff.1 h
    have hdigits := not_control_of_hexNumber hn
    simp only [List.forall_mem_cons] at hdigits ⊢
    exact ⟨by decide,by decide,hdigits.1,hdigits.2.1,hdigits.2.2.1,hdigits.2.2.2.1,ih hrest⟩
  | case3 c rest _ ih =>
    obtain ⟨n,hn,h⟩ := Option.bind_eq_some_iff.1 h
    obtain ⟨us,hrest,-⟩ := Option.map_eq_some_iff.1 h
    have hescapes : ∀ e ∈ escapes, isControl e.1 = false := by decide
    have hescape := not_control_of_lookup hescapes hn
    exact List.forall_mem_cons.2 ⟨by decide,List.forall_mem_cons.2 ⟨hescape,ih hrest⟩⟩
  | case4 c rest _ _ hc => cases h
  | case5 c rest _ _ hc ih =>
    obtain ⟨us,hrest,-⟩ := Option.map_eq_some_iff.1 h
    simp only [Bool.or_eq_true,not_or,Bool.not_eq_true] at hc
    exact List.forall_mem_cons.2 ⟨hc.1.1,ih hrest⟩

theorem isClean_of_not_control {c : Char} (h : isControl c = false) : isClean c = true := by
  simp [isClean,h]

theorem IsBlank.clean {w : List Char} (h : IsBlank w) : Clean w := by
  have hall : Clean [' ','\t','\n','\r'] := by decide
  exact fun c hc => hall c (h c hc)

theorem IsDigits.clean {ds : List Char} (h : IsDigits ds) : Clean ds := by
  intro c hc
  have hdigit := h.2 c hc
  simp only [Char.isDigit,Bool.and_eq_true,decide_eq_true_eq,ge_iff_le,UInt32.le_iff_toNat_le] at hdigit
  have hzero : '0'.val.toNat = 48 := rfl
  refine isClean_of_not_control (decide_eq_false ?_)
  have hnat : c.toNat = c.val.toNat := rfl
  omega

theorem clean_of_sign {w : List Char} (h : w ∈ [[],['+'],['-']]) : Clean w := by
  have hall : [[],['+'],['-']].all (fun w => w.all isClean) = true := by decide
  exact List.all_eq_true.1 (List.all_eq_true.1 hall w h)

theorem IsFraction.clean {t : List Char} (h : IsFraction t) : Clean t := by
  rcases h with rfl | ⟨ds,hdigits,rfl⟩
  · exact clean_nil
  · exact clean_cons.2 ⟨by decide,hdigits.clean⟩

theorem IsExponent.clean {t : List Char} (h : IsExponent t) : Clean t := by
  rcases h with rfl | ⟨mark,hmark,sign,hsign,ds,hdigits,rfl⟩
  · exact clean_nil
  · have hmarks : Clean ['e','E'] := by decide
    exact clean_cons.2 ⟨hmarks mark hmark,clean_append.2 ⟨clean_of_sign hsign,hdigits.clean⟩⟩

theorem IsNumber.clean {t : List Char} (h : IsNumber t) : Clean t := by
  obtain ⟨sign,hsign,whole,fraction,exponent,hwhole,hfraction,hexponent,rfl⟩ := h
  have hsigns : [[],['-']] ⊆ [[],['+'],['-']] := by simp
  have hclean : Clean whole := by
    rcases hwhole with rfl | ⟨hdigits,-⟩
    · decide
    · exact hdigits.clean
  simp only [clean_append]
  exact ⟨clean_of_sign (hsigns hsign),hclean,hfraction.clean,hexponent.clean⟩

/-- A JSON text is free of control characters but for blanks. -/
theorem Writes.clean {p : Part} {t : List Char} (h : Writes p t) : Clean t := by
  have hquote : isClean '"' = true := by decide
  have hcomma : isClean ',' = true := by decide
  have hcolon : isClean ':' = true := by decide
  have hbody : ∀ {body : List Char} {units : List Nat}, unquote body = some units → Clean body :=
    fun hread c hc => isClean_of_not_control (not_control_of_unquote hread c hc)
  induction h with
  | null => decide
  | yes => decide
  | no => decide
  | number hn => exact hn.clean
  | string hread => simp [clean_cons,clean_append,clean_nil,hquote,hbody hread]
  | array _ ih => simp [clean_cons,clean_append,clean_nil,ih,isClean,isControl]
  | object _ ih => simp [clean_cons,clean_append,clean_nil,ih,isClean,isControl]
  | member hread hbefore hbehind _ ih =>
    simp [clean_cons,clean_append,hquote,hcolon,hbody hread,hbefore.clean,hbehind.clean,ih]
  | none hw => exact hw.clean
  | last hbefore _ hbehind ih => simp [clean_append,hbefore.clean,hbehind.clean,ih]
  | more hbefore _ hbehind _ ih ihs =>
    simp [clean_cons,clean_append,hcomma,hbefore.clean,hbehind.clean,ih,ihs]

/-! ## Quoted texts -/

theorem unquote_escape {c : Char} {n : Nat} (hc : c ≠ 'u') (hn : escapes.lookup c = some n)
    (rest : List Char) : unquote ('\\' :: c :: rest) = (unquote rest).map (n :: ·) := by
  rw [unquote.eq_3 c rest fun _ _ _ _ _ hu _ => hc hu,hn,Option.bind_some]

theorem unquote_char {c : Char} (hc : isControl c = false) (hquote : c ≠ '"') (hslash : c ≠ '\\')
    (rest : List Char) : unquote (c :: rest) = (unquote rest).map (unitsOfChar c ++ ·) := by
  simp [unquote,hc,hquote,hslash]

def escapedChars : List Char := ['\\','"','\n','\r','\t']

theorem plain_of_escaped {c : Char} (h : c ∈ escapedChars) : ∃ k, k ≠ 'u' ∧
    Text.plain c = ['\\',k] ∧ escapes.lookup k = some c.toNat ∧ unitsOfChar c = [c.toNat] := by
  simp only [escapedChars,List.mem_cons,List.not_mem_nil,or_false] at h
  rcases h with rfl | rfl | rfl | rfl | rfl
  · exact ⟨'\\',by decide,rfl,rfl,rfl⟩
  · exact ⟨'"',by decide,rfl,rfl,rfl⟩
  · exact ⟨'n',by decide,rfl,rfl,rfl⟩
  · exact ⟨'r',by decide,rfl,rfl,rfl⟩
  · exact ⟨'t',by decide,rfl,rfl,rfl⟩

theorem plain_of_not_escaped {c : Char} (h : c ∉ escapedChars) : Text.plain c = [c] := by
  simp only [escapedChars,List.mem_cons,List.not_mem_nil,or_false,not_or] at h
  simp [Text.plain,h]

/-- Of the control characters, an escape writes the three that are blanks. -/
theorem not_control_of_not_escaped {c : Char} (h : c ∉ escapedChars) (hc : isClean c = true) :
    isControl c = false := by
  simp only [escapedChars,List.mem_cons,List.not_mem_nil,or_false,not_or] at h
  simpa [isClean,h] using hc

/-- A character of a log line is read as what it was, unless it stands there as a control character. -/
theorem unquote_plain {c : Char} (h : isClean c = true) (rest : List Char) :
    unquote (Text.plain c ++ rest) = (unquote rest).map (unitsOfChar c ++ ·) := by
  by_cases hc : c ∈ escapedChars
  · obtain ⟨k,hu,hplain,hlookup,hunits⟩ := plain_of_escaped hc
    rw [hplain,hunits]
    exact unquote_escape hu hlookup rest
  · have hnot := hc
    simp only [escapedChars,List.mem_cons,List.not_mem_nil,or_false,not_or] at hnot
    rw [plain_of_not_escaped hc]
    exact unquote_char (not_control_of_not_escaped hc h) hnot.2.1 hnot.1 rest

theorem unquote_plains {s : List Char} (h : Clean s) :
    unquote (s.flatMap Text.plain) = some (s.flatMap unitsOfChar) := by
  induction s with
  | nil => rfl
  | cons c s ih =>
    obtain ⟨hc,hs⟩ := clean_cons.1 h
    rw [List.flatMap_cons,unquote_plain hc,ih hs]
    rfl

theorem clean_of_plains {s : List Char} (h : Clean (s.flatMap Text.plain)) : Clean s := by
  intro c hc
  by_cases hescaped : c ∈ escapedChars
  · have hall : Clean escapedChars := by decide
    exact hall c hescaped
  · refine h c (List.mem_flatMap.2 ⟨c,hc,?_⟩)
    rw [plain_of_not_escaped hescaped]
    exact List.mem_singleton_self c

theorem toList_logged (s : String) :
    (Text.logged s).toList = '"' :: (s.toList.flatMap Text.plain ++ ['"']) := by
  rw [Text.logged,String.toList_ofList,Text.plainlyQuoted,List.cons_append]

theorem clean_of_logged {s : String} (h : Clean (Text.logged s).toList) : Clean s.toList := by
  rw [toList_logged,clean_cons,clean_append] at h
  exact clean_of_plains h.2.1

/-- The code units of a character tell it from every other one. -/
theorem unitsOfChar_append_inj {c d : Char} {us vs : List Nat}
    (h : unitsOfChar c ++ us = unitsOfChar d ++ vs) : c = d ∧ us = vs := by
  have hc : c.toNat < 0xd800 ∨ 0xdfff < c.toNat ∧ c.toNat < 0x110000 := c.valid
  have hd : d.toNat < 0xd800 ∨ 0xdfff < d.toNat ∧ d.toNat < 0x110000 := d.valid
  unfold unitsOfChar at h
  split at h <;> split at h <;>
    simp only [List.cons_append,List.nil_append,List.cons.injEq] at h
  · exact ⟨Char.toNat_inj.1 h.1,h.2⟩
  · omega
  · omega
  · refine ⟨Char.toNat_inj.1 ?_,h.2.2⟩
    omega

theorem unitsOf_inj {s t : List Char} (h : s.flatMap unitsOfChar = t.flatMap unitsOfChar) : s = t := by
  have hne : ∀ (c : Char) (us : List Nat), unitsOfChar c ++ us ≠ [] := by
    intro c us
    unfold unitsOfChar
    split <;> simp
  induction s generalizing t with
  | nil =>
    cases t with
    | nil => rfl
    | cons d t => exact absurd h.symm (hne d _)
  | cons c s ih =>
    cases t with
    | nil => exact absurd h (hne c _)
    | cons d t =>
      obtain ⟨rfl,hrest⟩ := unitsOfChar_append_inj h
      rw [ih hrest]

theorem unquote_of_writes {body : List Char} {units : List Nat}
    (h : Writes (.value (string units)) ('"' :: (body ++ ['"']))) : unquote body = some units := by
  generalize ht : '"' :: (body ++ ['"']) = t at h
  cases h with
  | string hread =>
    obtain rfl := List.append_cancel_right (List.cons.inj ht).2
    exact hread

/-- A text in a log line is a JSON string of this text, and of no other one, unless there is a control
character in it that is not escaped. -/
theorem writes_logged_iff {s t : String} :
    Writes (.value (ofString t)) (Text.logged s).toList ↔ Clean s.toList ∧ t = s := by
  constructor
  · intro h
    have hs := clean_of_logged h.clean
    rw [toList_logged] at h
    have hunits := unquote_of_writes h
    rw [unquote_plains hs] at hunits
    exact ⟨hs,String.toList_inj.1 (unitsOf_inj (Option.some.inj hunits)).symm⟩
  · rintro ⟨h,rfl⟩
    rw [toList_logged]
    exact .string (unquote_plains h)

/-! ## Numbers -/

theorem head_toDigits {n : Nat} (hn : n ≠ 0) : (Nat.toDigits 10 n).head? ≠ some '0' := by
  induction n using Nat.strongRecOn with
  | _ n ih =>
    rcases Nat.lt_or_ge n 10 with hlt | hge
    · have hall : ∀ m < 10, m ≠ 0 → m.digitChar ≠ '0' := by decide
      rw [Nat.toDigits_of_lt_base hlt,List.head?_cons]
      exact fun h => hall n hlt hn (Option.some.inj h)
    · rw [Nat.toDigits_of_base_le (by decide) hge,List.head?_append_of_ne_nil _ Nat.toDigits_ne_nil]
      exact ih (n / 10) (by omega) (by omega)

theorem isWhole_toDigits (n : Nat) : IsWhole (Nat.toDigits 10 n) := by
  by_cases hn : n = 0
  · subst hn
    exact Or.inl rfl
  · refine Or.inr ⟨⟨Nat.toDigits_ne_nil,fun c hc => ?_⟩,head_toDigits hn⟩
    exact Nat.isDigit_of_mem_toDigits (by decide) (by decide) hc

theorem toList_toString (n : Nat) : (toString n).toList = Nat.toDigits 10 n := by simp

theorem isNumber_toString (n : Nat) : IsNumber (toString n).toList :=
  ⟨[],by simp,Nat.toDigits 10 n,[],[],isWhole_toDigits n,Or.inl rfl,Or.inl rfl,by simp⟩

/-! ## Objects -/

theorem isBlank_nil : IsBlank [] := fun _ hc => nomatch hc

theorem isText_of_writes {t : List Char} {j : Json} (h : Writes (.value j) t) : IsText t j := by
  simpa [IsText] using Writes.last isBlank_nil h isBlank_nil

/-- Texts with commas between them write what they write one by one. -/
theorem writes_series {ps : List Part} {ts : List (List Char)} (h : List.Forall₂ Writes ps ts) :
    Writes (.series ps) ([','].intercalate ts) := by
  induction h with
  | nil => exact .none isBlank_nil
  | @cons p t ps ts hp hps ih =>
    cases hps with
    | nil => simpa [List.intercalate] using Writes.last isBlank_nil hp isBlank_nil
    | @cons q u ps ts hq hps =>
      rw [List.intercalate_cons_cons]
      simpa using Writes.more isBlank_nil hp isBlank_nil ih

def record (members : List (String × Json)) : Json := object (members.map fun m => (unitsOf m.1,m.2))

end Json

end StyleExpansion
