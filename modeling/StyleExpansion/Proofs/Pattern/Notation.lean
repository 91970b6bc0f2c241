import StyleExpansion.Proofs.Pattern.Signs

/-! # The text of a pattern

The signs of a pattern are written with single spaces between them; a multiplier follows what it
repeats at once. Reading such a text gives the signs again, for none of them runs into what stands
behind it, and so it gives the pattern.
-/
namespace StyleExpansion.Pattern

namespace Sign

def digits (n : Nat) : List Char := Nat.toDigits 10 n

def text : Sign → List Char
  | keyword word => word.toList
  | type name => '<' :: (name.toList ++ ['>'])
  | property name => '<' :: '\'' :: (name.toList ++ ['\'','>'])
  | function name => name.toList ++ ['(']
  | literal symbol => symbol.toList
  | groupOpen => ['[']
  | groupClose required => if required then [']','!'] else [']']
  | callClose => [')']
  | bar => ['|']
  | doubleBar => ['|','|']
  | doubleAmpersand => ['&','&']
  | question => ['?']
  | star => ['*']
  | plus => ['+']
  | hash => ['#']
  | range least most => '\x7b' :: (digits least ++ ',' :: ((most.elim [] digits) ++ ['\x7d']))

def gap : Sign → List Char
  | question | star | plus | hash | range .. => []
  | _ => [' ']

def behind (xs : List Sign) : List Char := xs.flatMap fun x => x.gap ++ x.text

def spaced : List Sign → List Char
  | [] => []
  | x :: xs => x.text ++ behind xs

end Sign

def text (p : Pattern) : String := String.ofList (Sign.spaced p.signs)

namespace Sign

/-! ## Characters -/

theorem wordChar_lt {c : Char} (h : isWordChar c = true) : c.toNat < 123 := by
  have hends : '9'.val.toNat = 57 ∧ 'Z'.val.toNat = 90 ∧ 'z'.val.toNat = 122 := ⟨rfl,rfl,rfl⟩
  have hnat : c.toNat = c.val.toNat := rfl
  simp only [isWordChar,Bool.or_eq_true,decide_eq_true_eq] at h
  rcases h with (h | rfl) | rfl
  · have hkind : ((c.isUpper || c.isLower) || c.isDigit) = true := h
    simp only [Bool.or_eq_true] at hkind
    rcases hkind with (hc | hc) | hc
    · have hupper : 'A'.val ≤ c.val ∧ c.val ≤ 'Z'.val := of_decide_eq_true hc
      simp only [UInt32.le_iff_toNat_le] at hupper
      omega
    · have hlower : (decide (c.val ≥ 'a'.val) && decide (c.val ≤ 'z'.val)) = true := hc
      simp only [Bool.and_eq_true,decide_eq_true_eq,UInt32.le_iff_toNat_le] at hlower
      omega
    · have hdigit : (decide (c.val ≥ '0'.val) && decide (c.val ≤ '9'.val)) = true := hc
      simp only [Bool.and_eq_true,decide_eq_true_eq,UInt32.le_iff_toNat_le] at hdigit
      omega
  · decide
  · decide

theorem wordChar_facts {c : Char} (h : isWordChar c = true) :
    Text.isBlank c = false ∧ c ∉ ['+',',','\x7d'] := by
  have hall : ∀ n < 123, isWordChar (Char.ofNat n) = true → Text.isBlank (Char.ofNat n) = false ∧
      Char.ofNat n ∉ ['+',',','\x7d'] := by
    decide
  have hc := hall c.toNat (wordChar_lt h)
  rw [Char.ofNat_toNat] at hc
  exact hc h

theorem isWordChar_of_isDigit {c : Char} (h : c.isDigit = true) : isWordChar c = true := by
  have halnum : c.isAlphanum = true := by
    show (c.isAlpha || c.isDigit) = true
    rw [h,Bool.or_true]
  simp [isWordChar,halnum]

/-! ## Signs read from their texts -/

/-- A text that does not go on with the sign before it. -/
def Apart (s : List Char) : Prop :=
  ∀ c ∈ s.head?, isWordChar c = false ∧ c ≠ '(' ∧ c ≠ '!' ∧ c ≠ '|'

theorem apart_nil : Apart [] := by
  rintro c hc
  cases hc

theorem apart_behind (xs : List Sign) : Apart (behind xs) := by
  rcases xs with _ | ⟨x,xs⟩
  · exact apart_nil
  · intro c hc
    cases x <;> cases hc <;> decide

def IsSpelled (x : Sign) : Prop :=
  ∀ s, Apart s → read (x.text ++ s) = (read s).map (x :: ·)

theorem read_blank (s : List Char) : read (' ' :: s) = read s := by
  rw [read,if_pos (by decide)]

theorem read_next {c : Char} {r t : List Char} {x : Sign} (hc : Text.isBlank c = false)
    (h : next c r = some (x,t)) : read (c :: r) = (read t).map (x :: ·) := by
  rw [read,if_neg (by simp [hc])]
  split
  · next hn =>
    rw [h] at hn
    cases hn
  · next hn =>
    rw [h] at hn
    cases hn
    rfl

/-- A sign whose text begins with no blank is read as its first character tells. -/
theorem IsSpelled.of_next {x : Sign} {c : Char} {r : List Char} (hx : x.text = c :: r)
    (hc : Text.isBlank c = false) (h : ∀ s, Apart s → next c (r ++ s) = some (x,s)) : x.IsSpelled := by
  intro s hs
  rw [hx]
  exact read_next hc (h s hs)

/-! ### Marks -/

theorem isSpelled_mark {x : Sign} (h : x ∈ [groupOpen,callClose,doubleBar,doubleAmpersand,hash,
    literal "/",literal ","]) : x.IsSpelled := by
  simp only [List.mem_cons,List.not_mem_nil,or_false] at h
  rcases h with rfl | rfl | rfl | rfl | rfl | rfl | rfl
  all_goals exact .of_next rfl (by decide) fun _ _ => rfl

/-- A closing bracket, which an exclamation mark behind it would belong to. -/
theorem isSpelled_groupClose (required : Bool) : (groupClose required).IsSpelled := by
  cases required with
  | true => exact .of_next rfl (by decide) fun _ _ => rfl
  | false =>
    refine .of_next rfl (by decide) fun s hs => ?_
    rcases s with _ | ⟨c,s⟩
    · rfl
    · have hc := (hs c rfl).2.2.1
      simp [next,hc]

/-- A bar, which another one behind it would belong to. -/
theorem isSpelled_bar : bar.IsSpelled := by
  refine .of_next rfl (by decide) fun s hs => ?_
  rcases s with _ | ⟨c,s⟩
  · rfl
  · have hc := (hs c rfl).2.2.2
    simp [next,hc]

/-! ### Words -/

theorem next_word {c : Char} (h : isWordChar c = true) (r : List Char) :
    next c r = some (readWord (c :: r)) := by
  unfold next
  split
  case h_16 => rw [if_pos h]
  all_goals exact absurd h (by decide)

theorem takeWhile_word {w s : List Char} (hw : ∀ c ∈ w, isWordChar c = true)
    (hs : ∀ c ∈ s.head?, isWordChar c = false) :
    (w ++ s).takeWhile isWordChar = w ∧ (w ++ s).dropWhile isWordChar = s := by
  rw [List.takeWhile_append_of_pos hw,List.dropWhile_append_of_pos hw]
  rcases s with _ | ⟨c,s⟩
  · simp
  · simp [hs c rfl]

theorem isWord_cons {w : String} (h : isWord w = true) :
    ∃ c r, w.toList = c :: r ∧ isWordChar c = true ∧ ∀ d ∈ w.toList, isWordChar d = true := by
  simp only [isWord,Bool.and_eq_true,Bool.not_eq_true',List.all_eq_true] at h
  obtain ⟨hne,hw⟩ := h
  cases hlist : w.toList with
  | nil =>
    rw [hlist] at hne
    cases hne
  | cons c r =>
    rw [hlist] at hw
    exact ⟨c,r,rfl,hw c List.mem_cons_self,hw⟩

theorem isSpelled_keyword {w : String} (h : isWord w = true) : (keyword w).IsSpelled := by
  obtain ⟨c,r,hlist,hc,hw⟩ := isWord_cons h
  refine .of_next hlist (wordChar_facts hc).1 fun s hs => ?_
  obtain ⟨htake,hdrop⟩ := takeWhile_word hw fun c hc => (hs c hc).1
  rw [hlist] at htake hdrop
  rw [next_word hc,← List.cons_append,readWord,htake,hdrop,← hlist,String.ofList_toList]
  rcases s with _ | ⟨d,s⟩
  · rfl
  · have hd := (hs d rfl).2.1
    simp [hd]

theorem isSpelled_function {w : String} (h : isWord w = true) : (function w).IsSpelled := by
  obtain ⟨c,r,hlist,hc,hw⟩ := isWord_cons h
  have htext : (function w).text = c :: (r ++ ['(']) := by
    rw [text,hlist,List.cons_append]
  refine .of_next htext (wordChar_facts hc).1 fun s _ => ?_
  obtain ⟨htake,hdrop⟩ := takeWhile_word (s := '(' :: s) hw fun d hd => by
    obtain rfl := Option.some.inj hd
    decide
  rw [hlist] at htake hdrop
  rw [next_word hc,List.append_assoc,List.singleton_append,← List.cons_append,readWord,htake,hdrop,
    ← hlist,String.ofList_toList]
  rfl

/-! ### References -/

theorem split_mark {s : List Char} {m : Char} (h : ∀ c ∈ s, c ≠ m) (t : List Char) :
    (s ++ m :: t).takeWhile (· ≠ m) = s ∧ (s ++ m :: t).dropWhile (· ≠ m) = m :: t := by
  have hs : ∀ c ∈ s, decide (c ≠ m) = true := fun c hc => decide_eq_true (h c hc)
  rw [List.takeWhile_append_of_pos hs,List.dropWhile_append_of_pos hs]
  simp

theorem next_reference {s : List Char} (h : ∀ c ∈ s, c ≠ '>') (t : List Char) :
    next '<' (s ++ '>' :: t) = some (readReference s,t) := by
  obtain ⟨htake,hdrop⟩ := split_mark h t
  rw [next,htake,hdrop]

theorem isName_iff {n : String} : isName n = true ↔
    n.toList ≠ [] ∧ ∀ c ∈ n.toList, Text.isBlank c = false ∧ c ≠ '>' ∧ c ≠ '\'' := by
  simp [isName,and_assoc]

theorem isSpelled_type {n : String} (h : isName n = true) : (type n).IsSpelled := by
  obtain ⟨hne,hn⟩ := isName_iff.1 h
  refine .of_next rfl (by decide) fun s _ => ?_
  have hblank : ∀ c ∈ n.toList, Text.isBlank c = false := fun c hc => (hn c hc).1
  have hfirst : Text.firstWord n.toList = n.toList := by
    rw [Text.firstWord,Text.dropWhile_of_not_blank hblank]
    have hword : ∀ c ∈ n.toList, (!Text.isBlank c) = true := fun c hc => by rw [hblank c hc]; rfl
    have htake : (n.toList ++ []).takeWhile (fun c => !Text.isBlank c) = n.toList ++ [] :=
      List.takeWhile_append_of_pos hword
    rwa [List.append_nil] at htake
  have hread : readReference n.toList = type n := by
    rw [readReference,Text.trim_of_not_blank hblank]
    split
    · next r hr =>
      exact absurd rfl (hn '\'' (by rw [hr]; exact List.mem_cons_self)).2.2
    · rw [hfirst,String.ofList_toList]
  rw [List.append_assoc,List.cons_append,List.nil_append,next_reference fun c hc => (hn c hc).2.1,
    hread]

theorem isSpelled_property {n : String} (h : isName n = true) : (property n).IsSpelled := by
  obtain ⟨hne,hn⟩ := isName_iff.1 h
  refine .of_next rfl (by decide) fun s _ => ?_
  have hquote : ∀ c ∈ '\'' :: (n.toList ++ ['\'']), Text.isBlank c = false ∧ c ≠ '>' := by
    intro c hc
    simp only [List.mem_cons,List.mem_append,List.not_mem_nil,or_false] at hc
    rcases hc with rfl | hc | rfl
    · decide
    · exact ⟨(hn c hc).1,(hn c hc).2.1⟩
    · decide
  have hdrop : dropQuotes (n.toList ++ ['\'']) = n.toList := by
    obtain ⟨c,r,hr⟩ := List.exists_cons_of_ne_nil (List.reverse_ne_nil_iff.2 hne)
    have hc : c ≠ '\'' := (hn c (List.mem_reverse.1 (by rw [hr]; exact List.mem_cons_self))).2.2
    rw [dropQuotes,List.reverse_append,List.reverse_singleton,List.singleton_append,
      List.dropWhile_cons_of_pos (by decide),hr,List.dropWhile_cons_of_neg (by simpa using hc),← hr,
      List.reverse_reverse]
  have hread : readReference ('\'' :: (n.toList ++ ['\''])) = property n := by
    rw [readReference,Text.trim_of_not_blank fun c hc => (hquote c hc).1]
    simp only [hdrop,String.ofList_toList]
  have hsplit : ('\'' :: (n.toList ++ ['\'','>'])) ++ s =
      ('\'' :: (n.toList ++ ['\''])) ++ '>' :: s := by
    simp
  rw [hsplit,next_reference fun c hc => (hquote c hc).2,hread]

/-! ### Ranges -/

theorem isDigit_digits {n : Nat} : ∀ c ∈ digits n, c.isDigit = true := fun _ hc =>
  Nat.isDigit_of_mem_toDigits (by decide) (by decide) hc

theorem digits_facts {n : Nat} : ∀ c ∈ digits n, Text.isBlank c = false ∧ c ∉ ['+',',','\x7d'] :=
  fun c hc => wordChar_facts (isWordChar_of_isDigit (isDigit_digits c hc))

theorem trim_digits (n : Nat) : Text.trim (digits n) = digits n :=
  Text.trim_of_not_blank fun c hc => (digits_facts c hc).1

theorem isEmpty_digits (n : Nat) : (digits n).isEmpty = false := by
  rw [List.isEmpty_eq_false_iff]
  exact Nat.toDigits_ne_nil

theorem readCount_digits {n : Nat} (h : n < countLimit) : readCount (digits n) = some n := by
  have hplus : (digits n).head? ≠ some '+' := by
    intro hp
    have hmem := (digits_facts '+' (List.mem_of_mem_head? hp)).2
    exact hmem (by decide)
  have hvalue : (digits n).foldl (fun n c => 10 * n + (c.toNat - 48)) 0 = n :=
    Nat.ofDigitChars_toDigits (by decide) (by decide)
  rw [readCount,trim_digits]
  simp only [if_neg hplus,isEmpty_digits,List.all_eq_true.2 isDigit_digits,hvalue,if_pos h,Bool.not_true,
    Bool.or_self,Bool.false_eq_true,if_false]

theorem readRange_digits {least : Nat} {most : Option Nat} (hl : least < countLimit)
    (hm : ∀ n ∈ most, n < countLimit) :
    readRange (digits least ++ ',' :: most.elim [] digits) = some (range least most) := by
  have hcomma : ∀ c ∈ digits least, c ≠ ',' := by
    rintro c hc rfl
    exact (digits_facts ',' hc).2 (by decide)
  obtain ⟨htake,hdrop⟩ := split_mark hcomma (most.elim [] digits)
  rw [readRange,htake,hdrop]
  cases most with
  | none => simp [Text.trim,readCount_digits hl]
  | some n => simp [trim_digits,isEmpty_digits,readCount_digits hl,readCount_digits (hm n rfl)]

theorem isSpelled_range {least : Nat} {most : Option Nat} (hl : least < countLimit)
    (hm : ∀ n ∈ most, n < countLimit) : (range least most).IsSpelled := by
  refine .of_next rfl (by decide) fun s _ => ?_
  have hdigits : ∀ n, ∀ c ∈ digits n, c ≠ '\x7d' := by
    rintro n c hc rfl
    exact (digits_facts '\x7d' hc).2 (by decide)
  have hbrace : ∀ c ∈ digits least ++ ',' :: most.elim [] digits, c ≠ '\x7d' := by
    intro c hc
    rw [List.mem_append,List.mem_cons] at hc
    rcases hc with hc | rfl | hc
    · exact hdigits least c hc
    · decide
    · cases most with
      | none => cases hc
      | some n => exact hdigits n c hc
  obtain ⟨htake,hdrop⟩ := split_mark hbrace s
  have hsplit : digits least ++ ',' :: (most.elim [] digits ++ ['\x7d']) ++ s =
      (digits least ++ ',' :: most.elim [] digits) ++ '\x7d' :: s := by
    simp
  rw [hsplit,next,htake,hdrop,readRange_digits hl hm]
  rfl

/-! ### All signs of a text -/

theorem read_behind {xs : List Sign} (h : ∀ x ∈ xs, x.IsSpelled) : read (behind xs) = some xs := by
  induction xs with
  | nil => rw [behind,List.flatMap_nil,read]
  | cons x xs ih =>
    obtain ⟨hx,hxs⟩ := List.forall_mem_cons.1 h
    have hgap : ∀ s, read (x.gap ++ s) = read s := by
      intro s
      cases x
      all_goals first | exact read_blank s | rfl
    rw [behind,List.flatMap_cons,List.append_assoc,hgap]
    exact (hx _ (apart_behind xs)).trans (by rw [ih hxs]; rfl)

theorem read_spaced {xs : List Sign} (h : ∀ x ∈ xs, x.IsSpelled) : read (spaced xs) = some xs := by
  cases xs with
  | nil => rw [spaced,read]
  | cons x xs =>
    obtain ⟨hx,hxs⟩ := List.forall_mem_cons.1 h
    rw [spaced,hx _ (apart_behind xs),read_behind hxs]
    rfl

end Sign

theorem isSpelled_grouped {needed : Bool} {xs : List Sign} (h : ∀ x ∈ xs, x.IsSpelled) :
    ∀ x ∈ grouped needed xs, x.IsSpelled := by
  cases needed with
  | false => exact h
  | true =>
    intro x hx
    simp only [grouped,if_true,List.mem_cons,List.mem_append,List.not_mem_nil,or_false] at hx
    rcases hx with rfl | hx | rfl
    · exact Sign.isSpelled_mark (by decide)
    · exact h x hx
    · exact Sign.isSpelled_groupClose false

theorem isSpelled_separator (r : Nat) : ∀ x ∈ separator r, x.IsSpelled := by
  intro x hx
  unfold separator at hx
  split at hx
  · cases hx
  · obtain rfl := List.mem_singleton.1 hx
    exact Sign.isSpelled_mark (by decide)
  · obtain rfl := List.mem_singleton.1 hx
    exact Sign.isSpelled_mark (by decide)
  · obtain rfl := List.mem_singleton.1 hx
    exact Sign.isSpelled_bar

theorem isSpelled_multiplier {least : Nat} {most : Option Nat} (byComma : Bool)
    (hl : least < Sign.countLimit) (hm : ∀ n ∈ most, n < Sign.countLimit) :
    ∀ x ∈ multiplier least most byComma, x.IsSpelled := by
  intro x hx
  cases byComma with
  | false =>
    obtain rfl := List.mem_singleton.1 hx
    exact Sign.isSpelled_range hl hm
  | true =>
    simp only [multiplier,if_true,List.mem_cons,List.not_mem_nil,or_false] at hx
    rcases hx with rfl | rfl
    · exact Sign.isSpelled_mark (by decide)
    · exact Sign.isSpelled_range hl hm

mutual
/-- The signs of a regular pattern are read from their texts. -/
theorem isSpelled_signs : ∀ p : Pattern, p.isRegular = true → ∀ x ∈ p.signs, x.IsSpelled
  | keyword word,h,x,hx => by
    obtain rfl := List.mem_singleton.1 hx
    exact Sign.isSpelled_keyword h
  | type name,h,x,hx => by
    obtain rfl := List.mem_singleton.1 hx
    exact Sign.isSpelled_type h
  | property name,h,x,hx => by
    obtain rfl := List.mem_singleton.1 hx
    exact Sign.isSpelled_property h
  | literal symbol,h,x,hx => by
    obtain rfl := List.mem_singleton.1 hx
    simp only [isRegular,Bool.or_eq_true,beq_iff_eq] at h
    rcases h with rfl | rfl <;> exact Sign.isSpelled_mark (by decide)
  | function name body,h,x,hx => by
    rw [isRegular,Bool.and_eq_true] at h
    simp only [signs,List.mem_cons,List.mem_append,List.not_mem_nil,or_false] at hx
    rcases hx with rfl | hx | rfl
    · exact Sign.isSpelled_function h.1
    · exact isSpelled_signs body h.2 x hx
    · exact Sign.isSpelled_mark (by decide)
  | sequence items,h,x,hx => isSpelled_signsOf 0 items (Bool.and_eq_true_iff.1 h).2 x hx
  | allOf items,h,x,hx => isSpelled_signsOf 1 items (Bool.and_eq_true_iff.1 h).2 x hx
  | anyOf items,h,x,hx => isSpelled_signsOf 2 items (Bool.and_eq_true_iff.1 h).2 x hx
  | oneOf items,h,x,hx => isSpelled_signsOf 3 items (Bool.and_eq_true_iff.1 h).2 x hx
  | repeated item least most byComma,h,x,hx => by
    simp only [isRegular,Bool.and_eq_true,decide_eq_true_eq,Option.all_eq_true] at h
    rw [signs,List.mem_append] at hx
    rcases hx with hx | hx
    · exact isSpelled_grouped (isSpelled_signs item h.2) x hx
    · exact isSpelled_multiplier byComma h.1.1 h.1.2 x hx
  | nonEmpty item,h,x,hx => by
    simp only [signs,List.mem_cons,List.mem_append,List.not_mem_nil,or_false] at hx
    rcases hx with rfl | hx | rfl
    · exact Sign.isSpelled_mark (by decide)
    · exact isSpelled_signs item h x hx
    · exact Sign.isSpelled_groupClose true
theorem isSpelled_signsOf (r : Nat) : ∀ ps : List Pattern, allRegular ps = true →
    ∀ x ∈ signsOf r ps, x.IsSpelled
  | [],_,x,hx => by cases hx
  | p :: ps,h,x,hx => by
    rw [allRegular,Bool.and_eq_true] at h
    rw [signsOf,List.mem_append] at hx
    rcases hx with hx | hx
    · exact isSpelled_grouped (isSpelled_signs p h.1) x hx
    · split at hx
      · cases hx
      · rcases List.mem_append.1 hx with hx | hx
        · exact isSpelled_separator r x hx
        · exact isSpelled_signsOf r ps h.2 x hx
end

/-- A regular pattern is read from its text. -/
theorem parse_text {p : Pattern} (h : p.isRegular = true) : parse? p.text = some p := by
  rw [parse?,text,String.toList_ofList,Sign.read_spaced (isSpelled_signs p h)]
  exact ofSigns?_signs h

/-- A pattern with all kinds of groups: of looser items, of a repetition, of what must not be empty. -/
theorem parse_text_groups : ∃ p : Pattern, p.isRegular = true ∧
    p.text = "[ <angle>\x7b1,2\x7d ]#\x7b0,\x7d a- | [ [ b && / || f( <'width'> ) ] c ]! && [ d | e ]" ∧
    parse? p.text = some p := by
  refine ⟨oneOf [sequence [repeated (repeated (type "angle") 1 (some 2) false) 0 none true,
    keyword "a-"],allOf [nonEmpty (sequence [anyOf [allOf [keyword "b",literal "/"],
      function "f" (property "width")],keyword "c"]),oneOf [keyword "d",keyword "e"]]],?_,?_,?_⟩
  · decide
  · rfl
  · exact parse_text (by decide)

end StyleExpansion.Pattern
