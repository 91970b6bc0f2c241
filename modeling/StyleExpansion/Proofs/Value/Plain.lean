import StyleExpansion.Proofs.Text.Case
import StyleExpansion.Proofs.Value.Integers
import StyleExpansion.Proofs.Value.Writer

/-! # Plain values

A plain value has names of ASCII characters, numbers that are strings of digits, strings without the line
ends that are not escaped, urls of printable ASCII characters, and blocks of plain values. Reading undoes
the writing of every list of plain values in which no hash is empty.
-/
namespace StyleExpansion.Value
open Token

/-! ## Plain leaves -/

def isPlainChar (c : Char) : Bool := c.isAlpha || c.isDigit || c = '_' || c = '-'

def dropHyphens : List Char → List Char
  | '-' :: '-' :: r => r
  | '-' :: r => r
  | s => s

def isPlainName (s : List Char) : Bool :=
  match dropHyphens s with
  | c :: r => (c.isAlpha || c = '_') && r.all isPlainChar
  | [] => false

def isPlainNumber (text : String) : Bool :=
  text.toList.all Char.isDigit && (readNumeral text.toList).1.text == text

def isPlainUnit (s : List Char) : Bool := !s.isEmpty && s.all Char.isAlpha

def isPrintableAscii (c : Char) : Bool := 0x20 ≤ c.toNat && c.toNat ≤ 0x7e

/-! ## Plain values -/

mutual
def isPlain : Value → Bool
  | ident name => isPlainName name.toList
  | number text => isPlainNumber text
  | dimension text unit => isPlainNumber text && isPlainUnit unit.toList
  | percentage text => isPlainNumber text
  | string text => text.toList.all fun c => c ≠ '\x00' && c ≠ '\r' && c ≠ '\x0c'
  | hash text => text.toList.all isPlainChar
  | url text => text.toList.all isPrintableAscii
  | operator symbol => operators.contains symbol
  | function name arguments =>
    isPlainName name.toList && !isUrlName name.toList && allPlain arguments
  | parens nodes => allPlain nodes
  | brackets nodes => allPlain nodes
  | list _ => false
def allPlain : List Value → Bool
  | [] => true
  | v :: vs => v.isPlain && allPlain vs
end

mutual
def hasEmptyHash : Value → Bool
  | hash text => text.isEmpty
  | function _ arguments => anyEmptyHash arguments
  | parens nodes => anyEmptyHash nodes
  | brackets nodes => anyEmptyHash nodes
  | list nodes => anyEmptyHash nodes
  | _ => false
def anyEmptyHash : List Value → Bool
  | [] => false
  | v :: vs => v.hasEmptyHash || anyEmptyHash vs
end

/-! ## Their leaves are read back -/

theorem isNameChar_of_isPlainChar {c : Char} (h : isPlainChar c = true) :
    isNameChar c = true ∧ c ≠ '\x00' := by
  refine ⟨?_,?_⟩
  · simp only [isPlainChar,Bool.or_eq_true,decide_eq_true_eq] at h
    simp only [isNameChar,isNameStart,Bool.or_eq_true,decide_eq_true_eq]
    tauto
  · rintro rfl
    exact absurd h (by decide)

theorem mem_dropHyphens {s : List Char} {d : Char} (hd : d ∈ s) : d = '-' ∨ d ∈ dropHyphens s := by
  unfold dropHyphens
  split
  · simpa [or_assoc] using hd
  · simpa using hd
  · exact Or.inr hd

theorem startsIdent_of_dropHyphens {s : List Char} {c : Char} {r : List Char}
    (hs : dropHyphens s = c :: r) (hc : isNameStart c = true) (hne : c ≠ '-') :
    startsIdent s = true := by
  unfold dropHyphens at hs
  split at hs
  · rfl
  · simp [hs,startsIdent,hc]
  · rw [hs,startsIdent.eq_def]
    simp [hne,hc]

theorem isWord_of_isPlainName {s : List Char} (h : isPlainName s = true) : IsWord s := by
  unfold isPlainName at h
  split at h
  · next c r hs =>
    simp only [Bool.and_eq_true,Bool.or_eq_true,decide_eq_true_eq,List.all_eq_true] at h
    have hstart : isNameStart c = true := by
      rcases h.1 with hc | rfl
      · simp [isNameStart,hc]
      · rfl
    have hplain : isPlainChar c = true := by
      rcases h.1 with hc | rfl
      · simp [isPlainChar,hc]
      · rfl
    have hne : c ≠ '-' := by
      rintro rfl
      exact absurd hstart (by decide)
    refine ⟨startsIdent_of_dropHyphens hs hstart hne,?_⟩
    intro d hd
    apply isNameChar_of_isPlainChar
    rcases mem_dropHyphens hd with rfl | hd
    · rfl
    · rw [hs] at hd
      rcases List.mem_cons.1 hd with rfl | hd
      · exact hplain
      · exact h.2 d hd
  · cases h

theorem isWord_of_isPlainUnit {s : List Char} (h : isPlainUnit s = true) :
    IsWord s ∧ startsExponent s = false := by
  simp only [isPlainUnit,Bool.and_eq_true,Bool.not_eq_true',List.all_eq_true] at h
  obtain ⟨hne,hall⟩ := h
  have hstart : ∀ c ∈ s, isNameStart c = true := fun c hc => by simp [isNameStart,hall c hc]
  have hword : IsWord s := by
    refine ⟨?_,?_⟩
    · cases s with
      | nil => cases hne
      | cons c r =>
        have hc := hstart c (by simp)
        have hminus : c ≠ '-' := by
          rintro rfl
          exact absurd hc (by decide)
        rw [startsIdent.eq_def]
        simp [hminus,hc]
    · intro c hc
      apply isNameChar_of_isPlainChar
      simp [isPlainChar,hall c hc]
  refine ⟨hword,?_⟩
  rcases s with _ | ⟨c,_ | ⟨d,r⟩⟩
  · rfl
  · simp [startsExponent,dropSign,startsDigit]
  · have hd := hstart d (by simp)
    have hplus : d ≠ '+' := by
      rintro rfl
      exact absurd hd (by decide)
    have hminus : d ≠ '-' := by
      rintro rfl
      exact absurd hd (by decide)
    simp [startsExponent,dropSign,hplus,hminus,startsDigit,not_digit_of_nameStart hd]

section Digits
variable {s : List Char} (h : ∀ c ∈ s, c.isDigit = true)
include h

/-- Digits denote a number, also where numbers with exponents and names of numbers may stand. -/
theorem readUnsigned_digits (hne : s ≠ []) : (Decimal.Written.readUnsigned s).isSome = true := by
  obtain ⟨c,r,rfl⟩ := List.exists_cons_of_ne_nil hne
  have hlower : ∀ d r', d.isDigit = false → (c :: r).map Char.toLower ≠ d :: r' := by
    intro d r' hd he
    have hc := h c (by simp)
    have hcapital : c.toNat < 65 ∨ 90 < c.toNat := by
      simp only [Char.isDigit,Bool.and_eq_true,decide_eq_true_eq] at hc
      have h9 := UInt32.le_iff_toNat_le.1 hc.2
      have hnine : '9'.val.toNat = 57 := rfl
      have hnat : c.toNat = c.val.toNat := rfl
      omega
    rw [List.map_cons,Text.toLower_of_not_capital hcapital] at he
    exact ne_of_isDigit hc hd (List.cons.inj he).1
  have hmark : (c :: r).dropWhile (!Decimal.Written.isExponentMark ·) = [] := by
    rw [List.dropWhile_eq_nil_iff]
    intro d hd
    have hd := h d hd
    simp [Decimal.Written.isExponentMark,ne_of_isDigit hd (d := 'e') (by decide),
      ne_of_isDigit hd (d := 'E') (by decide)]
  have hpoint : ∀ d ∈ c :: r, decide (d ≠ '.') = true := by
    intro d hd
    simp [ne_of_isDigit (h d hd) (d := '.') (by decide)]
  have hmantissa : (Decimal.Written.readMantissa (c :: r)).isSome = true := by
    have htake : (c :: r).takeWhile (· ≠ '.') = c :: r := List.takeWhile_eq_self_iff.2 hpoint
    have hdrop : (c :: r).dropWhile (· ≠ '.') = [] := List.dropWhile_eq_nil_iff.2 hpoint
    have hrun : Decimal.Written.isDigitRun (c :: r) = true := by
      simp only [Decimal.Written.isDigitRun,Bool.and_eq_true]
      exact ⟨rfl,List.all_eq_true.2 h⟩
    rw [Decimal.Written.readMantissa,htake,hdrop,Decimal.Written.ofParts,List.drop_nil,
      List.append_nil,hrun]
    rfl
  simp only [Decimal.Written.readUnsigned,hlower 'i' _ (by decide),hlower 'n' _ (by decide),hmark,
    decide_false,Bool.or_false,Bool.false_eq_true,if_false,hmantissa]

end Digits

section Number
variable {text : String} (h : isPlainNumber text = true)
include h

theorem digits_of_isPlainNumber : text.toList ≠ [] ∧ ∀ c ∈ text.toList, c.isDigit = true := by
  simp only [isPlainNumber,Bool.and_eq_true,List.all_eq_true,beq_iff_eq] at h
  refine ⟨?_,h.1⟩
  intro hnil
  have hkept := h.2
  rw [hnil,String.toList_eq_nil_iff.1 hnil] at hkept
  exact absurd hkept (by decide +kernel)

theorem isNumberText_of_isPlainNumber : IsNumberText text ∧ IsPercentText text := by
  obtain ⟨hne,hdigits⟩ := digits_of_isPlainNumber h
  have hinteger : (readNumeral text.toList).1.isInteger = true := by
    have hread : readNumeral text.toList = _ := readNumeral_digits hdigits hne false false
    rw [hread]
    rfl
  have hboth := isNumberText_of_isInteger hinteger
  simp only [isPlainNumber,Bool.and_eq_true,beq_iff_eq] at h
  rwa [h.2] at hboth

theorem isNumeric_of_isPlainNumber : isNumeric text = true := by
  obtain ⟨hne,hdigits⟩ := digits_of_isPlainNumber h
  have hsign : Decimal.Written.unsigned text.toList = text.toList :=
    (ne_sign_of_startsDigit (startsDigit_of_forall hdigits hne)).1
  rw [isNumeric,Decimal.Written.read?,hsign]
  exact readUnsigned_digits hdigits hne

end Number

theorem isUrlText_of_printable {text : String} (h : text.toList.all isPrintableAscii = true) :
    isUrlText text = true := by
  simp only [List.all_eq_true,isPrintableAscii,Bool.and_eq_true,decide_eq_true_eq] at h
  rw [isUrlText]
  split
  · rw [List.all_eq_true]
    intro c hc
    have hlow := (h c hc).1
    simp only [isQuotable,Bool.and_eq_true,decide_eq_true_eq]
    refine ⟨⟨?_,?_⟩,?_⟩ <;> rintro rfl <;> exact absurd hlow (by decide)
  · next hq =>
    rw [List.all_eq_true]
    intro c hc
    have hquotes : needsQuotes c = false := by
      simp only [Bool.or_eq_true,List.any_eq_true,not_or,not_exists,not_and] at hq
      simpa using hq.2 c hc
    have hhigh : c ≠ '\x7f' := by
      rintro rfl
      exact absurd (h _ hc).2 (by decide)
    simp [isUrlChar,hquotes,(h c hc).1,hhigh]

/-! ## Reading undoes writing -/

mutual
theorem isFaithful_of_isPlain : ∀ v : Value, v.isPlain = true → v.isFaithful = true
  | ident name,h => by
    rw [isPlain] at h
    simp [isFaithful,isWord_of_isPlainName h]
  | number text,h => by
    rw [isPlain] at h
    simp [isFaithful,isNumberText_of_isPlainNumber h]
  | dimension text unit,h => by
    rw [isPlain,Bool.and_eq_true] at h
    simp [isFaithful,isNumberText_of_isPlainNumber h.1,isWord_of_isPlainUnit h.2]
  | percentage text,h => by
    rw [isPlain] at h
    simp [isFaithful,isNumberText_of_isPlainNumber h]
  | string text,h => by
    rw [isPlain] at h
    rw [isFaithful]
    exact h
  | hash text,h => by
    rw [isPlain,List.all_eq_true] at h
    rw [isFaithful,List.all_eq_true]
    intro c hc
    simp [isNameChar_of_isPlainChar (h c hc)]
  | url text,h => by
    rw [isPlain] at h
    rw [isFaithful]
    exact isUrlText_of_printable h
  | operator _,_ => rfl
  | function name arguments,h => by
    simp only [isPlain,Bool.and_eq_true,Bool.not_eq_true'] at h
    simp [isFaithful,isWord_of_isPlainName h.1.1,h.1.2,allFaithful_of_allPlain arguments h.2]
  | parens nodes,h => by
    rw [isPlain] at h
    rw [isFaithful]
    exact allFaithful_of_allPlain nodes h
  | brackets nodes,h => by
    rw [isPlain] at h
    rw [isFaithful]
    exact allFaithful_of_allPlain nodes h
  | list _,h => by cases h
theorem allFaithful_of_allPlain : ∀ vs : List Value, allPlain vs = true → allFaithful vs = true
  | [],_ => rfl
  | v :: vs,h => by
    rw [allPlain,Bool.and_eq_true] at h
    rw [allFaithful,isFaithful_of_isPlain v h.1,allFaithful_of_allPlain vs h.2]
    rfl
end

theorem writeNumber_ok {text : String} (h : isNumeric text = true) (unit : List Char) :
    writeNumber text unit = .ok (text.toList ++ unit) := by
  rw [writeNumber,if_pos h]

mutual
/-- Every plain value has a text if no hash in it is empty. -/
theorem isWritable_of_isPlain : ∀ v : Value, v.isPlain = true → v.hasEmptyHash = false →
    v.IsWritable
  | ident name,h,_ => by
    rw [isPlain] at h
    have hne := (isWord_of_isPlainName h).ne_nil
    exact ⟨_,by rw [write,if_neg (by simpa using hne)]⟩
  | number text,h,_ => by
    rw [isPlain] at h
    exact ⟨_,by rw [write,writeNumber_ok (isNumeric_of_isPlainNumber h)]⟩
  | dimension text unit,h,_ => by
    rw [isPlain,Bool.and_eq_true] at h
    have hne := (isWord_of_isPlainUnit h.2).1.ne_nil
    have hnumber := isNumeric_of_isPlainNumber h.1
    exact ⟨_,by rw [write,if_neg (by simpa using fun _ => hne),writeNumber_ok hnumber]⟩
  | percentage text,h,_ => by
    rw [isPlain] at h
    exact ⟨_,by rw [write,writeNumber_ok (isNumeric_of_isPlainNumber h)]⟩
  | string text,_,_ => ⟨_,by rw [write]⟩
  | hash text,_,hh => by
    rw [hasEmptyHash] at hh
    exact ⟨_,by rw [write,if_neg (by simp [hh])]⟩
  | url text,_,_ => ⟨_,by rw [write]⟩
  | operator symbol,h,_ => by
    rw [isPlain] at h
    exact ⟨_,by rw [write,if_pos h]⟩
  | function name arguments,h,hh => by
    simp only [isPlain,Bool.and_eq_true] at h
    rw [hasEmptyHash] at hh
    have hne := (isWord_of_isPlainName h.1.1).ne_nil
    obtain ⟨s,hs⟩ := exists_writeAll_of_allPlain arguments true h.2 hh
    exact ⟨_,by rw [write,if_neg (by simpa using hne),hs]; rfl⟩
  | parens nodes,h,hh => by
    rw [isPlain] at h
    rw [hasEmptyHash] at hh
    obtain ⟨s,hs⟩ := exists_writeAll_of_allPlain nodes true h hh
    exact ⟨_,by rw [write,hs]; rfl⟩
  | brackets nodes,h,hh => by
    rw [isPlain] at h
    rw [hasEmptyHash] at hh
    obtain ⟨s,hs⟩ := exists_writeAll_of_allPlain nodes true h hh
    exact ⟨_,by rw [write,hs]; rfl⟩
  | list _,h,_ => by cases h
theorem exists_writeAll_of_allPlain : ∀ (vs : List Value) (isFirst : Bool), allPlain vs = true →
    anyEmptyHash vs = false → ∃ s, writeAll isFirst vs = .ok s
  | [],_,_,_ => ⟨[],by rw [writeAll]⟩
  | v :: vs,isFirst,h,hh => by
    rw [allPlain,Bool.and_eq_true] at h
    rw [anyEmptyHash,Bool.or_eq_false_iff] at hh
    refine (writeAll_cons_eq_ok (isEmpty_of_isFaithful (isFaithful_of_isPlain v h.1))).2 ⟨?_,?_⟩
    · exact isWritable_of_isPlain v h.1 hh.1
    · exact exists_writeAll_of_allPlain vs false h.2 hh.2
end

/-- Reading undoes the writing of plain nodes, if no hash among them is empty. -/
theorem parse_generate {nodes : List Value} (h : allPlain nodes = true)
    (hh : anyEmptyHash nodes = false) :
    ∃ text, (list nodes).generate = .ok text ∧ Value.parse text = .ok (list nodes) := by
  obtain ⟨s,hs⟩ := exists_writeAll_of_allPlain nodes true h hh
  refine ⟨String.ofList s,?_,parse_of_write (allFaithful_of_allPlain nodes h) hs⟩
  rw [generate,render,write,hs]
  rfl

theorem parse_generate_blocks :
    let nodes := [ident "--a-b",function "calc" [parens [number "1",operator "+",percentage "50"],
        operator ",",brackets [],function "-f" []],
      string "a\"\\\n b",hash "0f-",operator "<",operator "-",url "a.png",url "a )b",
      operator ",",dimension "2147483647" "em",operator "/",operator "*"]
    allPlain nodes = true ∧ anyEmptyHash nodes = false ∧
      ∃ text, (list nodes).generate = .ok text ∧ Value.parse text = .ok (list nodes) := by
  intro nodes
  have hplain : allPlain nodes = true := by decide +kernel
  have hhash : anyEmptyHash nodes = false := by decide +kernel
  exact ⟨hplain,hhash,parse_generate hplain hhash⟩

/-- A hash without a name has no text, though all its characters are plain. -/
theorem generate_emptyHash : allPlain [hash ""] = true ∧
    (list [hash ""]).generate = .error (.unwritable .emptyHash) := by
  refine ⟨rfl,?_⟩
  cbv

end StyleExpansion.Value
