/-
What is printed on a line can be read back.

Nothing reads the text of a procedure, so the statements are about two texts that agree.  A word ends
at the first character that no word has, which makes the words of two equal texts equal; an
expression is a word, or starts with a character that no word has.  That is enough to follow two
equal texts from their start, and so the statement about expressions is one with any text behind:
two expressions that are printed alike, as far as they go, are the same and so is what follows them.

Beyond ASCII every character counts as a letter here, whatever an alphabet makes of it.
-/
import DataflowSynth.Procedure.Printer
import Std.Data.String.ToInt

namespace DataflowSynth

/-! ### Names -/

def isNameStart (c : Char) : Bool := c.isAlpha || c = '_' || 128 ≤ c.toNat

def isNameChar (c : Char) : Bool := isNameStart c || c.isDigit

/-- A letter or underscore, and then letters, digits and underscores. -/
def isIdentifier (s : String) : Bool := s.toList.head?.any isNameStart && s.toList.all isNameChar

namespace Expr

/-- Variables have names, and none that reads as a constant. -/
def wellNamed : Expr → Bool
  | .bool _ | .int _ => true
  | .var name => isIdentifier name && name != "true" && name != "false"
  | .binary _ lhs rhs => lhs.wellNamed && rhs.wellNamed
  | .not e => e.wellNamed

/-- The expressions that are printed as one word. -/
def isWord : Expr → Bool
  | .bool _ | .int _ | .var _ => true
  | .binary .. | .not _ => false

end Expr

def Instruction.wellNamed : Instruction → Bool
  | .assign target value | .store target value => isIdentifier target && value.wellNamed
  | .load target source => isIdentifier target && isIdentifier source
  | .call target procedure => target.all isIdentifier && isIdentifier procedure
  | .portStatus target port => isIdentifier target && isIdentifier port
  | .ret value => value.all Expr.wellNamed

/-- Structured types have names, and none that reads as another type. -/
def DataType.wellNamed : DataType → Bool
  | .object name => isIdentifier name && name != "bool" && name != "void"
  | _ => true

/-! ### Words -/

/-- The characters of names and numbers. -/
def isWordChar (c : Char) : Bool := isNameChar c || c = '-'

/-- A text with which a word does not go on. -/
def Bounded (r : List Char) : Prop := ∀ c ∈ r.head?, isWordChar c = false

theorem bounded_cons {c : Char} {r : List Char} (h : isWordChar c = false) : Bounded (c :: r) := by
  simpa [Bounded] using h

/-- What is in front of the first character without a property is the same in equal texts. -/
theorem append_inj_of_span {p : Char → Bool} {a a' r r' : List Char} (ha : ∀ c ∈ a, p c)
    (ha' : ∀ c ∈ a', p c) (hr : ∀ c ∈ r.head?, p c = false) (hr' : ∀ c ∈ r'.head?, p c = false)
    (h : a ++ r = a' ++ r') : a = a' ∧ r = r' := by
  have hstop : ∀ s : List Char, (∀ c ∈ s.head?, p c = false) → s.takeWhile p = [] := by
    intro s hs
    cases s with
    | nil => rfl
    | cons c s => simp [hs c rfl]
  have hfront : a = a' := by
    have htaken := congrArg (List.takeWhile p) h
    rwa [List.takeWhile_append_of_pos ha, List.takeWhile_append_of_pos ha', hstop r hr, hstop r' hr',
      List.append_nil, List.append_nil] at htaken
  subst hfront
  exact ⟨rfl, List.append_cancel_left h⟩

theorem isWordChar_of_mem {s : String} (h : isIdentifier s) {c : Char} (hc : c ∈ s.toList) :
    isWordChar c := by
  have hall : s.toList.all isNameChar := by
    rw [isIdentifier, Bool.and_eq_true] at h
    exact h.2
  simp [isWordChar, List.all_eq_true.mp hall c hc]

theorem exists_cons_of_isIdentifier {s : String} (h : isIdentifier s) :
    ∃ c cs, s.toList = c :: cs ∧ isNameStart c := by
  cases hs : s.toList with
  | nil => simp [isIdentifier, hs] at h
  | cons c cs =>
      rw [isIdentifier, hs, Bool.and_eq_true] at h
      exact ⟨c, cs, rfl, by simpa using h.1⟩

/-- An identifier in front of something else is read as it is. -/
theorem identifier_append_inj {s s' : String} (hs : isIdentifier s) (hs' : isIdentifier s')
    {r r' : List Char} (hr : Bounded r) (hr' : Bounded r')
    (h : s.toList ++ r = s'.toList ++ r') : s = s' ∧ r = r' := by
  obtain ⟨hsame, rest⟩ := append_inj_of_span (fun c hc => isWordChar_of_mem hs hc)
    (fun c hc => isWordChar_of_mem hs' hc) hr hr' h
  exact ⟨String.toList_injective hsame, rest⟩

/-! ### Numbers -/

theorem isDigit_of_mem_repr {n : Nat} {c : Char} (h : c ∈ (Nat.repr n).toList) : c.isDigit := by
  rw [Nat.toList_repr] at h
  exact Nat.isDigit_of_mem_toDigits (by decide) (by decide) h

theorem repr_ne_nil (n : Nat) : (Nat.repr n).toList ≠ [] := by
  rw [Nat.toList_repr]
  exact Nat.toDigits_ne_nil

theorem not_isNameStart_of_isDigit {c : Char} (h : c.isDigit) : isNameStart c = false := by
  have hlow : 48 ≤ c.toNat ∧ c.toNat ≤ 57 := by
    simpa [Char.isDigit, UInt32.le_iff_toNat_le] using h
  have hunderscore : c ≠ '_' := by
    rintro rfl
    simp at h
  unfold isNameStart Char.isAlpha Char.isUpper Char.isLower
  simp only [hunderscore, decide_false, Bool.or_false, Bool.or_eq_false_iff]
  simp [UInt32.le_iff_toNat_le]
  have : c.val.toNat = c.toNat := rfl
  omega

/-- An integer starts with a digit or with its sign. -/
theorem exists_cons_of_int (i : Int) :
    ∃ c cs, (toString i).toList = c :: cs ∧ (c.isDigit ∨ c = '-') ∧ ∀ d ∈ cs, d.isDigit := by
  cases i with
  | ofNat n =>
      cases hdigits : (Nat.repr n).toList with
      | nil => exact absurd hdigits (repr_ne_nil n)
      | cons c cs =>
          have isDigit : ∀ d ∈ c :: cs, d.isDigit := fun d hd =>
            isDigit_of_mem_repr (n := n) (by rw [hdigits]; exact hd)
          exact ⟨c, cs, hdigits, .inl (isDigit c (by simp)), fun d hd => isDigit d (by simp [hd])⟩
  | negSucc n =>
      refine ⟨'-', (Nat.repr (n + 1)).toList, ?_, .inr rfl, fun d hd => isDigit_of_mem_repr hd⟩
      show ("-" ++ Nat.repr (n + 1)).toList = _
      simp

/-! ### Expressions -/

/-- A text that may stand behind an expression or a type. -/
def Ends (r : List Char) : Prop := ∀ c ∈ r.head?, c ∈ [' ', ')', ';', ',']

theorem ends_cons {c : Char} {r : List Char} (h : c ∈ [' ', ')', ';', ',']) : Ends (c :: r) := by
  simpa [Ends] using h

theorem Ends.bounded {r : List Char} (h : Ends r) : Bounded r := by
  have hall : [' ', ')', ';', ','].all (!isWordChar ·) := by decide
  exact fun c hc => by simpa using List.all_eq_true.mp hall c (h c hc)

namespace Expr

variable {e e' : Expr} {r r' : List Char}

theorem isWordChar_of_isWord (he : e.wellNamed) (hword : e.isWord) :
    ∀ c ∈ e.text.toList, isWordChar c := by
  cases e with
  | bool b =>
      have hall : (bool b).text.toList.all isWordChar := by cases b <;> decide
      exact List.all_eq_true.mp hall
  | int i =>
      intro c hc
      obtain ⟨d, ds, hdigits, hfirst, rest⟩ := exists_cons_of_int i.toInt
      rw [text, hdigits, List.mem_cons] at hc
      have hpart : c.isDigit ∨ c = '-' := by
        rcases hc with rfl | hc
        · exact hfirst
        · exact .inl (rest c hc)
      rcases hpart with digit | rfl
      · simp [isWordChar, isNameChar, digit]
      · rfl
  | var name =>
      intro c hc
      simp only [wellNamed, Bool.and_eq_true] at he
      exact isWordChar_of_mem he.1.1 hc
  | binary op lhs rhs => simp [isWord] at hword
  | not e => simp [isWord] at hword

/-- An integer starts with a digit or its sign, so it is no text that starts as a name does. -/
theorem text_int_ne_of_isNameStart (i : Int64) {s : String} {c : Char} {cs : List Char}
    (hs : s.toList = c :: cs) (hstart : isNameStart c) : (int i).text ≠ s := by
  intro heq
  obtain ⟨d, ds, hdigits, hfirst, -⟩ := exists_cons_of_int i.toInt
  have hsame : d = c := by
    rw [← heq, text, hdigits] at hs
    exact (List.cons.inj hs).1
  subst hsame
  rcases hfirst with digit | rfl
  · rw [not_isNameStart_of_isDigit digit] at hstart
    cases hstart
  · exact absurd hstart (by decide)

theorem text_int_ne_text_bool (i : Int64) (b : Bool) : (int i).text ≠ (bool b).text := by
  cases b with
  | true => exact text_int_ne_of_isNameStart i (s := "true") rfl (by decide)
  | false => exact text_int_ne_of_isNameStart i (s := "false") rfl (by decide)

theorem text_int_ne_name (i : Int64) {s : String} (hs : (var s).wellNamed) :
    (int i).text ≠ s := by
  simp only [wellNamed, Bool.and_eq_true] at hs
  obtain ⟨c, cs, hfront, hstart⟩ := exists_cons_of_isIdentifier hs.1.1
  exact text_int_ne_of_isNameStart i hfront hstart

/-- The constants are reserved: a well-formed name is neither of them. -/
theorem text_bool_ne_name (b : Bool) {s : String} (hs : (var s).wellNamed) :
    (bool b).text ≠ s := by
  simp only [wellNamed, Bool.and_eq_true, bne_iff_ne] at hs
  intro heq
  cases b with
  | true => exact hs.1.2 heq.symm
  | false => exact hs.2 heq.symm

/-- Constants, numbers and names are told apart by their texts, and within each kind the text gives
the value back. -/
theorem eq_of_isWord (he : e.wellNamed) (he' : e'.wellNamed) (hword : e.isWord) (hword' : e'.isWord)
    (h : e.text = e'.text) : e = e' := by
  cases e with
  | bool b =>
      cases e' with
      | bool b' => cases b <;> cases b' <;> simp_all [text]
      | int i' => exact absurd h.symm (text_int_ne_text_bool i' b)
      | var s' => exact absurd h (text_bool_ne_name b he')
      | binary op lhs rhs => simp [isWord] at hword'
      | not e => simp [isWord] at hword'
  | int i =>
      cases e' with
      | bool b' => exact absurd h (text_int_ne_text_bool i b')
      | int i' =>
          have hsame : i.toInt = i'.toInt := Int.repr_inj.1 h
          rw [Int64.toInt_inj.mp hsame]
      | var s' => exact absurd h (text_int_ne_name i he')
      | binary op lhs rhs => simp [isWord] at hword'
      | not e => simp [isWord] at hword'
  | var s =>
      cases e' with
      | bool b' => exact absurd h.symm (text_bool_ne_name b' he)
      | int i' => exact absurd h.symm (text_int_ne_name i' he)
      | var s' => exact congrArg var h
      | binary op lhs rhs => simp [isWord] at hword'
      | not e => simp [isWord] at hword'
  | binary op lhs rhs => simp [isWord] at hword
  | not e => simp [isWord] at hword

theorem word_append_inj (he : e.wellNamed) (he' : e'.wellNamed) (hword : e.isWord)
    (hword' : e'.isWord) (hr : Bounded r) (hr' : Bounded r')
    (h : e.text.toList ++ r = e'.text.toList ++ r') : e = e' ∧ r = r' := by
  obtain ⟨hsame, rest⟩ := append_inj_of_span (isWordChar_of_isWord he hword)
    (isWordChar_of_isWord he' hword') hr hr' h
  exact ⟨eq_of_isWord he he' hword hword' (String.toList_injective hsame), rest⟩

/-- A word starts with a character of words, and nothing else that is printed does. -/
theorem exists_cons_text (he : e.wellNamed) :
    ∃ c cs, e.text.toList = c :: cs ∧ c ≠ '=' ∧ isWordChar c = e.isWord := by
  cases hword : e.isWord with
  | true =>
      have hchars := isWordChar_of_isWord he hword
      have hnonempty : e.text.toList ≠ [] := by
        cases e with
        | bool b => cases b <;> decide
        | int i =>
            obtain ⟨d, ds, hdigits, -⟩ := exists_cons_of_int i.toInt
            rw [text, hdigits]
            exact List.cons_ne_nil d ds
        | var name =>
            simp only [wellNamed, Bool.and_eq_true] at he
            obtain ⟨c, cs, hfront, -⟩ := exists_cons_of_isIdentifier he.1.1
            rw [text, hfront]
            exact List.cons_ne_nil c cs
        | binary op lhs rhs => simp [isWord] at hword
        | not e => simp [isWord] at hword
      obtain ⟨c, cs, hfront⟩ := List.exists_cons_of_ne_nil hnonempty
      have hfirst : isWordChar c := hchars c (by rw [hfront]; simp)
      refine ⟨c, cs, hfront, ?_, hfirst⟩
      rintro rfl
      exact absurd hfirst (by decide)
  | false =>
      cases e with
      | binary op lhs rhs => exact ⟨'(', _, by simp [text]; rfl, by decide, by decide⟩
      | not e => exact ⟨'!', _, by simp [text]; rfl, by decide, by decide⟩
      | bool b => simp [isWord] at hword
      | int i => simp [isWord] at hword
      | var name => simp [isWord] at hword

theorem isWord_eq (he : e.wellNamed) (he' : e'.wellNamed)
    (h : e.text.toList ++ r = e'.text.toList ++ r') : e.isWord = e'.isWord := by
  obtain ⟨c, cs, hfront, -, hc⟩ := exists_cons_text he
  obtain ⟨c', cs', hfront', -, hc'⟩ := exists_cons_text he'
  rw [hfront, hfront', List.cons_append, List.cons_append] at h
  rw [← hc, ← hc', (List.cons.inj h).1]

end Expr

theorem BinaryOp.symbol_append_inj {op op' : BinaryOp} {r r' : List Char}
    (h : op.symbol.toList ++ ' ' :: r = op'.symbol.toList ++ ' ' :: r') : op = op' ∧ r = r' := by
  have hsolid : ∀ op : BinaryOp, ∀ c ∈ op.symbol.toList, c != ' ' := by
    intro op
    have hall : op.symbol.toList.all (· != ' ') := by cases op <;> decide
    exact List.all_eq_true.mp hall
  have hdistinct : op.symbol = op'.symbol → op = op' := by
    cases op <;> cases op' <;> decide
  obtain ⟨hsame, rest⟩ := append_inj_of_span (hsolid op) (hsolid op') (by simp) (by simp) h
  exact ⟨hdistinct (String.toList_injective hsame), (List.cons.inj rest).2⟩

namespace Expr

theorem binary_append (op : BinaryOp) (lhs rhs : Expr) (r : List Char) :
    (binary op lhs rhs).text.toList ++ r = '(' :: (lhs.text.toList ++
      ' ' :: (op.symbol.toList ++ ' ' :: (rhs.text.toList ++ ')' :: r))) := by
  simp [text]

theorem not_append (e : Expr) (r : List Char) :
    (not e).text.toList ++ r = '!' :: (e.text.toList ++ r) := by
  simp [text]

/-- Two expressions that are printed alike, as far as they go, are the same and so is what follows. -/
theorem text_append_inj {e e' : Expr} {r r' : List Char} (he : e.wellNamed) (he' : e'.wellNamed)
    (hr : Ends r) (hr' : Ends r') (h : e.text.toList ++ r = e'.text.toList ++ r') :
    e = e' ∧ r = r' := by
  induction e generalizing e' r r' with
  | bool b => exact word_append_inj he he' rfl (isWord_eq he he' h).symm hr.bounded hr'.bounded h
  | int i => exact word_append_inj he he' rfl (isWord_eq he he' h).symm hr.bounded hr'.bounded h
  | var s => exact word_append_inj he he' rfl (isWord_eq he he' h).symm hr.bounded hr'.bounded h
  | binary op lhs rhs ihl ihr =>
      have hcompound := isWord_eq he he' h
      cases e' with
      | binary op' lhs' rhs' =>
          rw [wellNamed, Bool.and_eq_true] at he he'
          rw [binary_append, binary_append] at h
          obtain ⟨rfl, hoperator⟩ := ihl he.1 he'.1 (ends_cons (by decide)) (ends_cons (by decide))
            (List.cons.inj h).2
          obtain ⟨rfl, hright⟩ := BinaryOp.symbol_append_inj (List.cons.inj hoperator).2
          obtain ⟨rfl, hclose⟩ := ihr he.2 he'.2 (ends_cons (by decide)) (ends_cons (by decide)) hright
          exact ⟨rfl, (List.cons.inj hclose).2⟩
      | not e => simp [binary_append, not_append] at h
      | bool b => simp [isWord] at hcompound
      | int i => simp [isWord] at hcompound
      | var s => simp [isWord] at hcompound
  | not e ih =>
      have hcompound := isWord_eq he he' h
      cases e' with
      | not e' =>
          have hinner : e'.wellNamed := he'
          rw [not_append, not_append] at h
          obtain ⟨rfl, hbehind⟩ := ih he hinner hr hr' (List.cons.inj h).2
          exact ⟨rfl, hbehind⟩
      | binary op' lhs' rhs' => simp [binary_append, not_append] at h
      | bool b => simp [isWord] at hcompound
      | int i => simp [isWord] at hcompound
      | var s => simp [isWord] at hcompound

/-- The text of an expression says which expression it is. -/
theorem text_inj {e e' : Expr} (he : e.wellNamed) (he' : e'.wellNamed) (h : e.text = e'.text) :
    e = e' := by
  have hends : Ends [] := by simp [Ends]
  exact (text_append_inj he he' hends hends (by rw [h])).1

end Expr

/-! ### Instructions -/

namespace Instruction

variable {i i' : Instruction}

/-- The word that an instruction starts with. -/
def lead : Instruction → String
  | .assign target _ | .load target _ | .call (some target) _ | .portStatus target _ => target
  | .store .. => "store"
  | .call none _ => "call"
  | .ret _ => "return"

/-- What an instruction sets its target to: an expression, or what is read like one, and what stands
behind it. -/
def source? : Instruction → Option (Expr × List Char)
  | .assign _ value => some (value, [';'])
  | .load _ source => some (.var "load", ' ' :: source.toList ++ [';'])
  | .call (some _) procedure => some (.var "call", ' ' :: procedure.toList ++ "();".toList)
  | .portStatus _ port => some (.var "status", ' ' :: port.toList ++ [';'])
  | .store .. | .call none _ | .ret _ => none

/-- What stands behind the first word of an instruction that sets no target. -/
def operands : Instruction → List Char
  | .store target value => ' ' :: (target.toList ++ ' ' :: '=' :: ' ' :: (value.text.toList ++ [';']))
  | .ret (some value) => ' ' :: (value.text.toList ++ [';'])
  | .ret none => [';']
  | .call _ procedure => ' ' :: (procedure.toList ++ "();".toList)
  | .assign .. | .load .. | .portStatus .. => []

/-- An instruction behind its first word. -/
def tail (i : Instruction) : List Char :=
  match i.source? with
  | some (e, rest) => ' ' :: '=' :: ' ' :: (e.text.toList ++ rest)
  | none => i.operands

theorem toList_text (i : Instruction) : i.text.toList = i.lead.toList ++ i.tail := by
  rcases i with _ | _ | _ | ⟨_ | _, _⟩ | _ | (_ | _) <;> simp [text, lead, tail, operands, source?, Expr.text]

theorem isIdentifier_lead (hi : i.wellNamed) : isIdentifier i.lead := by
  have hkeywords : isIdentifier "store" ∧ isIdentifier "call" ∧ isIdentifier "return" := by decide
  rcases i with _ | _ | _ | ⟨_ | _, _⟩ | _ | (_ | _) <;> simp_all [wellNamed, lead]

theorem bounded_tail (i : Instruction) : Bounded i.tail := by
  rcases i with _ | _ | _ | ⟨_ | _, _⟩ | _ | (_ | _) <;> exact bounded_cons (by decide)

theorem wellNamed_source {p : Expr × List Char} (hi : i.wellNamed) (hs : i.source? = some p) :
    p.1.wellNamed ∧ Ends p.2 := by
  have hwords : (Expr.var "load").wellNamed ∧ (Expr.var "call").wellNamed ∧
      (Expr.var "status").wellNamed := by decide
  rcases i with _ | _ | _ | ⟨_ | _, _⟩ | _ | (_ | _) <;> simp only [source?] at hs <;>
    cases hs <;> simp_all [wellNamed, Ends]

theorem eq_of_source (hlead : i.lead = i'.lead) {p : Expr × List Char} (hi : i.source? = some p)
    (hi' : i'.source? = some p) : i = i' := by
  rcases i with _ | _ | _ | ⟨_ | _, _⟩ | _ | (_ | _) <;> simp only [source?] at hi <;> cases hi <;>
    rcases i' with _ | _ | _ | ⟨_ | _, _⟩ | _ | (_ | _) <;>
      simp_all [source?, lead, String.toList_inj]

/-- Behind the first word, only an instruction that sets its target has an equals sign. -/
theorem ne_of_source (hi : i.wellNamed) (hs : i.source? = none) {p : Expr × List Char}
    (hs' : i'.source? = some p) : i.tail ≠ i'.tail := by
  intro h
  obtain ⟨cs, hequals⟩ : ∃ cs, i.operands = ' ' :: '=' :: cs := by
    simp only [tail, hs, hs'] at h
    exact ⟨_, h⟩
  have name : ∀ {s : String} {r : List Char}, isIdentifier s → s.toList ++ r ≠ '=' :: cs := by
    intro s r hnamed heq
    obtain ⟨c, ds, hfront, hstart⟩ := exists_cons_of_isIdentifier hnamed
    rw [hfront, List.cons_append] at heq
    rw [(List.cons.inj heq).1] at hstart
    exact absurd hstart (by decide)
  have value : ∀ {e : Expr} {r : List Char}, e.wellNamed → e.text.toList ++ r ≠ '=' :: cs := by
    intro e r hnamed heq
    obtain ⟨c, ds, hfront, hfirst, -⟩ := Expr.exists_cons_text hnamed
    rw [hfront, List.cons_append] at heq
    exact hfirst (List.cons.inj heq).1
  rcases i with _ | _ | ⟨target, e⟩ | ⟨_ | _, procedure⟩ | _ | (_ | e) <;> simp only [source?] at hs
  case store =>
    rw [wellNamed, Bool.and_eq_true] at hi
    exact name hi.1 (List.cons.inj hequals).2
  case call.none => exact name (by simpa [wellNamed] using hi) (List.cons.inj hequals).2
  case ret.none => exact absurd (List.cons.inj hequals).1 (by decide)
  case ret.some => exact value hi (List.cons.inj hequals).2
  all_goals cases hs

theorem eq_of_operands (hi : i.wellNamed) (hi' : i'.wellNamed) (hs : i.source? = none)
    (hs' : i'.source? = none) (hlead : i.lead = i'.lead) (h : i.operands = i'.operands) :
    i = i' := by
  have hspace : ∀ r, Bounded (' ' :: r) := fun r => bounded_cons (by decide)
  have hparen : Bounded "();".toList := bounded_cons (by decide)
  have hends : Ends [';'] := ends_cons (by decide)
  rcases i with _ | _ | ⟨target, e⟩ | ⟨_ | _, procedure⟩ | _ | (_ | e) <;>
    simp only [source?, reduceCtorEq] at hs <;>
    rcases i' with _ | _ | ⟨target', e'⟩ | ⟨_ | _, procedure'⟩ | _ | (_ | e') <;>
    simp only [source?, reduceCtorEq] at hs'
  case store.store =>
    rw [wellNamed, Bool.and_eq_true] at hi hi'
    obtain ⟨rfl, hbehind⟩ := identifier_append_inj hi.1 hi'.1 (hspace _) (hspace _)
      (List.cons.inj h).2
    simp only [List.cons.injEq, true_and] at hbehind
    obtain ⟨rfl, -⟩ := Expr.text_append_inj hi.2 hi'.2 hends hends hbehind
    rfl
  case call.none.call.none =>
    simp only [wellNamed, Option.all_none, Bool.true_and] at hi hi'
    obtain ⟨rfl, -⟩ := identifier_append_inj hi hi' hparen hparen (List.cons.inj h).2
    rfl
  case ret.none.ret.none => rfl
  case ret.some.ret.some =>
    obtain ⟨rfl, -⟩ := Expr.text_append_inj hi hi' hends hends (List.cons.inj h).2
    rfl
  case ret.none.ret.some => exact absurd (List.cons.inj h).1 (by decide)
  case ret.some.ret.none => exact absurd (List.cons.inj h).1 (by decide)
  all_goals simp [lead] at hlead

/-- The text of an instruction says which instruction it is. -/
theorem text_inj (hi : i.wellNamed) (hi' : i'.wellNamed) (h : i.text = i'.text) : i = i' := by
  have hchars : i.lead.toList ++ i.tail = i'.lead.toList ++ i'.tail := by
    rw [← toList_text, ← toList_text, h]
  obtain ⟨hlead, htail⟩ := identifier_append_inj (isIdentifier_lead hi) (isIdentifier_lead hi')
    (bounded_tail i) (bounded_tail i') hchars
  cases hs : i.source? with
  | some p =>
      cases hs' : i'.source? with
      | some p' =>
          simp only [tail, hs, hs', List.cons.injEq, true_and] at htail
          obtain ⟨he, hends⟩ := wellNamed_source hi hs
          obtain ⟨he', hends'⟩ := wellNamed_source hi' hs'
          obtain ⟨hsame, rest⟩ := Expr.text_append_inj he he' hends hends' htail
          exact eq_of_source hlead hs (by rw [hs', Prod.ext hsame rest])
      | none => exact absurd htail.symm (ne_of_source hi' hs' hs)
  | none =>
      cases hs' : i'.source? with
      | some p' => exact absurd htail (ne_of_source hi hs hs')
      | none =>
          simp only [tail, hs, hs'] at htail
          exact eq_of_operands hi hi' hs hs' hlead htail

end Instruction

/-! ### Types and locals -/

namespace DataType

variable {t t' : DataType} {r r' : List Char}

/-- The word that a type starts with. -/
def lead : DataType → String
  | .bool => "bool"
  | .int _ => "int"
  | .uint _ => "uint"
  | .void => "void"
  | .object name => name

/-- The size that stands behind the word. -/
def size? : DataType → Option UInt32
  | .int size | .uint size => some size
  | .bool | .void | .object _ => none

def sizeText : Option UInt32 → List Char
  | some size => '(' :: ((Nat.repr size.toNat).toList ++ [')'])
  | none => []

theorem toList_text (t : DataType) : t.text.toList = t.lead.toList ++ sizeText t.size? := by
  cases t <;> simp [text, lead, size?, sizeText] <;> rfl

theorem isIdentifier_lead (ht : t.wellNamed) : isIdentifier t.lead := by
  have hwords : isIdentifier "bool" ∧ isIdentifier "int" ∧ isIdentifier "uint" ∧
      isIdentifier "void" := by decide
  cases t <;> simp_all [wellNamed, lead]

theorem bounded_sizeText (size : Option UInt32) (hr : Ends r) : Bounded (sizeText size ++ r) := by
  cases size with
  | none => exact hr.bounded
  | some size => exact bounded_cons (by decide)

theorem eq_of_lead (ht : t.wellNamed) (ht' : t'.wellNamed) (hlead : t.lead = t'.lead)
    (hsize : t.size? = t'.size?) : t = t' := by
  cases t <;> cases t' <;> simp_all [wellNamed, lead, size?]

theorem sizeText_append_inj {size size' : Option UInt32} (hr : Ends r) (hr' : Ends r')
    (h : sizeText size ++ r = sizeText size' ++ r') : size = size' ∧ r = r' := by
  have hunopened : ∀ {s cs : List Char}, Ends s → s ≠ '(' :: cs := by
    rintro s cs hs rfl
    exact absurd (hs '(' rfl) (by decide)
  cases size with
  | none =>
      cases size' with
      | none => exact ⟨rfl, h⟩
      | some size' => exact absurd h (hunopened hr)
  | some size =>
      cases size' with
      | none => exact absurd h.symm (hunopened hr')
      | some size' =>
          simp only [sizeText, List.cons_append, List.append_assoc, List.cons.injEq, true_and] at h
          obtain ⟨hdigits, hclose⟩ := append_inj_of_span (p := Char.isDigit)
            (fun c hc => isDigit_of_mem_repr hc) (fun c hc => isDigit_of_mem_repr hc)
            (by simp) (by simp) h
          have hsame := Nat.repr_inj.mp (String.toList_injective hdigits)
          exact ⟨congrArg some (UInt32.toNat_inj.mp hsame), (List.cons.inj hclose).2⟩

/-- Two types that are printed alike, as far as they go, are the same and so is what follows. -/
theorem text_append_inj (ht : t.wellNamed) (ht' : t'.wellNamed) (hr : Ends r) (hr' : Ends r')
    (h : t.text.toList ++ r = t'.text.toList ++ r') : t = t' ∧ r = r' := by
  rw [toList_text, toList_text, List.append_assoc, List.append_assoc] at h
  obtain ⟨hlead, hbehind⟩ := identifier_append_inj (isIdentifier_lead ht) (isIdentifier_lead ht')
    (bounded_sizeText _ hr) (bounded_sizeText _ hr') h
  obtain ⟨hsize, rest⟩ := sizeText_append_inj hr hr' hbehind
  exact ⟨eq_of_lead ht ht' hlead hsize, rest⟩

end DataType

namespace Variable

def wellNamed (v : Variable) : Bool := isIdentifier v.name && v.type.wellNamed

theorem declaration_append_inj {v v' : Variable} {r r' : List Char} (hv : v.wellNamed)
    (hv' : v'.wellNamed) (hr : Ends r) (hr' : Ends r')
    (h : v.declaration.toList ++ r = v'.declaration.toList ++ r') :
    v.name = v'.name ∧ v.type = v'.type ∧ r = r' := by
  rw [wellNamed, Bool.and_eq_true] at hv hv'
  simp only [declaration, String.toList_append, List.append_assoc] at h
  have colon : ∀ s, Bounded (": ".toList ++ s) := fun s => bounded_cons (by decide)
  obtain ⟨hname, hbehind⟩ := identifier_append_inj hv.1 hv'.1 (colon _) (colon _) h
  obtain ⟨htype, rest⟩ := DataType.text_append_inj hv.2 hv'.2 hr hr'
    (List.append_cancel_left hbehind)
  exact ⟨hname, htype, rest⟩

/-- The declarations of some locals, as they stand on their line. -/
def declarations (vs : List Variable) : List Char :=
  (", ".intercalate (vs.map declaration)).toList ++ [';']

/-- What stands behind a declaration. -/
def separated : List Variable → List Char
  | [] => [';']
  | v :: vs => ',' :: ' ' :: declarations (v :: vs)

theorem declarations_cons (v : Variable) (vs : List Variable) :
    declarations (v :: vs) = v.declaration.toList ++ separated vs := by
  cases vs with
  | nil => simp [declarations, separated]
  | cons w vs => simp [declarations, separated, String.intercalate_cons_cons]

theorem ends_separated (vs : List Variable) : Ends (separated vs) := by
  cases vs with
  | nil => exact ends_cons (by decide)
  | cons v vs => exact ends_cons (by decide)

/-- The declarations of locals say what the locals are, apart from their initial values. -/
theorem declarations_inj {v v' : Variable} {vs vs' : List Variable}
    (h : ∀ w ∈ v :: vs, w.wellNamed) (h' : ∀ w ∈ v' :: vs', w.wellNamed)
    (heq : declarations (v :: vs) = declarations (v' :: vs')) :
    (v :: vs).map (fun w => (w.name, w.type)) = (v' :: vs').map fun w => (w.name, w.type) := by
  induction vs generalizing v v' vs' with
  | nil =>
      rw [declarations_cons, declarations_cons] at heq
      obtain ⟨hname, htype, rest⟩ := declaration_append_inj (h v (by simp)) (h' v' (by simp))
        (ends_separated _) (ends_separated _) heq
      cases vs' with
      | nil => simp [hname, htype]
      | cons w vs' => simp [separated] at rest
  | cons w vs ih =>
      rw [declarations_cons, declarations_cons] at heq
      obtain ⟨hname, htype, rest⟩ := declaration_append_inj (h v (by simp)) (h' v' (by simp))
        (ends_separated _) (ends_separated _) heq
      cases vs' with
      | nil => simp [separated] at rest
      | cons w' vs' =>
          simp only [separated, List.cons.injEq, true_and] at rest
          have others := ih (fun u hu => h u (List.mem_cons_of_mem _ hu))
            (fun u hu => h' u (List.mem_cons_of_mem _ hu)) rest
          rw [List.map_cons, others, hname, htype]
          rfl

end Variable

end DataflowSynth
