/-
The text of a value reads back as the value.

Reading goes through the tokens of a text with a stack of what is still open.  So the statement
about a value is one about any place where a value is due and any text behind it: reading on from
there gets behind the value, with the value settled on the stack.
-/
import DataflowSynth.Json.Reader
import DataflowSynth.Json.Writer

namespace DataflowSynth.Json

/-- A value whose text holds all of it: nothing is cut off, strings have contents, and numbers
are integers of 64 bits. -/
inductive Whole : Json → Prop where
  | null : Whole .null
  | bool (b : Bool) : Whole (.bool b)
  | num (negative : Bool) {n : Nat} (hsmall : n < UInt64.size) : Whole (.num (.integer negative n))
  | str (s : String) : Whole (.str (some s))
  | arr {items : List Json} (hvalues : ∀ j ∈ items, Whole j) : Whole (.arr items none)
  | obj {members : Members} (hkeys : ∀ m ∈ members, m.1.isSome) (hvalues : ∀ m ∈ members, Whole m.2) :
      Whole (.obj members none)

/-! ### Strings -/

theorem hexDigit_hexChar {n : Nat} (h : n < 16) : hexDigit (hexChar n) = some n := by
  have hall : ∀ n < 16, hexDigit (hexChar n) = some n := by decide
  exact hall n h

theorem hexUnit_escape {n : Nat} (h : n < 0x20) :
    hexUnit '0' '0' (hexChar (n / 16)) (hexChar (n % 16)) = some n := by
  have hzero : hexDigit '0' = some 0 := by decide
  simp only [hexUnit, hzero, hexDigit_hexChar (show n / 16 < 16 by omega),
    hexDigit_hexChar (show n % 16 < 16 by omega), Option.bind_eq_bind, Option.bind_some,
    Option.pure_def]
  congr 1
  omega

/-- An escaped character is read as the character. -/
theorem scan_escape (c : Char) (done rest : List Char) :
    scan true none done (escape c ++ rest) = scan true none (c :: done) rest := by
  unfold escape
  split
  · next h => subst h; simp [scan, unescape]
  split
  · next h => subst h; simp [scan, unescape]
  split
  · next h => subst h; simp [scan, unescape]
  split
  · next h => subst h; simp [scan, unescape]
  split
  · next h => subst h; simp [scan, unescape]
  split
  · next h => subst h; simp [scan, unescape]
  split
  · next h => subst h; simp [scan, unescape]
  split
  · next h =>
    have hhigh : isHighHalf c.toNat = false := by simp [isHighHalf]; omega
    have hlow : isLowHalf c.toNat = false := by simp [isLowHalf]; omega
    simp [scan, hexUnit_escape h, hhigh, hlow, Char.ofNat_toNat]
  · next hquote hslash _ _ _ _ _ hcontrol =>
    have hplain : ¬ c.toNat < 0x20 := hcontrol
    simp only [List.cons_append, List.nil_append]
    rw [scan.eq_def]
    split
    case h_7 heq =>
      obtain ⟨rfl, rfl⟩ := List.cons.inj heq
      exact if_neg hplain
    all_goals simp_all

theorem scan_quoted (cs done rest : List Char) :
    scan true none done (cs.flatMap escape ++ '"' :: rest) =
      .closed (some (String.ofList (done.reverse ++ cs))) rest := by
  induction cs generalizing done with
  | nil => simp [scan]
  | cons c cs ih =>
    rw [List.flatMap_cons, List.append_assoc, scan_escape, ih]
    simp

theorem tokens_quoted (s : String) (rest : List Char) :
    tokens (quoted s ++ rest) = .text (some s) :: tokens rest := by
  have hwhole := scan_quoted s.toList [] rest
  rw [quoted, List.cons_append, List.cons_append, List.append_assoc, List.singleton_append]
  rw [tokens.eq_def]
  simp [isBlank]
  split
  · next heq =>
    rw [hwhole] at heq
    simp_all
  · next heq =>
    rw [hwhole] at heq
    simp at heq

/-! ### Numbers -/

/-- What may stand behind a value in a text: nothing, or what separates or ends the values of a
list or object. -/
def Delimited (s : List Char) : Prop := ∀ c ∈ s.head?, c = ',' ∨ c = ']' ∨ c = '\x7d'

theorem delimited_nil : Delimited [] := by simp [Delimited]

theorem delimited_comma (s : List Char) : Delimited (',' :: s) := by simp [Delimited]

theorem delimited_closeList (s : List Char) : Delimited (']' :: s) := by simp [Delimited]

theorem delimited_closeObject (s : List Char) : Delimited ('\x7d' :: s) := by simp [Delimited]

theorem takeWhile_digits {ds rest : List Char} (hdigits : ∀ c ∈ ds, c.isDigit) (h : Delimited rest) :
    (ds ++ rest).takeWhile Char.isDigit = ds ∧ (ds ++ rest).dropWhile Char.isDigit = rest := by
  have hstop : rest.takeWhile Char.isDigit = [] ∧ rest.dropWhile Char.isDigit = rest := by
    cases rest with
    | nil => simp
    | cons c rest =>
      have : c.isDigit = false := by
        rcases h c rfl with rfl | rfl | rfl <;> decide
      simp [this]
  constructor
  · rw [List.takeWhile_append_of_pos hdigits, hstop.1, List.append_nil]
  · rw [List.dropWhile_append_of_pos hdigits, hstop.2]

theorem natOfDigits_toDigits (n : Nat) : natOfDigits (Nat.toDigits 10 n) = n := by
  have hvalue := Nat.ofDigitChars_ten_toDigits (n := n)
  rw [Nat.ofDigitChars_eq_foldl] at hvalue
  simpa only [natOfDigits, digitValue, Nat.mul_comm] using hvalue

theorem eq_zero_of_head_toDigits {n : Nat} (h : (Nat.toDigits 10 n).head? = some '0') : n = 0 := by
  induction n using Nat.strongRecOn with
  | _ n ih =>
    rw [Nat.toDigits_eq_if (by decide)] at h
    split at h
    · have hdigits : ∀ k < 10, k.digitChar = '0' → k = 0 := by decide
      exact hdigits n ‹_› (by simpa using h)
    · cases hfront : Nat.toDigits 10 (n / 10) with
      | nil => exact absurd hfront Nat.toDigits_ne_nil
      | cons d ds =>
        rw [hfront] at h
        have := ih (n / 10) (by omega) (by rw [hfront]; exact h)
        omega

/-- The digits of a number are read as the number: only zero starts with a zero. -/
theorem unsigned_toDigits (negative : Bool) (n : Nat) {rest : List Char} (h : Delimited rest) :
    unsigned negative (Nat.toDigits 10 n ++ rest) = .ok (.num (.integer negative n)) rest := by
  have hdigits : ∀ c ∈ Nat.toDigits 10 n, c.isDigit := fun c hc =>
    Nat.isDigit_of_mem_toDigits (by decide) (by decide) hc
  obtain ⟨htaken, hdropped⟩ := takeWhile_digits hdigits h
  have htail : afterWhole negative (Nat.toDigits 10 n) rest =
      .ok (.num (.integer negative n)) rest := by
    rw [afterWhole.eq_def]
    split
    · exact absurd (h _ rfl) (by decide)
    · exact absurd (h _ rfl) (by decide)
    · exact absurd (h _ rfl) (by decide)
    · rw [natOfDigits_toDigits]
  rw [unsigned, digits1, htaken, hdropped]
  split
  · exact absurd ‹_› Nat.toDigits_ne_nil
  · exact absurd ‹_› Nat.toDigits_ne_nil
  · split
    · next hfront =>
      have : n = 0 := eq_zero_of_head_toDigits (by rw [hfront]; rfl)
      subst this
      simp [Nat.toDigits_of_lt_base] at hfront
    · exact htail

theorem tokens_word {c : Char} {s rest : List Char} {j : Json} (h : readWord c s = .ok j rest) :
    tokens (c :: s) = .word j :: tokens rest := by
  -- no word starts like another token
  have hstart : ∀ d ∈ [' ', '\n', '\t', '\r', '[', ']', '\x7b', '\x7d', ',', ':', '"'], c ≠ d := by
    intro d hd hsame
    subst hsame
    simp only [List.mem_cons, List.not_mem_nil, or_false] at hd
    rcases hd with rfl | rfl | rfl | rfl | rfl | rfl | rfl | rfl | rfl | rfl | rfl <;>
      simp [readWord] at h
  simp only [List.forall_mem_cons] at hstart
  rw [tokens.eq_def]
  simp [isBlank, hstart]
  split
  · next heq =>
    rw [h] at heq
    simp_all
  · next heq =>
    rw [h] at heq
    simp at heq

theorem readWord_digit {c : Char} (s : List Char) (h : c.isDigit) :
    readWord c s = unsigned false (c :: s) := by
  have hstart : ∀ d ∈ ['n', 't', 'f', '-'], c ≠ d := by
    intro d hd hsame
    subst hsame
    simp only [List.mem_cons, List.not_mem_nil, or_false] at hd
    rcases hd with rfl | rfl | rfl | rfl <;> exact absurd h (by decide)
  simp only [List.forall_mem_cons] at hstart
  simp [readWord, hstart, h]

theorem tokens_number (negative : Bool) (n : Nat) {rest : List Char} (h : Delimited rest) :
    tokens ((Number.integer negative n).text.toList ++ rest) =
      .word (.num (.integer negative n)) :: tokens rest := by
  have hvalue := unsigned_toDigits negative n h
  cases negative with
  | true =>
    have htext : (Number.integer true n).text.toList = '-' :: Nat.toDigits 10 n := by
      simp [Number.text, Nat.toList_repr]
    rw [htext, List.cons_append]
    exact tokens_word (by simpa [readWord] using hvalue)
  | false =>
    have htext : (Number.integer false n).text.toList = Nat.toDigits 10 n := by
      simp [Number.text, Nat.toList_repr]
    rw [htext]
    cases hfront : Nat.toDigits 10 n with
    | nil => exact absurd hfront Nat.toDigits_ne_nil
    | cons d ds =>
      have hdigit : d.isDigit :=
        Nat.isDigit_of_mem_toDigits (b := 10) (n := n) (by decide) (by decide) (by simp [hfront])
      rw [hfront, List.cons_append] at hvalue
      rw [List.cons_append]
      exact tokens_word (by rw [readWord_digit _ hdigit, hvalue])

/-! ### Values -/

/-- Reading on from some progress. -/
def resume (p : Progress) (s : List Char) : Progress := (tokens s).foldl Progress.step p

/-- A value is due, and it will be settled on `stack`. -/
inductive Due : Progress → List Frame → Prop where
  | value (stack : List Frame) : Due (.value stack) stack
  | firstItem (stack : List Frame) : Due (.firstItem stack) (.list [] :: stack)

theorem Due.step {p : Progress} {stack : List Frame} (h : Due p stack) {t : Token}
    (ht : t ≠ .closeList) : p.step t = Progress.begin stack t := by
  cases h with
  | value => rfl
  | firstItem => cases t <;> first | rfl | exact absurd rfl ht

theorem resume_of_tokens {s rest : List Char} {t : Token} (h : tokens s = t :: tokens rest)
    (p : Progress) : resume p s = resume (p.step t) rest := by
  simp [resume, h]

theorem Due.resume_word {p : Progress} {stack : List Frame} (hdue : Due p stack) {s rest : List Char}
    {j : Json} (h : tokens s = .word j :: tokens rest) :
    resume p s = resume (Progress.settle j stack) rest := by
  rw [resume_of_tokens h, hdue.step (by simp)]
  rfl

@[simp] theorem resume_openList (p : Progress) (s : List Char) :
    resume p ('[' :: s) = resume (p.step .openList) s :=
  resume_of_tokens (by rw [tokens.eq_def]; simp [isBlank]) p

@[simp] theorem resume_closeList (p : Progress) (s : List Char) :
    resume p (']' :: s) = resume (p.step .closeList) s :=
  resume_of_tokens (by rw [tokens.eq_def]; simp [isBlank]) p

@[simp] theorem resume_openObject (p : Progress) (s : List Char) :
    resume p ('\x7b' :: s) = resume (p.step .openObject) s :=
  resume_of_tokens (by rw [tokens.eq_def]; simp [isBlank]) p

@[simp] theorem resume_closeObject (p : Progress) (s : List Char) :
    resume p ('\x7d' :: s) = resume (p.step .closeObject) s :=
  resume_of_tokens (by rw [tokens.eq_def]; simp [isBlank]) p

@[simp] theorem resume_comma (p : Progress) (s : List Char) :
    resume p (',' :: s) = resume (p.step .comma) s :=
  resume_of_tokens (by rw [tokens.eq_def]; simp [isBlank]) p

@[simp] theorem resume_colon (p : Progress) (s : List Char) :
    resume p (':' :: s) = resume (p.step .colon) s :=
  resume_of_tokens (by rw [tokens.eq_def]; simp [isBlank]) p

/-- Wherever the value is due, reading its text gets behind it. -/
def ReadsBack (j : Json) : Prop :=
  ∀ p stack rest, Due p stack → Delimited rest →
    resume p (chars j ++ rest) = resume (Progress.settle j stack) rest

/-- The items of a list that has been opened, up to its end. -/
theorem resume_items {j : Json} {js : List Json} (h : ∀ i ∈ j :: js, ReadsBack i) {p : Progress}
    {before : List Json} {stack : List Frame} (hdue : Due p (.list before :: stack))
    (rest : List Char) :
    resume p (commas (chars.charsList (j :: js)) ++ ']' :: rest) =
      resume (Progress.settle (.arr (before.reverse ++ j :: js) none) stack) rest := by
  induction js generalizing j p before with
  | nil =>
    have hfirst := h j (by simp) p _ (']' :: rest) hdue (delimited_closeList rest)
    simp only [chars.charsList, commas]
    rw [hfirst, Progress.settle, resume_closeList]
    simp [Progress.step]
  | cons i js ih =>
    have hfirst := h j (by simp) p _ (',' :: (commas (chars.charsList (i :: js)) ++ ']' :: rest)) hdue
      (delimited_comma _)
    have hothers := ih (fun x hx => h x (List.mem_cons_of_mem _ hx))
      (.value (.list (j :: before) :: stack))
    simp only [chars.charsList, commas, List.append_assoc, List.cons_append] at hfirst hothers ⊢
    rw [hfirst, Progress.settle, resume_comma, Progress.step, hothers]
    simp

/-- A key and its value. -/
theorem resume_member {k : String} {j : Json} (h : ReadsBack j) (first : Bool) (before : Members)
    (stack : List Frame) {rest : List Char} (hrest : Delimited rest) :
    resume (.nextKey first before stack) (quoted k ++ ':' :: (chars j ++ rest)) =
      resume (.inObject ((some k, j) :: before) stack) rest := by
  have hkey : Progress.step (.nextKey first before stack) (.text (some k)) =
      .nextColon before (some k) stack := by
    cases first <;> rfl
  rw [resume_of_tokens (tokens_quoted k _), hkey, resume_colon, Progress.step,
    h _ _ _ (.value _) hrest, Progress.settle]

/-- The members of an object, from a key on up to its end. -/
theorem resume_members {m : Option String × Json} {ms : Members}
    (hkeys : ∀ i ∈ m :: ms, i.1.isSome) (h : ∀ i ∈ m :: ms, ReadsBack i.2)
    (first : Bool) (before : Members) (stack : List Frame) (rest : List Char) :
    resume (.nextKey first before stack) (commas (chars.charsMembers (m :: ms)) ++ '\x7d' :: rest) =
      resume (Progress.settle (.obj (before.reverse ++ m :: ms) none) stack) rest := by
  obtain ⟨key, j⟩ := m
  obtain ⟨k, rfl⟩ := Option.isSome_iff_exists.1 (hkeys _ List.mem_cons_self)
  have hback : ReadsBack j := h _ List.mem_cons_self
  induction ms generalizing k j first before with
  | nil =>
    have hone := resume_member (k := k) hback first before stack (delimited_closeObject rest)
    simp only [chars.charsMembers, commas, Option.getD_some, List.append_assoc, List.cons_append]
    rw [hone, resume_closeObject]
    simp [Progress.step]
  | cons i ms ih =>
    obtain ⟨key, i⟩ := i
    obtain ⟨l, rfl⟩ := Option.isSome_iff_exists.1 (hkeys (key, i) (by simp))
    have hone := resume_member (k := k) hback first before stack
      (delimited_comma (commas (chars.charsMembers ((some l, i) :: ms)) ++ '\x7d' :: rest))
    have hothers := ih false ((some k, j) :: before) i l
      (fun x hx => hkeys x (List.mem_cons_of_mem _ hx)) (fun x hx => h x (List.mem_cons_of_mem _ hx))
      (h (some l, i) (by simp))
    simp only [chars.charsMembers, commas, Option.getD_some, List.append_assoc,
      List.cons_append] at hone hothers ⊢
    rw [hone, resume_comma, Progress.step, hothers]
    simp

theorem Whole.readsBack {j : Json} (h : Whole j) : ReadsBack j := by
  induction h with
  | null => exact fun _ _ _ hdue _ => hdue.resume_word (tokens_word (by simp [readWord, spelled]))
  | bool b =>
    cases b with
    | true => exact fun _ _ _ hdue _ => hdue.resume_word (tokens_word (by simp [readWord, spelled]))
    | false => exact fun _ _ _ hdue _ => hdue.resume_word (tokens_word (by simp [readWord, spelled]))
  | num negative => exact fun _ _ _ hdue hrest => hdue.resume_word (tokens_number negative _ hrest)
  | str s =>
    intro p stack rest hdue hrest
    rw [chars, Option.getD_some, resume_of_tokens (tokens_quoted s rest), hdue.step (by simp)]
    rfl
  | @arr items hvalues ih =>
    intro p stack rest hdue hrest
    rw [chars, List.cons_append, List.cons_append, resume_openList, hdue.step (by simp),
      Progress.begin, List.append_assoc, List.singleton_append]
    cases items with
    | nil => simp [chars.charsList, commas, Progress.step]
    | cons j js => exact resume_items ih (.firstItem stack) rest
  | @obj members hkeys hvalues ih =>
    intro p stack rest hdue hrest
    rw [chars, List.cons_append, List.cons_append, resume_openObject, hdue.step (by simp),
      Progress.begin, List.append_assoc, List.singleton_append]
    cases members with
    | nil => simp [chars.charsMembers, commas, Progress.step]
    | cons m ms => exact resume_members hkeys ih true [] stack rest

/-- The text of a value is a document with this value and nothing behind it. -/
theorem read_compact {j : Json} (h : Whole j) : read j.compact = ⟨j, false⟩ := by
  have hback := h.readsBack (.value []) [] [] (.value []) delimited_nil
  rw [List.append_nil] at hback
  simp only [resume] at hback
  simp [read, compact, hback, tokens, Progress.settle, Progress.finish]

end DataflowSynth.Json
