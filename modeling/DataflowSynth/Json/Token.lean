/-
The tokens of a JSON text.

Cutting a text into tokens never fails: at the first piece that is no token the list ends with
a `bad` token that says what is wrong there.
-/
import DataflowSynth.Json.Basic

namespace DataflowSynth.Json

/-- A piece of JSON text. -/
inductive Token where
  | openList
  | closeList
  | openObject
  | closeObject
  | comma
  | colon
  | word (j : Json)
  | text (content : Option String)
  /-- A piece that starts like a word or number, or like nothing at all. -/
  | badWord (c : Cut)
  /-- A string that is not one to its end. -/
  | badText (c : Cut)

/-- Between tokens there may be blanks. -/
def isBlank (c : Char) : Bool := c = ' ' || c = '\n' || c = '\t' || c = '\r'

/-! ### Strings -/

/-- The value of a hexadecimal digit. -/
def hexDigit (c : Char) : Option Nat :=
  if '0' ≤ c ∧ c ≤ '9' then some (c.toNat - '0'.toNat)
  else if 'a' ≤ c ∧ c ≤ 'f' then some (c.toNat - 'a'.toNat + 10)
  else if 'A' ≤ c ∧ c ≤ 'F' then some (c.toNat - 'A'.toNat + 10)
  else none

/-- The value of four hexadecimal digits. -/
def hexUnit (a b c d : Char) : Option Nat := do
  let a ← hexDigit a
  let b ← hexDigit b
  let c ← hexDigit c
  let d ← hexDigit d
  return ((a * 16 + b) * 16 + c) * 16 + d

def isHighHalf (n : Nat) : Bool := 0xD800 ≤ n && n ≤ 0xDBFF

def isLowHalf (n : Nat) : Bool := 0xDC00 ≤ n && n ≤ 0xDFFF

/-- The character that a surrogate pair stands for. -/
def joinHalves (high low : Nat) : Char :=
  Char.ofNat ((high - 0xD800) * 0x400 + (low - 0xDC00) + 0x10000)

/-- The character that a backslash and `c` stand for. -/
def unescape (c : Char) : Option Char :=
  match c with
  | '"' => some '"'
  | '\\' => some '\\'
  | '/' => some '/'
  | 'b' => some '\x08'
  | 'f' => some '\x0c'
  | 'n' => some '\n'
  | 'r' => some '\r'
  | 't' => some '\t'
  | _ => none

/-- A string up to its closing quote, and what stands behind it. -/
inductive Scanned where
  | closed (content : Option String) (rest : List Char)
  | broken (c : Cut)

/-- How a string breaks off: half of a pair before the break is what reading it stumbles over. -/
def breakOff (paired : Bool) (f : Fault) : Scanned :=
  .broken ⟨if paired then f else .unpaired, f⟩

/-- Fewer than four characters follow `\u`.  The text is cut off if not even four bytes follow. -/
def shortEscape (rest : List Char) : Fault :=
  if (String.ofList rest).utf8ByteSize < 4 then .unfinished else .malformed

/-- Reads a string whose opening quote has been read.  `paired` tells that no half of a surrogate
pair stood alone so far, `high` is a first half whose second half has to follow at once, and
`done` holds the characters read, last one first. -/
def scan (paired : Bool) (high : Option Nat) (done : List Char) : List Char → Scanned
  | [] => breakOff paired .unfinished
  | '"' :: rest =>
    .closed (if paired && high.isNone then some (String.ofList done.reverse) else none) rest
  | '\\' :: 'u' :: a :: b :: c :: d :: rest =>
    match hexUnit a b c d, high with
    | none, _ => breakOff paired .malformed
    | some n, some h =>
      if isLowHalf n then scan paired none (joinHalves h n :: done) rest
      else scan false none done rest
    | some n, none =>
      if isHighHalf n then scan paired (some n) done rest
      else if isLowHalf n then scan false none done rest
      else scan paired none (Char.ofNat n :: done) rest
  | '\\' :: 'u' :: rest => breakOff paired (shortEscape rest)
  | '\\' :: c :: rest =>
    match unescape c with
    | some x => scan (paired && high.isNone) none (x :: done) rest
    | none => breakOff paired .malformed
  | ['\\'] => breakOff paired .unfinished
  | c :: rest =>
    if c.toNat < 0x20 then breakOff paired .malformed
    else scan (paired && high.isNone) none (c :: done) rest

/-! ### Numbers and words -/

def digitValue (c : Char) : Nat := c.toNat - '0'.toNat

def natOfDigits (ds : List Char) : Nat := ds.foldl (fun n c => n * 10 + digitValue c) 0

/-- A number or word that was read, with what stands behind it. -/
inductive Read where
  | ok (j : Json) (rest : List Char)
  | bad (c : Cut)

/-- The text ends inside a number: only reading it notices that it is the end that is missing. -/
def cutNumber : Cut := ⟨.unfinished, .malformed⟩

/-- The digits at the head of `s`; without any, the number is cut off or malformed. -/
def digits1 (s : List Char) (k : List Char → List Char → Read) : Read :=
  match s.takeWhile Char.isDigit, s.dropWhile Char.isDigit with
  | [], [] => .bad cutNumber
  | [], _ :: _ => .bad (.of .malformed)
  | ds, rest => k ds rest

/-- The exponent of a number with the given sign, whole part and fraction. -/
def exponent (negative : Bool) (whole fraction : List Char) (s : List Char) : Read :=
  let digits := (whole ++ fraction).map digitValue
  let signed (sign : Int) (s : List Char) :=
    digits1 s fun e rest =>
      .ok (.num (.decimal negative digits (sign * natOfDigits e - fraction.length))) rest
  match s with
  | '-' :: s => signed (-1) s
  | '+' :: s => signed 1 s
  | s => signed 1 s

/-- What may follow the whole part of a number. -/
def afterWhole (negative : Bool) (whole : List Char) : List Char → Read
  | '.' :: s =>
    digits1 s fun fraction rest =>
      match rest with
      | 'e' :: s => exponent negative whole fraction s
      | 'E' :: s => exponent negative whole fraction s
      | rest =>
        .ok (.num (.decimal negative ((whole ++ fraction).map digitValue) (-fraction.length))) rest
  | 'e' :: s => exponent negative whole [] s
  | 'E' :: s => exponent negative whole [] s
  | rest => .ok (.num (.integer negative (natOfDigits whole))) rest

/-- A number after its sign.  A whole part that starts with zero is zero. -/
def unsigned (negative : Bool) (s : List Char) : Read :=
  digits1 s fun whole rest =>
    match whole with
    | '0' :: _ :: _ => .bad (.of .malformed)
    | whole => afterWhole negative whole rest

/-- Checks that `s` goes on with `expected`. -/
def spelled (j : Json) : (expected s : List Char) → Read
  | [], s => .ok j s
  | _ :: _, [] => .bad (.of .unfinished)
  | e :: expected, c :: s => if c = e then spelled j expected s else .bad (.of .malformed)

/-- A number or one of the words `null`, `true` and `false` that starts with `c`. -/
def readWord (c : Char) (s : List Char) : Read :=
  if c = 'n' then spelled .null ['u', 'l', 'l'] s
  else if c = 't' then spelled (.bool true) ['r', 'u', 'e'] s
  else if c = 'f' then spelled (.bool false) ['a', 'l', 's', 'e'] s
  else if c = '-' then unsigned true s
  else if c.isDigit then unsigned false (c :: s)
  else .bad (.of .malformed)

/-! ### The rest of a token is shorter than what it was read from -/

theorem scan_length {paired : Bool} {high : Option Nat} {done s : List Char}
    {content : Option String} {rest : List Char}
    (h : scan paired high done s = .closed content rest) : rest.length < s.length := by
  fun_induction scan paired high done s <;> simp_all [breakOff] <;> omega

theorem digits1_length {s : List Char} {k : List Char → List Char → Read} {j : Json}
    {rest : List Char} (hk : ∀ ds r, k ds r = .ok j rest → rest.length ≤ r.length)
    (h : digits1 s k = .ok j rest) : rest.length < s.length := by
  unfold digits1 at h
  have hs := congrArg List.length (List.takeWhile_append_dropWhile (p := Char.isDigit) (l := s))
  rw [List.length_append] at hs
  split at h
  · simp at h
  · simp at h
  · next hne _ =>
    have hr := hk _ _ h
    have : 0 < (s.takeWhile Char.isDigit).length := by
      cases ht : s.takeWhile Char.isDigit with
      | nil => cases hd : s.dropWhile Char.isDigit <;> simp_all
      | cons => simp
    omega

theorem exponent_length {negative : Bool} {whole fraction s : List Char} {j : Json}
    {rest : List Char} (h : exponent negative whole fraction s = .ok j rest) :
    rest.length < s.length := by
  unfold exponent at h
  dsimp only at h
  split at h
  · have := digits1_length (by intro ds r hr; simp at hr; simp [hr.2]) h
    simp; omega
  · have := digits1_length (by intro ds r hr; simp at hr; simp [hr.2]) h
    simp; omega
  · exact digits1_length (by intro ds r hr; simp at hr; simp [hr.2]) h

theorem afterWhole_length {negative : Bool} {whole s : List Char} {j : Json} {rest : List Char}
    (h : afterWhole negative whole s = .ok j rest) : rest.length ≤ s.length := by
  unfold afterWhole at h
  split at h
  · refine Nat.le_of_lt (Nat.lt_succ_of_lt (digits1_length (fun ds r hr => ?_) h))
    split at hr
    · have := exponent_length hr; simp; omega
    · have := exponent_length hr; simp; omega
    · simp at hr; simp [hr.2]
  · have := exponent_length h; simp; omega
  · have := exponent_length h; simp; omega
  · simp at h; simp [h.2]

theorem unsigned_length {negative : Bool} {s : List Char} {j : Json} {rest : List Char}
    (h : unsigned negative s = .ok j rest) : rest.length < s.length := by
  refine digits1_length (fun ds r hr => ?_) h
  split at hr
  · simp at hr
  · exact afterWhole_length hr

theorem spelled_length {v : Json} {expected s : List Char} {j : Json} {rest : List Char}
    (h : spelled v expected s = .ok j rest) : rest.length ≤ s.length := by
  fun_induction spelled v expected s <;> simp_all
  omega

theorem readWord_length {c : Char} {s : List Char} {j : Json} {rest : List Char}
    (h : readWord c s = .ok j rest) : rest.length ≤ s.length := by
  unfold readWord at h
  repeat' split at h
  · exact spelled_length h
  · exact spelled_length h
  · exact spelled_length h
  · exact Nat.le_of_lt (unsigned_length h)
  · exact Nat.le_of_lt_succ (unsigned_length h)
  · simp at h

/-! ### Texts -/

/-- The tokens of a text, up to the first piece that is none. -/
def tokens (s : List Char) : List Token :=
  match s with
  | [] => []
  | c :: s =>
    if isBlank c then tokens s
    else if c = '[' then .openList :: tokens s
    else if c = ']' then .closeList :: tokens s
    else if c = '\x7b' then .openObject :: tokens s
    else if c = '\x7d' then .closeObject :: tokens s
    else if c = ',' then .comma :: tokens s
    else if c = ':' then .colon :: tokens s
    else if c = '"' then
      match _h : scan true none [] s with
      | .closed content rest => .text content :: tokens rest
      | .broken w => [.badText w]
    else
      match _h : readWord c s with
      | .ok j rest => .word j :: tokens rest
      | .bad w => [.badWord w]
  termination_by s.length
  decreasing_by
    · exact Nat.lt_succ_self _
    · exact Nat.lt_succ_self _
    · exact Nat.lt_succ_self _
    · exact Nat.lt_succ_self _
    · exact Nat.lt_succ_self _
    · exact Nat.lt_succ_self _
    · exact Nat.lt_succ_self _
    · exact Nat.lt_succ_of_lt (scan_length ‹_›)
    · exact Nat.lt_succ_of_le (readWord_length ‹_›)

end DataflowSynth.Json
