/-
Plain text: what is left of a text once its control characters are taken out.

A terminal reads some characters as commands.  A control character stands for itself, and an
escape character opens a control function that runs on to a final character or to a terminator.
Neither belongs in a text that is kept, so `plain` drops both.  Of the control characters only
those that lay a text out survive: tab, line feed, form feed and carriage return.

Layout inside an unfinished control function is kept as well, and the text goes on behind it; the
function is then only suspended, and the next control character that is dropped resumes it.
-/

namespace DataflowSynth.Plain

/-! ### Characters -/

/-- The control characters that lay a text out. -/
def isLayout (c : Char) : Bool := c = '\t' || c = '\n' || c = '\x0c' || c = '\r'

/-- The characters of a plain text. -/
def isText (c : Char) : Bool := isLayout c || (' ' ≤ c && c ≠ '\x7f')

def isBetween (first last c : Char) : Bool := first ≤ c && c ≤ last

/-- Whether the one-octet string terminator occurs in the encoding of a character. -/
def holdsTerminator (c : Char) : Bool := (String.utf8EncodeChar c).contains 0x9c

/-! ### Control functions -/

/-- How far an unfinished control function has come. -/
inductive Control
  /-- Only the escape character was read. -/
  | escape
  /-- An escape sequence with intermediate characters. -/
  | intermediates
  /-- A control sequence, which ends with the first character from `@` on. -/
  | sequence
  /-- A device control string of which nothing was read. -/
  | device
  /-- The parameters of a device control string. -/
  | deviceParameters
  /-- The intermediate characters of a device control string. -/
  | deviceIntermediates
  /-- An operating system command, which a bell ends too. -/
  | command
  /-- A string that runs to its terminator. -/
  | string
  deriving DecidableEq

/-- Where the reading of a text stands. -/
inductive Mode
  | text
  | inside (c : Control)
  /-- In text again after layout inside a control function. -/
  | suspended (c : Control)
  deriving DecidableEq

namespace Control

/-- Layout inside an escape or control sequence stays in the text; inside a string it is part of
the string. -/
def keepsLayout : Control → Bool
  | escape | intermediates | sequence => true
  | _ => false

/-- What the character after an escape character opens. -/
def opened (c : Char) : Mode :=
  if c = '[' then .inside sequence
  else if c = ']' then .inside command
  else if c = 'P' then .inside device
  else if c = 'X' || c = '^' || c = '_' then .inside string
  else if isBetween ' ' '/' c then .inside intermediates
  else if isBetween '0' '~' c then .text
  else .inside escape

/-- What the next character makes of an unfinished control function. -/
def next : Control → Char → Mode
  | escape, c => opened c
  | intermediates, c => if isBetween '0' '~' c then .text else .inside intermediates
  | sequence, c => if isBetween '@' '~' c then .text else .inside sequence
  | device, c =>
    if isBetween ' ' '/' c then .inside deviceIntermediates
    else if isBetween '0' '?' c then .inside deviceParameters
    else if isBetween '@' '~' c then .inside string
    else .inside device
  | deviceParameters, c =>
    if isBetween ' ' '/' c then .inside deviceIntermediates
    else if isBetween '<' '~' c then .inside string
    else .inside deviceParameters
  | deviceIntermediates, c =>
    if isBetween '0' '~' c then .inside string else .inside deviceIntermediates
  | command, c => if c = '\x07' then .text else .inside command
  | string, c => if holdsTerminator c then .text else .inside string

end Control

/-! ### Reading -/

/-- Reads one character: where the reading stands after it, and whether it is kept. -/
def step (m : Mode) (c : Char) : Mode × Bool :=
  if c = '\x1b' then (.inside .escape, false)
  else if c = '\x18' || c = '\x1a' then (.text, false)
  else match m with
    | .text => (.text, isText c)
    | .inside f => if f.keepsLayout && isLayout c then (.suspended f, true) else (f.next c, false)
    | .suspended f =>
      if '\x7f' < c then (.text, true)
      else if isText c then (.suspended f, true)
      else (.inside f, false)

/-- The characters that are kept when a text is read. -/
def kept : Mode → List Char → List Char
  | _, [] => []
  | m, c :: cs =>
    if (step m c).2 then c :: kept (step m c).1 cs else kept (step m c).1 cs

/-! ### Only text is kept, and a text without control characters is kept whole -/

theorem isText_of_lt {c : Char} (h : '\x7f' < c) : isText c = true := by
  have hle : ' ' ≤ c := Char.le_trans (by decide : ' ' ≤ '\x7f') (Char.not_lt.1 (Char.lt_asymm h))
  have hne : c ≠ '\x7f' := fun e => Char.lt_irrefl _ (e ▸ h)
  simp [isText, hle, hne]

theorem isText_of_step {m : Mode} {c : Char} (h : (step m c).2 = true) : isText c = true := by
  unfold step at h
  grind [isText, isText_of_lt]

theorem isText_of_mem_kept {m : Mode} {s : List Char} {c : Char} (h : c ∈ kept m s) :
    isText c = true := by
  induction s generalizing m with
  | nil => simp [kept] at h
  | cons d ds ih =>
    rw [kept] at h
    split at h
    · rename_i hd
      rcases List.mem_cons.1 h with rfl | h
      · exact isText_of_step hd
      · exact ih h
    · exact ih h

theorem step_text_of_isText {c : Char} (h : isText c = true) : step .text c = (.text, true) := by
  have hesc : c ≠ '\x1b' := by rintro rfl; revert h; decide
  have hcan : c ≠ '\x18' := by rintro rfl; revert h; decide
  have hsub : c ≠ '\x1a' := by rintro rfl; revert h; decide
  simp [step, hesc, hcan, hsub, h]

theorem kept_text_eq_self_iff {s : List Char} :
    kept .text s = s ↔ ∀ c ∈ s, isText c = true := by
  constructor
  · intro h c hc
    exact isText_of_mem_kept (h ▸ hc)
  · intro h
    induction s with
    | nil => rfl
    | cons d ds ih =>
      rw [kept, step_text_of_isText (h d (by simp)), ih fun c hc => h c (by simp [hc])]
      rfl

end DataflowSynth.Plain

namespace DataflowSynth

/-- A text without its control characters and control functions. -/
def plain (s : String) : String := String.ofList (Plain.kept .text s.toList)

/-- A plain text has nothing left to take out. -/
theorem plain_plain (s : String) : plain (plain s) = plain s := by
  have h : Plain.kept .text (Plain.kept .text s.toList) = Plain.kept .text s.toList :=
    Plain.kept_text_eq_self_iff.2 fun _ => Plain.isText_of_mem_kept
  simp [plain, h]

end DataflowSynth
