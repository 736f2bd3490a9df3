/-
The text of a procedure says which procedure it is.

A text is its lines, since nothing that is printed on a line ends one.  Blocks are read from the
front: what a list of blocks prints first is an instruction, the opening line of a block that
contains blocks, or nothing at all, and these are told apart by how their lines start and end.  The
lines inside a block end where a brace stands for the first time that no line inside has opened, and
this needs no count: the induction is on the number of lines, with any lines behind that start with
a closing brace.

A basic block prints its instructions and nothing around them.  So a text cannot say where one basic
block ends and the next begins, and procedures are told apart up to that.
-/
import DataflowSynth.Proofs.Procedure.Reading

namespace DataflowSynth

/-! ### Blocks that print alike -/

namespace Block

/-- Blocks with names throughout. -/
def wellNamed : Block → Bool
  | .basic instructions => instructions.all Instruction.wellNamed
  | .branch cond thenBlocks elseBlocks =>
    cond.wellNamed && wellNamedList thenBlocks && wellNamedList elseBlocks
  | .loop cond body => cond.wellNamed && wellNamedList body
  | .mutex blocks => wellNamedList blocks
where
  wellNamedList : List Block → Bool
    | [] => true
    | b :: bs => wellNamed b && wellNamedList bs

/-- The same blocks, except that basic blocks without instructions may be left out and basic blocks
next to each other may be one, at every level of nesting. -/
inductive Alike : List Block → List Block → Prop
  | refl (bs : List Block) : Alike bs bs
  | symm {bs bs' : List Block} (h : Alike bs bs') : Alike bs' bs
  | trans {bs bs' bs'' : List Block} (h : Alike bs bs') (h' : Alike bs' bs'') : Alike bs bs''
  | drop (bs : List Block) : Alike (.basic [] :: bs) bs
  | merge (is js : List Instruction) (bs : List Block) :
    Alike (.basic is :: .basic js :: bs) (.basic (is ++ js) :: bs)
  | behind (b : Block) {bs bs' : List Block} (h : Alike bs bs') : Alike (b :: bs) (b :: bs')
  | branch (cond : Expr) {ts ts' es es' : List Block} (bs : List Block) (ht : Alike ts ts')
    (he : Alike es es') : Alike (.branch cond ts es :: bs) (.branch cond ts' es' :: bs)
  | loop (cond : Expr) {body body' : List Block} (bs : List Block) (h : Alike body body') :
    Alike (.loop cond body :: bs) (.loop cond body' :: bs)
  | mutex {blocks blocks' : List Block} (bs : List Block) (h : Alike blocks blocks') :
    Alike (.mutex blocks :: bs) (.mutex blocks' :: bs)

end Block

/-! ### Lines -/

/-- Nothing in the text ends the line. -/
def OneLine (s : String) : Prop := '\n' ∉ s.toList

@[simp] theorem oneLine_append {s t : String} : OneLine (s ++ t) ↔ OneLine s ∧ OneLine t := by
  simp [OneLine, not_or]

theorem oneLine_of_isIdentifier {s : String} (h : isIdentifier s) : OneLine s := by
  intro hc
  exact absurd (isWordChar_of_mem h hc) (by decide)

theorem oneLine_repr (n : Nat) : OneLine (Nat.repr n) := by
  intro hc
  exact absurd (isDigit_of_mem_repr hc) (by decide)

theorem Expr.oneLine_text {e : Expr} (he : e.wellNamed) : OneLine e.text := by
  induction e with
  | bool b => cases b <;> simp [text, OneLine]
  | int i =>
      intro hc
      exact absurd (isWordChar_of_isWord he rfl _ hc) (by decide)
  | var s =>
      intro hc
      exact absurd (isWordChar_of_isWord he rfl _ hc) (by decide)
  | binary op lhs rhs ihl ihr =>
      rw [wellNamed, Bool.and_eq_true] at he
      have hsymbol : OneLine op.symbol := by cases op <;> simp [BinaryOp.symbol, OneLine]
      simp only [text, oneLine_append, ihl he.1, ihr he.2, hsymbol]
      simp [OneLine]
  | not e ih =>
      simp only [text, oneLine_append, ih he]
      simp [OneLine]

theorem Instruction.oneLine_text {i : Instruction} (hi : i.wellNamed) : OneLine i.text := by
  have hwords : ∀ s ∈ [" = ", ";", " = load ", "store ", " = call ", "();", "call ", " = status ",
      "return ", "return;"], OneLine s := by simp [OneLine]
  simp only [List.forall_mem_cons] at hwords
  rcases i with _ | _ | _ | ⟨_ | _, _⟩ | _ | (_ | _) <;>
    simp only [wellNamed, Bool.and_eq_true, Option.all_some, Option.all_none, true_and] at hi <;>
    simp [text, hwords, hi, oneLine_of_isIdentifier, Expr.oneLine_text]

theorem DataType.oneLine_text {t : DataType} (ht : t.wellNamed) : OneLine t.text := by
  intro hc
  rw [toList_text, List.mem_append] at hc
  rcases hc with hc | hc
  · exact oneLine_of_isIdentifier (isIdentifier_lead ht) hc
  · cases size : t.size? with
    | none => simp [size, sizeText] at hc
    | some n =>
        have hdigits : '\n' ∈ (Nat.repr n.toNat).toList := by simpa [size, sizeText] using hc
        exact oneLine_repr n.toNat hdigits

theorem Variable.oneLine_declaration {v : Variable} (hv : v.wellNamed) : OneLine v.declaration := by
  rw [wellNamed, Bool.and_eq_true] at hv
  simp only [declaration, oneLine_append, oneLine_of_isIdentifier hv.1, DataType.oneLine_text hv.2]
  simp [OneLine]

/-- Texts whose lines are lines have the same lines if they are the same. -/
theorem unlines_inj {ls ls' : List String} (h : ∀ l ∈ ls, OneLine l) (h' : ∀ l ∈ ls', OneLine l)
    (heq : unlines ls = unlines ls') : ls = ls' := by
  have hflat : ∀ ls : List String, (unlines ls).toList = ls.flatMap fun l => l.toList ++ ['\n'] := by
    intro ls
    simp [unlines, String.toList_join, List.flatMap_map]
  have hchars := congrArg String.toList heq
  rw [hflat, hflat] at hchars
  clear heq
  induction ls generalizing ls' with
  | nil =>
      cases ls' with
      | nil => rfl
      | cons l' ls' => simp at hchars
  | cons l ls ih =>
      cases ls' with
      | nil => simp at hchars
      | cons l' ls' =>
          rw [List.forall_mem_cons] at h h'
          simp only [List.flatMap_cons, List.append_assoc, List.singleton_append] at hchars
          have hunbroken : ∀ {s : String}, OneLine s → ∀ c ∈ s.toList, c != '\n' := by
            intro s hs c hc
            simp only [bne_iff_ne]
            rintro rfl
            exact hs hc
          obtain ⟨line, others⟩ := append_inj_of_span (hunbroken h.1) (hunbroken h'.1) (by simp)
            (by simp) hchars
          rw [String.toList_injective line, ih h.2 h'.2 (List.cons.inj others).2]

theorem toList_indented (level : Nat) (s : String) :
    (indented level s).toList = List.replicate level ' ' ++ s.toList := by
  have hspaces : ∀ n, ("".pushn ' ' n).toList = List.replicate n ' ' := by
    intro n
    induction n with
    | zero => rfl
    | succ n ih =>
        rw [List.replicate_succ', ← ih]
        exact String.toList_push _
  rw [indented, String.toList_append, hspaces]

theorem oneLine_indented {level : Nat} {s : String} (h : OneLine s) : OneLine (indented level s) := by
  simp [OneLine, toList_indented, List.mem_replicate]
  exact h

/-- A line that starts in some column with another character than a space. -/
def Visible (s : String) : Prop := ∀ c ∈ s.toList.head?, c ≠ ' '

theorem indented_inj {k l : Nat} {s t : String} (hs : Visible s) (ht : Visible t)
    (h : indented k s = indented l t) : s = t := by
  have hchars := congrArg String.toList h
  rw [toList_indented, toList_indented] at hchars
  obtain ⟨-, hsame⟩ := append_inj_of_span (p := (· = ' '))
    (fun c hc => by simpa using List.eq_of_mem_replicate hc)
    (fun c hc => by simpa using List.eq_of_mem_replicate hc)
    (fun c hc => by simpa using hs c hc) (fun c hc => by simpa using ht c hc) hchars
  exact String.toList_injective hsame

/-! ### Blocks -/

/-- An instruction starts with a word and ends with a semicolon. -/
theorem Instruction.toList_text_ends {i : Instruction} (hi : i.wellNamed) :
    ∃ c cs, i.text.toList = c :: cs ++ [';'] ∧ isNameStart c := by
  obtain ⟨c, cs, hfront, hstart⟩ := exists_cons_of_isIdentifier (isIdentifier_lead hi)
  have hparen : "();".toList = ['(', ')'] ++ [';'] := by decide
  have hlast : ∃ ds, i.tail = ds ++ [';'] := by
    rcases i with _ | _ | _ | ⟨_ | _, _⟩ | _ | (_ | _) <;>
      simp only [tail, source?, operands, hparen, ← List.cons_append, ← List.append_assoc] <;>
      first | exact ⟨_, rfl⟩ | exact ⟨[], rfl⟩
  obtain ⟨ds, hlast⟩ := hlast
  refine ⟨c, cs ++ ds, ?_, hstart⟩
  rw [toList_text, hfront, hlast]
  simp

namespace Block

open Block.lines (linesList)
open Block.wellNamed (wellNamedList)

/-- Blocks that contain blocks. -/
def isCompound : Block → Bool
  | .basic _ => false
  | .branch .. | .loop .. | .mutex _ => true

/-- The first line of a block that contains blocks. -/
def opening : Block → String
  | .basic _ => ""
  | .branch cond _ _ => "if " ++ cond.text ++ " \x7b"
  | .loop cond _ => "while " ++ cond.text ++ " \x7b"
  | .mutex _ => "mutex \x7b"

/-- The lines of such a block behind the first. -/
def inside (level : Nat) : Block → List String
  | .basic _ => []
  | .branch _ thenBlocks elseBlocks =>
    linesList (level + 2) thenBlocks ++
      ((if elseBlocks.isEmpty then []
        else indented level "\x7d else \x7b" :: linesList (level + 2) elseBlocks) ++
      [indented level "\x7d"])
  | .loop _ body => linesList (level + 2) body ++ [indented level "\x7d"]
  | .mutex blocks => linesList (level + 2) blocks ++ [indented level "\x7d"]

theorem lines_eq (level : Nat) {b : Block} (hb : b.isCompound) :
    b.lines level = indented level b.opening :: b.inside level := by
  cases b with
  | basic is => simp [isCompound] at hb
  | branch cond ts es => simp [lines, opening, inside]
  | loop cond body => simp [lines, opening, inside]
  | mutex blocks => simp [lines, opening, inside]

/-- An opening line starts with a letter and ends with a brace. -/
theorem toList_opening {b : Block} (hb : b.isCompound) :
    ∃ c cs, b.opening.toList = c :: cs ++ ['\x7b'] ∧ isNameStart c := by
  cases b with
  | basic is => simp [isCompound] at hb
  | branch cond ts es =>
      exact ⟨'i', "f ".toList ++ (cond.text.toList ++ [' ']), by simp [opening], by decide⟩
  | loop cond body =>
      exact ⟨'w', "hile ".toList ++ (cond.text.toList ++ [' ']), by simp [opening], by decide⟩
  | mutex blocks => exact ⟨'m', "utex ".toList, by simp [opening], by decide⟩

/-- Lines that follow those inside a block: the first starts with the brace that ends it. -/
def Closing (rest : List String) : Prop :=
  ∃ level s ls, rest = indented level ("\x7d" ++ s) :: ls

theorem visible_of_start {s : String} {c : Char} {cs : List Char} (hs : s.toList = c :: cs)
    (hstart : isNameStart c) : Visible s := by
  intro d hd
  rw [hs] at hd
  obtain rfl : c = d := by simpa using hd
  rintro rfl
  exact absurd hstart (by decide)

theorem visible_brace (s : String) : Visible ("\x7d" ++ s) := by
  simp [Visible]

/-- A line that starts with a letter ends no block. -/
theorem not_closing {level : Nat} {s : String} {c : Char} {cs : List Char} {ls : List String}
    (hs : s.toList = c :: cs) (hstart : isNameStart c) : ¬ Closing (indented level s :: ls) := by
  rintro ⟨k, t, ls', heq⟩
  have hsame := indented_inj (visible_of_start hs hstart) (visible_brace t) (List.cons.inj heq).1
  rw [hsame] at hs
  simp only [String.toList_append] at hs
  rw [← (List.cons.inj hs).1] at hstart
  exact absurd hstart (by decide)

/-- No line is both an instruction and the opening of a block. -/
theorem indented_text_ne {k l : Nat} {i : Instruction} {b : Block} (hi : i.wellNamed)
    (hb : b.isCompound) : indented k i.text ≠ indented l b.opening := by
  intro heq
  obtain ⟨c, cs, htext, hstart⟩ := Instruction.toList_text_ends hi
  obtain ⟨d, ds, hopening, hstart'⟩ := toList_opening hb
  have hsame := indented_inj (visible_of_start htext hstart) (visible_of_start hopening hstart') heq
  have hlast : (c :: cs ++ [';']).getLast? = (d :: ds ++ ['\x7b']).getLast? := by
    rw [← htext, ← hopening, hsame]
  rw [List.getLast?_concat, List.getLast?_concat] at hlast
  exact absurd hlast (by decide)

/-- What a list of blocks prints first, and what blocks print the rest. -/
inductive Front (bs : List Block) : Prop
  | done (hlines : ∀ level, linesList level bs = []) (halike : Alike bs [])
  | instruction (i : Instruction) (rest : List Block)
    (hlines : ∀ level, linesList level bs = indented level i.text :: linesList level rest)
    (halike : Alike bs (.basic [i] :: rest))
    (hnamed : wellNamedList bs → i.wellNamed ∧ wellNamedList rest)
  | compound (b : Block) (rest : List Block) (hb : b.isCompound)
    (hlines : ∀ level,
      linesList level bs = indented level b.opening :: (b.inside level ++ linesList level rest))
    (halike : Alike bs (b :: rest)) (hnamed : wellNamedList bs → b.wellNamed ∧ wellNamedList rest)

theorem front_of_compound {b : Block} (bs : List Block) (hb : b.isCompound) : Front (b :: bs) := by
  refine .compound b bs hb (fun level => ?_) (.refl _) fun hnamed => ?_
  · rw [linesList, lines_eq level hb, List.cons_append]
  · simpa [wellNamedList] using hnamed

theorem front (bs : List Block) : Front bs := by
  induction bs with
  | nil => exact .done (fun level => rfl) (.refl [])
  | cons b bs ih =>
      cases b with
      | basic is =>
          cases is with
          | nil =>
              -- an empty basic block prints nothing, so the front is that of the other blocks
              have hsame : ∀ level, linesList level (.basic [] :: bs) = linesList level bs := by
                intro level
                simp [linesList, lines]
              have hnamed : wellNamedList (.basic [] :: bs) = wellNamedList bs := by
                simp [wellNamedList, wellNamed]
              cases ih with
              | done hlines halike =>
                  exact .done (fun level => by rw [hsame, hlines]) (.trans (.drop bs) halike)
              | instruction i rest hlines halike hi =>
                  exact .instruction i rest (fun level => by rw [hsame, hlines])
                    (.trans (.drop bs) halike) (by rwa [hnamed])
              | compound c rest hc hlines halike hi =>
                  exact .compound c rest hc (fun level => by rw [hsame, hlines])
                    (.trans (.drop bs) halike) (by rwa [hnamed])
          | cons i is =>
              refine .instruction i (.basic is :: bs) (fun level => ?_) (.symm (.merge [i] is bs))
                fun hnamed => ?_
              · simp [linesList, lines]
              · simpa [wellNamedList, wellNamed, and_assoc] using hnamed
      | branch cond ts es => exact front_of_compound bs rfl
      | loop cond body => exact front_of_compound bs rfl
      | mutex blocks => exact front_of_compound bs rfl

/-- Two opening lines that are the same open blocks of one kind under one condition. -/
inductive SameOpening : Block → Block → Prop
  | branch (cond : Expr) (ts es ts' es' : List Block) :
    SameOpening (.branch cond ts es) (.branch cond ts' es')
  | loop (cond : Expr) (body body' : List Block) : SameOpening (.loop cond body) (.loop cond body')
  | mutex (blocks blocks' : List Block) : SameOpening (.mutex blocks) (.mutex blocks')

theorem sameOpening {b b' : Block} (hb : b.isCompound) (hb' : b'.isCompound) (hnamed : b.wellNamed)
    (hnamed' : b'.wellNamed) (h : b.opening = b'.opening) : SameOpening b b' := by
  have hchars := congrArg String.toList h
  have hends : Ends " \x7b".toList := ends_cons (by decide)
  cases b with
  | basic is => simp [isCompound] at hb
  | branch cond ts es =>
      cases b' with
      | basic is => simp [isCompound] at hb'
      | branch cond' ts' es' =>
          simp only [wellNamed, Bool.and_eq_true] at hnamed hnamed'
          simp only [opening, String.toList_append, List.append_assoc] at hchars
          obtain ⟨rfl, -⟩ := Expr.text_append_inj hnamed.1.1 hnamed'.1.1 hends hends
            (List.append_cancel_left hchars)
          exact .branch ..
      | loop cond' body' => simp [opening] at hchars
      | mutex blocks' => simp [opening] at hchars
  | loop cond body =>
      cases b' with
      | basic is => simp [isCompound] at hb'
      | branch cond' ts' es' => simp [opening] at hchars
      | loop cond' body' =>
          simp only [wellNamed, Bool.and_eq_true] at hnamed hnamed'
          simp only [opening, String.toList_append, List.append_assoc] at hchars
          obtain ⟨rfl, -⟩ := Expr.text_append_inj hnamed.1 hnamed'.1 hends hends
            (List.append_cancel_left hchars)
          exact .loop ..
      | mutex blocks' => simp [opening] at hchars
  | mutex blocks =>
      cases b' with
      | basic is => simp [isCompound] at hb'
      | branch cond' ts' es' => simp [opening] at hchars
      | loop cond' body' => simp [opening] at hchars
      | mutex blocks' => exact .mutex ..

theorem closing_brace (level : Nat) (ls : List String) : Closing (indented level "\x7d" :: ls) :=
  ⟨level, "", ls, rfl⟩

theorem closing_else (level : Nat) (ls : List String) :
    Closing (indented level "\x7d else \x7b" :: ls) :=
  ⟨level, " else \x7b", ls, rfl⟩

/-- Lists of blocks with fewer lines than `n` are read off the start of any lines. -/
def Readable (n : Nat) : Prop :=
  ∀ {level : Nat} {bs bs' : List Block} {rest rest' : List String},
    (linesList level bs).length < n → wellNamedList bs → wellNamedList bs' → Closing rest →
      Closing rest' → linesList level bs ++ rest = linesList level bs' ++ rest' →
      Alike bs bs' ∧ rest = rest'

/-- The blocks inside a block end with the brace that belongs to it. -/
theorem inside_append_inj {n level : Nat} {b b' : Block} {rest rest' : List String}
    (ih : Readable n) (hn : (b.inside level).length < n) (hsame : SameOpening b b')
    (hnamed : b.wellNamed) (hnamed' : b'.wellNamed)
    (h : b.inside level ++ rest = b'.inside level ++ rest') :
    (∀ bs, Alike (b :: bs) (b' :: bs)) ∧ rest = rest' := by
  cases hsame with
  | branch cond ts es ts' es' =>
      simp only [wellNamed, Bool.and_eq_true] at hnamed hnamed'
      simp only [inside, List.append_assoc] at h
      simp only [inside, List.length_append] at hn
      have hclosing : ∀ (ds : List Block) (ls : List String), Closing ((if ds.isEmpty then []
          else indented level "\x7d else \x7b" :: linesList (level + 2) ds) ++
            ([indented level "\x7d"] ++ ls)) := by
        intro ds ls
        cases ds with
        | nil => exact closing_brace level ls
        | cons d ds => exact closing_else level _
      obtain ⟨ht, hbehind⟩ := ih (by omega) hnamed.1.2 hnamed'.1.2 (hclosing es rest)
        (hclosing es' rest') h
      have hbrace : indented level "\x7d" ≠ indented level "\x7d else \x7b" := by
        intro heq
        exact absurd (indented_inj (visible_brace "") (visible_brace " else \x7b") heq) (by decide)
      cases es with
      | nil =>
          cases es' with
          | nil =>
              have others := (List.cons.inj hbehind).2
              exact ⟨fun bs => .branch cond bs ht (.refl []), others⟩
          | cons e' es' => exact absurd (List.cons.inj hbehind).1 hbrace
      | cons e es =>
          cases es' with
          | nil => exact absurd (List.cons.inj hbehind).1.symm hbrace
          | cons e' es' =>
              have hinner := (List.cons.inj hbehind).2
              simp only [List.isEmpty_cons, Bool.false_eq_true, if_false, List.length_cons] at hn
              obtain ⟨he, others⟩ := ih (by omega) hnamed.2 hnamed'.2 (closing_brace level rest)
                (closing_brace level rest') hinner
              exact ⟨fun bs => .branch cond bs ht he, (List.cons.inj others).2⟩
  | loop cond body body' =>
      simp only [wellNamed, Bool.and_eq_true] at hnamed hnamed'
      simp only [inside, List.append_assoc] at h
      simp only [inside, List.length_append] at hn
      obtain ⟨halike, hbehind⟩ := ih (by omega) hnamed.2 hnamed'.2 (closing_brace level rest)
        (closing_brace level rest') h
      exact ⟨fun bs => .loop cond bs halike, (List.cons.inj hbehind).2⟩
  | mutex blocks blocks' =>
      simp only [wellNamed] at hnamed hnamed'
      simp only [inside, List.append_assoc] at h
      simp only [inside, List.length_append] at hn
      obtain ⟨halike, hbehind⟩ := ih (by omega) hnamed hnamed' (closing_brace level rest)
        (closing_brace level rest') h
      exact ⟨fun bs => .mutex bs halike, (List.cons.inj hbehind).2⟩

/-- Lines that blocks start with do not end the block that these blocks stand in. -/
theorem not_closing_of_lines {level : Nat} {bs : List Block} {l : String} {ls ls' : List String}
    (hnamed : wellNamedList bs) (h : linesList level bs = l :: ls) : ¬ Closing (l :: ls') := by
  cases front bs with
  | done hlines halike => simp [hlines] at h
  | instruction i rest hlines halike hinner =>
      obtain ⟨c, cs, htext, hstart⟩ := Instruction.toList_text_ends (hinner hnamed).1
      rw [hlines] at h
      rw [← (List.cons.inj h).1]
      exact not_closing htext hstart
  | compound b rest hb hlines halike hinner =>
      obtain ⟨c, cs, hopening, hstart⟩ := toList_opening hb
      rw [hlines] at h
      rw [← (List.cons.inj h).1]
      exact not_closing hopening hstart

/-- Blocks that print nothing are told from others by what follows. -/
theorem lines_eq_nil_of_closing {level : Nat} {bs : List Block} {rest rest' : List String}
    (hnamed : wellNamedList bs) (hrest : Closing rest) (h : rest = linesList level bs ++ rest') :
    linesList level bs = [] := by
  cases hlines : linesList level bs with
  | nil => rfl
  | cons l ls =>
      rw [hlines, List.cons_append] at h
      rw [h] at hrest
      exact absurd hrest (not_closing_of_lines hnamed hlines)

theorem text_eq_of_indented {k l : Nat} {i i' : Instruction} (hi : i.wellNamed) (hi' : i'.wellNamed)
    (h : indented k i.text = indented l i'.text) : i = i' := by
  obtain ⟨c, cs, htext, hstart⟩ := Instruction.toList_text_ends hi
  obtain ⟨c', cs', htext', hstart'⟩ := Instruction.toList_text_ends hi'
  exact Instruction.text_inj hi hi'
    (indented_inj (visible_of_start htext hstart) (visible_of_start htext' hstart') h)

theorem opening_eq_of_indented {k l : Nat} {b b' : Block} (hb : b.isCompound) (hb' : b'.isCompound)
    (h : indented k b.opening = indented l b'.opening) : b.opening = b'.opening := by
  obtain ⟨c, cs, hopening, hstart⟩ := toList_opening hb
  obtain ⟨c', cs', hopening', hstart'⟩ := toList_opening hb'
  exact indented_inj (visible_of_start hopening hstart) (visible_of_start hopening' hstart') h

/-- Lists of blocks can be read off the start of lines, whatever number of lines they have. -/
theorem readable (n : Nat) : Readable n := by
  induction n with
  | zero => exact fun hn => absurd hn (Nat.not_lt_zero _)
  | succ n ih =>
      intro level bs bs' rest rest' hn hnamed hnamed' hrest hrest' h
      cases front bs with
      | done hlines halike =>
          rw [hlines, List.nil_append] at h
          have hnone' := lines_eq_nil_of_closing hnamed' hrest h
          cases front bs' with
          | done hlines' halike' =>
              rw [hnone', List.nil_append] at h
              exact ⟨.trans halike (.symm halike'), h⟩
          | instruction i' others' hlines' halike' hinner' => simp [hlines'] at hnone'
          | compound b' others' hb' hlines' halike' hinner' => simp [hlines'] at hnone'
      | instruction i others hlines halike hinner =>
          cases front bs' with
          | done hlines' halike' =>
              rw [hlines', List.nil_append] at h
              have hnone := lines_eq_nil_of_closing hnamed hrest' h.symm
              simp [hlines] at hnone
          | instruction i' others' hlines' halike' hinner' =>
              simp only [hlines, hlines', List.cons_append, List.cons.injEq] at h
              simp only [hlines, List.length_cons] at hn
              obtain ⟨hi, hothers⟩ := hinner hnamed
              obtain ⟨hi', hothers'⟩ := hinner' hnamed'
              obtain rfl := text_eq_of_indented hi hi' h.1
              obtain ⟨hsame, hbehind⟩ := ih (by omega) hothers hothers' hrest hrest' h.2
              exact ⟨.trans halike (.trans (.behind _ hsame) (.symm halike')), hbehind⟩
          | compound b' others' hb' hlines' halike' hinner' =>
              simp only [hlines, hlines', List.cons_append, List.cons.injEq] at h
              exact absurd h.1 (indented_text_ne (hinner hnamed).1 hb')
      | compound b others hb hlines halike hinner =>
          cases front bs' with
          | done hlines' halike' =>
              rw [hlines', List.nil_append] at h
              have hnone := lines_eq_nil_of_closing hnamed hrest' h.symm
              simp [hlines] at hnone
          | instruction i' others' hlines' halike' hinner' =>
              simp only [hlines, hlines', List.cons_append, List.cons.injEq] at h
              exact absurd h.1.symm (indented_text_ne (hinner' hnamed').1 hb)
          | compound b' others' hb' hlines' halike' hinner' =>
              simp only [hlines, hlines', List.cons_append, List.append_assoc, List.cons.injEq] at h
              simp only [hlines, List.length_cons, List.length_append] at hn
              obtain ⟨hself, hothers⟩ := hinner hnamed
              obtain ⟨hself', hothers'⟩ := hinner' hnamed'
              have hsame := sameOpening hb hb' hself hself' (opening_eq_of_indented hb hb' h.1)
              obtain ⟨inside, hbehind⟩ := inside_append_inj ih (by omega) hsame hself hself' h.2
              obtain ⟨others_, behind'⟩ := ih (by omega) hothers hothers' hrest hrest' hbehind
              exact ⟨.trans halike (.trans (.behind b others_) (.trans (inside _) (.symm halike'))),
                behind'⟩

end Block

/-! ### Procedures -/

namespace Block

open Block.lines (linesList)
open Block.wellNamed (wellNamedList)

mutual

theorem oneLine_lines (level : Nat) :
    (b : Block) → b.wellNamed → ∀ l ∈ b.lines level, OneLine l
  | .basic is, hnamed => by
      intro l hl
      obtain ⟨i, hi, rfl⟩ := List.mem_map.mp hl
      simp only [wellNamed, List.all_eq_true] at hnamed
      exact oneLine_indented (Instruction.oneLine_text (hnamed i hi))
  | .branch cond ts es, hnamed => by
      simp only [wellNamed, Bool.and_eq_true] at hnamed
      have hopening : OneLine ("if " ++ cond.text ++ " \x7b") := by
        simp only [oneLine_append, Expr.oneLine_text hnamed.1.1]
        simp [OneLine]
      have ht := oneLine_linesList (level + 2) ts hnamed.1.2
      have he := oneLine_linesList (level + 2) es hnamed.2
      have between : OneLine (indented level "\x7d else \x7b") :=
        oneLine_indented (by simp [OneLine])
      have hbrace : OneLine (indented level "\x7d") := oneLine_indented (by simp [OneLine])
      intro l hl
      rw [lines] at hl
      split at hl <;> simp only [List.mem_append, List.mem_cons, List.not_mem_nil, or_false] at hl
      · rcases hl with (rfl | hl) | rfl
        · exact oneLine_indented hopening
        · exact ht l hl
        · exact hbrace
      · rcases hl with ((rfl | hl) | rfl | hl) | rfl
        · exact oneLine_indented hopening
        · exact ht l hl
        · exact between
        · exact he l hl
        · exact hbrace
  | .loop cond body, hnamed => by
      simp only [wellNamed, Bool.and_eq_true] at hnamed
      have hopening : OneLine ("while " ++ cond.text ++ " \x7b") := by
        simp only [oneLine_append, Expr.oneLine_text hnamed.1]
        simp [OneLine]
      intro l hl
      rw [lines] at hl
      simp only [List.mem_append, List.mem_cons, List.not_mem_nil, or_false] at hl
      rcases hl with (rfl | hl) | rfl
      · exact oneLine_indented hopening
      · exact oneLine_linesList (level + 2) body hnamed.2 l hl
      · exact oneLine_indented (by simp [OneLine])
  | .mutex blocks, hnamed => by
      intro l hl
      rw [lines] at hl
      simp only [List.mem_append, List.mem_cons, List.not_mem_nil, or_false] at hl
      rcases hl with (rfl | hl) | rfl
      · exact oneLine_indented (by simp [OneLine])
      · exact oneLine_linesList (level + 2) blocks hnamed l hl
      · exact oneLine_indented (by simp [OneLine])

theorem oneLine_linesList (level : Nat) :
    (bs : List Block) → wellNamedList bs → ∀ l ∈ linesList level bs, OneLine l
  | [], _ => by simp [linesList]
  | b :: bs, hnamed => by
      rw [wellNamedList, Bool.and_eq_true] at hnamed
      intro l hl
      rcases List.mem_append.mp hl with hl | hl
      · exact oneLine_lines level b hnamed.1 l hl
      · exact oneLine_linesList level bs hnamed.2 l hl

end

end Block

namespace Procedure

open Block.lines (linesList)
open Block.wellNamed (wellNamedList)

/-- Procedures with names throughout. -/
def wellNamed (p : Procedure) : Bool :=
  isIdentifier p.name && p.returnType.wellNamed && p.locals.all Variable.wellNamed &&
    wellNamedList p.blocks

def header (p : Procedure) : String :=
  "procedure " ++ p.name ++ "(): " ++ p.returnType.text ++ " \x7b"

/-- The line of locals, behind the spaces in front of it. -/
def localsText (vs : List Variable) : String :=
  "locals " ++ ", ".intercalate (vs.map Variable.declaration) ++ ";"

/-- What stands between the first line and the last. -/
def body (p : Procedure) : List String :=
  (if p.locals.isEmpty then [] else [indented 2 (localsText p.locals)]) ++ linesList 2 p.blocks

theorem lines_eq (p : Procedure) : p.lines = p.header :: (p.body ++ ["\x7d"]) := by
  have column : ∀ s : String, "  locals " ++ s ++ ";" = indented 2 ("locals " ++ s ++ ";") := by
    intro s
    apply String.toList_injective
    simp [toList_indented, List.replicate]
  simp only [lines, header, body, localsText, column, List.cons_append, List.append_assoc]

theorem header_inj {p q : Procedure} (hp : p.wellNamed) (hq : q.wellNamed)
    (h : p.header = q.header) : p.name = q.name ∧ p.returnType = q.returnType := by
  simp only [wellNamed, Bool.and_eq_true] at hp hq
  have hchars := congrArg String.toList h
  simp only [header, String.toList_append, List.append_assoc] at hchars
  have hparen : ∀ s, Bounded ("(): ".toList ++ s) := fun s => bounded_cons (by decide)
  have hends : Ends " \x7b".toList := ends_cons (by decide)
  obtain ⟨hname, behind⟩ := identifier_append_inj hp.1.1.1 hq.1.1.1 (hparen _) (hparen _)
    (List.append_cancel_left hchars)
  obtain ⟨htype, -⟩ := DataType.text_append_inj hp.1.1.2 hq.1.1.2 hends hends
    (List.append_cancel_left behind)
  exact ⟨hname, htype⟩

theorem toList_localsText (vs : List Variable) :
    (localsText vs).toList = "locals".toList ++ ' ' :: Variable.declarations vs := by
  simp [localsText, Variable.declarations]

theorem visible_localsText (vs : List Variable) : Visible (localsText vs) := by
  simp [Visible, toList_localsText]

/-- No block prints a line of locals: an instruction goes on with an equals sign behind such a word. -/
theorem localsText_ne {v : Variable} {vs : List Variable} {bs : List Block} {ls : List String}
    (hv : v.wellNamed) (hnamed : wellNamedList bs) :
    linesList 2 bs ≠ indented 2 (localsText (v :: vs)) :: ls := by
  intro h
  have hvisible := visible_localsText (v :: vs)
  cases Block.front bs with
  | done hlines halike => simp [hlines] at h
  | instruction i rest hlines halike hinner =>
      have hi := (hinner hnamed).1
      obtain ⟨c, cs, htext, hstart⟩ := Instruction.toList_text_ends hi
      rw [hlines] at h
      have hsame := indented_inj (Block.visible_of_start htext hstart) hvisible (List.cons.inj h).1
      have hchars := congrArg String.toList hsame
      rw [Instruction.toList_text, toList_localsText] at hchars
      have locals : isIdentifier "locals" := by decide
      obtain ⟨hlead, htail⟩ := identifier_append_inj (Instruction.isIdentifier_lead hi) locals
        (Instruction.bounded_tail i) (bounded_cons (by decide)) hchars
      cases source : i.source? with
      | none =>
          -- a keyword is another word
          rcases i with _ | _ | _ | ⟨_ | _, _⟩ | _ | (_ | _) <;>
            simp [Instruction.source?, Instruction.lead] at source hlead
      | some p =>
          rw [Variable.wellNamed, Bool.and_eq_true] at hv
          obtain ⟨d, ds, name, letter⟩ := exists_cons_of_isIdentifier hv.1
          simp [Instruction.tail, source, Variable.declarations_cons, Variable.declaration,
            name] at htail
          rw [← htail.1] at letter
          exact absurd letter (by decide)
  | compound b rest hb hlines halike hinner =>
      obtain ⟨c, cs, hopening, hstart⟩ := Block.toList_opening hb
      rw [hlines] at h
      have hsame := indented_inj (Block.visible_of_start hopening hstart) hvisible (List.cons.inj h).1
      have hlast : (c :: cs ++ ['\x7b']).getLast? =
          ("locals ".toList ++ (", ".intercalate ((v :: vs).map Variable.declaration)).toList ++
            [';']).getLast? := by
        rw [← hopening, hsame]
        simp [localsText]
      rw [List.getLast?_concat, List.getLast?_concat] at hlast
      exact absurd hlast (by decide)

/-- Blocks that print the same lines are alike. -/
theorem alike_of_linesList {level : Nat} {bs bs' : List Block} (hnamed : wellNamedList bs)
    (hnamed' : wellNamedList bs') (h : linesList level bs = linesList level bs') :
    Block.Alike bs bs' := by
  have hclosing : Block.Closing [indented 0 "\x7d"] := Block.closing_brace 0 []
  exact (Block.readable _ (Nat.lt_succ_self _) hnamed hnamed' hclosing hclosing (by rw [h])).1

theorem body_inj {p q : Procedure} (hp : p.wellNamed) (hq : q.wellNamed) (h : p.body = q.body) :
    p.locals.map (fun v => (v.name, v.type)) = q.locals.map (fun v => (v.name, v.type)) ∧
      Block.Alike p.blocks q.blocks := by
  simp only [wellNamed, Bool.and_eq_true, List.all_eq_true] at hp hq
  simp only [body] at h
  cases hlocals : p.locals with
  | nil =>
      cases hlocals' : q.locals with
      | nil =>
          simp only [hlocals, hlocals', List.isEmpty_nil, if_true, List.nil_append] at h
          exact ⟨rfl, alike_of_linesList hp.2 hq.2 h⟩
      | cons w ws =>
          have hw : w.wellNamed := hq.1.2 w (by simp [hlocals'])
          simp only [hlocals, hlocals', List.isEmpty_nil, List.isEmpty_cons, if_true,
            Bool.false_eq_true, if_false, List.nil_append, List.singleton_append] at h
          exact absurd h (localsText_ne hw hp.2)
  | cons v vs =>
      have hv : v.wellNamed := hp.1.2 v (by simp [hlocals])
      cases hlocals' : q.locals with
      | nil =>
          simp only [hlocals, hlocals', List.isEmpty_nil, List.isEmpty_cons, if_true,
            Bool.false_eq_true, if_false, List.nil_append, List.singleton_append] at h
          exact absurd h.symm (localsText_ne hv hq.2)
      | cons w ws =>
          simp only [hlocals, hlocals', List.isEmpty_cons, Bool.false_eq_true, if_false,
            List.singleton_append, List.cons.injEq] at h
          have htext := indented_inj (visible_localsText _) (visible_localsText _) h.1
          have hchars := congrArg String.toList htext
          rw [toList_localsText, toList_localsText] at hchars
          have hdeclared := (List.cons.inj (List.append_cancel_left hchars)).2
          refine ⟨Variable.declarations_inj ?_ ?_ hdeclared, alike_of_linesList hp.2 hq.2 h.2⟩
          · rw [← hlocals]
            exact hp.1.2
          · rw [← hlocals']
            exact hq.1.2

theorem oneLine_of_mem {p : Procedure} (hp : p.wellNamed) : ∀ l ∈ p.lines, OneLine l := by
  simp only [wellNamed, Bool.and_eq_true, List.all_eq_true] at hp
  have header : OneLine p.header := by
    simp only [header, oneLine_append, oneLine_of_isIdentifier hp.1.1.1,
      DataType.oneLine_text hp.1.1.2]
    simp [OneLine]
  have locals : OneLine (localsText p.locals) := by
    have declared : ∀ vs : List Variable, (∀ v ∈ vs, v.wellNamed) →
        OneLine (", ".intercalate (vs.map Variable.declaration)) := by
      intro vs hvs
      induction vs with
      | nil => simp [OneLine]
      | cons v vs ih =>
          rw [List.forall_mem_cons] at hvs
          have first := Variable.oneLine_declaration hvs.1
          cases vs with
          | nil => simpa using first
          | cons w vs =>
              have others := ih hvs.2
              have comma : OneLine ", " := by simp [OneLine]
              simp only [List.map_cons, String.intercalate_cons_cons] at others ⊢
              simp only [oneLine_append, first, comma, others, and_self]
    simp only [localsText, oneLine_append, declared _ hp.1.2]
    simp [OneLine]
  intro l hl
  simp only [lines_eq, body, List.mem_cons, List.mem_append, List.not_mem_nil, or_false] at hl
  rcases hl with rfl | (hl | hl) | rfl
  · exact header
  · split at hl
    · simp at hl
    · rw [List.mem_singleton.mp hl]
      exact oneLine_indented locals
  · exact Block.oneLine_linesList 2 p.blocks hp.2 l hl
  · simp [OneLine]

end Procedure

/-- The text of a procedure says its name, its type, the names and types of its locals, and its
blocks up to where basic blocks end; and that of an expression says the expression. -/
theorem text_unambiguous :
    (∀ p q : Procedure, p.wellNamed → q.wellNamed → p.text = q.text →
      p.name = q.name ∧ p.returnType = q.returnType ∧
        p.locals.map (fun v => (v.name, v.type)) = q.locals.map (fun v => (v.name, v.type)) ∧
        Block.Alike p.blocks q.blocks) ∧
      ∀ e e' : Expr, e.wellNamed → e'.wellNamed → e.text = e'.text → e = e' := by
  constructor
  · intro p q hp hq h
    have hlines := unlines_inj (Procedure.oneLine_of_mem hp) (Procedure.oneLine_of_mem hq) h
    rw [Procedure.lines_eq, Procedure.lines_eq, List.cons.injEq] at hlines
    obtain ⟨hname, htype⟩ := Procedure.header_inj hp hq hlines.1
    obtain ⟨hlocals, hblocks⟩ := Procedure.body_inj hp hq (List.append_cancel_right hlines.2)
    exact ⟨hname, htype, hlocals, hblocks⟩
  · intro e e' he he' h
    exact Expr.text_inj he he' h

/-- A procedure that nests blocks and has a local called like what stands in front of locals. -/
def countdown : Procedure where
  name := "countdown"
  returnType := .object "int"
  locals := [⟨"locals", .int 32, some 5⟩, ⟨"é", .object "queue", none⟩]
  blocks :=
    [.loop (.not (.binary .le (.var "locals") (.int (-1))))
      [.basic [.assign "locals" (.binary .minus (.var "locals") (.int 1)), .call none "store"],
        .branch (.var "é") [.basic []] [.basic [.ret (some (.var "load"))]]]]

/-- The same, with its basic blocks cut up and no initial value. -/
def countdownInPieces : Procedure where
  name := "countdown"
  returnType := .object "int"
  locals := [⟨"locals", .int 32, none⟩, ⟨"é", .object "queue", none⟩]
  blocks :=
    [.basic [], .loop (.not (.binary .le (.var "locals") (.int (-1))))
      [.basic [.assign "locals" (.binary .minus (.var "locals") (.int 1))], .basic [],
        .basic [.call none "store"],
        .branch (.var "é") [] [.basic [.ret (some (.var "load"))], .basic []]]]

theorem text_unambiguous_countdown :
    (countdown.locals.map (fun v => (v.name, v.type)) =
        countdownInPieces.locals.map (fun v => (v.name, v.type)) ∧
      Block.Alike countdown.blocks countdownInPieces.blocks) ∧
      Expr.not (.int 7) = .not (.int 7) :=
  ⟨(text_unambiguous.1 countdown countdownInPieces (by decide) (by decide) rfl).2.2,
    text_unambiguous.2 (.not (.int 7)) (.not (.int 7)) (by decide) (by decide) rfl⟩

end DataflowSynth
