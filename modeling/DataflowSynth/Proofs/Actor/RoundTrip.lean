/-
Loading undoes writing.

An actor or procedure is written as a document and loaded from its text.  The text reads back as
the document, so what is left is one statement for every form: what was written comes into the
shape of the form, and the value read off it is the one that was written.  Forms that carry a tag
are read from a held value, so depth matters only down to the outermost of them.
-/
import DataflowSynth.Actor.Document
import DataflowSynth.Proofs.Json.Conforming

namespace DataflowSynth

open Json Actor

/-! ### Numbers -/

theorem uint32?_ofWord (n : UInt32) : (ofWord n).uint32? = some n := by
  have : n.toNat < UInt32.size := n.toNat_lt_size
  simp [ofWord, Json.ofNat, uint32?, Number.ofNat, Number.toUInt32?, this]

theorem int64?_ofInt64 (i : Int64) : (ofInt64 i).int64? = some i := by
  have hlow := i.le_toInt
  have hhigh := i.toInt_lt
  have hsize : UInt64.size / 2 = 2 ^ 63 := by decide
  by_cases hnegative : i.toInt < 0
  · have hvalue : -(i.toInt.natAbs : Int) = i.toInt := by omega
    simp only [ofInt64, Json.ofInt, int64?, Number.ofInt, hnegative, decide_true, Number.toInt64?,
      hsize, hvalue, Int64.ofInt_toInt]
    rw [if_pos (by omega)]
  · have hvalue : (i.toInt.natAbs : Int) = i.toInt := by omega
    simp only [ofInt64, Json.ofInt, int64?, Number.ofInt, hnegative, decide_false, Number.toInt64?,
      hsize, hvalue, Int64.ofInt_toInt]
    rw [if_pos (by omega)]

@[simp] theorem whole_ofWord (n : UInt32) : Whole (ofWord n) := by
  have hsmall : n.toNat < UInt32.size := n.toNat_lt_size
  exact .num false (Nat.lt_trans hsmall (by decide))

@[simp] theorem whole_ofInt64 (i : Int64) : Whole (ofInt64 i) := by
  have hlow := i.le_toInt
  have hhigh := i.toInt_lt
  have hsize : UInt64.size = 2 ^ 64 := rfl
  exact .num _ (by omega)

/-! ### Values and members -/

@[simp] theorem whole_string (s : String) : Whole (string s) := .str s

@[simp] theorem whole_flag (b : Bool) : Whole (.bool b) := .bool b

theorem whole_ifSome {α : Type} {name : String} {write : α → Json} {x : Option α}
    (h : ∀ y ∈ x, Whole (write y)) : ∀ e ∈ ifSome name write x, Whole e.2 := by
  cases x with
  | none => simp [ifSome]
  | some y => simpa [ifSome] using h

theorem whole_map {α : Type} {write : α → Json} {xs : List α} (h : ∀ x ∈ xs, Whole (write x)) :
    Whole (list (xs.map write)) := by
  refine whole_list fun j hj => ?_
  obtain ⟨x, hx, rfl⟩ := List.mem_map.1 hj
  exact h x hx

@[simp] theorem fields_record (members : List (String × Json)) :
    (record members).fields = members.map Prod.snd := by
  simp [record, fields]

@[simp] theorem string?_string (s : String) : (string s).string? = some s := rfl

/-! ### Reading off -/

/-- What is written as `j` comes into the shape of the slot, and `read?` then gives `x`. -/
def Yields {α : Type} (m : Mode) (slot : Slot Form) (j : Json) (read? : Json → Option α) (x : α) :
    Prop :=
  ∃ v, conform Form.schema m slot j = .ok v ∧ read? v = some x

theorem yields_text (m : Mode) (s : String) : Yields m (.one .text) (string s) Json.string? s :=
  ⟨string s, by simp [conform_text, conformText, Slot.item?], rfl⟩

theorem yields_flag (m : Mode) (b : Bool) : Yields m (.one .flag) (.bool b) Json.bool? b :=
  ⟨.bool b, by simp [conform_bool, Slot.item?], rfl⟩

theorem yields_word32 (m : Mode) (n : UInt32) :
    Yields m (.one .word32) (ofWord n) Json.uint32? n := by
  have hvalue := uint32?_ofWord n
  refine ⟨ofWord n, ?_, hvalue⟩
  simp only [ofWord, Json.ofNat, uint32?] at hvalue ⊢
  simp [conform_number, conformNumber, Slot.item?, hvalue]

theorem yields_int64 (m : Mode) (i : Int64) :
    Yields m (.one .int64) (ofInt64 i) Json.int64? i := by
  have hvalue := int64?_ofInt64 i
  refine ⟨ofInt64 i, ?_, hvalue⟩
  simp only [ofInt64, Json.ofInt, int64?] at hvalue ⊢
  simp [conform_number, conformNumber, Slot.item?, hvalue]

section
variable {α : Type} {m : Mode} {i : Item Form} {read? : Json → Option α}

theorem yields_list (xs : List α) {write : α → Json} (hfits : m.Fits (list (xs.map write)))
    (h : ∀ inner : Mode, ∀ x ∈ xs, inner.Fits (write x) → Yields inner (.one i) (write x) read? x) :
    Yields m (.list i) (list (xs.map write)) (Json.list? read?) xs := by
  obtain ⟨inner, henter, hdeeper⟩ := hfits.enter_list
  have items : ∃ full, conformItems Form.schema inner i (xs.map write) = .ok full ∧
      full.mapM read? = some xs := by
    clear hfits
    induction xs with
    | nil => exact ⟨[], by simp [conformItems], rfl⟩
    | cons x xs ih =>
      obtain ⟨v, hv, rv⟩ := h inner x (by simp) (hdeeper _ (by simp))
      obtain ⟨full, hfull, rfull⟩ := ih (fun n y hy => h n y (by simp [hy]))
        (fun j hj => hdeeper j (List.mem_cons_of_mem _ hj))
      refine ⟨v :: full, ?_, by simp [rv, rfull]⟩
      simp only [List.map_cons, conformItems, hv, hfull]
      rfl
  obtain ⟨full, hfull, rfull⟩ := items
  exact ⟨list full, conform_list henter hfull, by simp [Json.list?, items?, list, rfull]⟩

/-- An optional member is written if it is there and read back as it is. -/
theorem fills_maybe (name : String) {write : α → Json} (x : Option α) (hnull : read? .null = none)
    (h : ∀ y ∈ x, Yields m (.one i) (write y) read? y) :
    ∃ v front, Json.optional? read? v = some x ∧
      ∀ {fields written found full}, Fills Form.schema m fields written found full →
        Fills Form.schema m (⟨name, .optional i, some .null⟩ :: fields)
          (ifSome name write x ++ written) (front ++ found) ((name, v) :: full) := by
  cases x with
  | none => exact ⟨.null, [], rfl, fun others => .absent rfl others⟩
  | some y =>
    obtain ⟨v, hv, rv⟩ := h y rfl
    refine ⟨v, [(name, v)], ?_, fun others => .present (conform_optional hv) others⟩
    cases v with
    | null => simp [hnull] at rv
    | _ => simp [Json.optional?, rv]

theorem fills_last (name : String) {write : α → Json} (x : Option α) (hnull : read? .null = none)
    (h : ∀ y ∈ x, Yields m (.one i) (write y) read? y) :
    ∃ v found, Json.optional? read? v = some x ∧
      Fills Form.schema m [⟨name, .optional i, some .null⟩] (ifSome name write x) found
        [(name, v)] := by
  obtain ⟨v, front, rv, hv⟩ := fills_maybe name x hnull h
  exact ⟨v, front, rv, by simpa using hv .nil⟩

end

/-! ### Types and variables -/

@[simp] theorem whole_type (t : DataType) : Whole t.toJson := by
  cases t <;> exact whole_record (by simp)

theorem yields_type {m : Mode} {t : DataType} (hfits : m.Fits t.toJson) :
    Yields m (.one (.form .type)) t.toJson DataType.ofJson? t := by
  cases t with
  | bool => exact ⟨_, conform_tagged rfl rfl (by decide) (by simp) hfits .nil, rfl⟩
  | int size =>
    obtain ⟨v, hv, rv⟩ := yields_word32 .held size
    exact ⟨_, conform_tagged rfl rfl (by decide) (by simp) hfits (.present hv .nil),
      by simp [DataType.ofJson?, rv]⟩
  | uint size =>
    obtain ⟨v, hv, rv⟩ := yields_word32 .held size
    exact ⟨_, conform_tagged rfl rfl (by decide) (by simp) hfits (.present hv .nil),
      by simp [DataType.ofJson?, rv]⟩
  | void => exact ⟨_, conform_tagged rfl rfl (by decide) (by simp) hfits .nil, rfl⟩
  | object name =>
    obtain ⟨v, hv, rv⟩ := yields_text .held name
    exact ⟨_, conform_tagged rfl rfl (by decide) (by simp) hfits (.present hv .nil),
      by simp [DataType.ofJson?, rv]⟩

@[simp] theorem whole_variable (v : Variable) : Whole v.toJson :=
  whole_record (List.forall_mem_append.2 ⟨by simp, whole_ifSome (by simp)⟩)

theorem yields_variable {m : Mode} {v : Variable} (hfits : m.Fits v.toJson) :
    Yields m (.one (.form .variable)) v.toJson Variable.ofJson? v := by
  obtain ⟨inner, henter, hdeeper⟩ := hfits.enter_record
  obtain ⟨name, hname, rname⟩ := yields_text inner v.name
  obtain ⟨type, htype, rtype⟩ := yields_type (hdeeper ("ty", v.type.toJson) (by simp))
  obtain ⟨initial, _, rinitial, hinitial⟩ := fills_last "initial" v.initial rfl
    fun i _ => yields_int64 inner i
  exact ⟨_, conform_record rfl (by decide) henter (.present hname (.present htype hinitial)),
    by simp [Variable.ofJson?, rname, rtype, rinitial]⟩

/-! ### Expressions and instructions -/

@[simp] theorem whole_expr (e : Expr) : Whole e.toJson := by
  induction e with
  | bool | int | var => exact whole_record (by simp)
  | not e ih => exact whole_record (by simpa using ih)
  | binary op lhs rhs hl hr =>
    have hoperands : Whole (record [("op", string op.name), ("lhs", lhs.toJson),
        ("rhs", rhs.toJson)]) := whole_record (by simp [hl, hr])
    exact whole_record (by simpa using hoperands)

theorem ofText?_name (op : BinaryOp) : BinaryOp.ofText? op.name = some op := by
  cases op <;> rfl

theorem yields_operator (m : Mode) (op : BinaryOp) :
    Yields m (.one (.form .operator)) (string op.name)
      (fun j => j.string?.bind BinaryOp.ofText?) op := by
  refine ⟨string op.name, ?_, by simp [ofText?_name]⟩
  have hknown : op.name ∈ Form.operators := by cases op <;> decide
  simp [conform_text, conformText, Slot.item?, Form.schema, hknown]

theorem yields_expr {m : Mode} {e : Expr} :
    Yields m (.one (.form .expr)) e.toJson Expr.ofJson? e := by
  induction e generalizing m with
  | bool b =>
    obtain ⟨v, hv, rv⟩ := yields_flag .held b
    exact ⟨_, conform_choice rfl rfl hv, by simp [Expr.ofJson?, record, rv]⟩
  | int i =>
    obtain ⟨v, hv, rv⟩ := yields_int64 .held i
    exact ⟨_, conform_choice rfl rfl hv, by simp [Expr.ofJson?, record, rv]⟩
  | var name =>
    obtain ⟨v, hv, rv⟩ := yields_text .held name
    exact ⟨_, conform_choice rfl rfl hv, by simp [Expr.ofJson?, record, rv]⟩
  | not e ih =>
    obtain ⟨v, hv, rv⟩ := ih (m := .held)
    exact ⟨_, conform_choice rfl rfl hv, by simp [Expr.ofJson?, record, rv]⟩
  | binary op lhs rhs hl hr =>
    obtain ⟨o, ho, ro⟩ := yields_operator .held op
    obtain ⟨l, hl, rl⟩ := hl (m := .held)
    obtain ⟨r, hr, rr⟩ := hr (m := .held)
    have hoperands : conform Form.schema .held (.one (.form .binary))
        (record [("op", string op.name), ("lhs", lhs.toJson), ("rhs", rhs.toJson)]) =
          .ok (record [("op", o), ("lhs", l), ("rhs", r)]) :=
      conform_record rfl (by decide) rfl (.present ho (.present hl (.present hr .nil)))
    exact ⟨_, conform_choice rfl rfl hoperands, by simp [Expr.ofJson?, record, ro, rl, rr]⟩

@[simp] theorem whole_instruction (i : Instruction) : Whole i.toJson := by
  cases i with
  | assign | load | store | portStatus => exact whole_record (by simp)
  | call target procedure =>
    exact whole_record (List.forall_mem_append.2
      ⟨List.forall_mem_append.2 ⟨by simp, whole_ifSome (by simp)⟩, by simp⟩)
  | ret value =>
    exact whole_record (List.forall_mem_append.2 ⟨by simp, whole_ifSome (by simp)⟩)

theorem yields_instruction {m : Mode} {i : Instruction} (hfits : m.Fits i.toJson) :
    Yields m (.one (.form .instruction)) i.toJson Instruction.ofJson? i := by
  cases i with
  | assign target value =>
    obtain ⟨t, ht, rt⟩ := yields_text .held target
    obtain ⟨v, hv, rv⟩ := yields_expr (m := .held) (e := value)
    exact ⟨_, conform_tagged rfl rfl (by decide) (by simp) hfits (.present ht (.present hv .nil)),
      by simp [Instruction.ofJson?, rt, rv]⟩
  | load target source =>
    obtain ⟨t, ht, rt⟩ := yields_text .held target
    obtain ⟨v, hv, rv⟩ := yields_text .held source
    exact ⟨_, conform_tagged rfl rfl (by decide) (by simp) hfits (.present ht (.present hv .nil)),
      by simp [Instruction.ofJson?, rt, rv]⟩
  | store target value =>
    obtain ⟨t, ht, rt⟩ := yields_text .held target
    obtain ⟨v, hv, rv⟩ := yields_expr (m := .held) (e := value)
    exact ⟨_, conform_tagged rfl rfl (by decide) (by simp) hfits (.present ht (.present hv .nil)),
      by simp [Instruction.ofJson?, rt, rv]⟩
  | call target procedure =>
    obtain ⟨t, _, rt, ht⟩ := fills_maybe "target" target rfl
      fun s _ => yields_text .held s
    obtain ⟨p, hp, rp⟩ := yields_text .held procedure
    have hwhole : ∀ e ∈ ifSome "target" string target ++ [("procedure", string procedure)],
        Whole e.2 :=
      List.forall_mem_append.2 ⟨whole_ifSome (by simp), by simp⟩
    exact ⟨_, conform_tagged rfl rfl (by decide) hwhole hfits (ht (.present hp .nil)),
      by simp [Instruction.ofJson?, rt, rp]⟩
  | portStatus target port =>
    obtain ⟨t, ht, rt⟩ := yields_text .held target
    obtain ⟨v, hv, rv⟩ := yields_text .held port
    exact ⟨_, conform_tagged rfl rfl (by decide) (by simp) hfits (.present ht (.present hv .nil)),
      by simp [Instruction.ofJson?, rt, rv]⟩
  | ret value =>
    obtain ⟨v, _, rv, hv⟩ := fills_last "value" value rfl
      fun e _ => yields_expr (m := .held) (e := e)
    exact ⟨_, conform_tagged rfl rfl (by decide) (whole_ifSome (by simp)) hfits hv,
      by simp [Instruction.ofJson?, rv]⟩

/-! ### Blocks and procedures -/

theorem toJsonList_eq_map (bs : List Block) : Block.toJson.toJsonList bs = bs.map Block.toJson := by
  induction bs with
  | nil => rfl
  | cons b bs ih => rw [Block.toJson.toJsonList, ih, List.map_cons]

theorem ofJsonList?_eq_mapM (js : List Json) :
    Block.ofJson?.ofJsonList? js = js.mapM Block.ofJson? := by
  induction js with
  | nil => rfl
  | cons j js ih => rw [Block.ofJson?.ofJsonList?, ih, List.mapM_cons]

mutual

/-- A property of blocks that passes from the blocks inside a block to the block holds of all. -/
theorem Block.forall_of_inside {P : Block → Prop}
    (basic : ∀ instructions, P (.basic instructions))
    (branch : ∀ cond ts es, (∀ b ∈ ts, P b) → (∀ b ∈ es, P b) → P (.branch cond ts es))
    (loop : ∀ cond body, (∀ b ∈ body, P b) → P (.loop cond body))
    (mutex : ∀ blocks, (∀ b ∈ blocks, P b) → P (.mutex blocks)) : (b : Block) → P b
  | .basic instructions => basic instructions
  | .branch cond ts es =>
    branch cond ts es (forall_of_insideList basic branch loop mutex ts)
      (forall_of_insideList basic branch loop mutex es)
  | .loop cond body => loop cond body (forall_of_insideList basic branch loop mutex body)
  | .mutex blocks => mutex blocks (forall_of_insideList basic branch loop mutex blocks)

theorem Block.forall_of_insideList {P : Block → Prop}
    (basic : ∀ instructions, P (.basic instructions))
    (branch : ∀ cond ts es, (∀ b ∈ ts, P b) → (∀ b ∈ es, P b) → P (.branch cond ts es))
    (loop : ∀ cond body, (∀ b ∈ body, P b) → P (.loop cond body))
    (mutex : ∀ blocks, (∀ b ∈ blocks, P b) → P (.mutex blocks)) :
    (bs : List Block) → ∀ b ∈ bs, P b
  | [] => by simp
  | b :: bs => List.forall_mem_cons.2
    ⟨forall_of_inside basic branch loop mutex b, forall_of_insideList basic branch loop mutex bs⟩

end

@[simp] theorem whole_block (b : Block) : Whole b.toJson := by
  induction b using Block.forall_of_inside with
  | basic instructions =>
    exact whole_record (by simp [whole_map])
  | branch cond ts es ht he =>
    refine whole_record ?_
    simp [toJsonList_eq_map, whole_map ht, whole_map he]
  | loop cond body h =>
    refine whole_record ?_
    simp [toJsonList_eq_map, whole_map h]
  | mutex blocks h =>
    refine whole_record ?_
    simp [toJsonList_eq_map, whole_map h]

/-- A list that was read off is a list. -/
theorem list?_eq_some {α : Type} {read? : Json → Option α} {j : Json} {xs : List α}
    (h : Json.list? read? j = some xs) :
    ∃ items, j = .arr items none ∧ items.mapM read? = some xs := by
  obtain ⟨items, hfound, hrest⟩ := Option.bind_eq_some_iff.1 h
  unfold items? at hfound
  split at hfound
  · exact ⟨_, rfl, by rw [← hrest, Option.some.inj hfound]⟩
  · simp at hfound

/-- A list of blocks inside a block. -/
theorem yields_blocks {bs : List Block}
    (h : ∀ b ∈ bs, ∀ m : Mode, m.Fits b.toJson →
      Yields m (.one (.form .block)) b.toJson Block.ofJson? b) :
    ∃ items, conform Form.schema .held (.list (.form .block)) (list (Block.toJson.toJsonList bs)) =
        .ok (.arr items none) ∧
      Block.ofJson?.ofJsonList? items = some bs := by
  rw [toJsonList_eq_map]
  obtain ⟨v, hv, rv⟩ := yields_list bs (i := .form .block) (m := .held) trivial
    fun inner b hb hfits => h b hb inner hfits
  obtain ⟨items, rfl, ritems⟩ := list?_eq_some rv
  exact ⟨items, hv, by rw [ofJsonList?_eq_mapM, ritems]⟩

theorem yields_block (b : Block) (m : Mode) (hfits : m.Fits b.toJson) :
    Yields m (.one (.form .block)) b.toJson Block.ofJson? b := by
  induction b using Block.forall_of_inside generalizing m with
  | basic instructions =>
    obtain ⟨v, hv, rv⟩ := yields_list instructions (i := .form .instruction)
      (m := .held) trivial fun _ _ _ hfits => yields_instruction hfits
    exact ⟨_, conform_tagged rfl rfl (by decide) (by simp [whole_map]) hfits (.present hv .nil),
      by simp [Block.ofJson?, record, string, rv]⟩
  | branch cond ts es ht he =>
    obtain ⟨c, hc, rc⟩ := yields_expr (m := .held) (e := cond)
    obtain ⟨t, ht', rt⟩ := yields_blocks ht
    obtain ⟨e, he', re⟩ := yields_blocks he
    exact ⟨_, conform_tagged rfl rfl (by decide) (by simp [toJsonList_eq_map, whole_map]) hfits
      (.present hc (.present ht' (.present he' .nil))),
      by simp [Block.ofJson?, record, string, rc, rt, re]⟩
  | loop cond body h =>
    obtain ⟨c, hc, rc⟩ := yields_expr (m := .held) (e := cond)
    obtain ⟨b, hb, rb⟩ := yields_blocks h
    exact ⟨_, conform_tagged rfl rfl (by decide) (by simp [toJsonList_eq_map, whole_map]) hfits
      (.present hc (.present hb .nil)), by simp [Block.ofJson?, record, string, rc, rb]⟩
  | mutex blocks h =>
    obtain ⟨b, hb, rb⟩ := yields_blocks h
    exact ⟨_, conform_tagged rfl rfl (by decide) (by simp [toJsonList_eq_map, whole_map]) hfits
      (.present hb .nil), by simp [Block.ofJson?, record, string, rb]⟩

@[simp] theorem whole_procedure (p : Procedure) : Whole p.toJson :=
  whole_record (by simp [whole_map])

theorem yields_procedure {m : Mode} {p : Procedure} (hfits : m.Fits p.toJson) :
    Yields m (.one (.form .procedure)) p.toJson Procedure.ofJson? p := by
  obtain ⟨inner, henter, hdeeper⟩ := hfits.enter_record
  simp only [List.forall_mem_cons] at hdeeper
  obtain ⟨name, hname, rname⟩ := yields_text inner p.name
  obtain ⟨type, htype, rtype⟩ := yields_type hdeeper.2.1
  obtain ⟨locals, hlocals, rlocals⟩ := yields_list _ hdeeper.2.2.1
    fun _ _ _ hfits => yields_variable hfits
  obtain ⟨blocks, hblocks, rblocks⟩ := yields_list _ hdeeper.2.2.2.1
    fun m b _ hfits => yields_block b m hfits
  exact ⟨_, conform_record rfl (by decide) henter
      (.present hname (.present htype (.present hlocals (.present hblocks .nil)))),
    by simp [Procedure.ofJson?, rname, rtype, rlocals, rblocks]⟩

/-! ### Actors -/

namespace Actor

@[simp] theorem whole_port (p : Port) : Whole p.toJson :=
  whole_record (List.forall_mem_append.2
    ⟨by simp, whole_ifSome fun size _ => whole_record (by simp)⟩)

theorem yields_capacity {m : Mode} {size : UInt32}
    (hfits : m.Fits (record [("size", ofWord size)])) :
    Yields m (.one (.form .buffer)) (record [("size", ofWord size)]) Port.ofJson?.capacity?
      size := by
  obtain ⟨inner, henter, -⟩ := hfits.enter_record
  obtain ⟨v, hv, rv⟩ := yields_word32 inner size
  exact ⟨_, conform_record rfl (by decide) henter (.present hv .nil),
    by simp [Port.ofJson?.capacity?, rv]⟩

theorem yields_port {m : Mode} {p : Port} (hfits : m.Fits p.toJson) :
    Yields m (.one (.form .port)) p.toJson Port.ofJson? p := by
  obtain ⟨inner, henter, hdeeper⟩ := hfits.enter_record
  obtain ⟨name, hname, rname⟩ := yields_text inner p.name
  obtain ⟨type, htype, rtype⟩ := yields_type (hdeeper ("ty", p.type.toJson) (by simp))
  obtain ⟨buffer, _, rbuffer, hbuffer⟩ := fills_last "buffer" p.buffer (m := inner) rfl
    fun size hsize => yields_capacity (hdeeper ("buffer", record [("size", ofWord size)]) (by
      simp [Option.mem_def.1 hsize, ifSome]))
  exact ⟨_, conform_record rfl (by decide) henter (.present hname (.present htype hbuffer)),
    by simp [Port.ofJson?, rname, rtype, rbuffer]⟩

@[simp] theorem whole_tokenCount (e : TokenCount) : Whole e.toJson := whole_record (by simp)

theorem yields_tokenCount {m : Mode} {e : TokenCount} (hfits : m.Fits e.toJson) :
    Yields m (.one (.form .tokenCount)) e.toJson TokenCount.ofJson? e := by
  obtain ⟨inner, henter, -⟩ := hfits.enter_record
  obtain ⟨port, hport, rport⟩ := yields_text inner e.port
  obtain ⟨tokens, htokens, rtokens⟩ := yields_word32 inner e.tokens
  exact ⟨_, conform_record rfl (by decide) henter (.present hport (.present htokens .nil)),
    by simp [TokenCount.ofJson?, rport, rtokens]⟩

theorem yields_pattern {m : Mode} {p : Pattern} (hfits : m.Fits (Pattern.toJson p)) :
    Yields m (.list (.form .tokenCount)) (Pattern.toJson p) (Json.list? TokenCount.ofJson?) p :=
  yields_list _ hfits fun _ _ _ hfits => yields_tokenCount hfits

@[simp] theorem whole_action (a : Action) : Whole a.toJson :=
  whole_record (List.forall_mem_append.2
    ⟨by simp [Pattern.toJson, whole_map], whole_ifSome (by simp)⟩)

theorem yields_action {m : Mode} {a : Action} (hfits : m.Fits a.toJson) :
    Yields m (.one (.form .action)) a.toJson Action.ofJson? a := by
  obtain ⟨inner, henter, hdeeper⟩ := hfits.enter_record
  obtain ⟨hdeeper, -⟩ := List.forall_mem_append.1 hdeeper
  simp only [List.forall_mem_cons] at hdeeper
  obtain ⟨-, hinputs, houtputs, hpeeks, -⟩ := hdeeper
  obtain ⟨name, hname, rname⟩ := yields_text inner a.name
  obtain ⟨inputs, hinputs, rinputs⟩ := yields_pattern hinputs
  obtain ⟨outputs, houtputs, routputs⟩ := yields_pattern houtputs
  obtain ⟨peeks, hpeeks, rpeeks⟩ := yields_pattern hpeeks
  obtain ⟨body, hbody, rbody⟩ := yields_text inner a.body
  obtain ⟨guard, hguard, rguard⟩ := yields_text inner a.guard
  obtain ⟨fill, hfill, rfill⟩ := yields_flag inner a.fillBuffer
  obtain ⟨task, _, rtask, htask⟩ := fills_last "task" a.task rfl
    fun s _ => yields_text inner s
  exact ⟨_, conform_record rfl (by decide) henter (.present hname (.present hinputs
      (.present houtputs (.present hpeeks (.present hbody (.present hguard
        (.present hfill htask))))))),
    by simp [Action.ofJson?, rname, rinputs, routputs, rpeeks, rbody, rguard, rfill, rtask]⟩

@[simp] theorem whole_transition (t : Transition) : Whole t.toJson := whole_record (by simp)

theorem yields_transition {m : Mode} {t : Transition} (hfits : m.Fits t.toJson) :
    Yields m (.one (.form .transition)) t.toJson Transition.ofJson? t := by
  obtain ⟨inner, henter, -⟩ := hfits.enter_record
  obtain ⟨source, hsource, rsource⟩ := yields_text inner t.source
  obtain ⟨target, htarget, rtarget⟩ := yields_text inner t.target
  obtain ⟨action, haction, raction⟩ := yields_text inner t.action
  exact ⟨_, conform_record rfl (by decide) henter
      (.present hsource (.present htarget (.present haction .nil))),
    by simp [Transition.ofJson?, rsource, rtarget, raction]⟩

@[simp] theorem whole_fsm (f : Fsm) : Whole f.toJson := whole_record (by simp [whole_map])

theorem yields_fsm {m : Mode} {f : Fsm} (hfits : m.Fits f.toJson) :
    Yields m (.one (.form .fsm)) f.toJson Fsm.ofJson? f := by
  obtain ⟨inner, henter, hdeeper⟩ := hfits.enter_record
  simp only [List.forall_mem_cons] at hdeeper
  obtain ⟨-, hstates, htransitions, -⟩ := hdeeper
  obtain ⟨initial, hinitial, rinitial⟩ := yields_text inner f.initial
  obtain ⟨states, hstates, rstates⟩ := yields_list _ hstates fun m s _ _ => yields_text m s
  obtain ⟨transitions, htransitions, rtransitions⟩ := yields_list _ htransitions
    fun _ _ _ hfits => yields_transition hfits
  exact ⟨_, conform_record rfl (by decide) henter
      (.present hinitial (.present hstates (.present htransitions .nil))),
    by simp [Fsm.ofJson?, rinitial, rstates, rtransitions]⟩

theorem whole_actor (a : Actor) : Whole a.toJson :=
  whole_record (List.forall_mem_append.2 ⟨by simp [whole_map], whole_ifSome (by simp)⟩)

theorem yields_actor {m : Mode} {a : Actor} (hfits : m.Fits a.toJson) :
    Yields m (.one (.form .actor)) a.toJson ofJson? a := by
  obtain ⟨inner, henter, hdeeper⟩ := hfits.enter_record
  obtain ⟨hlists, hmachine⟩ := List.forall_mem_append.1 hdeeper
  simp only [List.forall_mem_cons] at hlists
  obtain ⟨-, hinputs, houtputs, hvars, hprocedures, hactions, -⟩ := hlists
  obtain ⟨name, hname, rname⟩ := yields_text inner a.name
  obtain ⟨inputs, hinputs, rinputs⟩ := yields_list _ hinputs fun _ _ _ hfits => yields_port hfits
  obtain ⟨outputs, houtputs, routputs⟩ := yields_list _ houtputs
    fun _ _ _ hfits => yields_port hfits
  obtain ⟨vars, hvars, rvars⟩ := yields_list _ hvars fun _ _ _ hfits => yields_variable hfits
  obtain ⟨procedures, hprocedures, rprocedures⟩ := yields_list _ hprocedures
    fun _ _ _ hfits => yields_procedure hfits
  obtain ⟨actions, hactions, ractions⟩ := yields_list _ hactions
    fun _ _ _ hfits => yields_action hfits
  obtain ⟨fsm, _, rfsm, hfsm⟩ := fills_last "fsm" a.fsm (m := inner) rfl
    fun f hf => yields_fsm (hmachine ("fsm", f.toJson) (by simp [Option.mem_def.1 hf, ifSome]))
  exact ⟨_, conform_record rfl (by decide) henter (.present hname (.present hinputs
      (.present houtputs (.present hvars (.present hprocedures (.present hactions hfsm)))))),
    by simp [ofJson?, rname, rinputs, routputs, rvars, rprocedures, ractions, rfsm]⟩

end Actor

/-! ### The round trip -/

/-- Loading the text that an actor or a procedure is written as gives back the actor or procedure,
provided its lists and objects do not stand deeper inside each other than a document may. -/
theorem load_compact :
    (∀ a : Actor, a.toJson.depth ≤ maxDepth → Actor.load a.toJson.compact = .ok a) ∧
      ∀ p : Procedure, p.toJson.depth ≤ maxDepth → Procedure.load p.toJson.compact = .ok p := by
  constructor
  · intro a hdeep
    have hfits : (Mode.direct 0).Fits a.toJson := by simpa [Mode.Fits] using hdeep
    obtain ⟨v, hv, rv⟩ := Actor.yields_actor hfits
    rw [Actor.load, read_compact (Actor.whole_actor a)]
    simp [Actor.ofDocument, Document.conform, hv, rv, bind, Except.bind]
  · intro p hdeep
    have hfits : (Mode.direct 0).Fits p.toJson := by simpa [Mode.Fits] using hdeep
    obtain ⟨v, hv, rv⟩ := yields_procedure hfits
    rw [Procedure.load, read_compact (whole_procedure p)]
    simp [Procedure.ofDocument, Document.conform, hv, rv, bind, Except.bind]

/-- A procedure that nests blocks and expressions and uses the least initial value. -/
def tally : Procedure where
  name := "tally \"n\"\n\t\u0001"
  returnType := .bool
  locals := [⟨"n", .int 64, some Int64.minValue⟩, ⟨"o", .object "queue", none⟩]
  blocks :=
    [.branch (.not (.binary .lt (.var "n") (.int (-1))))
      [.loop (.bool true) [.mutex [.basic [.store "é" (.var "n"), .call none "tick"]], .basic []]]
      [.basic [.ret (some (.binary .plus (.int 0) (.int Int64.maxValue))), .ret none]]]

/-- An actor with a buffer, a machine and an action that has been built. -/
def meter : Actor where
  name := "meter"
  inputs := [⟨"in", .uint 32, some 8⟩]
  outputs := [⟨"out", .bool, none⟩]
  stateVars := [⟨"é", .int 64, some 0⟩]
  procedures := [tally]
  actions := [{ Action.named "step" with inputs := [⟨"in", 4294967295⟩], task := some "step" }]
  fsm := some ⟨"idle", ["idle", ""], [⟨"idle", "", "step"⟩]⟩

theorem load_compact_meter :
    Actor.load meter.toJson.compact = .ok meter ∧
      Procedure.load tally.toJson.compact = .ok tally :=
  ⟨load_compact.1 meter (by decide +kernel), load_compact.2 tally (by decide +kernel)⟩

end DataflowSynth
