import Xair.ValueNumber

/-!
# Text

`xair_format_module`, which prints a module into a buffer.

`printAppend` is `print_append`; every printer is one append of a text (`Prints`), since an
append after an append is the append of both texts (`printAppend_append`).  So a buffer that is
too small holds a prefix of the text (`formatModule_prefix`).
-/

namespace Xair

/-! ### The printer -/

/-- `xair_printer`; `data` is the memory from the buffer on, also past its end. -/
structure Printer where
  data : Nat → UInt8
  size : Nat
  used : Nat
  truncated : Bool

/-- The memory with the text written from `start` on. -/
def writeText (data : Nat → UInt8) (start : Nat) (text : Name) : Nat → UInt8 := fun i =>
  if i < start then data i else (text[i - start]?).getD (data i)

/-- `vsnprintf` of a text into `left` bytes from `start` on, the last of them for the NUL; the
result is the length of the whole text. -/
def vsnprintf (data : Nat → UInt8) (start left : Nat) (s : Name) : (Nat → UInt8) × Nat :=
  (if left = 0 then data else writeText data start (s.take (left - 1) ++ [0]), s.length)

/-- `print_append`. -/
def printAppend (s : Name) (p : Printer) : Printer :=
  if p.truncated || p.size == 0 then p
  else
    let left := p.size - p.used
    let (data, written) := vsnprintf p.data p.used left s
    if left ≤ written then
      { p with data := writeText data (p.size - 1) [0], used := p.size - 1, truncated := true }
    else { p with data := data, used := p.used + written }

/-- `print_append` of a literal. -/
def printLit (s : String) : Printer → Printer := printAppend (literalName s)

/-- A loop that prints `, ` before every item but the first. -/
def printSeparated {α : Type} (item : α → Printer → Printer) : List α → Printer → Printer
  | [], p => p
  | x :: xs, p => xs.foldl (fun p y => item y (printLit ", " p)) (item x p)

/-- `print_type`. -/
def printType (t : Ty) (p : Printer) : Printer :=
  match t.kind with
  | .void => printLit "void" p
  | .int => printAppend (literalName "i" ++ decimal t.bits) p
  | .addr => printAppend (literalName "addr" ++ decimal t.bits) p
  | .flags => printAppend (literalName "flags" ++ decimal t.bits) p
  | .mem =>
    printAppend (literalName "mem<" ++ decimal t.aux ++ literalName "," ++ decimal t.bits ++
      literalName ">") p
  | .label8 => printLit "label8" p
  | .labelset => printLit "labelset" p
  | .invalid => printLit "invalid" p

/-- `print_value_ref`. -/
def printValueRef (m : Module) (v : Nat) (p : Printer) : Printer :=
  if !m.validValue v then printLit "%bad" p
  else printAppend (literalName "%" ++ (m.valueRec v).name) p

/-- `print_block_ref`. -/
def printBlockRef (m : Module) (b : Nat) (p : Printer) : Printer :=
  printAppend (if m.validBlock b then (m.blockRec b).name else literalName "bad_block") p

/-- `print_args`. -/
def printArgs (m : Module) (args : List Nat) (p : Printer) : Printer :=
  printLit ")" (printSeparated (printValueRef m) args (printLit "(" p))

/-- The text of an endianness. -/
def Endian.name : Endian → String
  | .le => "le"
  | .be => "be"

/-- `op->src[i]`, also past `src_count`: `add_op` zeroes the slots that it does not fill. -/
def OpRec.srcSlot (op : OpRec) (i : Nat) : Nat := op.src.getD i 0

/-- `print_op`. -/
def printOp (m : Module) (op : OpRec) (p : Printer) : Printer :=
  let dstType := m.valueType op.dst
  let p := printLit "  " p
  let p := printValueRef m op.dst p
  let p := printLit ":" p
  let p := printType dstType p
  let p := printLit " = " p
  match op.opcode with
  | .constU64 =>
    let p := printLit "const." p
    let p := printType dstType p
    printAppend (literalName " 0x" ++ hexadecimal op.imm.toNat ++ literalName "\n") p
  | .load =>
    let p := printLit "load." p
    let p := printType dstType p
    let p := printLit (" " ++ op.endian.name ++ " ") p
    let p := printValueRef m (op.srcSlot 0) p
    let p := printLit ", " p
    let p := printValueRef m (op.srcSlot 1) p
    printLit "\n" p
  | .store =>
    let p := printLit ("store " ++ op.endian.name ++ " ") p
    let p := printValueRef m (op.srcSlot 0) p
    let p := printLit ", " p
    let p := printValueRef m (op.srcSlot 1) p
    let p := printLit ", " p
    let p := printValueRef m (op.srcSlot 2) p
    printLit "\n" p
  | opcode =>
    let p := printLit opcode.name p
    let p :=
      if op.src.length ≠ 0 then
        printLit " " (printType (m.valueType (op.srcSlot 0)) (printLit "." p))
      else p
    let p := if 1 ≤ op.src.length then printValueRef m (op.srcSlot 0) p else p
    let p := if 2 ≤ op.src.length then printValueRef m (op.srcSlot 1) (printLit ", " p) else p
    printLit "\n" p

/-- `print_term`. -/
def printTerm (m : Module) (term : TermRec) (p : Printer) : Printer :=
  match term.kind with
  | .jump =>
    let p := printLit "  jump " p
    let p := printBlockRef m term.trueTarget p
    let p := printArgs m (m.termArgsConst term false) p
    printLit "\n" p
  | .cbranch =>
    let p := printLit "  cbranch " p
    let p := printValueRef m term.condition p
    let p := printLit ", " p
    let p := printBlockRef m term.trueTarget p
    let p := printArgs m (m.termArgsConst term false) p
    let p := printLit ", " p
    let p := printBlockRef m term.falseTarget p
    let p := printArgs m (m.termArgsConst term true) p
    printLit "\n" p
  | .ret =>
    let p := printLit "  return" p
    let p :=
      if term.trueArgCount ≠ 0 then printArgs m (m.termArgsConst term false) (printLit " " p) else p
    printLit "\n" p
  | .trap => printAppend (literalName "  trap " ++ decimal term.code ++ literalName "\n") p
  | .fault => printAppend (literalName "  fault " ++ decimal term.code ++ literalName "\n") p
  | .none => printLit "  <unterminated>\n" p

/-- A parameter in the header of its block. -/
def printParam (m : Module) (param : Nat) (p : Printer) : Printer :=
  printType (m.valueType param) (printLit ":" (printValueRef m param p))

/-- One block of `xair_format_module`. -/
def printBlock (m : Module) (block : BlockRec) (p : Printer) : Printer :=
  let p := printAppend (block.name ++ literalName "(") p
  let p := printSeparated (printParam m) block.params p
  let p := printLit "):\n" p
  let p := block.ops.foldl (fun p o => printOp m (m.opRec o) p) p
  let p := printTerm m block.term p
  printLit "\n" p

/-- `xair_format_module`: the status and the memory after the call. -/
def formatModule (m : Module) (buffer : Nat → UInt8) (bufferSize : Nat) :
    Status × (Nat → UInt8) :=
  if bufferSize = 0 then (.errBadArg, buffer)
  else
    let p : Printer := ⟨writeText buffer 0 [0], bufferSize, 0, false⟩
    let p := m.blocks.foldl (fun p block => printBlock m block p) p
    (if p.truncated then .errRange else .ok, p.data)

/-! ### Writes -/

section Writes

variable {data : Nat → UInt8} {start : Nat}

theorem writeText_append (s t : Name) :
    writeText (writeText data start s) (start + s.length) t = writeText data start (s ++ t) := by
  funext i
  by_cases hs : i < start
  · simp only [writeText, hs, if_true, if_pos (show i < start + s.length by omega)]
  by_cases ht : i < start + s.length
  · simp only [writeText, hs, ht, if_true, if_false,
      List.getElem?_append_left (show i - start < s.length by omega)]
  · simp only [writeText, hs, ht, if_false,
      List.getElem?_append_right (show s.length ≤ i - start by omega),
      List.getElem?_eq_none (show s.length ≤ i - start by omega), Option.getD_none,
      show i - start - s.length = i - (start + s.length) by omega]

/-- A NUL is written over by the text after it. -/
theorem writeText_over (s t : Name) (c : UInt8) (ht : t ≠ []) :
    writeText (writeText data start (s ++ [c])) (start + s.length) t =
      writeText data start (s ++ t) := by
  have hpos : 0 < t.length := List.length_pos_iff.mpr ht
  rw [← writeText_append s t]
  funext i
  by_cases hi : i < start + s.length
  · simp only [writeText, hi, if_true]
    by_cases hs : i < start
    · simp only [hs, if_true]
    · simp only [hs, if_false, List.getElem?_append_left (show i - start < s.length by omega)]
  · simp only [writeText, hi, if_false]
    by_cases hlt : i - (start + s.length) < t.length
    · rw [List.getElem?_eq_getElem hlt, Option.getD_some, Option.getD_some]
    · have hout : (s ++ [c]).length ≤ i - start := by
        rw [List.length_append, List.length_singleton]
        omega
      simp only [if_neg (show ¬ i < start by omega), List.getElem?_eq_none hout,
        List.getElem?_eq_none (show s.length ≤ i - start by omega), Option.getD_none]

theorem writeText_of_le {s : Name} {i : Nat} (hi : start + s.length ≤ i) :
    writeText data start s i = data i := by
  rw [writeText, if_neg (by omega), List.getElem?_eq_none (by omega), Option.getD_none]

end Writes

/-! ### Appends -/

/-- A printer that the code can reach: the text ends inside the buffer. -/
structure Printer.Valid (p : Printer) : Prop where
  used_lt : p.used < p.size
  nul : p.data p.used = 0

/-- The printer with as much of a text as fits. -/
def Printer.put (s : Name) (p : Printer) : Printer :=
  ⟨writeText p.data p.used (s.take (p.size - 1 - p.used) ++ [0]), p.size,
    min (p.used + s.length) (p.size - 1), decide (p.size ≤ p.used + s.length)⟩

section Appends

variable {p : Printer}

theorem printAppend_truncated (s : Name) (ht : p.truncated = true) : printAppend s p = p := by
  rw [printAppend, ht, Bool.true_or, if_pos rfl]

theorem printAppend_put (h : p.Valid) (s : Name) (ht : p.truncated = false) :
    printAppend s p = p.put s := by
  have hlt := h.used_lt
  have hsize : (p.truncated || p.size == 0) = false := by
    rw [ht, Bool.false_or, beq_eq_false_iff_ne]
    omega
  have hleft : p.size - p.used - 1 = p.size - 1 - p.used := by omega
  simp only [printAppend, hsize, Bool.false_eq_true, if_false, vsnprintf,
    if_neg (show p.size - p.used ≠ 0 by omega), hleft, Printer.put]
  by_cases hs : p.size - p.used ≤ s.length
  · -- the second NUL falls on the one that `vsnprintf` has written
    have hover : ∀ text : Name, p.used + text.length = p.size - 1 →
        writeText (writeText p.data p.used (text ++ [0])) (p.size - 1) [0] =
          writeText p.data p.used (text ++ [0]) := by
      intro text hlen
      rw [← hlen]
      exact writeText_over _ _ _ (List.cons_ne_nil 0 [])
    have hlen : p.used + (s.take (p.size - 1 - p.used)).length = p.size - 1 := by
      rw [List.length_take]
      omega
    rw [if_pos hs, Nat.min_eq_right (by omega), decide_eq_true (by omega), hover _ hlen]
  · rw [if_neg hs, Nat.min_eq_left (by omega), decide_eq_false (by omega), ht]

theorem printAppend_valid (h : p.Valid) (s : Name) : (printAppend s p).Valid := by
  have hlt := h.used_lt
  cases ht : p.truncated with
  | true => rwa [printAppend_truncated s ht]
  | false =>
    rw [printAppend_put h s ht]
    refine ⟨by simp only [Printer.put]; omega, ?_⟩
    have hlen : (s.take (p.size - 1 - p.used)).length =
        min (p.used + s.length) (p.size - 1) - p.used := by
      rw [List.length_take]
      omega
    have hnot : ¬ min (p.used + s.length) (p.size - 1) < p.used := by omega
    simp only [Printer.put, writeText, if_neg hnot,
      ← hlen, List.getElem?_concat_length, Option.getD_some]

theorem printAppend_nil (h : p.Valid) : printAppend [] p = p := by
  have hlt := h.used_lt
  cases ht : p.truncated with
  | true => exact printAppend_truncated [] ht
  | false =>
    rw [printAppend_put h [] ht]
    have hdata : writeText p.data p.used [0] = p.data := by
      funext i
      rcases Nat.lt_trichotomy i p.used with hi | rfl | hi
      · rw [writeText, if_pos hi]
      · simp [writeText, h.nul]
      · exact writeText_of_le (by rw [List.length_singleton]; omega)
    obtain ⟨data, size, used, truncated⟩ := p
    simp only at ht hdata hlt
    subst ht
    simp only [Printer.put, List.take_nil, List.nil_append, hdata, List.length_nil, Nat.add_zero,
      Nat.min_eq_left (show used ≤ size - 1 by omega), decide_eq_false (show ¬ size ≤ used by omega)]

/-- An append after an append is the append of both texts. -/
theorem printAppend_append (h : p.Valid) (s t : Name) :
    printAppend t (printAppend s p) = printAppend (s ++ t) p := by
  have hlt := h.used_lt
  cases ht : p.truncated with
  | true => rw [printAppend_truncated s ht, printAppend_truncated _ ht, printAppend_truncated _ ht]
  | false =>
    have hvalid := printAppend_valid h s
    rw [printAppend_put h s ht] at hvalid ⊢
    rw [printAppend_put h _ ht]
    by_cases hs : p.size ≤ p.used + s.length
    · rw [printAppend_truncated t (by simp only [Printer.put, decide_eq_true hs])]
      simp only [Printer.put, List.length_append, decide_eq_true hs,
        decide_eq_true (show p.size ≤ p.used + (s.length + t.length) by omega),
        List.take_append_of_le_length (show p.size - 1 - p.used ≤ s.length by omega),
        Nat.min_eq_right (show p.size - 1 ≤ p.used + s.length by omega),
        Nat.min_eq_right (show p.size - 1 ≤ p.used + (s.length + t.length) by omega)]
    · rw [printAppend_put hvalid t (by simp only [Printer.put, decide_eq_false hs])]
      have hused : min (p.used + s.length) (p.size - 1) = p.used + s.length :=
        Nat.min_eq_left (by omega)
      have htake : s.take (p.size - 1 - p.used) = s := List.take_of_length_le (by omega)
      simp only [Printer.put, List.length_append, hused, htake, List.take_append, List.append_assoc,
        Nat.add_assoc, Nat.sub_add_eq]
      rw [writeText_over _ _ _ (by simp)]

end Appends

/-! ### Printers -/

/-- The printer is one append of a text. -/
def Prints (f : Printer → Printer) : Prop :=
  ∃ text, ∀ p : Printer, p.Valid → f p = printAppend text p

section Printers

variable {f g : Printer → Printer} {m : Module}

theorem prints_append (s : Name) : Prints (printAppend s) := ⟨s, fun _ _ => rfl⟩

theorem prints_lit (s : String) : Prints (printLit s) := prints_append _

theorem prints_id : Prints fun p => p := ⟨[], fun _ h => (printAppend_nil h).symm⟩

theorem Prints.comp (hf : Prints f) (hg : Prints g) : Prints fun p => g (f p) := by
  obtain ⟨s, hs⟩ := hf
  obtain ⟨t, ht⟩ := hg
  refine ⟨s ++ t, fun p h => ?_⟩
  dsimp only
  rw [hs p h, ht _ (printAppend_valid h s), printAppend_append h]

theorem Prints.ite {c : Prop} [Decidable c] (hf : Prints f) (hg : Prints g) :
    Prints fun p => if c then f p else g p := by
  by_cases h : c
  · simpa only [h, if_true] using hf
  · simpa only [h, if_false] using hg

theorem Prints.foldl {α : Type} {item : α → Printer → Printer} (h : ∀ x, Prints (item x))
    (xs : List α) : Prints fun p => xs.foldl (fun p x => item x p) p := by
  induction xs with
  | nil => exact prints_id
  | cons x xs ih => exact (h x).comp ih

theorem prints_separated {α : Type} {item : α → Printer → Printer} (h : ∀ x, Prints (item x)) :
    ∀ xs : List α, Prints (printSeparated item xs)
  | [] => prints_id
  | x :: xs => (h x).comp (Prints.foldl (fun y => (prints_lit ", ").comp (h y)) xs)

theorem prints_type (t : Ty) : Prints (printType t) := by
  unfold printType
  cases t.kind with
  | void | label8 | labelset | invalid => exact prints_lit _
  | int | addr | flags | mem => exact prints_append _

theorem prints_valueRef (v : Nat) : Prints (printValueRef m v) :=
  Prints.ite (prints_lit _) (prints_append _)

theorem prints_blockRef (b : Nat) : Prints (printBlockRef m b) := prints_append _

theorem prints_args (args : List Nat) : Prints (printArgs m args) :=
  ((prints_lit "(").comp (prints_separated prints_valueRef args)).comp (prints_lit ")")

/-- The destination of an operation. -/
theorem prints_dst (op : OpRec) :
    Prints fun p => printLit " = " (printType (m.valueType op.dst) (printLit ":"
      (printValueRef m op.dst (printLit "  " p)))) :=
  ((((prints_lit _).comp (prints_valueRef _)).comp (prints_lit _)).comp (prints_type _)).comp
    (prints_lit _)

theorem prints_op (op : OpRec) : Prints (printOp m op) := by
  have hdst := prints_dst (m := m) op
  unfold printOp
  cases op.opcode with
  | constU64 =>
    exact ((hdst.comp (prints_lit _)).comp (prints_type _)).comp (prints_append _)
  | load =>
    exact ((((((hdst.comp (prints_lit _)).comp (prints_type _)).comp (prints_lit _)).comp
      (prints_valueRef _)).comp (prints_lit _)).comp (prints_valueRef _)).comp (prints_lit _)
  | store =>
    exact ((((((hdst.comp (prints_lit _)).comp (prints_valueRef _)).comp (prints_lit _)).comp
      (prints_valueRef _)).comp (prints_lit _)).comp (prints_valueRef _)).comp (prints_lit _)
  | _ =>
    have htype : Prints fun p => printLit " " (printType (m.valueType (op.srcSlot 0))
        (printLit "." p)) := ((prints_lit _).comp (prints_type _)).comp (prints_lit _)
    have hsecond : Prints fun p => printValueRef m (op.srcSlot 1) (printLit ", " p) :=
      (prints_lit _).comp (prints_valueRef _)
    exact ((((hdst.comp (prints_lit _)).comp (htype.ite prints_id)).comp
      ((prints_valueRef _).ite prints_id)).comp (hsecond.ite prints_id)).comp (prints_lit _)

theorem prints_term (term : TermRec) : Prints (printTerm m term) := by
  unfold printTerm
  cases term.kind with
  | jump =>
    exact (((prints_lit _).comp (prints_blockRef _)).comp (prints_args _)).comp (prints_lit _)
  | cbranch =>
    exact ((((((((prints_lit _).comp (prints_valueRef _)).comp (prints_lit _)).comp
      (prints_blockRef _)).comp (prints_args _)).comp (prints_lit _)).comp
      (prints_blockRef _)).comp (prints_args _)).comp (prints_lit _)
  | ret =>
    have hargs : Prints fun p => printArgs m (m.termArgsConst term false) (printLit " " p) :=
      (prints_lit _).comp (prints_args _)
    exact ((prints_lit _).comp (hargs.ite prints_id)).comp (prints_lit _)
  | trap | fault => exact prints_append _
  | none => exact prints_lit _

theorem prints_param (param : Nat) : Prints (printParam m param) :=
  ((prints_valueRef _).comp (prints_lit _)).comp (prints_type _)

theorem prints_block (block : BlockRec) : Prints (printBlock m block) :=
  (((((prints_append _).comp (prints_separated prints_param _)).comp (prints_lit _)).comp
    (Prints.foldl (fun o => prints_op (m.opRec o)) _)).comp (prints_term _)).comp (prints_lit _)

end Printers

/-- **A small buffer holds a prefix.**  Every module has a text.  A buffer of `n` bytes gets the
text and a NUL when the text is shorter than `n`; otherwise it gets the first `n - 1` characters
and a NUL, and the call returns `XAIR_ERR_RANGE`.  No byte from `n` on is written. -/
theorem formatModule_prefix (m : Module) :
    ∃ text : Name, ∀ (buffer : Nat → UInt8) (n : Nat), 1 ≤ n →
      formatModule m buffer n =
        (if text.length < n then .ok else .errRange,
          writeText buffer 0 (text.take (n - 1) ++ [0])) ∧
      ∀ i, n ≤ i → (formatModule m buffer n).2 i = buffer i := by
  obtain ⟨text, htext⟩ := Prints.foldl (fun block => prints_block (m := m) block) m.blocks
  refine ⟨text, fun buffer n hn => ?_⟩
  have hvalid : (⟨writeText buffer 0 [0], n, 0, false⟩ : Printer).Valid := ⟨hn, rfl⟩
  have hformat : formatModule m buffer n =
      (if text.length < n then .ok else .errRange,
        writeText buffer 0 (text.take (n - 1) ++ [0])) := by
    have hover : writeText (writeText buffer 0 [0]) 0 (text.take (n - 1) ++ [0]) =
        writeText buffer 0 (text.take (n - 1) ++ [0]) := writeText_over [] _ 0 (by simp)
    rw [formatModule, if_neg (by omega)]
    simp only [htext _ hvalid, printAppend_put hvalid text rfl, Printer.put, Nat.sub_zero, hover,
      Nat.zero_add, decide_eq_true_eq]
    by_cases hlt : text.length < n
    · rw [if_neg (by omega), if_pos hlt]
    · rw [if_pos (by omega), if_neg hlt]
  refine ⟨hformat, fun i hi => ?_⟩
  rw [hformat]
  dsimp only
  refine writeText_of_le ?_
  rw [List.length_append, List.length_take, List.length_singleton]
  omega

end Xair
