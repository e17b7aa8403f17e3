import Xair.CaseFile

/-!
# Writing case files

The text of a configuration (`caseFile`), and the theorem that `read_case_file` reads it back
exactly when the lines fit into its buffer (`readCaseFile_caseFile`).  What is left of a longer
line is read as a line without a value.
-/

namespace Xair

open CText

/-! ### The text of a configuration -/

/-- The digits of a byte. -/
def hexByte (b : Byte) : Text :=
  [UInt8.ofNat (Nat.digitChar (b.toNat / 16)).toNat,
    UInt8.ofNat (Nat.digitChar (b.toNat % 16)).toNat]

def hexText (bytes : List Byte) : Text := bytes.flatMap hexByte

/-- The name of an architecture in a case file. -/
def caseArchName : Arch → Name
  | .x8664 => literalName "x86_64"
  | .x8632 => literalName "x86_32"

section Entries

variable (c : CaseConfig)

/-- The keys of the image and of the run. -/
def caseImageEntries : List (Text × Text) :=
  [(literalName "arch", caseArchName c.arch), (literalName "base", hexNumber c.base.toNat),
    (literalName "entry", hexNumber c.entry.toNat),
    (literalName "max_instructions", hexNumber c.maxInstructions),
    (literalName "bytes", hexText c.bytes),
    (literalName "run", literalName (if c.run then "1" else "0"))]

/-- The key of a register. -/
def caseRegEntry (reg : X86Reg) : Text × Text :=
  (literalName "reg." ++ x86RegName reg, hexNumber (c.regs reg).toNat)

/-- The key of bytes in memory. -/
def caseMemoryEntry (e : StoreCall) : Text × Text :=
  (literalName "mem." ++ (hexNumber e.space ++ 46 :: hexNumber e.address.toNat), hexText e.data)

def caseEntries : List (Text × Text) :=
  caseImageEntries c ++ ((List.range x86RegCount).filter c.haveReg).map (caseRegEntry c) ++
    c.memory.map caseMemoryEntry

/-- The line of a key, without the newline. -/
def caseLine (p : Text × Text) : Text := p.1 ++ 61 :: p.2

def caseFile : Text := ((caseEntries c).map caseLine).flatMap (· ++ [10])

end Entries

section Lines

variable {α : Type} {parseKey : α → Text → Text → Option α} {config : α} {p : Text × Text}
  {line : Text}

/-- The key and the value of a line are words. -/
structure Written (p : Text × Text) : Prop where
  nonempty : p.1 ≠ []
  key : ∀ x ∈ p.1, isWordChar x = true
  value : ∀ x ∈ p.2, isWordChar x = true
  short : p.1.length ≤ 100

theorem Written.plain (h : Written p) : ∀ x ∈ caseLine p, isSpace x = false ∧ x ≠ 0 ∧ x ≠ 10 := by
  intro x hx
  rcases List.mem_append.mp hx with hx | hx
  · obtain ⟨h1, h2, h3, -⟩ := isWordChar_plain (h.key x hx)
    exact ⟨h1, h2, h3⟩
  · rcases List.mem_cons.mp hx with rfl | hx
    · decide
    · obtain ⟨h1, h2, h3, -⟩ := isWordChar_plain (h.value x hx)
      exact ⟨h1, h2, h3⟩

/-- What is parsed of a line without white space, with or without its newline. -/
theorem strip_cString (h : ∀ x ∈ line, isSpace x = false ∧ x ≠ 0) :
    strip (cString line) = line ∧ strip (cString (line ++ [10])) = line := by
  have hnul : (0 : UInt8) ∉ line := fun h0 => (h 0 h0).2 rfl
  have hnul' : (0 : UInt8) ∉ line ++ [10] := fun h0 =>
    (List.mem_append.mp h0).elim hnul fun h0 => by cases List.mem_singleton.mp h0
  rw [cString_eq hnul, cString_eq hnul']
  exact ⟨strip_eq fun x hx => (h x hx).1, strip_newline fun x hx => (h x hx).1⟩

theorem parseCaseLine_caseLine {text : Text} (h : Written p)
    (hstrip : strip text = caseLine p) : parseCaseLine parseKey config text =
      parseKey config p.1 p.2 := by
  have hkey : (61 : UInt8) ∉ p.1 := fun h61 => (isWordChar_plain (h.key 61 h61)).2.2.2.2 rfl
  obtain ⟨c, cs, hcs⟩ := List.exists_cons_of_ne_nil h.nonempty
  have hc := (isWordChar_plain (h.key c (hcs ▸ List.mem_cons_self))).2.2.2.1
  have hfirst : ¬ (caseLine p = [] ∨ (caseLine p).head? = some 35) := by
    rw [caseLine, hcs]
    simpa using hc
  rw [parseCaseLine, hstrip]
  rw [if_neg hfirst, caseLine, splitAt_append hkey]
  dsimp only
  rw [strip_eq fun x hx => (isWordChar_plain (h.key x hx)).1,
    strip_eq fun x hx => (isWordChar_plain (h.value x hx)).1]

/-- A line that is one word has no value. -/
theorem parseCaseLine_word {text : Text} (hw : ∀ x ∈ line, isWordChar x = true) (hne : line ≠ [])
    (hstrip : strip text = line) : parseCaseLine parseKey config text = none := by
  obtain ⟨c, cs, rfl⟩ := List.exists_cons_of_ne_nil hne
  have hc := (isWordChar_plain (hw c List.mem_cons_self)).2.2.2.1
  have hnone : splitAt 61 (c :: cs) = none :=
    splitAt_eq_none fun h61 => (isWordChar_plain (hw 61 h61)).2.2.2.2 rfl
  rw [parseCaseLine, hstrip]
  rw [if_neg (by simpa using hc), hnone]

theorem parseCaseLines_cons {text line rest : Text}
    (h : fgetsLines 8192 text = line :: fgetsLines 8192 rest) :
    parseCaseLines parseKey config text = (parseCaseLine parseKey config (cString line)).bind
      fun config => parseCaseLines parseKey config rest := by
  rw [parseCaseLines, h, List.foldlM_cons]
  rfl

/-- A word at the end of a line. -/
theorem parseCaseLines_word {rest : Text} (hw : ∀ x ∈ line, isWordChar x = true) (hne : line ≠ []) :
    parseCaseLines parseKey config (line ++ 10 :: rest) = none := by
  have hplain : ∀ l : Text, (∀ x ∈ l, isWordChar x = true) → ∀ x ∈ l, isSpace x = false ∧ x ≠ 0 :=
    fun l hl x hx => ⟨(isWordChar_plain (hl x hx)).1, (isWordChar_plain (hl x hx)).2.1⟩
  have hnl : (10 : UInt8) ∉ line := fun h10 => (isWordChar_plain (hw 10 h10)).2.2.1 rfl
  rcases fgetsLines_cases hnl (by decide : 1 < 8192) rest with
    ⟨-, hlines⟩ | ⟨-, hlines⟩ | ⟨-, front, back, rfl, hlen, hlines⟩
  · rw [parseCaseLines, hlines, List.foldlM_cons,
      parseCaseLine_word hw hne (strip_cString (hplain line hw)).2]
    rfl
  · rw [parseCaseLines, hlines, List.foldlM_cons,
      parseCaseLine_word hw hne (strip_cString (hplain line hw)).1]
    rfl
  · have hfront : ∀ x ∈ front, isWordChar x = true := fun x hx => hw x (List.mem_append_left _ hx)
    have hne' : front ≠ [] := fun hnil => by
      rw [hnil] at hlen
      cases hlen
    rw [parseCaseLines, hlines, List.foldlM_cons,
      parseCaseLine_word hfront hne' (strip_cString (hplain front hfront)).1]
    rfl

/-- **One line**: it is read when it has at most 8191 characters, and the file is refused when it
has more. -/
theorem parseCaseLines_line (h : Written p) (rest : Text) :
    parseCaseLines parseKey config (caseLine p ++ 10 :: rest) =
      if (caseLine p).length ≤ 8191 then
        (parseKey config p.1 p.2).bind fun config => parseCaseLines parseKey config rest
      else none := by
  have hplain : ∀ x ∈ caseLine p, isSpace x = false ∧ x ≠ 0 := fun x hx =>
    ⟨(h.plain x hx).1, (h.plain x hx).2.1⟩
  have hnl : (10 : UInt8) ∉ caseLine p := fun h10 => (h.plain 10 h10).2.2 rfl
  rcases fgetsLines_cases hnl (by decide : 1 < 8192) rest with
    ⟨hlen, hlines⟩ | ⟨hlen, hlines⟩ | ⟨hlen, front, back, happ, hfront, hlines⟩
  · rw [if_pos (by omega), parseCaseLines_cons hlines,
      parseCaseLine_caseLine h (strip_cString hplain).2]
  · -- the newline is a line of its own
    have hblank : ∀ config : α, parseCaseLine parseKey config (cString [10]) = some config :=
      fun _ => rfl
    rw [if_pos (by omega), parseCaseLines, hlines, List.foldlM_cons,
      parseCaseLine_caseLine h (strip_cString hplain).1]
    refine congrArg _ (funext fun config => ?_)
    rw [List.foldlM_cons, hblank]
    rfl
  · rw [if_neg (by omega), parseCaseLines_cons hlines]
    have hback : back = p.2.drop (8191 - (p.1.length + 1)) := by
      have hdrop : back = (caseLine p).drop front.length := by rw [← happ, List.drop_left]
      have hcase : caseLine p = (p.1 ++ [61]) ++ p.2 := by rw [caseLine]; simp
      have hshort := h.short
      rw [hdrop, hcase, List.drop_append, List.drop_eq_nil_of_le, List.nil_append]
      · rw [List.length_append, List.length_singleton]
        congr 1
        omega
      · rw [List.length_append, List.length_singleton]
        omega
    have hne : back ≠ [] := fun hnil => by
      rw [← happ, hnil, List.append_nil] at hlen
      omega
    have hword : ∀ x ∈ back, isWordChar x = true := fun x hx =>
      h.value x (List.mem_of_mem_drop (hback ▸ hx))
    simp only [parseCaseLines_word hword hne]
    exact Option.bind_fun_none _

/-- The lines of a file are read key by key, when they all fit. -/
theorem parseCaseLines_entries {entries : List (Text × Text)} (h : ∀ p ∈ entries, Written p) :
    parseCaseLines parseKey config ((entries.map caseLine).flatMap (· ++ [10])) =
      if ∀ p ∈ entries, (caseLine p).length ≤ 8191 then
        entries.foldlM (fun config p => parseKey config p.1 p.2) config
      else none := by
  induction entries generalizing config with
  | nil => rw [if_pos fun p hp => (by cases hp)]; rfl
  | cons p entries ih =>
    rw [List.map_cons, List.flatMap_cons, List.append_assoc, List.singleton_append,
      parseCaseLines_line (h p List.mem_cons_self)]
    simp only [ih fun q hq => h q (List.mem_cons_of_mem _ hq), List.forall_mem_cons,
      List.foldlM_cons]
    by_cases hp : (caseLine p).length ≤ 8191
    · by_cases hrest : ∀ q ∈ entries, (caseLine q).length ≤ 8191
      · rw [if_pos hp, if_pos ⟨hp, hrest⟩]
        simp only [if_pos hrest]
        rfl
      · rw [if_pos hp, if_neg fun hall => hrest hall.2]
        simp only [if_neg hrest]
        exact Option.bind_fun_none _
    · rw [if_neg hp, if_neg fun hall => hp hall.1]

end Lines

/-! ### Values -/

section Values

variable {n : Nat} {bytes : List Byte}

theorem hexDigit_digitChar {d : Nat} (h : d < 16) :
    hexDigit (UInt8.ofNat (Nat.digitChar d).toNat) = some d := by
  interval_cases d <;> decide

theorem hexPairs_hexText (bytes : List Byte) : hexPairs (hexText bytes) = some bytes := by
  induction bytes with
  | nil => rfl
  | cons b bytes ih =>
    have hb : b.toNat < 256 := b.isLt
    have hvalue : (b.toNat / 16) <<< 4 ||| b.toNat % 16 = b.toNat := by
      rw [← Nat.shiftLeft_add_eq_or_of_lt (Nat.mod_lt _ (by decide) : b.toNat % 16 < 2 ^ 4),
        Nat.shiftLeft_eq]
      omega
    rw [hexText, List.flatMap_cons, hexByte, List.cons_append, List.cons_append, List.nil_append,
      hexPairs, hexDigit_digitChar (by omega), hexDigit_digitChar (by omega)]
    dsimp only
    rw [← hexText, ih, hvalue, Option.map_some, BitVec.ofNat_toNat, BitVec.setWidth_eq]

theorem length_hexText (bytes : List Byte) : (hexText bytes).length = 2 * bytes.length := by
  induction bytes with
  | nil => rfl
  | cons b bytes ih =>
    rw [hexText, List.flatMap_cons, List.length_append, ← hexText, ih, List.length_cons]
    show 2 + 2 * bytes.length = _
    omega

theorem parseHexBytes_hexText (bytes : List Byte) : parseHexBytes (hexText bytes) = some bytes := by
  rw [parseHexBytes, if_neg, hexPairs_hexText]
  rw [length_hexText, Nat.and_one_is_mod]
  omega

theorem hexText_word : ∀ x ∈ hexText bytes, isWordChar x = true := by
  intro x hx
  obtain ⟨b, -, hx⟩ := List.mem_flatMap.mp hx
  have hdigit : ∀ d < 16, isWordChar (UInt8.ofNat (Nat.digitChar d).toNat) = true := by decide
  have hb : b.toNat < 256 := b.isLt
  rcases List.mem_cons.mp hx with rfl | hx
  · exact hdigit _ (by omega)
  · rw [List.mem_singleton.mp hx]
    exact hdigit _ (by omega)

theorem parseU64_hexNumber (h : n < 2 ^ 64) :
    parseU64 (hexNumber n) = some (BitVec.ofNat 64 n) := by
  rw [parseU64, if_neg (by rw [hexNumber]; exact List.cons_ne_nil _ _), strtoull_hexNumber h]

theorem parseU64_word (w : Word) : parseU64 (hexNumber w.toNat) = some w := by
  rw [parseU64_hexNumber w.isLt, BitVec.ofNat_toNat, BitVec.setWidth_eq]

theorem regFromName_x86RegName {reg : X86Reg} (h : reg < x86RegCount) :
    regFromName (x86RegName reg) = some reg := by
  have hall : ∀ r < x86RegCount, regFromName (x86RegName r) = some r := by decide +kernel
  exact hall reg h

theorem x86RegName_word {reg : X86Reg} (h : reg < x86RegCount) :
    (∀ x ∈ x86RegName reg, isWordChar x = true) ∧ (x86RegName reg).length ≤ 3 := by
  have hall : ∀ r < x86RegCount, (∀ x ∈ x86RegName r, isWordChar x = true) ∧
      (x86RegName r).length ≤ 3 := by decide +kernel
  exact hall reg h

theorem parseMemoryKey_caseMemoryEntry {e : StoreCall} (h : e.space ≤ 65535) :
    parseMemoryKey (caseMemoryEntry e).1 = some (e.space, e.address) := by
  have hdot : (46 : UInt8) ∉ hexNumber e.space := fun h46 => (hexNumber_word 46 h46).2 rfl
  have hlen : (hexNumber e.space).length ≤ 4 + 2 := length_hexNumber (by decide) (by omega)
  have hdrop : (caseMemoryEntry e).1.drop 4 =
      hexNumber e.space ++ 46 :: hexNumber e.address.toNat := rfl
  have hmod : (BitVec.ofNat 64 e.space).toNat = e.space := by
    rw [BitVec.toNat_ofNat, Nat.mod_eq_of_lt (by omega)]
  have hprefix : (literalName "mem.").isPrefixOf (caseMemoryEntry e).1 = true := rfl
  rw [parseMemoryKey, if_neg (not_not.mpr hprefix), hdrop, splitAt_append hdot]
  dsimp only
  rw [if_neg (by omega), parseU64_hexNumber (by omega)]
  dsimp only
  rw [hmod, if_neg (by omega), parseU64_word]
  rfl

end Values

/-! ### Reading it back -/

section RoundTrip

variable {c config : CaseConfig} {value : Text}

theorem hexNumber_written {key : Text} {n : Nat} (hne : key ≠ [])
    (hkey : ∀ x ∈ key, isWordChar x = true) (hlen : key.length ≤ 100) :
    Written (key, hexNumber n) :=
  ⟨hne, hkey, fun x hx => (hexNumber_word x hx).1, hlen⟩

theorem caseEntries_written (hc : c.Within) : ∀ p ∈ caseEntries c, Written p := by
  intro p hp
  simp only [caseEntries, List.mem_append, List.mem_map, List.mem_filter, List.mem_range] at hp
  rcases hp with (hp | ⟨reg, ⟨hlt, -⟩, rfl⟩) | ⟨e, he, rfl⟩
  · simp only [caseImageEntries, List.mem_cons, List.not_mem_nil, or_false] at hp
    rcases hp with rfl | rfl | rfl | rfl | rfl | rfl
    · cases c.arch <;>
        exact ⟨by decide, by decide +kernel, by decide +kernel, by decide +kernel⟩
    · exact hexNumber_written (by decide) (by decide +kernel) (by decide)
    · exact hexNumber_written (by decide) (by decide +kernel) (by decide)
    · exact hexNumber_written (by decide) (by decide +kernel) (by decide)
    · refine ⟨List.cons_ne_nil _ _, ?_, fun x hx => hexText_word x hx, Nat.le_of_ble_eq_true rfl⟩
      exact (by decide +kernel : ∀ x ∈ literalName "bytes", isWordChar x = true)
    · cases c.run <;>
        exact ⟨by decide, by decide +kernel, by decide +kernel, by decide +kernel⟩
  · obtain ⟨hword, hlen⟩ := x86RegName_word hlt
    refine hexNumber_written (List.cons_ne_nil _ _) (fun x hx => ?_) ?_
    · rcases List.mem_append.mp hx with hx | hx
      · exact (by decide +kernel : ∀ x ∈ literalName "reg.", isWordChar x = true) x hx
      · exact hword x hx
    · rw [List.length_append]
      show 4 + _ ≤ _
      omega
  · have hspace := hc.space_le e he
    have hlen : (hexNumber e.space).length ≤ 4 + 2 := length_hexNumber (by decide) (by omega)
    have hlen' : (hexNumber e.address.toNat).length ≤ 16 + 2 :=
      length_hexNumber (by decide) (by simpa using e.address.isLt)
    refine ⟨List.cons_ne_nil _ _, fun x hx => ?_, fun x hx => hexText_word x hx, ?_⟩
    · rcases List.mem_append.mp hx with hx | hx
      · exact (by decide +kernel : ∀ x ∈ literalName "mem.", isWordChar x = true) x hx
      · rcases List.mem_append.mp hx with hx | hx
        · exact (hexNumber_word x hx).1
        · rcases List.mem_cons.mp hx with rfl | hx
          · decide
          · exact (hexNumber_word x hx).1
    · rw [caseMemoryEntry, List.length_append, List.length_append, List.length_cons]
      show 4 + _ ≤ _
      omega

theorem parseKey_arch (a : Arch) : config.parseKey (literalName "arch") (caseArchName a) =
    some { config with arch := a, haveArch := true } := by
  cases a <;> rfl

/-- A key of the image whose value is a word. -/
theorem parseKey_word {key : Text} {f : Word → BenchCase}
    (h : ∀ value, parseImageKey config.toBenchCase key value = some ((parseU64 value).map f))
    (w : Word) : config.parseKey key (hexNumber w.toNat) =
      some { config with toBenchCase := f w } := by
  rw [CaseConfig.parseKey, h, parseU64_word]
  rfl

theorem parseKey_bytes (bytes : List Byte) :
    config.parseKey (literalName "bytes") (hexText bytes) =
      some { config with bytes := bytes, haveBytes := true } := by
  show ((parseHexBytes (hexText bytes)).map _).map _ = _
  rw [parseHexBytes_hexText]
  rfl

theorem parseKey_run (run : Bool) :
    config.parseKey (literalName "run") (literalName (if run then "1" else "0")) =
      some { config with run := run } := by
  cases run <;> rfl

/-- The image is read back. -/
theorem foldlM_caseImageEntries (hc : c.Within) (hcomplete : c.toBenchCase.complete = true) :
    (caseImageEntries c).foldlM (fun config p => CaseConfig.parseKey config p.1 p.2)
      caseConfigInit = some ⟨c.toBenchCase, c.run, fun _ => 0#64, fun _ => false, []⟩ := by
  have hmax := hc.maxInstructions_lt
  obtain ⟨⟨bytes, base, entry, max, arch, ha, hby, hba, he⟩, run, regs, haveReg, memory⟩ := c
  simp only [BenchCase.complete, Bool.and_eq_true] at hcomplete
  obtain ⟨⟨⟨rfl, rfl⟩, rfl⟩, rfl⟩ := hcomplete
  have hbase : ∀ config : CaseConfig, config.parseKey (literalName "base") (hexNumber base.toNat) =
      some { config with base := base, haveBase := true } :=
    fun config => parseKey_word
      (f := fun w => { config.toBenchCase with base := w, haveBase := true }) (fun _ => rfl) base
  have hentry : ∀ config : CaseConfig,
      config.parseKey (literalName "entry") (hexNumber entry.toNat) =
        some { config with entry := entry, haveEntry := true } :=
    fun config => parseKey_word
      (f := fun w => { config.toBenchCase with entry := w, haveEntry := true }) (fun _ => rfl) entry
  have hlimit : ∀ config : CaseConfig,
      config.parseKey (literalName "max_instructions") (hexNumber max) =
        some { config with maxInstructions := max } := fun config => by
    have hword := @parseKey_word config (literalName "max_instructions")
      (fun w => { config.toBenchCase with maxInstructions := w.toNat }) (fun _ => rfl)
      (BitVec.ofNat 64 max)
    rw [BitVec.toNat_ofNat, Nat.mod_eq_of_lt hmax] at hword
    exact hword
  simp only [caseImageEntries, List.foldlM_cons, parseKey_arch, hbase, hentry, hlimit,
    parseKey_bytes, parseKey_run]
  rfl

theorem parseKey_caseRegEntry {reg : X86Reg} (h : reg < x86RegCount) :
    config.parseKey (caseRegEntry c reg).1 (caseRegEntry c reg).2 = some { config with
      regs := Function.update config.regs reg (c.regs reg)
      haveReg := Function.update config.haveReg reg true } := by
  show (regFromName (x86RegName reg)).bind _ = _
  rw [regFromName_x86RegName h, Option.bind_some]
  show (parseU64 (hexNumber (c.regs reg).toNat)).bind _ = _
  rw [parseU64_word]
  rfl

theorem parseKey_caseMemoryEntry {e : StoreCall} (hroom : config.memory.length < caseMaxMemory)
    (h : e.space ≤ 65535) : config.parseKey (caseMemoryEntry e).1 (caseMemoryEntry e).2 =
      some { config with memory := config.memory ++ [e] } := by
  show (if caseMaxMemory ≤ config.memory.length then none
    else (parseMemoryKey (caseMemoryEntry e).1).bind _) = _
  rw [if_neg (Nat.not_le.mpr hroom), parseMemoryKey_caseMemoryEntry h, Option.bind_some]
  show (parseHexBytes (hexText e.data)).bind _ = _
  rw [parseHexBytes_hexText]
  rfl

/-- The registers are read back. -/
theorem foldlM_caseRegEntries {regs : List X86Reg} (h : ∀ reg ∈ regs, reg < x86RegCount) :
    (regs.map (caseRegEntry c)).foldlM (fun config p => CaseConfig.parseKey config p.1 p.2)
      config = some { config with
        regs := fun reg => if reg ∈ regs then c.regs reg else config.regs reg
        haveReg := fun reg => if reg ∈ regs then true else config.haveReg reg } := by
  induction regs generalizing config with
  | nil => rfl
  | cons r regs ih =>
    rw [List.map_cons, List.foldlM_cons, parseKey_caseRegEntry (h r List.mem_cons_self)]
    refine (ih fun reg hreg => h reg (List.mem_cons_of_mem _ hreg)).trans ?_
    congr 2 <;> funext reg <;> by_cases hr : reg = r <;> simp [hr]

/-- Memory is read back. -/
theorem foldlM_caseMemoryEntries {memory : List StoreCall} (h : ∀ e ∈ memory, e.space ≤ 65535)
    (hroom : config.memory.length + memory.length ≤ caseMaxMemory) :
    (memory.map caseMemoryEntry).foldlM (fun config p => CaseConfig.parseKey config p.1 p.2)
      config = some { config with memory := config.memory ++ memory } := by
  induction memory generalizing config with
  | nil => rw [List.append_nil]; rfl
  | cons e memory ih =>
    rw [List.length_cons] at hroom
    rw [List.map_cons, List.foldlM_cons,
      parseKey_caseMemoryEntry (by omega) (h e List.mem_cons_self)]
    refine (ih (fun e he => h e (List.mem_cons_of_mem _ he)) ?_).trans ?_
    · rw [List.length_append, List.length_singleton]
      omega
    · rw [List.append_assoc, List.singleton_append]

/-- The entries of a configuration give it back. -/
theorem foldlM_caseEntries (hc : c.Within) (hcomplete : c.toBenchCase.complete = true) :
    (caseEntries c).foldlM (fun config p => CaseConfig.parseKey config p.1 p.2) caseConfigInit =
      some c := by
  rw [caseEntries, List.foldlM_append, List.foldlM_append, foldlM_caseImageEntries hc hcomplete]
  have hregs : ∀ reg ∈ (List.range x86RegCount).filter c.haveReg, reg < x86RegCount :=
    fun reg hreg => List.mem_range.mp (List.mem_of_mem_filter hreg)
  refine (congrArg (· >>= _) (foldlM_caseRegEntries hregs)).trans ?_
  refine (foldlM_caseMemoryEntries hc.space_le (by simpa using hc.memory_le)).trans ?_
  have hmem : ∀ reg, reg ∈ (List.range x86RegCount).filter c.haveReg ↔ c.haveReg reg = true :=
    fun reg => by
      rw [List.mem_filter, List.mem_range]
      exact ⟨And.right, fun h => ⟨hc.haveReg_lt reg h, h⟩⟩
  have hvalues : (fun reg => if reg ∈ (List.range x86RegCount).filter c.haveReg then c.regs reg
      else 0#64) = c.regs := by
    funext reg
    cases hr : c.haveReg reg with
    | true => rw [if_pos ((hmem reg).mpr hr)]
    | false => rw [if_neg fun h => by simp [(hmem reg).mp h] at hr, hc.regs_zero reg hr]
  have hgiven : (fun reg => if reg ∈ (List.range x86RegCount).filter c.haveReg then true
      else false) = c.haveReg := by
    funext reg
    cases hr : c.haveReg reg with
    | true => rw [if_pos ((hmem reg).mpr hr)]
    | false => rw [if_neg fun h => by simp [(hmem reg).mp h] at hr]
  rw [hvalues, hgiven]
  rfl

/-- **Case files are read back** exactly when they have no line of more than 8191 characters: a
configuration within the limits of the tool is what `read_case_file` gets from its text, and a text
with a longer line is refused. -/
theorem readCaseFile_caseFile (hc : c.Within) (hcomplete : c.toBenchCase.complete = true) :
    readCaseFile (caseFile c) =
      if ∀ p ∈ caseEntries c, (caseLine p).length ≤ 8191 then some c else none := by
  rw [readCaseFile, caseFile, parseCaseLines_entries (caseEntries_written hc),
    foldlM_caseEntries hc hcomplete]
  split
  · exact Option.filter_eq_some_iff.mpr ⟨rfl, hcomplete⟩
  · rfl

/-- `add rax, rbx; ret` with two bytes of memory. -/
def addRetCase : CaseConfig where
  bytes := [0x48#8, 0x01#8, 0xd8#8, 0xc3#8]
  base := 0x1000#64
  entry := 0x1000#64
  maxInstructions := 4
  arch := .x8664
  haveArch := true
  haveBytes := true
  haveBase := true
  haveEntry := true
  run := true
  regs reg := if reg = 0 then 40#64 else if reg = 3 then 2#64 else 0#64
  haveReg reg := decide (reg = 0 ∨ reg = 3)
  memory := [⟨0, 0x2000#64, [0x12#8, 0xab#8]⟩]

theorem within_addRetCase : addRetCase.Within := by
  refine ⟨by decide, fun reg hreg => ?_, fun reg hreg => ?_, by decide, by decide⟩
  · rcases of_decide_eq_true hreg with rfl | rfl <;> decide
  · have hne := not_or.mp (of_decide_eq_false hreg)
    show (if reg = 0 then _ else if reg = 3 then _ else 0#64) = 0#64
    rw [if_neg hne.1, if_neg hne.2]

theorem readCaseFile_caseFile_addRet : readCaseFile (caseFile addRetCase) = some addRetCase := by
  rw [readCaseFile_caseFile within_addRetCase rfl, if_pos (by decide +kernel)]

end RoundTrip

end Xair
