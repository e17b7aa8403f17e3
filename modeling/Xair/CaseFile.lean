import Xair.CText
import Xair.FlatMemory
import Xair.Lift

/-!
# Case files

The files that `xair_case_run.c` and `xair_bench_lift.c` read, one `key=value` a line: the bytes of
an image, where the block starts, and for `xair_case_run` what registers and memory hold.  Both
tools read the keys of the image alike; the benchmark passes over the others.  Memory to hold the
bytes is always there, and the file can be opened.

Every file that `xair_case_run` reads is read by the benchmark, with the same image, and gives a
configuration within the limits of the tool (`readCaseFile_sound`).  Every such configuration whose
bytes fit into lines can be written as a file and is read back (`readCaseFile_caseFile`).
-/

namespace Xair

open CText

/-! ### Values -/

/-- `parse_u64`. -/
def parseU64 (text : Text) : Option Word :=
  if text = [] then none
  else
    match strtoull text with
    | some (some value, []) => some (BitVec.ofNat 64 value)
    | _ => none

/-- `hex_digit`. -/
def hexDigit (c : UInt8) : Option Nat :=
  if 48 ≤ c ∧ c ≤ 57 then some (c.toNat - 48)
  else if 97 ≤ c ∧ c ≤ 102 then some (c.toNat - 97 + 10)
  else if 65 ≤ c ∧ c ≤ 70 then some (c.toNat - 65 + 10)
  else none

/-- The loop of `parse_hex_bytes`. -/
def hexPairs : Text → Option (List Byte)
  | hi :: lo :: text =>
    match hexDigit hi, hexDigit lo with
    | some hi, some lo => (hexPairs text).map (BitVec.ofNat 8 (hi <<< 4 ||| lo) :: ·)
    | _, _ => none
  | _ => some []

/-- `parse_hex_bytes`. -/
def parseHexBytes (text : Text) : Option (List Byte) :=
  if text.length &&& 1 ≠ 0 then none else hexPairs text

/-- `xair_x86_reg_name`. -/
def x86RegName (reg : X86Reg) : Name := literalName (x86RegNames.getD reg "invalid")

/-- `reg_from_name`. -/
def regFromName (name : Text) : Option X86Reg :=
  (List.range x86RegCount).find? fun reg => decide (name = x86RegName reg)

/-- `parse_memory_key`. -/
def parseMemoryKey (key : Text) : Option (Nat × Word) :=
  if ¬ (literalName "mem.").isPrefixOf key then none
  else
    match splitAt 46 (key.drop 4) with
    | none => none
    | some (spaceText, addressText) =>
      if 32 ≤ spaceText.length then none
      else
        match parseU64 spaceText with
        | none => none
        | some space =>
          if 65535 < space.toNat then none
          else (parseU64 addressText).map fun address => (space.toNat, address)

/-! ### Configurations -/

/-- `bench_case`: the image and the block. -/
structure BenchCase where
  bytes : List Byte
  base : Word
  entry : Word
  maxInstructions : Nat
  arch : Arch
  haveArch : Bool
  haveBytes : Bool
  haveBase : Bool
  haveEntry : Bool

/-- `case_config`: registers and memory as well. -/
structure CaseConfig extends BenchCase where
  run : Bool
  regs : X86Reg → Word
  haveReg : X86Reg → Bool
  memory : List StoreCall

/-- `CASE_MAX_MEMORY`. -/
def caseMaxMemory : Nat := 64

/-- `bench_case_init`. -/
def benchCaseInit : BenchCase := ⟨[], 0#64, 0#64, 32, .x8664, false, false, false, false⟩

/-- `case_config_init`. -/
def caseConfigInit : CaseConfig := ⟨benchCaseInit, true, fun _ => 0#64, fun _ => false, []⟩

/-- The keys of the image, which both `parse_case_line` read alike; there is no result for another
key. -/
def parseImageKey (config : BenchCase) (key value : Text) : Option (Option BenchCase) :=
  if key = literalName "arch" then
    some <|
      if value = literalName "x86_64" then some { config with arch := .x8664, haveArch := true }
      else if value = literalName "x86_32" ∨ value = literalName "x86" ∨
          value = literalName "i386" then
        some { config with arch := .x8632, haveArch := true }
      else none
  else if key = literalName "base" then
    some ((parseU64 value).map fun v => { config with base := v, haveBase := true })
  else if key = literalName "entry" then
    some ((parseU64 value).map fun v => { config with entry := v, haveEntry := true })
  else if key = literalName "max_instructions" then
    some ((parseU64 value).map fun v => { config with maxInstructions := v.toNat })
  else if key = literalName "bytes" then
    some ((parseHexBytes value).map fun v => { config with bytes := v, haveBytes := true })
  else none

/-- What the benchmark does with a key. -/
def BenchCase.parseKey (config : BenchCase) (key value : Text) : Option BenchCase :=
  match parseImageKey config key value with
  | some image => image
  | none =>
    if key = literalName "run" ∨ (literalName "reg.").isPrefixOf key ∨
        (literalName "mem.").isPrefixOf key then some config
    else none

/-- What `xair_case_run` does with a key. -/
def CaseConfig.parseKey (config : CaseConfig) (key value : Text) : Option CaseConfig :=
  match parseImageKey config.toBenchCase key value with
  | some image => image.map fun image => { config with toBenchCase := image }
  | none =>
    if key = literalName "run" then
      some { config with run := value ≠ literalName "0" ∧ value ≠ literalName "false" }
    else if (literalName "reg.").isPrefixOf key then
      do
        let reg ← regFromName (key.drop 4)
        let v ← parseU64 value
        some { config with
          regs := Function.update config.regs reg v
          haveReg := Function.update config.haveReg reg true }
    else if (literalName "mem.").isPrefixOf key then
      if caseMaxMemory ≤ config.memory.length then none
      else
        do
          let (space, address) ← parseMemoryKey key
          let bytes ← parseHexBytes value
          some { config with memory := config.memory ++ [⟨space, address, bytes⟩] }
    else none

/-- `parse_case_line`, given what it does with a key. -/
def parseCaseLine {α : Type} (parseKey : α → Text → Text → Option α) (config : α) (line : Text) :
    Option α :=
  let key := strip line
  if key = [] ∨ key.head? = some 35 then some config
  else
    match splitAt 61 key with
    | none => none
    | some (key, value) => parseKey config (strip key) (strip value)

/-- The loop of `read_case_file`, with its buffer of 8192 characters. -/
def parseCaseLines {α : Type} (parseKey : α → Text → Text → Option α) (config : α) (text : Text) :
    Option α :=
  (fgetsLines 8192 text).foldlM (fun config line => parseCaseLine parseKey config (cString line))
    config

/-- What `read_case_file` asks for in the end. -/
def BenchCase.complete (config : BenchCase) : Bool :=
  config.haveArch && config.haveBase && config.haveEntry && config.haveBytes

/-- `read_case_file` of `xair_bench_lift.c`, on the text of the file. -/
def benchReadCaseFile (text : Text) : Option BenchCase :=
  (parseCaseLines BenchCase.parseKey benchCaseInit text).filter BenchCase.complete

/-- `read_case_file` of `xair_case_run.c`, on the text of the file. -/
def readCaseFile (text : Text) : Option CaseConfig :=
  (parseCaseLines CaseConfig.parseKey caseConfigInit text).filter fun c => c.toBenchCase.complete

/-! ### What is read -/

/-- The limits of the tool, which a configuration keeps while it is read. -/
structure CaseConfig.Within (c : CaseConfig) : Prop where
  maxInstructions_lt : c.maxInstructions < 2 ^ 64
  haveReg_lt : ∀ reg, c.haveReg reg = true → reg < x86RegCount
  regs_zero : ∀ reg, c.haveReg reg = false → c.regs reg = 0#64
  memory_le : c.memory.length ≤ caseMaxMemory
  space_le : ∀ e ∈ c.memory, e.space ≤ 65535

section Sound

variable {c c' : CaseConfig} {image : BenchCase} {key value line text : Text}

theorem maxInstructions_parseImageKey
    (h : parseImageKey c.toBenchCase key value = some (some image))
    (hc : c.maxInstructions < 2 ^ 64) : image.maxInstructions < 2 ^ 64 := by
  unfold parseImageKey at h
  split at h
  · split at h
    · cases h
      exact hc
    · split at h
      · cases h
        exact hc
      · cases h
  · split at h
    · obtain ⟨v, -, rfl⟩ := Option.map_eq_some_iff.mp (Option.some.inj h)
      exact hc
    · split at h
      · obtain ⟨v, -, rfl⟩ := Option.map_eq_some_iff.mp (Option.some.inj h)
        exact hc
      · split at h
        · obtain ⟨v, -, rfl⟩ := Option.map_eq_some_iff.mp (Option.some.inj h)
          exact v.isLt
        · split at h
          · obtain ⟨v, -, rfl⟩ := Option.map_eq_some_iff.mp (Option.some.inj h)
            exact hc
          · cases h

theorem regFromName_lt {reg : X86Reg} (h : regFromName key = some reg) : reg < x86RegCount :=
  List.mem_range.mp (List.mem_of_find?_eq_some h)

theorem parseMemoryKey_le {space : Nat} {address : Word}
    (h : parseMemoryKey key = some (space, address)) : space ≤ 65535 := by
  unfold parseMemoryKey at h
  split at h
  · cases h
  · split at h
    · cases h
    · split at h
      · cases h
      · split at h
        · cases h
        · split at h
          · cases h
          · next hle =>
            obtain ⟨a, -, ha⟩ := Option.map_eq_some_iff.mp h
            cases ha
            exact Nat.not_lt.mp hle

/-- **One key**: the limits are kept, and the benchmark reads the same image. -/
theorem CaseConfig.Within.parseKey (hc : c.Within) (h : c.parseKey key value = some c') :
    c'.Within ∧ c.toBenchCase.parseKey key value = some c'.toBenchCase := by
  unfold CaseConfig.parseKey at h
  unfold BenchCase.parseKey
  cases himage : parseImageKey c.toBenchCase key value with
  | some image =>
    rw [himage] at h
    obtain ⟨image, rfl, rfl⟩ := Option.map_eq_some_iff.mp h
    exact ⟨{ hc with
      maxInstructions_lt := maxInstructions_parseImageKey himage hc.maxInstructions_lt }, rfl⟩
  | none =>
    rw [himage] at h
    dsimp only at h ⊢
    split at h
    · next hrun =>
      cases h
      exact ⟨{ hc with }, if_pos (.inl hrun)⟩
    · split at h
      · next hreg =>
        obtain ⟨reg, hname, h⟩ := Option.bind_eq_some_iff.mp h
        obtain ⟨v, -, h⟩ := Option.bind_eq_some_iff.mp h
        cases h
        refine ⟨{ hc with haveReg_lt := fun r hr => ?_, regs_zero := fun r hr => ?_ },
          if_pos (.inr (.inl hreg))⟩
        · by_cases hrr : r = reg
          · exact hrr ▸ regFromName_lt hname
          · exact hc.haveReg_lt r (by simpa [Function.update_apply, hrr] using hr)
        · have hrr : r ≠ reg := fun hrr => by simp [hrr] at hr
          dsimp only at hr ⊢
          rw [Function.update_of_ne hrr] at hr ⊢
          exact hc.regs_zero r hr
      · split at h
        · next hmem =>
          split at h
          · cases h
          · next hroom =>
            obtain ⟨p, hkey, h⟩ := Option.bind_eq_some_iff.mp h
            obtain ⟨bytes, -, h⟩ := Option.bind_eq_some_iff.mp h
            cases h
            refine ⟨{ hc with memory_le := ?_, space_le := fun e he => ?_ },
              if_pos (.inr (.inr hmem))⟩
            · rw [List.length_append, List.length_singleton]
              omega
            · rcases List.mem_append.mp he with he | he
              · exact hc.space_le e he
              · rw [List.mem_singleton.mp he]
                exact parseMemoryKey_le (Prod.eta p ▸ hkey)
        · cases h

theorem CaseConfig.Within.parseCaseLine (hc : c.Within)
    (h : parseCaseLine CaseConfig.parseKey c line = some c') :
    c'.Within ∧ parseCaseLine BenchCase.parseKey c.toBenchCase line = some c'.toBenchCase := by
  unfold Xair.parseCaseLine at h ⊢
  dsimp only at h ⊢
  split at h
  · next hempty =>
    cases h
    exact ⟨hc, if_pos hempty⟩
  · next hne =>
    rw [if_neg hne]
    cases hsplit : splitAt 61 (strip line) with
    | none =>
      rw [hsplit] at h
      cases h
    | some p =>
      rw [hsplit] at h
      exact hc.parseKey h

/-- **Every file that is read** gives a configuration within the limits, and the benchmark reads the
image of it from the same file. -/
theorem readCaseFile_sound (h : readCaseFile text = some c) :
    c.Within ∧ c.toBenchCase.complete = true ∧ benchReadCaseFile text = some c.toBenchCase := by
  obtain ⟨hlines, hcomplete⟩ := Option.filter_eq_some_iff.mp h
  have hall : ∀ (lines : List Text) (c₀ : CaseConfig), c₀.Within →
      lines.foldlM (fun c line => parseCaseLine CaseConfig.parseKey c (cString line)) c₀ = some c →
      c.Within ∧ lines.foldlM (fun c line => parseCaseLine BenchCase.parseKey c (cString line))
        c₀.toBenchCase = some c.toBenchCase := by
    intro lines
    induction lines with
    | nil =>
      intro c₀ hc hfold
      cases hfold
      exact ⟨hc, rfl⟩
    | cons line lines ih =>
      intro c₀ hc hfold
      rw [List.foldlM_cons] at hfold ⊢
      obtain ⟨c₁, hline, hfold⟩ := Option.bind_eq_some_iff.mp hfold
      obtain ⟨hc₁, hbench⟩ := hc.parseCaseLine hline
      rw [hbench]
      exact ih c₁ hc₁ hfold
  have hinit : caseConfigInit.Within :=
    ⟨by decide, fun _ hr => (by cases hr), fun _ _ => rfl, by decide, fun _ he => (by cases he)⟩
  obtain ⟨hc, hbench⟩ := hall _ _ hinit hlines
  refine ⟨hc, hcomplete, ?_⟩
  rw [benchReadCaseFile]
  exact Option.filter_eq_some_iff.mpr ⟨hbench, hcomplete⟩

/-- `mov rax, 42; ret`. -/
def movRetText : Text :=
  literalName "arch=x86_64\nbase=0x1000\nentry=0x1000\nmax_instructions=4\n" ++
    literalName "bytes=48b82a00000000000000c3\nrun=1\n"

theorem readCaseFile_sound_movRet : ∃ c, readCaseFile movRetText = some c ∧ c.Within ∧
    benchReadCaseFile movRetText = some c.toBenchCase := by
  have hsome : (readCaseFile movRetText).isSome = true := by decide +kernel
  obtain ⟨c, h⟩ := Option.isSome_iff_exists.mp hsome
  obtain ⟨hc, -, hbench⟩ := readCaseFile_sound h
  exact ⟨c, h, hc, hbench⟩

end Sound

end Xair
