import Xair.Soundness
import Xair.WordMemory

/-!
# Accesses and the address space

A memory token `mem<space,N>` is accessed through addresses of `N` bits, while the byte
loops and the test of `exec_range_wraps` work on 64-bit integers.  `Performs` is an
operation that accesses memory and succeeds, with the bytes that its loop visits
(`MemAccess.bytes`).  In a run whose parameters are in range every address is in range, so
an access leaves its space exactly when it crosses the top of a 32-bit one
(`execRun_accesses`).
-/

namespace Xair

/-- An access: the space and its width, and the range of bytes. -/
structure MemAccess where
  space : Nat
  bits : Nat
  address : Word
  size : Nat
  deriving DecidableEq, Repr

namespace MemAccess

/-- The byte addresses that the loops of `xair_exec_store_bytes` and `xair_exec_load_bytes`
visit. -/
def bytes (a : MemAccess) : List Word :=
  (List.range a.size).map fun i => a.address + BitVec.ofNat 64 i

/-- Every byte address is one of the space. -/
def Inside (a : MemAccess) : Prop := ∀ x ∈ a.bytes, x.toNat < 2 ^ a.bits

/-- The access starts among the last `size - 1` addresses of a 32-bit space. -/
def CrossesTop32 (a : MemAccess) : Prop := a.bits = 32 ∧ 2 ^ 32 - a.size < a.address.toNat

instance (a : MemAccess) : Decidable a.Inside := inferInstanceAs (Decidable (∀ _ ∈ _, _))

instance (a : MemAccess) : Decidable a.CrossesTop32 := inferInstanceAs (Decidable (_ ∧ _))

theorem mem_bytes {a : MemAccess} {x : Word} :
    x ∈ a.bytes ↔ ∃ i < a.size, a.address + BitVec.ofNat 64 i = x := by
  simp [bytes]

/-- **One access.**  From an address of the space, only the top of a 32-bit space is crossed. -/
theorem inside_iff {a : MemAccess} (hbits : a.bits = 32 ∨ a.bits = 64)
    (haddr : a.address.toNat < 2 ^ a.bits) (hsize : a.size ≤ 8) :
    a.Inside ↔ ¬ a.CrossesTop32 := by
  rcases hbits with hb | hb
  · rw [hb] at haddr
    have hat : ∀ i < a.size, (a.address + BitVec.ofNat 64 i).toNat = a.address.toNat + i := by
      intro i hi
      rw [BitVec.toNat_add, BitVec.toNat_ofNat, Nat.mod_eq_of_lt (a := i) (by omega),
        Nat.mod_eq_of_lt (by omega)]
    constructor
    · rintro hin ⟨-, htop⟩
      -- the last byte is the one that shows
      have hlast := hin _ (mem_bytes.mpr ⟨a.size - 1, by omega, rfl⟩)
      rw [hat _ (by omega), hb] at hlast
      omega
    · intro htop x hx
      obtain ⟨i, hi, rfl⟩ := mem_bytes.mp hx
      have hle : ¬ 2 ^ 32 - a.size < a.address.toNat := fun h => htop ⟨hb, h⟩
      rw [hat i hi, hb]
      omega
  · constructor
    · rintro - ⟨hb', -⟩
      omega
    · intro _ x _
      rw [hb]
      exact x.isLt

end MemAccess

/-- The operation succeeds with this access: `mem<space,N>` and `addrN` for the same `N`. -/
structure Performs (m : Module) (t t' : ExecState) (op : OpRec) (a : MemAccess) : Prop where
  executes : execOp m t op = (.ok, t')
  memory : ∃ x, execReadValue m t (op.srcAt 0) = .ok x ∧ x.type = typeMem a.space a.bits
  address : ∃ x, execReadValue m t (op.srcAt 1) = .ok x ∧ x.type = typeAddr a.bits ∧
    x.lo = a.address
  size : accessSize (m.valueType op.dst) (execReadValue m t) op = some a.size

/-- The run performs the access at one of its operations. -/
def Executes (m : Module) (entry : Nat) (s : ExecState) (limit : Nat) (a : MemAccess) : Prop :=
  ∃ b o t t', ReachesOp m entry s limit b o t ∧ Performs m t t' (m.opRec o) a

/-- What an access does to memory: its bytes are defined then, and the others are left. -/
structure MemTouched (t t' : ExecState) (a : MemAccess) : Prop where
  defined : ∀ x ∈ a.bytes, (flatOf t'.mem.pages a.space x).isSome = true
  others : ∀ sp x, sp ≠ a.space ∨ x ∉ a.bytes → flatOf t'.mem.pages sp x = flatOf t.mem.pages sp x

/-! ### What succeeds -/

section Memory

variable {m : Module} {t t' : ExecState} {op : OpRec}

/-- An operation that succeeds has a value, and leaves the memory that comes with it. -/
theorem execOp_ok (hout : OpOutcome (m.valueType op.dst) (execReadValue m t) t.mem op
      (execOpValue (m.valueType op.dst) (execReadValue m t) t.mem op))
    (h : execOp m t op = (.ok, t')) :
    ∃ x, execOpValue (m.valueType op.dst) (execReadValue m t) t.mem op = .ok (x, t'.mem) := by
  rw [execOp] at h
  generalize execOpValue (m.valueType op.dst) (execReadValue m t) t.mem op = r at h hout
  cases hout with
  | unsupported => cases h
  | wraps => cases h
  | undefinedByte => cases h
  | @ok x mem =>
    refine ⟨x, ?_⟩
    simp only [execDefineValue] at h
    split at h
    · cases h
    · split at h
      · cases h
      · cases h
        rfl

theorem defined_of_execLoadU64 {pages : List ExecPage} {a : MemAccess} {endian : Endian} {w : Word}
    (h : execLoadU64 pages a.space a.address a.size endian = .ok w) :
    ∀ x ∈ a.bytes, (flatOf pages a.space x).isSome = true := by
  intro x hx
  obtain ⟨i, hi, rfl⟩ := MemAccess.mem_bytes.mp hx
  cases hb : flatOf pages a.space (a.address + BitVec.ofNat 64 i) with
  | some b => rfl
  | none =>
    have hread : ((flatOf pages).space a.space).read a.address a.size = none :=
      ByteMap.read_eq_none hi hb
    rw [execLoadU64, execLoadBytes, execLoadBytesFrom_eq, hread] at h
    split at h
    · cases h
    · split at h
      · cases h
      · next hb =>
        split at hb <;> cases hb

theorem touches_of_execStoreU64 {a : MemAccess} {endian : Endian} {w : Word}
    (h : execStoreU64 t.mem.pages a.space a.address w a.size endian = .ok t'.mem.pages) :
    MemTouched t t' a where
  defined x hx := by
    obtain ⟨i, hi, rfl⟩ := MemAccess.mem_bytes.mp hx
    rw [flatOf_execStoreU64 h hi]
    rfl
  others sp x hx := by
    apply flatOf_execStoreU64_apart h
    refine hx.imp_right fun hne j hj hxj => hne ?_
    exact MemAccess.mem_bytes.mpr ⟨j, hj, hxj.symm⟩

/-- **An access touches its bytes** and no others. -/
theorem Performs.touches {a : MemAccess} (hp : Performs m t t' op a)
    (hout : OpOutcome (m.valueType op.dst) (execReadValue m t) t.mem op
      (execOpValue (m.valueType op.dst) (execReadValue m t) t.mem op)) : MemTouched t t' a := by
  obtain ⟨x, hx⟩ := execOp_ok hout hp.executes
  obtain ⟨x0, h0, ht0⟩ := hp.memory
  obtain ⟨x1, h1, ht1, hlo⟩ := hp.address
  have hsize := hp.size
  have hmem := accessSize_memoryOp hsize
  have hguard : (!x0.type.isMem || !x1.type.isAddr) = false := by
    rw [ht0, ht1]
    rfl
  rw [execOpValue_memoryOp hmem, execMemoryOp, h0, h1] at hx
  dsimp only at hx
  rw [if_neg (by rw [hguard]; exact Bool.false_ne_true), hlo, ht0] at hx
  dsimp only [typeMem] at hx
  rcases hmem with hop | hop
  · rw [accessSize, hop] at hsize
    simp only [hop, hsize] at hx
    split at hx
    · cases hx
    · next w hw =>
      obtain ⟨-, hsame⟩ := Prod.mk.inj (Except.ok.inj hx)
      rw [hsame] at hw
      exact ⟨defined_of_execLoadU64 hw, fun _ _ _ => by rw [hsame]⟩
  · rw [accessSize, hop] at hsize
    cases h2 : execReadValue m t (op.srcAt 2) with
    | error e =>
      rw [h2] at hsize
      cases hsize
    | ok data =>
      simp only [h2] at hsize
      simp only [hop, h2, hsize] at hx
      split at hx
      · cases hx
      · next pages hst =>
        obtain ⟨-, hstored⟩ := Prod.mk.inj (Except.ok.inj hx)
        have hpages : pages = t'.mem.pages := congrArg ExecMemory.pages hstored
        rw [hpages] at hst
        exact touches_of_execStoreU64 hst

end Memory

/-! ### Runs -/

theorem typeRule_access {opcode : Opcode} {out : Ty} {srcs : List Ty} (hop : opcode.isMemoryOp)
    (h : typeRule opcode out srcs = true) :
    ∃ mem addr rest, srcs = mem :: addr :: rest ∧ mem.isMem = true ∧ addr.isAddr = true ∧
      mem.bits = addr.bits := by
  rcases hop with rfl | rfl
  · rcases srcs with _ | ⟨mem, _ | ⟨addr, _ | ⟨x, rest⟩⟩⟩
    · simp [typeRule] at h
    · simp [typeRule] at h
    · simp only [typeRule, Bool.and_eq_true, beq_iff_eq] at h
      exact ⟨mem, addr, [], rfl, h.1.1.1, h.1.1.2, h.1.2⟩
    · simp [typeRule] at h
  · rcases srcs with _ | ⟨mem, _ | ⟨addr, _ | ⟨data, _ | ⟨x, rest⟩⟩⟩⟩
    · simp [typeRule] at h
    · simp [typeRule] at h
    · simp [typeRule] at h
    · simp only [typeRule, Bool.and_eq_true, beq_iff_eq] at h
      exact ⟨mem, addr, [data], rfl, h.1.1.1, h.1.1.2, h.1.2⟩
    · simp [typeRule] at h

theorem OpOk.accessTypes {m : Module} {b o : Nat} {av : ValueSet} (hwf : m.WF)
    (hok : OpOk m b av o) (hop : (m.opRec o).opcode.isMemoryOp) :
    ∃ v0 v1 space bits, (m.opRec o).srcAt 0 = v0 ∧ (m.opRec o).srcAt 1 = v1 ∧
      m.valueIsAvailable av v0 = true ∧ m.valueIsAvailable av v1 = true ∧
      m.valueType v0 = typeMem space bits ∧ m.valueType v1 = typeAddr bits ∧
      (bits = 32 ∨ bits = 64) := by
  obtain ⟨mem, addr, rest, hs, hmem, haddr, hbits⟩ := typeRule_access hop hok.typed
  obtain ⟨v0, vs, hsrc, rfl, hs'⟩ := List.map_eq_cons_iff.mp hs
  obtain ⟨v1, vs, rfl, rfl, -⟩ := List.map_eq_cons_iff.mp hs'
  have hav0 := hok.sources v0 (by rw [hsrc]; exact List.mem_cons_self)
  have hav1 := hok.sources v1 (by rw [hsrc]; exact List.mem_cons_of_mem _ List.mem_cons_self)
  have hvalid := hwf.value_type v1 (valueIsAvailable_iff.mp hav1).1
  rw [Ty.isMem, beq_iff_eq] at hmem
  rw [Ty.isAddr, beq_iff_eq] at haddr
  simp only [Ty.isValueType, Ty.isValid, haddr, validAddrBits, Bool.and_eq_true, Bool.or_eq_true,
    beq_iff_eq] at hvalid
  have h0 : (m.opRec o).srcAt 0 = v0 := by rw [OpRec.srcAt, hsrc]; rfl
  have h1 : (m.opRec o).srcAt 1 = v1 := by rw [OpRec.srcAt, hsrc]; rfl
  refine ⟨v0, v1, (m.valueType v0).aux, (m.valueType v0).bits, h0, h1, hav0, hav1, ?_, ?_, ?_⟩
  · rw [typeMem, ← hmem]
  · rw [typeAddr, hbits, ← haddr, ← hvalid.1.1.2]
  · rw [hbits]
    exact hvalid.1.1.1

theorem accessSize_of_ok {out : Ty} {read : Nat → Except Status ExecValue} {mem : ExecMemory}
    {op : OpRec} (hop : op.opcode.isMemoryOp) {p : ExecValue × ExecMemory}
    (h : execOpValue out read mem op = .ok p) : ∃ size, accessSize out read op = some size := by
  rw [execOpValue_memoryOp hop, execMemoryOp] at h
  rw [accessSize]
  split at h
  · cases h
  · split at h
    · cases h
    · split at h
      · cases h
      · rcases hop with hop | hop
        · rw [hop] at h ⊢
          dsimp only at h ⊢
          split at h
          · cases h
          · next size hsize => exact ⟨size, hsize⟩
        · rw [hop] at h ⊢
          dsimp only at h ⊢
          split at h
          · cases h
          · next data hdata =>
            rw [hdata]
            dsimp only
            split at h
            · cases h
            · next size hsize => exact ⟨size, hsize⟩

theorem accessSize_le {out : Ty} {read : Nat → Except Status ExecValue} {op : OpRec} {size : Nat}
    (h : accessSize out read op = some size) : size ≤ 8 := by
  rw [accessSize] at h
  split at h
  · exact execByteSizedScalar_le h
  · split at h
    · exact execByteSizedScalar_le h
    · cases h
  · cases h

/-- **Accesses stay in their space** except at the top of a 32-bit one.  In every run of a
verified module whose parameters are in range, each memory operation that succeeds is an
access through `mem<space,N>` and `addrN` with `N` 32 or 64 that touches just its bytes, and
its bytes are all below `2 ^ N` exactly when it does not cross the top of a 32-bit space. -/
theorem execRun_accesses {m : Module} (h : m.Reachable) (hver : m.Verified) {s : ExecState}
    (hs : s.Reachable m) {entry : Nat} (hb : entry < m.blocks.length)
    (hset : ∀ v ∈ (m.blockRec entry).params, s.defined v = true)
    (hrange : ∀ v ∈ (m.blockRec entry).params, (s.values v).InRange) (limit : Nat) :
    (∀ b o t t', ReachesOp m entry s limit b o t → (m.opRec o).opcode.isMemoryOp →
      execOp m t (m.opRec o) = (.ok, t') →
      ∃ a, Performs m t t' (m.opRec o) a ∧ MemTouched t t' a) ∧
    ∀ a, Executes m entry s limit a →
      (a.bits = 32 ∨ a.bits = 64) ∧ (a.Inside ↔ ¬ a.CrossesTop32) := by
  have hwf := wf_reachable h
  obtain ⟨hm, hst⟩ := mirrors_start hwf (hs.ok hwf) hb hset
  have hstart : MirrorsStart m EnvInRange entry s _ := ⟨hm, hst, envInRange_params hrange⟩
  constructor
  · intro b o t t' hro hop hexec
    obtain ⟨r', av, hok, hm', hr', -⟩ :=
      reachesOp_mirrors hwf hver (refInvariant_envInRange m) hstart hro
    obtain ⟨v0, v1, space, bits, h0, h1, hav0, hav1, ht0, ht1, -⟩ := hok.accessTypes hwf hop
    have hready := hm'.ready hr'
    have hout := hok.outcome hready t.mem
    obtain ⟨x0, hx0, hty0⟩ := hready v0 hav0
    obtain ⟨x1, hx1, hty1⟩ := hready v1 hav1
    obtain ⟨x, hx⟩ := execOp_ok hout hexec
    obtain ⟨size, hsize⟩ := accessSize_of_ok hop hx
    have hp : Performs m t t' (m.opRec o) ⟨space, bits, x1.lo, size⟩ :=
      ⟨hexec, ⟨x0, h0 ▸ hx0, hty0.trans ht0⟩, ⟨x1, h1 ▸ hx1, hty1.trans ht1, rfl⟩, hsize⟩
    exact ⟨_, hp, hp.touches hout⟩
  · rintro a ⟨b, o, t, t', hro, hp⟩
    obtain ⟨r', av, hok, hm', hr', henv⟩ :=
      reachesOp_mirrors hwf hver (refInvariant_envInRange m) hstart hro
    obtain ⟨v0, v1, space, bits, h0, h1, hav0, hav1, ht0, ht1, hbits⟩ :=
      hok.accessTypes hwf (accessSize_memoryOp hp.size)
    obtain ⟨x1, hx1, hty1, hlo⟩ := hp.address
    rw [h1, hm'.read_eq hr' hav1] at hx1
    have hbits' : bits = a.bits := by
      obtain ⟨y, hy, hty⟩ := hr' v1 hav1
      rw [hx1] at hy
      cases hy
      exact congrArg Ty.bits ((ht1.symm.trans hty.symm).trans hty1)
    -- the address is in range, because every value of the run is
    have haddr : a.address.toNat < 2 ^ a.bits := by
      have hin := henv.read hx1
      rw [ExecValue.InRange, hty1, hlo] at hin
      apply hin
      rw [execScalarU64Type_iff]
      refine ⟨.inr rfl, ?_⟩
      show a.bits ≤ 64
      omega
    rw [hbits'] at hbits
    exact ⟨hbits, MemAccess.inside_iff hbits haddr (accessSize_le hp.size)⟩

/-- A 16-bit store through a 32-bit address. -/
def store32 : List Call :=
  [.blockCreate none, .blockAddParam 0 (typeMem 0 32) none, .blockAddParam 0 (typeAddr 32) none,
    .blockAddParam 0 (typeI 16) none, .buildStore 0 0 1 2 .le none, .setReturn 0 (.array [3])]

/-- Its state before the run. -/
def store32State (address : Word) : ExecState :=
  let m := runCalls Module.create store32
  (execSetParam m (execSetParam m (execSetParam m (freshState m) 0 (execMem 0 32)).2
    1 (execAddr 32 address)).2 2 (execI 16 0xbeef#64)).2

theorem store32State_reachable (address : Word) :
    (store32State address).Reachable (runCalls Module.create store32) :=
  .setParam 2 _ (.setParam 1 _ (.setParam 0 _ (.create (execStateCreate_ok (by decide)))))

theorem store32_executes {address : Word}
    (hok : (execOp (runCalls Module.create store32) (store32State address)
      ((runCalls Module.create store32).opRec 0)).1 = .ok)
    (haddr : (execAddr 32 address).lo = address) :
    Executes (runCalls Module.create store32) 0 (store32State address) 1 ⟨0, 32, address, 2⟩ := by
  refine ⟨0, 0, store32State address, _, ⟨0, Nat.one_pos, _, rfl, [], [], rfl, rfl⟩,
    ⟨Prod.ext hok rfl, ⟨execMem 0 32, rfl, rfl⟩, ⟨execAddr 32 address, rfl, rfl, haddr⟩, ?_⟩⟩
  have hdata : execReadValue (runCalls Module.create store32) (store32State address) 2 =
      .ok (execI 16 0xbeef#64) := rfl
  have hop : (runCalls Module.create store32).opRec 0 = ⟨.store, 3, [0, 1, 2], .le, 0#64⟩ := rfl
  have hsrc : OpRec.srcAt ⟨.store, 3, [0, 1, 2], .le, 0#64⟩ 2 = 2 := rfl
  rw [hop, accessSize]
  dsimp only
  rw [hsrc, hdata]
  rfl

/-- Away from the top. -/
theorem execRun_accesses_store32 :
    (MemAccess.mk 0 32 0xfffffffe#64 2).Inside :=
  ((@execRun_accesses _ ⟨store32, rfl⟩ (by decide +kernel) _ (store32State_reachable 0xfffffffe#64)
    0 (by decide +kernel) (by decide +kernel) (by decide +kernel) 1).2 _
    (store32_executes (by decide +kernel) (by decide +kernel))).2.mpr (by decide)

/-- The second byte of a 16-bit store to the last address of a 32-bit space is written at
`2 ^ 32`. -/
theorem execRun_accesses_top32 :
    (¬ ∀ (m : Module) (s : ExecState) (entry limit : Nat), m.Reachable → m.Verified →
      s.Reachable m → entry < m.blocks.length →
      (∀ v ∈ (m.blockRec entry).params, s.defined v = true) →
      (∀ v ∈ (m.blockRec entry).params, (s.values v).InRange) →
      ∀ a, Executes m entry s limit a → a.Inside) ∧
    execLoadByte
      (execRun (runCalls Module.create store32) 0 (store32State 0xffffffff#64) 1).2.mem.pages
      0 0x100000000#64 = some 0xbe#8 := by
  refine ⟨fun hall => ?_, by decide +kernel⟩
  have hin := hall (runCalls Module.create store32) (store32State 0xffffffff#64) 0 1 ⟨store32, rfl⟩
    (by decide +kernel) (store32State_reachable _) (by decide +kernel) (by decide +kernel)
    (by decide +kernel) _ (store32_executes (by decide +kernel) (by decide +kernel))
  exact absurd (hin 0x100000000#64 (by decide)) (by decide)

end Xair
