import Xair.AddressSpace
import Xair.Threading

/-!
# Memory versions

The meaning that the tokens of a module suggest: each denotes a byte map of its own that
never changes (`versionRun`).  A store makes a new map from the one of its source and a
load reads the map of the token it names, also when another store has come in between.

The executor has one page table.  It computes what the versions say in every run whose
loads and stores name a latest version of their space, one that no store of the run has
superseded (`versions_run`); a load that names an older one reads the newer bytes.
-/

namespace Xair

open BoundedRun (Outcome OutcomeRel Reaches)

/-! ### Tokens as byte maps -/

/-- What a memory token denotes: the bytes of its space.  `latest` is no part of the
meaning; it records that no store of the run has superseded the token. -/
structure MemoryVersion where
  space : Nat
  map : ByteMap
  latest : Bool

/-- The values of the current block activation, and what its tokens denote. -/
structure VersionState where
  env : Nat → Option ExecValue
  versions : Nat → Option MemoryVersion

/-- The value that a load finds in a map. -/
def versionLoad (out : Ty) (map : ByteMap) (address : Word) (endian : Endian) :
    Except Status ExecValue :=
  match execByteSizedScalar out with
  | none => .error .errUnsupported
  | some size =>
    if FlatMemory.Wraps address size then .error .errBadArg
    else
      match map.loadU64 address size endian with
      | none => .error .errRange
      | some loaded => .ok (execValueMake out loaded 0#64)

/-- The map that a store makes of another. -/
def versionStore (map : ByteMap) (address : Word) (data : ExecValue) (endian : Endian) :
    Except Status ByteMap :=
  match execByteSizedScalar data.type with
  | none => .error .errUnsupported
  | some size =>
    if FlatMemory.Wraps address size then .error .errBadArg
    else .ok (map.storeU64 address data.lo size endian)

namespace VersionState

/-- Values are read like in the reference interpreter. -/
def read (m : Module) (t : VersionState) (v : Nat) : Except Status ExecValue :=
  refRead m ⟨t.env, ⟨[], 0#64⟩⟩ v

def define (t : VersionState) (v : Nat) (x : ExecValue) : VersionState :=
  { t with env := fun u => if u = v then some x else t.env u }

/-- The token `v` denotes a new version, which supersedes those of its space. -/
def supersede (t : VersionState) (v : Nat) (type : Ty) (space : Nat) (map : ByteMap) :
    VersionState where
  env u := if u = v then some (execValueMake type 0#64 0#64) else t.env u
  versions u :=
    if u = v then some ⟨space, map, true⟩
    else (t.versions u).map fun ver => { ver with latest := ver.latest && ver.space != space }

theorem supersede_self (t : VersionState) (v : Nat) (type : Ty) (space : Nat) (map : ByteMap) :
    (t.supersede v type space map).versions v = some ⟨space, map, true⟩ :=
  if_pos rfl

theorem supersede_ne (t : VersionState) {u v : Nat} (type : Ty) (space : Nat) (map : ByteMap)
    (h : u ≠ v) : (t.supersede v type space map).versions u =
      (t.versions u).map fun ver => { ver with latest := ver.latest && ver.space != space } :=
  if_neg h

/-- The token `v` denotes a latest version. -/
def isLatest (t : VersionState) (v : Nat) : Bool := (t.versions v).any MemoryVersion.latest

end VersionState

/-- The state after an operation. -/
def versionStep (m : Module) (t : VersionState) (op : OpRec) : Except Status VersionState :=
  match op.opcode with
  | .load =>
    match t.versions (op.srcAt 0), t.read m (op.srcAt 1) with
    | some ver, .ok address =>
      (versionLoad (m.valueType op.dst) ver.map address.lo op.endian).map (t.define op.dst)
    | _, _ => .error .errBadArg
  | .store =>
    match t.versions (op.srcAt 0), t.read m (op.srcAt 1), t.read m (op.srcAt 2) with
    | some ver, .ok address, .ok data =>
      (versionStore ver.map address.lo data op.endian).map
        (t.supersede op.dst (m.valueType op.dst) ver.space)
    | _, _, _ => .error .errBadArg
  | _ =>
    (execOpValue (m.valueType op.dst) (t.read m) ⟨[], 0#64⟩ op).map fun r => t.define op.dst r.1

/-- Evaluate one operation. -/
def versionOp (m : Module) (t : VersionState) (op : OpRec) : Status × VersionState :=
  match versionStep m t op with
  | .error e => (e, t)
  | .ok t' => (.ok, t')

/-- The versions of parameters are those of the arguments. -/
def bindVersions (versions : Nat → Option MemoryVersion) :
    List Nat → List Nat → Nat → Option MemoryVersion
  | p :: ps, a :: as => fun v => if v = p then versions a else bindVersions versions ps as v
  | _, _ => fun _ => none

/-- Take an edge: parameters denote what the arguments do. -/
def versionTransfer (m : Module) (t : VersionState) (target : Nat) (args : List Nat) :
    Status × VersionState :=
  if !m.validBlock target then (.errBadArg, t)
  else if (m.blockRec target).params.length ≠ args.length then (.errBadArg, t)
  else
    match readAll (t.read m) args with
    | .error e => (e, t)
    | .ok xs => (.ok, ⟨bindParams (m.blockRec target).params xs,
        bindVersions t.versions (m.blockRec target).params args⟩)

/-- The interpreter with memory versions. -/
def versionInterp (m : Module) : Interp VersionState :=
  ⟨versionOp m, VersionState.read m, versionTransfer m⟩

/-- The start of a run: a memory parameter denotes the bytes of its space. -/
def versionStart (m : Module) (entry : Nat) (args : List ExecValue) (f : FlatMemory) :
    VersionState where
  env := bindParams (m.blockRec entry).params args
  versions v :=
    if v ∈ (m.blockRec entry).params ∧ (m.valueType v).isMem = true then
      some ⟨(m.valueType v).aux, f.space (m.valueType v).aux, true⟩
    else none

/-- A run with memory versions from block `entry`. -/
def versionRun (m : Module) (entry : Nat) (args : List ExecValue) (f : FlatMemory) (limit : Nat) :
    RunResult × VersionState :=
  if m.validBlock entry = false then (.error .errBadArg, versionStart m entry args f)
  else interpRun (versionInterp m) m limit entry (versionStart m entry args f)

/-- The run reaches operation `o` of block `b` in state `u`. -/
def VersionReaches (m : Module) (entry : Nat) (t : VersionState) (limit b o : Nat)
    (u : VersionState) : Prop :=
  ∃ k < limit, ∃ t₀, Reaches (runBlock (versionInterp m) m) k (entry, t) (b, t₀) ∧
    ∃ pre post, (m.blockRec b).ops = pre ++ o :: post ∧
      runOps (versionInterp m) m b pre t₀ = .ok u

/-- Every load and store of the run names a latest version. -/
def NamesLatest (m : Module) (entry : Nat) (t : VersionState) (limit : Nat) : Prop :=
  ∀ b o u, VersionReaches m entry t limit b o u → (m.opRec o).opcode.isMemoryOp →
    u.isLatest ((m.opRec o).srcAt 0) = true

/-! ### One access -/

section Access

variable {out : Ty} {read : Nat → Except Status ExecValue} {mem : ExecMemory} {op : OpRec}
  {x address data : ExecValue}

/-- A load of the executor reads the map of its space. -/
theorem execMemoryOp_load (hop : op.opcode = .load) (h0 : read (op.srcAt 0) = .ok x)
    (hx : x.type.isMem = true) (h1 : read (op.srcAt 1) = .ok address)
    (haddr : address.type.isAddr = true) :
    execMemoryOp out read mem op =
      (versionLoad out ((flatOf mem.pages).space x.type.aux) address.lo op.endian).map
        fun y => (y, mem) := by
  rw [execMemoryOp, h0, h1]
  simp only [hx, haddr, hop, Bool.not_true, Bool.or_self, Bool.false_eq_true, if_false]
  rw [versionLoad]
  cases hsize : execByteSizedScalar out with
  | none => rfl
  | some size =>
    dsimp only
    rw [execLoadU64_eq _ _ _ (execByteSizedScalar_le hsize)]
    by_cases hw : FlatMemory.Wraps address.lo size
    · simp only [if_pos hw, Except.map]
    · simp only [if_neg hw]
      cases ByteMap.loadU64 ((flatOf mem.pages).space x.type.aux) address.lo size op.endian <;> rfl

/-- A store of the executor makes the map of its space. -/
theorem execMemoryOp_store (hop : op.opcode = .store) (h0 : read (op.srcAt 0) = .ok x)
    (hx : x.type.isMem = true) (h1 : read (op.srcAt 1) = .ok address)
    (haddr : address.type.isAddr = true) (h2 : read (op.srcAt 2) = .ok data) :
    (∃ e, versionStore ((flatOf mem.pages).space x.type.aux) address.lo data op.endian = .error e ∧
      execMemoryOp out read mem op = .error e) ∨
    ∃ map pages, versionStore ((flatOf mem.pages).space x.type.aux) address.lo data op.endian =
        .ok map ∧
      execMemoryOp out read mem op = .ok (execValueMake out (mem.generation + 1#64) 0#64,
        ⟨pages, mem.generation + 1#64⟩) ∧
      flatOf pages = (flatOf mem.pages).withSpace x.type.aux map := by
  rw [execMemoryOp, h0, h1]
  simp only [hx, haddr, hop, h2, Bool.not_true, Bool.or_self, Bool.false_eq_true, if_false]
  rw [versionStore]
  cases hsize : execByteSizedScalar data.type with
  | none => exact .inl ⟨_, rfl, rfl⟩
  | some size =>
    have hlen : (encodeU64 data.lo size op.endian).length = size := by simp [encodeU64]
    dsimp only
    rw [execStoreU64_eq _ _ _ _ (execByteSizedScalar_le hsize)]
    by_cases hw : FlatMemory.Wraps address.lo size
    · simp only [if_pos hw]
      exact .inl ⟨_, rfl, rfl⟩
    · simp only [if_neg hw]
      refine .inr ⟨_, _, rfl, rfl, ?_⟩
      rw [flatOf_execStoreBytesFrom _ _ _ _ (by rwa [hlen]), FlatMemory.write_eq]
      rfl

end Access

/-! ### Single memory and versions -/

/-- The versions of `t` are what the single memory of `r` holds, as far as they are latest. -/
structure VersionsAgree (m : Module) (av : ValueSet) (r : RefState) (t : VersionState) : Prop where
  ready : Ready m (refRead m r) av
  reads : ReadsAgree m some ValEq av (refRead m r) (t.read m)
  version : ∀ v, m.valueIsAvailable av v = true → (m.valueType v).isMem = true →
    ∃ ver, t.versions v = some ver ∧ ver.space = (m.valueType v).aux
  latest : ∀ v ver, t.versions v = some ver → ver.latest = true →
    ver.map = (flatOf r.mem.pages).space ver.space

section Step

variable {m : Module} {av : ValueSet} {r : RefState} {t : VersionState} {b o : Nat}

theorem VersionsAgree.define (h : VersionsAgree m av r t) {d : Nat} {x x' : ExecValue}
    {mem : ExecMemory} (hx : x.type = m.valueType d) (hV : ValEq x x')
    (hc : m.valueIsGlobalConst d = true → x = m.constValue d ∧ x' = m.constValue d)
    (hd : (m.valueType d).isMem = false) (hmem : mem.pages = r.mem.pages) :
    VersionsAgree m (av.mark d) (r.define d x mem) (t.define d x') where
  ready := h.ready.define hx mem
  reads := h.reads.define rfl hx hV (fun hh => (hc hh).1) (fun hh => (hc hh).2)
    (fun u _ hu hud => absurd (Option.some.inj hud) hu) mem ⟨[], 0#64⟩
  version v hv ht := by
    refine h.version v (valueIsAvailable_mark hv ?_) ht
    rintro rfl
    rw [hd] at ht
    cases ht
  latest v ver hv hl := by
    have hsame := h.latest v ver hv hl
    rw [← hmem] at hsame
    exact hsame

theorem VersionsAgree.supersede (h : VersionsAgree m av r t) {d space : Nat} {x : ExecValue}
    {mem : ExecMemory} {map : ByteMap} (hx : x.type = m.valueType d)
    (hc : m.valueIsGlobalConst d = false) (hd : (m.valueType d).isMem = true)
    (hspace : (m.valueType d).aux = space)
    (hmem : flatOf mem.pages = (flatOf r.mem.pages).withSpace space map) :
    VersionsAgree m (av.mark d) (r.define d x mem) (t.supersede d (m.valueType d) space map) where
  ready := h.ready.define hx mem
  reads := by
    have hV : ValEq x (execValueMake (m.valueType d) 0#64 0#64) := by
      refine ⟨hx, fun hk => absurd ?_ hk⟩
      rw [hx]
      simpa [Ty.isMem] using hd
    have hnc : ∀ y, m.valueIsGlobalConst d = true → y = m.constValue d := fun y hh => by
      rw [hc] at hh
      cases hh
    exact h.reads.define rfl hx hV (hnc x) (hnc _)
      (fun u _ hu hud => absurd (Option.some.inj hud) hu) mem ⟨[], 0#64⟩
  version v hv ht := by
    by_cases hvd : v = d
    · subst hvd
      exact ⟨_, t.supersede_self _ _ _ _, hspace.symm⟩
    · obtain ⟨ver, hver, hsp⟩ := h.version v (valueIsAvailable_mark hv hvd) ht
      refine ⟨{ ver with latest := ver.latest && ver.space != space }, ?_, hsp⟩
      rw [t.supersede_ne _ _ _ hvd, hver, Option.map_some]
  latest v ver hv hl := by
    show ver.map = (flatOf mem.pages).space ver.space
    rw [hmem]
    by_cases hvd : v = d
    · subst hvd
      rw [t.supersede_self] at hv
      cases hv
      exact (FlatMemory.space_withSpace _ _ _).symm
    · -- the version is an old one, and of another space
      rw [t.supersede_ne _ _ _ hvd] at hv
      obtain ⟨old, hold, rfl⟩ := Option.map_eq_some_iff.mp hv
      rw [Bool.and_eq_true, bne_iff_ne] at hl
      rw [FlatMemory.space_withSpace_ne _ _ hl.2]
      exact h.latest v old hold hl.1

theorem versionStep_pure {op : OpRec} (hop : ¬ op.opcode.isMemoryOp) :
    versionStep m t op = (execOpValue (m.valueType op.dst) (t.read m) ⟨[], 0#64⟩ op).map
      fun p => t.define op.dst p.1 := by
  rw [versionStep]
  split
  · next hl => exact absurd (.inl hl) hop
  · next hs => exact absurd (.inr hs) hop
  · rfl

/-- The two sides after operation `o`. -/
def OpInStep (m : Module) (av : ValueSet) (o : Nat) (r : RefState) (t : VersionState) : Prop :=
  OpRel (VersionsAgree m (av.mark (m.opRec o).dst)) (fun _ _ => True) (m.opRec o).opcode
    (m.opRec o).opcode (refOp m r (m.opRec o)) (versionOp m t (m.opRec o))

/-- Neither a load nor a store. -/
theorem VersionsAgree.pure (h : VersionsAgree m av r t) (hok : OpOk m b av o)
    (hop : ¬ (m.opRec o).opcode.isMemoryOp) : OpInStep m av o r t := by
  have hagree : OpAgree (r.mem.pages = [])
      (execOpValue (m.valueType (m.opRec o).dst) (refRead m r) r.mem (m.opRec o))
      (execOpValue (m.valueType (m.opRec o).dst) (t.read m) ⟨[], 0#64⟩ (m.opRec o)) :=
    execOpValue_valEq (.refl _) hok.typed (fun s hs => h.reads s s (hok.sources s hs) rfl)
      fun hmem => absurd hmem hop
  have hout := hok.outcome h.ready r.mem
  rw [OpInStep, refOp, versionOp, versionStep_pure hop]
  cases hp : execOpValue (m.valueType (m.opRec o).dst) (refRead m r) r.mem (m.opRec o) with
  | error e =>
    rw [hp] at hagree hout
    cases hp' : execOpValue (m.valueType (m.opRec o).dst) (t.read m) ⟨[], 0#64⟩ (m.opRec o) with
    | error e' =>
      rw [hp'] at hagree
      cases hagree
      refine .fail ?_ rfl trivial
      cases hout <;> exact fun hh => by cases hh
    | ok p' =>
      rw [hp'] at hagree
      exact hagree.elim
  | ok p =>
    obtain ⟨x, mem⟩ := p
    cases hp' : execOpValue (m.valueType (m.opRec o).dst) (t.read m) ⟨[], 0#64⟩ (m.opRec o) with
    | error e' =>
      rw [hp, hp'] at hagree
      exact hagree.elim
    | ok p' =>
      obtain ⟨x', mem'⟩ := p'
      rw [hp, hp'] at hagree
      have hmem : mem = r.mem := by
        have hsame := execOpValue_quiet hop hp r.mem
        rw [hp] at hsame
        exact (Prod.mk.inj (Except.ok.inj hsame)).2
      have hd : (m.valueType (m.opRec o).dst).isMem = false := by
        by_contra hc
        rw [Bool.not_eq_false] at hc
        exact hop (.inr (typeRule_mem hok.typed hc))
      refine .ok (h.define (hok.value_type h.ready hp).1 hagree.1 (fun hc => ?_) hd ?_)
      · exact ⟨hok.const hp hc, hok.const hp' hc⟩
      · rw [hmem]

/-- What both sides find at a load or store of a latest version. -/
structure AccessAgrees (m : Module) (r : RefState) (t : VersionState) (op : OpRec)
    (x a : ExecValue) (ver : MemoryVersion) : Prop where
  token : refRead m r (op.srcAt 0) = .ok x
  token_type : x.type.isMem = true
  space : x.type.aux = ver.space
  source_type : (m.valueType (op.srcAt 0)).aux = ver.space
  address : refRead m r (op.srcAt 1) = .ok a
  address_type : a.type.isAddr = true
  read : t.read m (op.srcAt 1) = .ok a
  version : t.versions (op.srcAt 0) = some ver
  map : (flatOf r.mem.pages).space x.type.aux = ver.map

theorem VersionsAgree.access (h : VersionsAgree m av r t) (hwf : m.WF) (hok : OpOk m b av o)
    (hop : (m.opRec o).opcode.isMemoryOp) (hlatest : t.isLatest ((m.opRec o).srcAt 0) = true) :
    ∃ x a ver, AccessAgrees m r t (m.opRec o) x a ver := by
  obtain ⟨v0, v1, space, bits, h0, h1, hav0, hav1, ht0, ht1, -⟩ := hok.accessTypes hwf hop
  obtain ⟨x, hx, htx⟩ := h.ready v0 hav0
  obtain ⟨y, y', hy, hy', hty, hV⟩ := h.reads v1 v1 hav1 rfl
  obtain ⟨ver, hver, hsp⟩ := h.version v0 hav0 (by rw [ht0]; rfl)
  have hyk : y.type.kind ≠ .mem := by
    rw [hty, ht1]
    exact TypeKind.noConfusion
  cases hV.eq hyk
  have hl : ver.latest = true := by
    rw [h0, VersionState.isLatest, hver] at hlatest
    exact hlatest
  refine ⟨x, y, ver, ?_⟩
  constructor
  · rw [h0]; exact hx
  · rw [htx, ht0]; rfl
  · rw [htx, hsp]
  · rw [h0, hsp]
  · rw [h1]; exact hy
  · rw [hty, ht1]; rfl
  · rw [h1]; exact hy'
  · rw [h0]; exact hver
  · rw [htx, ← hsp]
    exact (h.latest v0 ver hver hl).symm

theorem VersionsAgree.load (h : VersionsAgree m av r t) (hwf : m.WF) (hok : OpOk m b av o)
    (hop : (m.opRec o).opcode = .load) (hlatest : t.isLatest ((m.opRec o).srcAt 0) = true) :
    OpInStep m av o r t := by
  obtain ⟨x, a, ver, ha⟩ := h.access hwf hok (.inl hop) hlatest
  have hexec : execOpValue (m.valueType (m.opRec o).dst) (refRead m r) r.mem (m.opRec o) =
      (versionLoad (m.valueType (m.opRec o).dst) ver.map a.lo (m.opRec o).endian).map
        fun y => (y, r.mem) := by
    rw [execOpValue_memoryOp (.inl hop), execMemoryOp_load hop ha.token ha.token_type ha.address
      ha.address_type, ha.map]
  have hstep : versionStep m t (m.opRec o) =
      (versionLoad (m.valueType (m.opRec o).dst) ver.map a.lo (m.opRec o).endian).map
        (t.define (m.opRec o).dst) := by
    rw [versionStep, hop]
    simp only [ha.version, ha.read]
  have hout := hok.outcome h.ready r.mem
  rw [OpInStep, refOp, versionOp, hstep]
  cases hv : versionLoad (m.valueType (m.opRec o).dst) ver.map a.lo (m.opRec o).endian with
  | error e =>
    rw [hexec, hv] at hout
    rw [hexec, hv]
    refine .fail ?_ rfl trivial
    rintro rfl
    cases hout
  | ok y =>
    rw [hv] at hexec
    have htyped := hok.typed
    rw [hop] at htyped
    obtain ⟨-, -, -, -, -, hd⟩ := typeRule_load htyped
    rw [hexec]
    refine .ok (h.define (hok.value_type h.ready hexec).1 (.refl y) (fun hc => ?_) hd rfl)
    have hconst := hok.const hexec hc
    exact ⟨hconst, hconst⟩

theorem VersionsAgree.data (h : VersionsAgree m av r t) (hok : OpOk m b av o)
    (hop : (m.opRec o).opcode = .store) : ∃ y, refRead m r ((m.opRec o).srcAt 2) = .ok y ∧
      t.read m ((m.opRec o).srcAt 2) = .ok y := by
  have htyped := hok.typed
  rw [hop] at htyped
  obtain ⟨mem, addr, data, hs, -, -, -, hd⟩ := typeRule_store htyped
  obtain ⟨v0, vs, hsrc, -, hs⟩ := List.map_eq_cons_iff.mp hs
  obtain ⟨v1, vs, rfl, -, hs⟩ := List.map_eq_cons_iff.mp hs
  obtain ⟨v2, vs, rfl, rfl, -⟩ := List.map_eq_cons_iff.mp hs
  have h2 : (m.opRec o).srcAt 2 = v2 := by rw [OpRec.srcAt, hsrc]; rfl
  obtain ⟨y, y', hy, hy', hty, hV⟩ := h.reads v2 v2 (hok.sources v2 (by simp [hsrc])) rfl
  have hyk : y.type.kind ≠ .mem := by
    rw [hty]
    simpa [Ty.isMem] using hd
  cases hV.eq hyk
  rw [h2]
  exact ⟨y, hy, hy'⟩

theorem VersionsAgree.store (h : VersionsAgree m av r t) (hwf : m.WF) (hok : OpOk m b av o)
    (hop : (m.opRec o).opcode = .store) (hlatest : t.isLatest ((m.opRec o).srcAt 0) = true) :
    OpInStep m av o r t := by
  obtain ⟨x, a, ver, ha⟩ := h.access hwf hok (.inr hop) hlatest
  obtain ⟨y, hy, hy'⟩ := h.data hok hop
  have hstep : versionStep m t (m.opRec o) =
      (versionStore ver.map a.lo y (m.opRec o).endian).map
        (t.supersede (m.opRec o).dst (m.valueType (m.opRec o).dst) ver.space) := by
    rw [versionStep, hop]
    simp only [ha.version, ha.read, hy']
  have htyped := hok.typed
  rw [hop] at htyped
  obtain ⟨mem, addr, data, hs, hmem, -, hdst, -⟩ := typeRule_store htyped
  have h0 : m.valueType ((m.opRec o).srcAt 0) = mem := by
    obtain ⟨v0, vs, hsrc, hv0, -⟩ := List.map_eq_cons_iff.mp hs
    rw [OpRec.srcAt, hsrc]
    exact hv0
  have hd : (m.valueType (m.opRec o).dst).isMem = true := by rw [hdst]; exact hmem
  have hspace : (m.valueType (m.opRec o).dst).aux = ver.space := by
    rw [hdst, ← h0, ha.source_type]
  have hnc : m.valueIsGlobalConst (m.opRec o).dst = false := by
    simp [Module.valueIsGlobalConst, hwf.valueOp_dst hok.lt, hop]
  have hout := hok.outcome h.ready r.mem
  rw [OpInStep, refOp, versionOp, hstep]
  rcases @execMemoryOp_store (m.valueType (m.opRec o).dst) (refRead m r) r.mem (m.opRec o) x a y hop
    ha.token ha.token_type ha.address ha.address_type hy with
    ⟨e, hv, he⟩ | ⟨map, pages, hv, he, hflat⟩
  · rw [← execOpValue_memoryOp (.inr hop)] at he
    rw [ha.map] at hv
    rw [he] at hout ⊢
    rw [hv]
    refine .fail ?_ rfl trivial
    rintro rfl
    cases hout
  · rw [← execOpValue_memoryOp (.inr hop)] at he
    rw [ha.map] at hv
    rw [ha.space] at hflat
    rw [he, hv]
    exact .ok (h.supersede (hok.value_type h.ready he).1 hnc hd hspace hflat)

/-- **One operation.**  An operation that names a latest version if it accesses memory. -/
theorem VersionsAgree.op (h : VersionsAgree m av r t) (hwf : m.WF) (hok : OpOk m b av o)
    (hlatest : (m.opRec o).opcode.isMemoryOp → t.isLatest ((m.opRec o).srcAt 0) = true) :
    OpInStep m av o r t := by
  by_cases hop : (m.opRec o).opcode.isMemoryOp
  · rcases id hop with hload | hstore
    · exact h.load hwf hok hload (hlatest hop)
    · exact h.store hwf hok hstore (hlatest hop)
  · exact h.pure hok hop

end Step

/-! ### Edges -/

theorem bindVersions_mem {versions : Nat → Option MemoryVersion} {P : Nat → Nat → Prop}
    {args params : List Nat} (h : List.Forall₂ P args params) {v : Nat} (hv : v ∈ params) :
    ∃ a ∈ args, P a v ∧ bindVersions versions params args v = versions a := by
  induction h with
  | nil => cases hv
  | @cons a p args params hp _ ih =>
    by_cases hvp : v = p
    · subst hvp
      exact ⟨a, List.mem_cons_self, hp, if_pos rfl⟩
    · obtain ⟨a', hmem, ha', heq⟩ := ih ((List.mem_cons.mp hv).resolve_left hvp)
      exact ⟨a', List.mem_cons_of_mem _ hmem, ha', (if_neg hvp).trans heq⟩

/-- Every version bound is one of those there were. -/
theorem bindVersions_some {versions : Nat → Option MemoryVersion} {args params : List Nat}
    {v : Nat} {ver : MemoryVersion} (h : bindVersions versions params args v = some ver) :
    ∃ a, versions a = some ver := by
  induction params generalizing args with
  | nil => cases h
  | cons p params ih =>
    cases args with
    | nil => cases h
    | cons a args =>
      rw [bindVersions] at h
      dsimp only at h
      by_cases hvp : v = p
      · rw [if_pos hvp] at h
        exact ⟨a, h⟩
      · rw [if_neg hvp] at h
        exact ih h

section Edges

variable {m : Module} {av : ValueSet} {r : RefState} {t : VersionState} {b target : Nat}
  {args : List Nat}

/-- An accepted edge whose arguments can be read is taken. -/
theorem versionTransfer_ok (hok : EdgeOk m av target args) {xs : List ExecValue}
    (hxs : readAll (t.read m) args = .ok xs) : versionTransfer m t target args =
      (.ok, ⟨bindParams (m.blockRec target).params xs,
        bindVersions t.versions (m.blockRec target).params args⟩) := by
  simp [versionTransfer, Module.validBlock, hok.target_lt, hok.args_ok.length_eq, hxs]

/-- No constant is a memory token. -/
theorem not_isMem_of_const (hwf : m.WF) (hver : m.Verified) {v : Nat}
    (hc : m.valueIsGlobalConst v = true) : (m.valueType v).isMem = false := by
  by_contra hm
  rw [Bool.not_eq_false] at hm
  cases hop : m.valueOp v with
  | none => simp [Module.valueIsGlobalConst, hop] at hc
  | some op =>
    obtain ⟨o, ho, rfl, rfl⟩ := hwf.valueOp_some hop
    have hstore := typeRule_mem (typed_of_verified hwf hver o ho) hm
    simp [Module.valueIsGlobalConst, hop, hstore] at hc

/-- What holds where block `b` starts. -/
def VersionsStart (m : Module) (b : Nat) (r : RefState) (t : VersionState) : Prop :=
  b < m.blocks.length ∧ VersionsAgree m (m.availableAtStart b) r t

theorem VersionsAgree.edge (h : VersionsAgree m av r t) (hwf : m.WF) (hver : m.Verified)
    (hok : EdgeOk m av target args) :
    EdgeRel (refInterp m) (versionInterp m) (VersionsStart m) r t target args args := by
  have hall := List.forall₂_iff_get.mp hok.args_ok
  have hargs : List.Forall₂ (fun a a' => some a = some a') args args :=
    List.forall₂_same.mpr fun _ _ => rfl
  obtain ⟨xs, xs', hxs, hxs', hts, hvs⟩ := readAll_rel h.reads hargs fun a ha => by
    obtain ⟨i, hi, rfl⟩ := List.mem_iff_getElem.mp ha
    exact (hall.2 i hi (by rw [← hall.1]; exact hi)).1
  obtain ⟨ys, hys, hty, htr⟩ := refTransfer_ok hok h.ready
  obtain rfl : xs = ys := Except.ok.inj (hxs.symm.trans hys)
  refine ⟨_, _, htr, versionTransfer_ok hok hxs', hok.target_lt, ready_bindParams hty _,
    readsAgree_bindParams (.refl hwf) ValEq.refl hwf hok.target_lt hty hvs r.mem ⟨[], 0#64⟩,
    fun v hv ht => ?_, fun v ver hv hl => ?_⟩
  · rcases (valueIsAvailable_iff.mp hv).2 with hpar | hc
    · obtain ⟨a, -, ⟨ha, hta⟩, heq⟩ :=
        @bindVersions_mem t.versions _ _ _ hok.args_ok _ (availableAtStart_iff.mp hpar)
      rw [← hta] at ht ⊢
      obtain ⟨ver, hver, hsp⟩ := h.version a ha ht
      exact ⟨ver, heq.trans hver, hsp⟩
    · rw [not_isMem_of_const hwf hver hc] at ht
      cases ht
  · obtain ⟨a, ha⟩ := bindVersions_some hv
    exact h.latest a ver ha hl

theorem versionsStart (hwf : m.WF) (hver : m.Verified) {entry : Nat} (hb : entry < m.blocks.length)
    {xs : List ExecValue}
    (hxs : List.Forall₂ (fun p x => x.type = m.valueType p) (m.blockRec entry).params xs)
    (mem : ExecMemory) :
    VersionsStart m entry (refStart m entry xs mem) (versionStart m entry xs (flatOf mem.pages)) := by
  refine ⟨hb, ready_bindParams hxs mem,
    readsAgree_bindParams (.refl hwf) ValEq.refl hwf hb hxs (List.forall₂_same.mpr fun x _ => .refl x)
      mem ⟨[], 0#64⟩, fun v hv ht => ?_, fun v ver hv _ => ?_⟩
  · rcases (valueIsAvailable_iff.mp hv).2 with hpar | hc
    · exact ⟨_, if_pos ⟨availableAtStart_iff.mp hpar, ht⟩, rfl⟩
    · rw [not_isMem_of_const hwf hver hc] at ht
      cases ht
  · rw [versionStart] at hv
    dsimp only at hv
    split at hv
    · cases hv
      rfl
    · cases hv

end Edges

/-! ### Runs -/

section Runs

variable {m : Module} {av : ValueSet} {r : RefState} {t : VersionState} {b : Nat}

/-- A terminator of a verified block keeps the two sides in step. -/
theorem VersionsAgree.term (hwf : m.WF) (hver : m.Verified) {term : TermRec}
    (hterm : TermOk m term av) (h : VersionsAgree m av r t) :
    TermRel (refInterp m) (versionInterp m) m m (VersionsStart m) ValEq (fun _ _ => True) r t
      term term := by
  unfold TermOk at hterm
  cases hk : term.kind with
  | none =>
    rw [hk] at hterm
    exact hterm.elim
  | jump =>
    rw [hk] at hterm
    exact .jump hk hk rfl (h.edge hwf hver hterm)
  | cbranch =>
    rw [hk] at hterm
    obtain ⟨hc, hi, ht, hf⟩ := hterm
    obtain ⟨c, c', hread, hread', hct, hV⟩ := h.reads _ _ hc rfl
    have hck : c.type.kind ≠ .mem := by
      intro hmem
      rw [← hct] at hi
      simp [Ty.isI1, hmem] at hi
    cases hV.eq hck
    rw [← hct] at hi
    exact .cbranch hk hk rfl rfl hread hread' hi hi rfl (h.edge hwf hver ht) (h.edge hwf hver hf)
  | ret =>
    rw [hk] at hterm
    obtain ⟨xs, xs', hxs, hxs', -, hvs⟩ :=
      readAll_rel h.reads (List.forall₂_same.mpr fun _ _ => rfl) hterm
    exact .ret hk hk rfl hxs hxs' hvs trivial
  | trap => exact .stop (.inl hk) rfl rfl trivial
  | fault => exact .stop (.inr hk) rfl rfl trivial

/-- The loads and stores among the operations `os` name latest versions when they are reached. -/
def OpsLatest (m : Module) (b : Nat) (os : List Nat) (t : VersionState) : Prop :=
  ∀ pre o post u, os = pre ++ o :: post → runOps (versionInterp m) m b pre t = .ok u →
    (m.opRec o).opcode.isMemoryOp → u.isLatest ((m.opRec o).srcAt 0) = true

/-- The operations of a block, as long as they name latest versions. -/
theorem VersionsAgree.ops (hwf : m.WF) (os : List Nat) (hos : OpsOk m b os av)
    (h : VersionsAgree m av r t) (hlatest : OpsLatest m b os t) :
    OpsRel (VersionsAgree m (av.markAll (m.dsts os))) (fun _ _ => True) (fun _ => False)
      (runOps (refInterp m) m b os r) (runOps (versionInterp m) m b os t) := by
  induction os generalizing av r t with
  | nil => exact .ok h
  | cons o os ih =>
    obtain ⟨hok, hos⟩ := hos
    have hop : OpRel (VersionsAgree m (av.mark (m.opRec o).dst)) (fun _ _ => True) _ _
        ((refInterp m).op r (m.opRec o)) ((versionInterp m).op t (m.opRec o)) :=
      h.op hwf hok (hlatest [] o os t rfl rfl)
    refine opsRel_cons hop fun r₁ t₁ ht₁ h₁ => ?_
    refine ih hos h₁ fun pre p post u hsplit hu => hlatest (o :: pre) p post u (by rw [hsplit]; rfl) ?_
    rw [runOps_cons_ok ht₁]
    exact hu

theorem versions_block (hwf : m.WF) (hver : m.Verified) {c : Nat × RefState}
    {d : Nat × VersionState} (h : LoopRel (VersionsStart m) c d)
    (hlatest : OpsLatest m d.1 (m.blockRec d.1).ops d.2) :
    OutcomeRel (EndRel ValEq (fun _ _ => True) fun _ => False) (LoopRel (VersionsStart m))
      (runBlock (refInterp m) m c) (runBlock (versionInterp m) m d) := by
  obtain ⟨b, r⟩ := c
  obtain ⟨b', t⟩ := d
  obtain ⟨rfl, hb, hag⟩ := h
  have hblk := verifyModule_ok_iff.mp hver b hb
  exact runBlock_rel (hag.ops hwf _ hblk.ops hlatest) fun r' t' h' => h'.term hwf hver hblk.term

/-- **A single memory implements versions** in every run that names latest ones. -/
theorem versions_run (hwf : m.WF) (hver : m.Verified) {entry limit : Nat}
    (h : VersionsStart m entry r t) (hlatest : NamesLatest m entry t limit) :
    ResultRel ValEq (interpRun (refInterp m) m limit entry r).1
      (interpRun (versionInterp m) m limit entry t).1 := by
  have hstart : LoopRel (VersionsStart m) (entry, r) (entry, t) := ⟨rfl, h⟩
  have hout : ∀ c d, LoopRel (VersionsStart m) c d → EndRel ValEq (fun _ _ => True)
      (fun _ => False) (stepLimitResult c) c (stepLimitResult d) d := fun c d hcd =>
    .inr ⟨⟨rfl, hcd.1, rfl, .nil⟩, trivial⟩
  have hend := BoundedRun.run_rel_while (fun c d hcd hd => versions_block hwf hver hcd hd) hout
    limit hstart fun k hk u hu pre o post v hsplit hv =>
      hlatest u.1 o v ⟨k, hk, u.2, hu, pre, post, hsplit, hv⟩
  rcases hend with hf | ⟨hres, -⟩
  · exact hf.elim
  · exact hres

end Runs

end Xair
