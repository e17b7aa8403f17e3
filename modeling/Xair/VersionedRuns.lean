import Xair.BlockRun
import Xair.MemoryVersions
import Xair.Resume

/-!
# Runs with memory versions

In a module with threaded tokens every load and store names a latest version, whatever
the run (`namesLatest_of_threaded`).  From every state that can be built the executor
computes what the versions say in all runs that name latest ones (`execRun_versionRun`).
-/

namespace Xair

open BoundedRun (Reaches reaches_induct)

/-! ### Threaded tokens name latest versions -/

/-- The most recent token, if there is one, denotes a latest version. -/
def VersionState.TokenLatest (t : VersionState) (tok : Option Nat) : Prop :=
  ∀ v, tok = some v → t.isLatest v = true

section Steps

variable {m : Module} {t u : VersionState} {tok : Option Nat} {op : OpRec} {b o : Nat}

theorem versionStore_error {map : ByteMap} {address : Word} {data : ExecValue} {endian : Endian}
    {e : Status} (h : versionStore map address data endian = .error e) : e ≠ .ok := by
  rintro rfl
  rw [versionStore] at h
  split at h
  · cases h
  · split at h <;> cases h

theorem versionOp_store (hop : op.opcode = .store) (h : versionOp m t op = (.ok, u)) :
    ∃ space map, u = t.supersede op.dst (m.valueType op.dst) space map := by
  have hstep : (∃ e, e ≠ .ok ∧ versionStep m t op = .error e) ∨ ∃ space map,
      versionStep m t op = .ok (t.supersede op.dst (m.valueType op.dst) space map) := by
    rw [versionStep, hop]
    dsimp only
    split
    · next ver address data _ _ _ =>
      cases hs : versionStore ver.map address.lo data op.endian with
      | error e => exact .inl ⟨e, versionStore_error hs, rfl⟩
      | ok map => exact .inr ⟨ver.space, map, rfl⟩
    · exact .inl ⟨.errBadArg, Status.noConfusion, rfl⟩
  rcases hstep with ⟨e, he, hs⟩ | ⟨space, map, hs⟩
  · rw [versionOp, hs] at h
    exact absurd (Prod.mk.inj h).1 he
  · rw [versionOp, hs] at h
    exact ⟨space, map, (Prod.mk.inj h).2.symm⟩

theorem versionOp_other (hop : op.opcode ≠ .store) :
    (versionOp m t op).2.versions = t.versions := by
  have hstep : ∀ u, versionStep m t op = .ok u → u.versions = t.versions := by
    intro u h
    rw [versionStep] at h
    split at h
    · split at h
      · obtain ⟨x, -, rfl⟩ := exceptMap_ok.mp h
        rfl
      · cases h
    · next hs => exact absurd hs hop
    · obtain ⟨x, -, rfl⟩ := exceptMap_ok.mp h
      rfl
  rw [versionOp]
  split
  · rfl
  · next u hu => exact hstep u hu

/-- After an operation the most recent token denotes a latest version. -/
theorem VersionState.TokenLatest.step (h : t.TokenLatest tok) (htyped : m.Typed)
    (ho : o < m.ops.length) (hs : versionOp m t (m.opRec o) = (.ok, u)) :
    u.TokenLatest (m.nextToken tok o) := by
  have hrule := htyped o ho
  rw [Module.nextToken]
  by_cases hop : (m.opRec o).opcode = .store
  · rw [hop] at hrule
    obtain ⟨mem, addr, data, -, hmem, -, hdst, -⟩ := typeRule_store hrule
    obtain ⟨space, map, rfl⟩ := versionOp_store hop hs
    rw [if_pos (by rw [hdst]; exact hmem)]
    rintro v hv
    cases hv
    rw [VersionState.isLatest, t.supersede_self]
    rfl
  · rw [if_neg fun hd => hop (typeRule_mem hrule hd)]
    have hsame : u.versions = t.versions := by
      have hother := versionOp_other (m := m) (t := t) hop
      rw [hs] at hother
      exact hother
    intro v hv
    rw [VersionState.isLatest, hsame]
    exact h v hv

/-- After operations of a block the most recent token denotes a latest version. -/
theorem VersionState.TokenLatest.ops (htyped : m.Typed) (os : List Nat)
    (hos : ∀ o ∈ os, o < m.ops.length) (h : t.TokenLatest tok)
    (hrun : runOps (versionInterp m) m b os t = .ok u) : u.TokenLatest (m.tokenAfter tok os) := by
  induction os generalizing t tok with
  | nil =>
    cases hrun
    exact h
  | cons o os ih =>
    obtain ⟨t₁, hop, hrun⟩ := runOps_cons_inv hrun
    exact ih (fun p hp => hos p (List.mem_cons_of_mem _ hp))
      (h.step htyped (hos o List.mem_cons_self) hop) hrun

end Steps

section Blocks

variable {m : Module} {t u : VersionState} {b o target : Nat} {args pre post : List Nat}

/-- The edges of an accepted terminator are accepted. -/
theorem TermOk.edge {term : TermRec} {av : ValueSet} (h : TermOk m term av) {f : Bool}
    (he : term.TakesEdge f target) : EdgeOk m av target (m.termArgsConst term f) := by
  obtain ⟨hk, rfl⟩ := he
  unfold TermOk at h
  rcases hk with hk | ⟨hk, rfl⟩
  · rw [hk] at h
    cases f with
    | false => exact h.2.2.1
    | true => exact h.2.2.2
  · rw [hk] at h
    exact h

theorem TermRec.TakesEdge.uses {term : TermRec} {f : Bool} (he : term.TakesEdge f target) :
    term.Uses f := by
  rcases he.1 with hk | ⟨hk, rfl⟩
  · cases f with
    | false => exact .inr (.inl hk)
    | true => exact hk
  · exact .inl hk

theorem versionRead_error {v : Nat} {e : Status} (h : t.read m v = .error e) : e = .errBadArg := by
  rw [VersionState.read, refRead] at h
  split at h
  · cases h
  · split at h
    · cases h
    · cases h
      rfl

/-- An edge that is taken binds the versions of its arguments. -/
theorem versionTransfer_inv (h : versionTransfer m t target args = (.ok, u)) :
    u.versions = bindVersions t.versions (m.blockRec target).params args := by
  unfold versionTransfer at h
  split at h
  · cases h
  · split at h
    · cases h
    · split at h
      · next e hread =>
        obtain ⟨v, -, hv⟩ := readAll_eq_error hread
        rw [versionRead_error hv] at h
        cases h
      · cases h
        rfl

/-- The token that a block starts with is the one its predecessor ends with. -/
theorem VersionState.TokenLatest.edge (hthr : m.Threaded) (hb : b < m.blocks.length)
    (hok : EdgeOk m (m.availableAtEnd b) target args)
    (huse : ∀ a ∈ args, a ∈ m.termUses (m.blockRec b).term) (h : t.TokenLatest (m.endToken b))
    (htr : versionTransfer m t target args = (.ok, u)) : u.TokenLatest (m.startToken target) := by
  intro v hv
  obtain ⟨hpar, hmem⟩ := List.mem_filter.mp (List.mem_of_head? hv)
  -- the version of the parameter is that of a memory argument
  obtain ⟨a, ha, ⟨-, hty⟩, hver⟩ := @bindVersions_mem t.versions _ _ _ hok.args_ok _ hpar
  have hend := (hthr b hb).2.2 a (huse a ha) (by rw [hty]; exact hmem)
  rw [VersionState.isLatest, versionTransfer_inv htr, hver]
  exact h a hend

/-- What holds where a run starts a block of a threaded module. -/
def StartsLatest (m : Module) (c : Nat × VersionState) : Prop :=
  c.1 < m.blocks.length ∧ c.2.TokenLatest (m.startToken c.1)

theorem startsLatest_start (hb : b < m.blocks.length) (args : List ExecValue) (f : FlatMemory) :
    StartsLatest m (b, versionStart m b args f) := by
  refine ⟨hb, fun v hv => ?_⟩
  obtain ⟨hpar, hmem⟩ := List.mem_filter.mp (List.mem_of_head? hv)
  rw [VersionState.isLatest, versionStart]
  dsimp only
  rw [if_pos ⟨hpar, hmem⟩]
  rfl

theorem startsLatest_next (hwf : m.WF) (hver : m.Verified) (hthr : m.Threaded)
    {c d : Nat × VersionState} (hc : StartsLatest m c)
    (h : runBlock (versionInterp m) m c = .next d) : StartsLatest m d := by
  obtain ⟨hb, hlatest⟩ := hc
  have hterm := (verifyModule_ok_iff.mp hver c.1 hb).term
  unfold runBlock at h
  split at h
  · cases h
  · next t hops =>
    obtain ⟨f, hedge, htr⟩ := runTerm_next h
    have hok := hterm.edge hedge
    have hend : t.TokenLatest (m.endToken c.1) :=
      hlatest.ops (typed_of_verified hwf hver) _ (fun o ho => ((hwf.block_ops _ hb o).mp ho).1) hops
    exact ⟨hok.target_lt, hend.edge hthr hb hok (fun a ha => mem_termUses_of_uses hedge.uses ha) htr⟩

/-- **Threaded tokens name latest versions**, in every run from every entry. -/
theorem namesLatest_of_threaded (hwf : m.WF) (hver : m.Verified) (hthr : m.Threaded) (entry : Nat)
    (hb : entry < m.blocks.length) (args : List ExecValue) (f : FlatMemory) (limit : Nat) :
    NamesLatest m entry (versionStart m entry args f) limit := by
  rintro b o u ⟨k, -, t, hreach, pre, post, hsplit, hops⟩ hop
  obtain ⟨hlt, hlatest⟩ := reaches_induct (I := StartsLatest m)
    (fun _ _ => startsLatest_next hwf hver hthr) hreach (startsLatest_start hb args f)
  have hpre : ∀ p ∈ pre, p < m.ops.length := fun p hp =>
    ((hwf.block_ops _ hlt p).mp (by rw [hsplit]; exact List.mem_append_left _ hp)).1
  exact hlatest.ops (typed_of_verified hwf hver) pre hpre hops _ (token_at hthr hlt hsplit hop)

end Blocks

/-! ### Runs of the executor -/

theorem ExecState.Ok.versionRun {m : Module} {s : ExecState} (hok : s.Ok m) (hwf : m.WF)
    (hver : m.Verified) (entry limit : Nat)
    (hset : ∀ v ∈ (m.blockRec entry).params, s.defined v = true)
    (hlatest : entry < m.blocks.length → NamesLatest m entry (versionStart m entry
      ((m.blockRec entry).params.map s.values) (flatOf s.mem.pages)) limit) :
    ResultRel ValEq (execRun m entry s limit).1
      (Xair.versionRun m entry ((m.blockRec entry).params.map s.values) (flatOf s.mem.pages)
        limit).1 := by
  rw [(execRun_eq_refRun hwf hver hok entry limit hset).1]
  unfold refRun Xair.versionRun
  by_cases hb : m.validBlock entry = false
  · rw [if_pos hb, if_pos hb]
    rfl
  · have hlt : entry < m.blocks.length := by simpa [Module.validBlock] using hb
    rw [if_neg hb, if_neg hb]
    have hargs := paramValues_typed hwf hok hset
    exact versions_run hwf hver (versionsStart hwf hver hlt hargs s.mem) (hlatest hlt)

/-- A block that stores a byte and passes the new token to one that loads it. -/
def passToken : List Call :=
  [.blockCreate none, .blockAddParam 0 (typeMem 0 64) none, .blockAddParam 0 (typeAddr 64) none,
    .blockAddParam 0 (typeI 8) none, .blockCreate none, .blockAddParam 1 (typeMem 0 64) none,
    .blockAddParam 1 (typeAddr 64) none, .buildStore 0 0 1 2 .le none,
    .setJump 0 1 (.array [5, 1]), .buildLoad 1 (typeI 8) 3 4 .le none, .setReturn 1 (.array [6])]

/-- The first three parameters are set to memory, the address 16 and 2; byte 16 is 1. -/
def tokenState (calls : List Call) : ExecState :=
  let m := runCalls Module.create calls
  let s := (execStateStoreBytes (freshState m) 0 16#64 [1#8]).2
  (execSetParam m (execSetParam m (execSetParam m s 0 (execMem 0 64)).2 1 (execAddr 64 16#64)).2
    2 (execI 8 2#64)).2

theorem tokenState_reachable {calls : List Call} (hver : (runCalls Module.create calls).Verified) :
    (tokenState calls).Reachable (runCalls Module.create calls) :=
  .setParam 2 _ (.setParam 1 _ (.setParam 0 _ (.storeBytes 0 16#64 [1#8]
    (.create (execStateCreate_ok hver)))))

/-- **Runs of threaded modules compute what the versions say.** -/
theorem execRun_threaded {m : Module} (h : m.Reachable) (hver : m.Verified) (hthr : m.Threaded)
    {s : ExecState} (hs : s.Reachable m) (entry limit : Nat)
    (hset : ∀ v ∈ (m.blockRec entry).params, s.defined v = true) :
    ResultRel ValEq (execRun m entry s limit).1
      (versionRun m entry ((m.blockRec entry).params.map s.values) (flatOf s.mem.pages) limit).1 :=
  (hs.ok (wf_reachable h)).versionRun (wf_reachable h) hver entry limit hset fun hb =>
    namesLatest_of_threaded (wf_reachable h) hver hthr entry hb _ _ limit

theorem execRun_threaded_passToken :
    ResultRel ValEq (execRun (runCalls Module.create passToken) 0 (tokenState passToken) 2).1
      (versionRun (runCalls Module.create passToken) 0
        (((runCalls Module.create passToken).blockRec 0).params.map (tokenState passToken).values)
        (flatOf (tokenState passToken).mem.pages) 2).1 := by
  have hver : (runCalls Module.create passToken).Verified := by decide
  exact execRun_threaded ⟨passToken, rfl⟩ hver (by decide) (tokenState_reachable hver) 0 2
    (by decide)

/-- **A run that names latest versions computes what the versions say.**  The executor
halts like the interpreter with memory versions, with the same returned values. -/
theorem execRun_versionRun {m : Module} (h : m.Reachable) (hver : m.Verified) {s : ExecState}
    (hs : s.Reachable m) (entry limit : Nat)
    (hset : ∀ v ∈ (m.blockRec entry).params, s.defined v = true)
    (hlatest : NamesLatest m entry (versionStart m entry
      ((m.blockRec entry).params.map s.values) (flatOf s.mem.pages)) limit) :
    ResultRel ValEq (execRun m entry s limit).1
      (versionRun m entry ((m.blockRec entry).params.map s.values) (flatOf s.mem.pages) limit).1 :=
  (hs.ok (wf_reachable h)).versionRun (wf_reachable h) hver entry limit hset fun _ => hlatest

theorem execRun_versionRun_passToken :
    ResultRel ValEq (execRun (runCalls Module.create passToken) 0 (tokenState passToken) 2).1
      (versionRun (runCalls Module.create passToken) 0
        (((runCalls Module.create passToken).blockRec 0).params.map (tokenState passToken).values)
        (flatOf (tokenState passToken).mem.pages) 2).1 := by
  have hver : (runCalls Module.create passToken).Verified := by decide
  have hthr : (runCalls Module.create passToken).Threaded := by decide
  have hwf := wf_reachable ⟨passToken, rfl⟩
  exact execRun_versionRun ⟨passToken, rfl⟩ hver (tokenState_reachable hver) 0 2 (by decide)
    (namesLatest_of_threaded hwf hver hthr 0 (by decide) _ _ 2)

/-- A block that stores a byte and then loads it from the token before the store. -/
def staleLoad : List Call :=
  [.blockCreate none, .blockAddParam 0 (typeMem 0 64) none, .blockAddParam 0 (typeAddr 64) none,
    .blockAddParam 0 (typeI 8) none, .buildStore 0 0 1 2 .le none,
    .buildLoad 0 (typeI 8) 0 1 .le none, .setReturn 0 (.array [4])]

/-- The executor returns the stored byte, though the load names the version that holds 1. -/
theorem execRun_staleLoad :
    (runCalls Module.create staleLoad).Reachable ∧ (runCalls Module.create staleLoad).Verified ∧
      (tokenState staleLoad).Reachable (runCalls Module.create staleLoad) ∧
      (∀ v ∈ ((runCalls Module.create staleLoad).blockRec 0).params,
        (tokenState staleLoad).defined v = true) ∧
      (execRun (runCalls Module.create staleLoad) 0 (tokenState staleLoad) 1).1 =
        .ok ⟨.ret, 0, 0, [execI 8 2#64]⟩ ∧
      (versionRun (runCalls Module.create staleLoad) 0
        (((runCalls Module.create staleLoad).blockRec 0).params.map (tokenState staleLoad).values)
        (flatOf (tokenState staleLoad).mem.pages) 1).1 = .ok ⟨.ret, 0, 0, [execI 8 1#64]⟩ :=
  ⟨⟨staleLoad, rfl⟩, by decide, tokenState_reachable (by decide), by decide, by decide +kernel,
    by decide +kernel⟩

end Xair
