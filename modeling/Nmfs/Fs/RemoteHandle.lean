import Nmfs.Fs.Cluster
import Nmfs.Fs.Refinement

/-
  Open files of directories that another client leads. The handle has a `remote_inode`: the
  directory and the name it was found under, which is what the leader is asked by, and the inode
  number, which the data in the pool goes by.

  Between the lookup and `rpc_open`, and from then on, other clients do what they like with the
  name. A write is one step here; what happens between its two parts is a matter of the sizes.
-/

namespace Nmfs

open Lib

/-- A `remote_inode` in a `file_handler`. -/
structure RemoteInode where
  dentryTableIno : Uuid
  fileName : Bytes
  ino : Uuid
  deriving DecidableEq

namespace RpcServer

open Led DirectoryOps LocalOps

/-- A setter of the size, and `chreg`. -/
def resize (filename : Bytes) (c : MemInode) (size : UInt64) : Section Unit := do
  setChildInode filename (c.inode.setSize size)
  journalAt c.pIno (.chreg (c.inode.setSize size))

def openHandler (filename : Bytes) (flags : UInt32) : Section Reply := do
  let c ← getChildInode filename
  if flags &&& O_DIRECTORY ≠ 0 ∧ ¬ Inode.isDir c.inode.core.iMode then return ⟨-ENOTDIR, none⟩
  if flags &&& O_NOFOLLOW ≠ 0 ∧ Inode.isLnk c.inode.core.iMode then return ⟨-ELOOP, none⟩
  if flags &&& O_TRUNC ≠ 0 ∧ flags &&& O_PATH = 0 then resize filename c 0
  return ⟨0, none⟩

/-- Where a write to an inode of this size starts. -/
def startOf (size offset : UInt64) (flags : UInt32) : UInt64 :=
  if flags &&& O_APPEND ≠ 0 then size else offset

/-- What the client is to write from. -/
def writeHandler (filename : Bytes) (offset size : UInt64) (flags : UInt32) : Section UInt64 := do
  let c ← getChildInode filename
  let offset := startOf c.inode.core.iSize offset flags
  if c.inode.core.iSize < offset + size then resize filename c (offset + size)
  return offset

/-- `target_is_parent` is false for the handle of a file. -/
def truncateHandler (filename : Bytes) (offset : UInt64) : Section Reply := do
  let c ← getChildInode filename
  if Inode.isDir c.inode.core.iMode then return ⟨-EISDIR, none⟩
  resize filename c offset
  return ⟨0, none⟩

end RpcServer

namespace RemoteHandle

open DirectoryOps FuseOps

variable {C : Type} [DecidableEq C]

/-! ## The client's side -/

def remoteOpen (i : RemoteInode) (flags : UInt32) : ClientOp C Int := do
  let reply ← remotely needRecovery
    (onDir i.dentryTableIno (RpcServer.openHandler i.fileName flags))
  return reply.ret

def remoteCreate (dir : Uuid) (env : Env) (newChildName : Bytes) (mode : UInt32) :
    ClientOp C Reply :=
  remotely needRecovery (onDir dir (RpcServer.createHandler env newChildName mode))

/-- An operation of the client on the data pool. -/
def onData (f : Pool → Nat × Pool) : ClientOp C Int := Op.of fun s =>
  (((f s.dataPool).1 : Int), { s with dataPool := (f s.dataPool).2 })

def remoteWrite (i : RemoteInode) (buffer : Bytes) (offset : UInt64) (flags : UInt32) :
    ClientOp C Int := do
  let start ← remotely needRecovery (onDir i.dentryTableIno
    (RpcServer.writeHandler i.fileName offset (UInt64.ofNat buffer.length) flags))
  onData fun pool => RadosIo.write pool .data i.ino.toStr buffer start.toNat

def remoteTruncate (i : RemoteInode) (offset : UInt64) : ClientOp C Int := do
  let reply ← remotely needRecovery
    (onDir i.dentryTableIno (RpcServer.truncateHandler i.fileName offset))
  if reply.ret = 0 then
    onData fun pool => RadosIo.truncate pool .data i.ino.toStr offset.toNat
  else return reply.ret

/-! ## Runs -/

structure State (C : Type) where
  cluster : Cluster C
  /-- what the lookup of an open has found -/
  found : Nat → Option RemoteInode
  handles : Nat → Option RemoteInode

inductive Change where
  | write (buffer : Bytes) (offset : UInt64) (flags : UInt32)
  | truncate (offset : UInt64)

inductive Action (C : Type) where
  /-- at the leader of a directory, for any client -/
  | operation (dir : Uuid) (o : Refinement.Operation)
  | call (c : Call C)
  /-- the end of the path traversal of an open -/
  | lookup (k : Nat) (dir : Uuid) (name : Bytes)
  | «open» (k : Nat) (flags : UInt32)
  | create (k : Nat) (dir : Uuid) (env : Env) (name : Bytes) (mode : UInt32)
  /-- through the handle `k` -/
  | change (k : Nat) (c : Change)

def Change.perform (i : RemoteInode) : Change → ClientOp C Int
  | .write buffer offset flags => remoteWrite i buffer offset flags
  | .truncate offset => remoteTruncate i offset

def step (s : State C) : Action C → Option (State C)
  | .operation dir o => some { s with
      cluster := (onDir dir (fun led => o.perform led : Section Reply) s.cluster).2 }
  | .call c => some { s with cluster := (c.perform s.cluster).2 }
  | .lookup k dir name =>
    match onDir dir (Led.checkChildInode name) s.cluster with
    | (.error _, _) => none
    | (.ok ino, _) =>
      if ino = Uuid.nil then none
      else some { s with found := Function.update s.found k (some ⟨dir, name, ino⟩) }
  | .open k flags =>
    (s.found k).bind fun i =>
      match remoteOpen i flags s.cluster with
      | (.ok 0, cluster) =>
        some { s with cluster, handles := Function.update s.handles k (some i) }
      | (_, cluster) => some { s with cluster }
  | .create k dir env name mode =>
    match remoteCreate dir env name mode s.cluster with
    | (.ok ⟨0, some ino⟩, cluster) =>
      some { s with cluster, handles := Function.update s.handles k (some ⟨dir, name, ino⟩) }
    | (_, cluster) => some { s with cluster }
  | .change k c =>
    (s.handles k).map fun i => { s with cluster := (c.perform i s.cluster).2 }

/-! ## What the handle promises -/

/-- The size that is asked for, of an inode of size `size`. -/
def Change.resized (size : UInt64) : Change → UInt64
  | .write buffer offset flags =>
    let stop := RpcServer.startOf size offset flags + UInt64.ofNat buffer.length
    if size < stop then stop else size
  | .truncate offset => offset

/-- `rpc_truncate` answers `-EISDIR`. -/
def Change.Refused (i : Inode) : Change → Prop
  | .write _ _ _ => False
  | .truncate _ => Inode.isDir i.core.iMode = true

def Change.apply (c : Change) (i : MemInode) : MemInode :=
  { i with inode := i.inode.setSize (c.resized i.inode.core.iSize) }

/-- `s` has the inode of the handle somewhere, and `s'` has it there with the size that is asked
    for. -/
def Resized (i : RemoteInode) (c : Change) (s s' : Cluster C) : Prop :=
  ∃ dir name m, s.child dir name = some m ∧ m.inode.ino = i.ino ∧
    s'.child dir name = some (c.apply m)

def Succeeds (result : Except Err Int) : Prop := ∃ n : Int, result = .ok n ∧ 0 ≤ n

/-- No inode of another number changes, and the inode of the handle gets its size unless the request
    fails. -/
structure StaysBound (i : RemoteInode) (c : Change) (s : Cluster C)
    (out : Except Err Int × Cluster C) : Prop where
  others : ∀ dir name m, s.child dir name = some m → m.inode.ino ≠ i.ino →
    out.2.child dir name = some m
  resized : Succeeds out.1 → Resized i c s out.2

/-- What has the name now is the inode of the handle, or the request is refused for it, or nothing is
    to be changed: the other inode has the size already, and so has the inode of the handle,
    wherever it is. -/
def NameKept (i : RemoteInode) (c : Change) (s : Cluster C) : Prop :=
  ∀ m, s.child i.dentryTableIno i.fileName = some m →
    m.inode.ino = i.ino ∨ c.Refused m.inode ∨ c.apply m = m ∧ Resized i c s s

def AllBound (s : State C) : Action C → Prop
  | .change k c => ∀ i, s.handles k = some i → StaysBound i c s.cluster (c.perform i s.cluster)
  | _ => True

def AllKept (s : State C) : Action C → Prop
  | .change k c => ∀ i, s.handles k = some i → NameKept i c s.cluster
  | _ => True

/-! ## One request -/

section

variable {s : Cluster C} {led : Led} {m : MemInode} {name : Bytes}

theorem child_resized (hm : led.table.child name = some m) (size : UInt64) :
    (led.withChild name (m.inode.setSize size)).table.child =
      Function.update led.table.child name
        (some { m with inode := m.inode.setSize size }) := by
  funext name'
  show (led.table.setChildInode name _).child name' = _
  rw [DentryTable.child_setChild]
  by_cases hn : name' = name
  · subst hn
    rw [Function.update_self, hm, Option.map_some, if_pos ⟨rfl, rfl⟩]
  · rw [Function.update_of_ne hn]
    simp [hn]

theorem resize_child (hm : led.table.child name = some m) (size : UInt64) :
    ∃ led', RpcServer.resize name m size led = (.ok (), led') ∧
      led'.table.child = Function.update led.table.child name
        (some { m with inode := m.inode.setSize size }) := by
  unfold RpcServer.resize
  rw [Op.bind_ok Led.setChildInode_apply]
  unfold Led.journalAt
  rw [JournalTable.record_chreg]
  exact ⟨_, rfl, child_resized hm size⟩

theorem setSize_self (i : Inode) : i.setSize i.core.iSize = i := rfl

/-- The answer of the leader, and the size that the inode of that name then has. -/
theorem writeHandler_child (hm : led.table.child name = some m) (buffer : Bytes)
    (offset : UInt64) (flags : UInt32) :
    ∃ start led', RpcServer.writeHandler name offset (UInt64.ofNat buffer.length) flags led =
      (.ok start, led') ∧ led'.table.child = Function.update led.table.child name
        (some (Change.apply (.write buffer offset flags) m)) := by
  unfold RpcServer.writeHandler Change.apply Change.resized
  rw [Op.bind_ok (Led.getChildInode_present hm)]
  dsimp only
  split
  · obtain ⟨led', hr, hchild⟩ := resize_child hm
      (RpcServer.startOf m.inode.core.iSize offset flags + UInt64.ofNat buffer.length)
    rw [Op.bind_ok hr]
    exact ⟨_, led', rfl, hchild⟩
  · refine ⟨_, led, rfl, ?_⟩
    rw [setSize_self]
    exact (Function.update_eq_self_iff.mpr hm.symm).symm

theorem truncateHandler_refused (hm : led.table.child name = some m) {offset : UInt64}
    (hd : Inode.isDir m.inode.core.iMode = true) :
    RpcServer.truncateHandler name offset led = (.ok ⟨-LocalOps.EISDIR, none⟩, led) := by
  unfold RpcServer.truncateHandler
  rw [Op.bind_ok (Led.getChildInode_present hm), if_pos hd]
  rfl

theorem truncateHandler_child (hm : led.table.child name = some m) (offset : UInt64)
    (hd : ¬ Inode.isDir m.inode.core.iMode = true) :
    ∃ led', RpcServer.truncateHandler name offset led = (.ok ⟨0, none⟩, led') ∧
      led'.table.child = Function.update led.table.child name
        (some (Change.apply (.truncate offset) m)) := by
  obtain ⟨led', hr, hchild⟩ := resize_child hm offset
  unfold RpcServer.truncateHandler
  rw [Op.bind_ok (Led.getChildInode_present hm), if_neg hd, Op.bind_ok hr]
  exact ⟨led', rfl, hchild⟩

variable {i : RemoteInode} {c : Change}

/-- A handler that gets the inode of the name first raises where there is none. -/
theorem onDir_absent {α : Type} {dir : Uuid} {m : Section α} (h : s.child dir name = none)
    (hm : ∀ led : Led, led.table.child name = none → m led = (.error .noEntry, led)) :
    ∃ s', onDir dir m s = (.error .noEntry, s') ∧ s'.child = s.child := by
  cases hl : s.led dir with
  | none =>
      refine ⟨s, ?_, rfl⟩
      unfold onDir
      rw [hl]
  | some led =>
      have hchild := Cluster.child_of_led hl
      rw [hchild] at h
      refine ⟨s.put dir led, ?_, ?_⟩
      · rw [onDir_led hl, hm led h]
      · rw [Cluster.child_put, ← hchild, Function.update_eq_self]

theorem perform_absent (h : s.child i.dentryTableIno i.fileName = none) :
    ∃ e s', c.perform i s = (.error e, s') ∧ s'.child = s.child := by
  cases c with
  | write buffer offset flags =>
      obtain ⟨s', hs, hchild⟩ := onDir_absent (m := RpcServer.writeHandler i.fileName offset
        (UInt64.ofNat buffer.length) flags) h fun led hn => Op.bind_error (Led.getChildInode_absent hn)
      exact ⟨_, s', Op.bind_error (remotely_error hs), hchild⟩
  | truncate offset =>
      obtain ⟨s', hs, hchild⟩ := onDir_absent (m := RpcServer.truncateHandler i.fileName offset) h
        fun led hn => Op.bind_error (Led.getChildInode_absent hn)
      exact ⟨_, s', Op.bind_error (remotely_error hs), hchild⟩

theorem perform_refused (hm : s.child i.dentryTableIno i.fileName = some m)
    (hr : c.Refused m.inode) :
    ∃ s', c.perform i s = (.ok (-LocalOps.EISDIR), s') ∧ s'.child = s.child := by
  cases c with
  | write buffer offset flags => exact hr.elim
  | truncate offset =>
      obtain ⟨led, hl, hm⟩ := Cluster.led_of_child hm
      have hs : onDir i.dentryTableIno (RpcServer.truncateHandler i.fileName offset) s =
          (.ok ⟨-LocalOps.EISDIR, none⟩, s.put i.dentryTableIno led) := by
        rw [onDir_led hl, truncateHandler_refused hm hr]
      refine ⟨s.put i.dentryTableIno led, Op.bind_ok (remotely_ok hs), ?_⟩
      rw [Cluster.child_put, ← Cluster.child_of_led hl, Function.update_eq_self]

/-- What has the name gets the size. -/
theorem perform_taken (hm : s.child i.dentryTableIno i.fileName = some m)
    (hr : ¬ c.Refused m.inode) : Succeeds (c.perform i s).1 ∧
      (c.perform i s).2.child = Function.update s.child i.dentryTableIno
        (Function.update (s.child i.dentryTableIno) i.fileName (some (c.apply m))) := by
  obtain ⟨led, hl, hm⟩ := Cluster.led_of_child hm
  rw [Cluster.child_of_led hl]
  cases c with
  | write buffer offset flags =>
      obtain ⟨start, led', hw, hchild⟩ := writeHandler_child hm buffer offset flags
      have hs : onDir i.dentryTableIno (RpcServer.writeHandler i.fileName offset
          (UInt64.ofNat buffer.length) flags) s = (.ok start, s.put i.dentryTableIno led') := by
        rw [onDir_led hl, hw]
      show Succeeds (remoteWrite i buffer offset flags s).1 ∧
        (remoteWrite i buffer offset flags s).2.child = _
      unfold remoteWrite
      rw [Op.bind_ok (remotely_ok hs), ← hchild, ← Cluster.child_put]
      exact ⟨⟨_, rfl, Int.natCast_nonneg _⟩, rfl⟩
  | truncate offset =>
      obtain ⟨led', ht, hchild⟩ := truncateHandler_child hm offset hr
      have hs : onDir i.dentryTableIno (RpcServer.truncateHandler i.fileName offset) s =
          (.ok ⟨0, none⟩, s.put i.dentryTableIno led') := by
        rw [onDir_led hl, ht]
      show Succeeds (remoteTruncate i offset s).1 ∧ (remoteTruncate i offset s).2.child = _
      unfold remoteTruncate
      rw [Op.bind_ok (remotely_ok hs), if_pos rfl, ← hchild, ← Cluster.child_put]
      exact ⟨⟨_, rfl, Int.natCast_nonneg _⟩, rfl⟩

theorem staysBound_of_child (h : ¬ Succeeds (c.perform i s).1)
    (hchild : (c.perform i s).2.child = s.child) : StaysBound i c s (c.perform i s) :=
  ⟨fun dir name m hm _ => by rw [hchild]; exact hm, fun hs => absurd hs h⟩

/-- A request keeps to the inode of its handle exactly if the name is kept for it. -/
theorem staysBound_iff : StaysBound i c s (c.perform i s) ↔ NameKept i c s := by
  cases hm : s.child i.dentryTableIno i.fileName with
  | none =>
      obtain ⟨e, s', hp, hchild⟩ := perform_absent (c := c) hm
      refine ⟨fun _ m hn => ?_, fun _ => ?_⟩
      · rw [hm] at hn
        cases hn
      · apply staysBound_of_child
        · rw [hp]
          exact fun ⟨n, hn, _⟩ => (nomatch hn)
        · rw [hp]
          exact hchild
  | some m =>
      by_cases hr : c.Refused m.inode
      · obtain ⟨s', hp, hchild⟩ := perform_refused hm hr
        refine ⟨fun _ m' hm' => ?_, fun _ => ?_⟩
        · rw [hm] at hm'
          cases hm'
          exact .inr (.inl hr)
        · apply staysBound_of_child
          · rw [hp]
            intro ⟨n, hn, hpos⟩
            cases hn
            exact absurd hpos (by decide)
          · rw [hp]
            exact hchild
      · obtain ⟨hsucc, hchild⟩ := perform_taken hm hr
        constructor
        · intro hb m' hm'
          rw [hm] at hm'
          cases hm'
          by_cases hi : m.inode.ino = i.ino
          · exact .inl hi
          · have hkeep := hb.others _ _ m hm hi
            rw [hchild, Function.update_self, Function.update_self] at hkeep
            have hsame : c.apply m = m := Option.some.inj hkeep
            refine .inr (.inr ⟨hsame, ?_⟩)
            have hres := hb.resized hsucc
            unfold Resized at hres
            rw [hchild, hsame, ← hm, Function.update_eq_self, Function.update_eq_self] at hres
            exact hres
        · intro hk
          rcases hk m hm with hi | hr' | ⟨hsame, hres⟩
          · constructor
            · intro dir name m' hm' hne
              rw [hchild]
              by_cases hd : dir = i.dentryTableIno
              · subst hd
                rw [Function.update_self, Function.update_of_ne]
                · exact hm'
                · intro hn
                  rw [hn, hm] at hm'
                  cases hm'
                  exact hne hi
              · rw [Function.update_of_ne hd]
                exact hm'
            · intro _
              refine ⟨_, _, m, hm, hi, ?_⟩
              rw [hchild, Function.update_self, Function.update_self]
          · exact absurd hr' hr
          · have hsame' : (c.perform i s).2.child = s.child := by
              rw [hchild, hsame, ← hm, Function.update_eq_self, Function.update_eq_self]
            constructor
            · intro dir name m' hm' _
              rw [hsame']
              exact hm'
            · intro _
              unfold Resized
              rw [hsame']
              exact hres

end

/-! ## Every run -/

/-- In every run, every request through a handle keeps to the inode of the handle, exactly if the
    name of the handle is kept at each of them. -/
theorem allBound_iff_allKept (s : State C) (as : List (Action C)) :
    StepsMeet step AllBound s as ↔ StepsMeet step AllKept s as := by
  refine stepsMeet_congr (I := fun _ => True) (F := fun _ _ => True) ?_ (fun _ _ _ _ _ _ _ => trivial)
    trivial (StepsMeet.of_forall fun _ _ _ => trivial)
  intro s a _ _
  cases a with
  | change k c => exact forall₂_congr fun i _ => staysBound_iff
  | _ => exact Iff.rfl

/-- An empty directory, which the client `false` leads. -/
def emptyDir : State Bool where
  cluster := {
    ids := fun _ => ⟨0, 0⟩
    leader := fun _ => false
    tables := fun dir =>
      if dir = Creation.homeInode.ino then some (.ofNew Creation.homeInode) else none
    jtables := fun _ => ∅
    dataPool := ∅ }
  found := fun _ => none
  handles := fun _ => none

/-- A file is created through the remote path, unlinked and created anew. -/
def recreate : List (Action Bool) :=
  [.create 0 Creation.homeInode.ino (Creation.envOf 1) [97] 0x1A4,
    .operation Creation.homeInode.ino (.request (.rpcUnlink ⟨1, 0⟩ [97])),
    .operation Creation.homeInode.ino (.request (.localCreate (Creation.envOf 2) [97] 0x1A4))]

/-- Two inodes have had the name; a write through the handle of the first one succeeds, and makes the
    second one longer. -/
theorem write_resizes_other_inode : ∃ s m, run step emptyDir recreate = some s ∧
    s.handles 0 = some ⟨Creation.homeInode.ino, [97], (Creation.envOf 1).newIno⟩ ∧
    s.cluster.child Creation.homeInode.ino [97] = some m ∧
    m.inode.ino = (Creation.envOf 2).newIno ∧
    Succeeds (remoteWrite ⟨Creation.homeInode.ino, [97], (Creation.envOf 1).newIno⟩ [7] 0 0
      s.cluster).1 ∧
    ¬ StepsMeet step AllBound emptyDir (recreate ++ [.change 0 (.write [7] 0 0)]) := by
  refine ⟨_, _, rfl, rfl, rfl, rfl, ?_, ?_⟩
  · exact (perform_taken (c := .write [7] 0 0) rfl id).1
  · intro h
    have hbound := (((h.2 _ rfl).2 _ rfl).2 _ rfl).1 _ rfl
    have hother := hbound.others Creation.homeInode.ino [97] _ rfl (by decide)
    rw [(perform_taken (c := .write [7] 0 0) rfl id).2] at hother
    rw [Function.update_self, Function.update_self] at hother
    have hsize := congrArg (fun m => m.inode.core.iSize) (Option.some.inj hother)
    exact absurd hsize (by decide)

end RemoteHandle

end Nmfs
