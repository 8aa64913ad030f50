import Nmfs.Meta.Uuid
import Nmfs.Rados.FlatFile

/-
  `inode`: its `_core`, as it lies in memory on x86-64, and the target of a symbolic link. A record
  is the 104 bytes of the core followed by the link target. Padding bytes are taken as zero. The
  location and the parent's inode number are not part of a record.
-/

namespace Nmfs

open Lib

/-- What the code throws. `undefined` is a read outside a buffer, which the C++ does not check. -/
inductive Err where
  | undefined
  | noSuchObject
  | noEntry
  | permissionDenied
  | runtimeError (what : String)
  | logicError (what : String)
  | lengthError
  deriving DecidableEq, Repr

/-- The ids that a client runs under. -/
@[ext] structure Ids where
  uid : UInt32
  gid : UInt32
  deriving DecidableEq

/-- `time_t` and `long`, as 64-bit patterns. -/
structure Timespec where
  tvSec : UInt64
  tvNsec : UInt64
  deriving DecidableEq, Repr

namespace Inode

structure Core where
  iMode : UInt32
  iUid : UInt32
  iGid : UInt32
  iIno : Uuid
  iNlink : UInt64
  /-- `off_t`, as a 64-bit pattern -/
  iSize : UInt64
  iAtime : Timespec
  iMtime : Timespec
  iCtime : Timespec
  linkTargetLen : UInt32
  deriving DecidableEq

/-- `sizeof(struct _core)` -/
def REG_INODE_SIZE : Nat := 104

/-- `sizeof(inode)`: the virtual table pointer, `p_ino`, `core`, `loc`, `link_target_name` and
    `inode_mutex`. -/
def sizeofInode : Nat := 8 + 16 + REG_INODE_SIZE + 8 + 16 + 40

def DIR_INODE_SIZE : Nat := 4096

def S_IFMT : UInt32 := 0xF000
def S_IFDIR : UInt32 := 0x4000
def S_IFREG : UInt32 := 0x8000
def S_IFLNK : UInt32 := 0xA000

def isDir (mode : UInt32) : Bool := mode &&& S_IFMT = S_IFDIR
def isLnk (mode : UInt32) : Bool := mode &&& S_IFMT = S_IFLNK

def timespecBytes (t : Timespec) : Bytes := leBytes 8 t.tvSec.toNat ++ leBytes 8 t.tvNsec.toNat

/-- The bytes of `core`. -/
def Core.bytes (c : Core) : Bytes :=
  leBytes 4 c.iMode.toNat ++ (leBytes 4 c.iUid.toNat ++ (leBytes 4 c.iGid.toNat ++
    (c.iIno.data ++ (List.replicate 4 0 ++ (leBytes 8 c.iNlink.toNat ++ (leBytes 8 c.iSize.toNat ++
      (timespecBytes c.iAtime ++ (timespecBytes c.iMtime ++ (timespecBytes c.iCtime ++
        (leBytes 4 c.linkTargetLen.toNat ++ List.replicate 4 0))))))))))

def getUInt32 (raw : Bytes) (off : Nat) : UInt32 := UInt32.ofNat (leNat (slice raw off 4))

def getUInt64 (raw : Bytes) (off : Nat) : UInt64 := UInt64.ofNat (leNat (slice raw off 8))

def getTimespec (raw : Bytes) (off : Nat) : Timespec :=
  ⟨getUInt64 raw off, getUInt64 raw (off + 8)⟩

def getUuid (raw : Bytes) (off : Nat) : Uuid := ⟨resize 0 (slice raw off 16) 16, resize_length _ _ _⟩

/-- `memcpy(&core, value, REG_INODE_SIZE)` -/
def Core.ofBytes (raw : Bytes) : Core where
  iMode := getUInt32 raw 0
  iUid := getUInt32 raw 4
  iGid := getUInt32 raw 8
  iIno := getUuid raw 12
  iNlink := getUInt64 raw 32
  iSize := getUInt64 raw 40
  iAtime := getTimespec raw 48
  iMtime := getTimespec raw 64
  iCtime := getTimespec raw 80
  linkTargetLen := getUInt32 raw 96

end Inode

/-- An `inode`; `linkTargetName` is null where it was never set. -/
structure Inode where
  core : Inode.Core
  linkTargetName : Option Bytes
  deriving DecidableEq

namespace Inode

def ino (i : Inode) : Uuid := i.core.iIno

/-- The target a symbolic link reads as. -/
def target (i : Inode) : Bytes := if isLnk i.core.iMode then i.linkTargetName.getD [] else []

/-- The copy constructor. -/
def copy (i : Inode) : Inode :=
  ⟨i.core, if isLnk i.core.iMode ∧ 0 < i.core.linkTargetLen then i.linkTargetName else none⟩

def serialize (i : Inode) : Bytes :=
  i.core.bytes ++
    if isLnk i.core.iMode ∧ 0 < i.core.linkTargetLen then
      resize 0 (i.linkTargetName.getD []) i.core.linkTargetLen.toNat
    else List.replicate i.core.linkTargetLen.toNat 0

/-- `deserialize` of the bytes at `value`. The target of a link is not taken from there but read
    from the INODE object. -/
def deserialize (pool : Pool) (linkTargetName : Option Bytes) (value : Bytes) :
    Except Err Inode :=
  let core := Core.ofBytes value
  if isLnk core.iMode then
    let len := core.linkTargetLen.toNat
    match RadosIo.read pool .inode core.iIno.toStr len REG_INODE_SIZE with
    | .done bytes _ => .ok ⟨core, some (resize 0 bytes len)⟩
    | .noSuchObject _ _ => .error .noSuchObject
  else .ok ⟨core, linkTargetName⟩

/-- `sync`: write the record to the INODE object. -/
def sync (pool : Pool) (i : Inode) : Pool :=
  (RadosIo.write pool .inode i.ino.toStr i.serialize 0).2

/-- The constructor that pulls an inode from the pool. -/
def pull (pool : Pool) (ino : Uuid) : Except Err Inode :=
  match RadosIo.read pool .inode ino.toStr REG_INODE_SIZE 0 with
  | .noSuchObject _ _ => .error .noEntry
  | .done bytes _ =>
    match deserialize pool none (resize 0 bytes REG_INODE_SIZE) with
    | .error .noSuchObject => .error .noEntry
    | result => result

def R_OK : UInt32 := 4
def W_OK : UInt32 := 2
def X_OK : UInt32 := 1

def S_IRWXU : UInt32 := 0x1C0
def S_IRWXG : UInt32 := 0x38
def S_IRWXO : UInt32 := 0x7

/-- `permission_check` at `this_client`. -/
def permissionCheck (thisClient : Ids) (mask : UInt32) (i : Inode) : Except Err Unit :=
  let targetMode :=
    if thisClient.uid = i.core.iUid then (i.core.iMode &&& S_IRWXU) >>> 6
    else if thisClient.gid = i.core.iGid then (i.core.iMode &&& S_IRWXG) >>> 3
    else i.core.iMode &&& S_IRWXO
  if (mask &&& R_OK ≠ 0 → targetMode &&& R_OK ≠ 0) ∧ (mask &&& W_OK ≠ 0 → targetMode &&& W_OK ≠ 0) ∧
      (mask &&& X_OK ≠ 0 → targetMode &&& X_OK ≠ 0) then .ok ()
  else .error .permissionDenied

/-- What the constructors see to and every setter keeps: a link has a target of its length, anything
    else has none. -/
def WellFormed (i : Inode) : Prop :=
  if isLnk i.core.iMode then (i.linkTargetName.getD []).length = i.core.linkTargetLen.toNat
  else i.core.linkTargetLen = 0

instance (i : Inode) : Decidable i.WellFormed :=
  inferInstanceAs (Decidable (if isLnk i.core.iMode = true then
    (i.linkTargetName.getD []).length = i.core.linkTargetLen.toNat else i.core.linkTargetLen = 0))

/-! ## Records -/

@[simp] theorem timespecBytes_length (t : Timespec) : (timespecBytes t).length = 16 := by
  simp [timespecBytes]

theorem Core.bytes_length (c : Core) : c.bytes.length = REG_INODE_SIZE := by
  simp [Core.bytes, REG_INODE_SIZE, c.iIno.length_data]

theorem uint32_leBytes (x : UInt32) : UInt32.ofNat (leNat (leBytes 4 x.toNat)) = x := by
  rw [leNat_leBytes _ _ x.toNat_lt, UInt32.ofNat_toNat]

theorem uint64_leBytes (x : UInt64) : UInt64.ofNat (leNat (leBytes 8 x.toNat)) = x := by
  rw [leNat_leBytes _ _ x.toNat_lt, UInt64.ofNat_toNat]

theorem resize_uuid (u : Uuid) : resize 0 u.data 16 = u.data := by
  rw [resize, u.length_data, List.take_of_length_le (by rw [u.length_data])]
  simp

/-- A core reads back from the front of its record. -/
theorem Core.ofBytes_append (c : Core) (post : Bytes) : Core.ofBytes (c.bytes ++ post) = c := by
  obtain ⟨mode, uid, gid, ino, nlink, size, atime, mtime, ctime, len⟩ := c
  simp only [Core.ofBytes, getTimespec, getUInt32, getUInt64, getUuid, Core.bytes, timespecBytes,
    List.append_assoc]
  -- every field is the head of what is left after the fields before it
  simp (disch := simp [ino.length_data]) only [slice_append_right, slice_head, leBytes_length,
    ino.length_data, List.length_replicate, Nat.reduceSub, Nat.reduceAdd, Nat.sub_self,
    uint32_leBytes, uint64_leBytes, resize_uuid]

theorem serialize_length (i : Inode) :
    i.serialize.length = REG_INODE_SIZE + i.core.linkTargetLen.toNat := by
  unfold serialize
  rw [List.length_append, Core.bytes_length]
  split <;> simp

theorem ofBytes_serialize (i : Inode) (post : Bytes) :
    Core.ofBytes (i.serialize ++ post) = i.core := by
  unfold serialize
  rw [List.append_assoc, Core.ofBytes_append]

/-- Anything but a link reads back from its record alone. -/
theorem deserialize_serialize (pool : Pool) (i : Inode) (post : Bytes)
    (h : isLnk i.core.iMode = false) :
    deserialize pool none (i.serialize ++ post) = .ok ⟨i.core, none⟩ := by
  simp only [deserialize, ofBytes_serialize, h, Bool.false_eq_true, if_false]

/-! ## Permissions -/

theorem permissionCheck_denied {thisClient : Ids} {mask : UInt32} {i : Inode}
    (h : i.permissionCheck thisClient mask ≠ .ok ()) :
    i.permissionCheck thisClient mask = .error .permissionDenied := by
  unfold permissionCheck at *
  exact if_neg fun hmask => h (if_pos hmask)

/-! ## Copies -/

@[simp] theorem copy_core (i : Inode) : i.copy.core = i.core := rfl

theorem copy_wellFormed {i : Inode} (h : i.WellFormed) : i.copy.WellFormed := by
  unfold WellFormed copy at *
  dsimp only
  split at h
  · rename_i hl
    rw [if_pos hl]
    by_cases hlen : 0 < i.core.linkTargetLen
    · rw [if_pos ⟨hl, hlen⟩]
      exact h
    · rw [if_neg fun hc => hlen hc.2]
      have : i.core.linkTargetLen.toNat = 0 := by
        rw [UInt32.lt_iff_toNat_lt] at hlen
        simpa using hlen
      simp [this]
  · rename_i hl
    rw [if_neg hl]
    exact h

end Inode

end Nmfs
