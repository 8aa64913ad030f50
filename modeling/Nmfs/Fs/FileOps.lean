import Nmfs.Journal.JournalTable
import Nmfs.Rados.StoredFile

/-
  The operations of `fs_ops/local_ops.cpp` on one inode: what the leader does on an open file, and
  the changes of its attributes. The size is in the inode, the bytes are in the data pool.

  `off_t` and `size_t` are 64-bit patterns, and are compared as unsigned numbers. The handle that
  `local_open` enters into the open context is left out.
-/

namespace Nmfs

open Lib RadosIo

namespace LocalOps

def O_APPEND : UInt32 := 0x400
def O_TRUNC : UInt32 := 0x200
def O_DIRECTORY : UInt32 := 0x10000
def O_NOFOLLOW : UInt32 := 0x20000
def O_PATH : UInt32 := 0x200000

def ENOTDIR : Int := 20
def EISDIR : Int := 21
def ELOOP : Int := 40

def UTIME_NOW : UInt64 := 0x3FFFFFFF
def UTIME_OMIT : UInt64 := 0x3FFFFFFE

/-- An inode in the memory of its leader, with the data pool and the leader's journal. -/
structure OpenInode where
  i : Inode
  pIno : Uuid
  dataPool : Pool
  jtable : JournalTable

namespace OpenInode

def setCore (s : OpenInode) (core : Inode.Core) : OpenInode := { s with i := { s.i with core } }

def setSize (s : OpenInode) (size : UInt64) : OpenInode :=
  s.setCore { s.i.core with iSize := size }

def chreg (s : OpenInode) : OpenInode :=
  { s with jtable := (s.jtable.record s.pIno (.chreg s.i)).2 }

def chself (s : OpenInode) : OpenInode :=
  { s with jtable := (s.jtable.record s.i.ino (.chself s.i)).2 }

/-- The end of every change of an attribute. -/
def record (s : OpenInode) : OpenInode := if Inode.isDir s.i.core.iMode then s.chself else s.chreg

@[simp] theorem record_i (s : OpenInode) : s.record.i = s.i := by
  unfold record
  split <;> rfl

@[simp] theorem record_dataPool (s : OpenInode) : s.record.dataPool = s.dataPool := by
  unfold record
  split <;> rfl

end OpenInode

def localOpen (s : OpenInode) (flags : UInt32) : Int × OpenInode :=
  if flags &&& O_DIRECTORY ≠ 0 ∧ ¬ Inode.isDir s.i.core.iMode then (-ENOTDIR, s)
  else if flags &&& O_NOFOLLOW ≠ 0 ∧ Inode.isLnk s.i.core.iMode then (-ELOOP, s)
  else if flags &&& O_TRUNC ≠ 0 ∧ flags &&& O_PATH = 0 then (0, (s.setSize 0).chreg)
  else (0, s)

def localRead (s : OpenInode) (size offset : Nat) : ReadResult :=
  RadosIo.read s.dataPool .data s.i.ino.toStr size offset

def localWrite (s : OpenInode) (buffer : Bytes) (offset : UInt64) (flags : UInt32) :
    Nat × OpenInode :=
  let offset := if flags &&& O_APPEND ≠ 0 then s.i.core.iSize else offset
  let size := UInt64.ofNat buffer.length
  let written := RadosIo.write s.dataPool .data s.i.ino.toStr buffer offset.toNat
  let s := { s with dataPool := written.2 }
  if s.i.core.iSize < offset + size then (written.1, (s.setSize (offset + size)).chreg)
  else (written.1, s)

def localTruncate (s : OpenInode) (offset : UInt64) (ts : Timespec) : Int × OpenInode :=
  if Inode.isDir s.i.core.iMode then (-EISDIR, s)
  else
    let ret := RadosIo.truncate s.dataPool .data s.i.ino.toStr offset.toNat
    let s := { s with dataPool := ret.2 }
    (ret.1, (s.setCore { s.i.core with iSize := offset, iMtime := ts, iCtime := ts }).record)

def localChmod (s : OpenInode) (mode : UInt32) : OpenInode :=
  let type := s.i.core.iMode &&& Inode.S_IFMT
  (s.setCore { s.i.core with iMode := mode ||| type }).record

/-- An id that is negative as an `int32_t` is left as it is. -/
def localChown (s : OpenInode) (uid gid : UInt32) : OpenInode :=
  (s.setCore { s.i.core with
    iUid := if uid.toNat < 2 ^ 31 then uid else s.i.core.iUid
    iGid := if gid.toNat < 2 ^ 31 then gid else s.i.core.iGid }).record

/-- The time that `utimens` sets, where it was `old`. -/
def utimensTime (ts tv old : Timespec) : Timespec :=
  if tv.tvNsec = UTIME_NOW then ts else if tv.tvNsec = UTIME_OMIT then old else tv

def localUtimens (s : OpenInode) (ts atime mtime : Timespec) : OpenInode :=
  (s.setCore { s.i.core with
    iAtime := utimensTime ts atime s.i.core.iAtime
    iMtime := utimensTime ts mtime s.i.core.iMtime }).record

/-! ## The reference -/

inductive FileCall where
  | open (flags : UInt32)
  | read (size offset : Nat)
  | write (buffer : Bytes) (offset : UInt64) (flags : UInt32)
  | truncate (offset : UInt64) (ts : Timespec)

def perform (s : OpenInode) : FileCall → OpenInode
  | .open flags => (localOpen s flags).2
  | .read _ _ => s
  | .write buffer offset flags => (localWrite s buffer offset flags).2
  | .truncate offset ts => (localTruncate s offset ts).2

/-- `local_open` of a regular file goes as far as `O_TRUNC`. -/
def Truncates (flags : UInt32) : Prop :=
  flags &&& O_DIRECTORY = 0 ∧ flags &&& O_TRUNC ≠ 0 ∧ flags &&& O_PATH = 0

instance (flags : UInt32) : Decidable (Truncates flags) :=
  inferInstanceAs (Decidable (_ ∧ _ ∧ _))

/-- Where a write to the file `f` starts. -/
def writeStart (f : Bytes) (offset : UInt64) (flags : UInt32) : Nat :=
  if flags &&& O_APPEND ≠ 0 then f.length else offset.toNat

/-- What a call makes of the bytes of a file. -/
def flat (f : Bytes) : FileCall → Bytes
  | .open flags => if Truncates flags then [] else f
  | .read _ _ => f
  | .write buffer offset flags => overwrite 0 f (writeStart f offset flags) buffer
  | .truncate offset _ => resize 0 f offset.toNat

/-- The size is the number of bytes that are stored, and they read as `f`. -/
structure FollowsFile (s : OpenInode) (f : Bytes) : Prop where
  size : s.i.core.iSize.toNat = (RadosIo.stat s.dataPool .data s.i.ino.toStr).2
  read : ∀ size offset, (localRead s size offset).value = slice f offset size ∧
    (localRead s size offset).count = (slice f offset size).length

/-- No offset is negative, and none overflows. -/
def Fits (f : Bytes) : FileCall → Prop
  | .write buffer offset flags => writeStart f offset flags + buffer.length < 2 ^ 63
  | .truncate offset _ => offset.toNat < 2 ^ 63
  | _ => True

/-- A run of calls, each of which fits. -/
def AllFit : Bytes → List FileCall → Prop
  | _, [] => True
  | f, c :: cs => Fits f c ∧ AllFit (flat f c) cs

/-- Where the call is an `O_TRUNC`, the file is empty. -/
def MeetsEmpty (s : OpenInode) : FileCall → Prop
  | .open flags => Truncates flags → s.i.core.iSize = 0
  | _ => True

def TruncatesEmpty : OpenInode → List FileCall → Prop
  | _, [] => True
  | s, c :: cs => MeetsEmpty s c ∧ TruncatesEmpty (perform s c) cs

/-! ## One call -/

def IsReg (i : Inode) : Prop := i.core.iMode &&& Inode.S_IFMT = Inode.S_IFREG

structure Agrees (s : OpenInode) (f : Bytes) : Prop where
  data : Holds s.dataPool .data s.i.ino.toStr f
  size : s.i.core.iSize.toNat = f.length
  regular : IsReg s.i

theorem isDir_of_isReg {i : Inode} (h : IsReg i) : Inode.isDir i.core.iMode = false := by
  unfold Inode.isDir
  rw [h]
  decide

theorem isLnk_of_isReg {i : Inode} (h : IsReg i) : Inode.isLnk i.core.iMode = false := by
  unfold Inode.isLnk
  rw [h]
  decide

section

variable {s : OpenInode} {f : Bytes}

theorem Agrees.follows (h : Agrees s f) : FollowsFile s f := by
  constructor
  · obtain ⟨n, hn⟩ := h.data
    rw [h.size, stat_eq hn]
  · exact fun size offset => read_eq h.data size offset

theorem localOpen_eq (h : IsReg s.i) (flags : UInt32) :
    (localOpen s flags).2 = if Truncates flags then (s.setSize 0).chreg else s := by
  unfold localOpen
  rw [isDir_of_isReg h, isLnk_of_isReg h]
  by_cases hd : flags &&& O_DIRECTORY = 0
  · by_cases ht : flags &&& O_TRUNC ≠ 0 ∧ flags &&& O_PATH = 0
    · rw [if_neg (by simp [hd]), if_neg (by simp), if_pos ht, if_pos ⟨hd, ht⟩]
    · rw [if_neg (by simp [hd]), if_neg (by simp), if_neg ht, if_neg fun hc => ht hc.2]
  · rw [if_pos ⟨hd, by simp⟩, if_neg fun hc => hd hc.1]

theorem Agrees.open (h : Agrees s f) {flags : UInt32} (he : Truncates flags → s.i.core.iSize = 0) :
    Agrees (localOpen s flags).2 (if Truncates flags then [] else f) := by
  rw [localOpen_eq h.regular]
  split
  · rename_i ht
    have hnil : f = [] := by
      apply List.eq_nil_of_length_eq_zero
      rw [← h.size, he ht]
      rfl
    have hdata := h.data
    rw [hnil] at hdata
    exact ⟨hdata, rfl, h.regular⟩
  · exact h

theorem Agrees.write (h : Agrees s f) {buffer : Bytes} {offset : UInt64} {flags : UInt32}
    (hfit : writeStart f offset flags + buffer.length < 2 ^ 63) :
    Agrees (localWrite s buffer offset flags).2
      (overwrite 0 f (writeStart f offset flags) buffer) := by
  unfold localWrite
  generalize hstart : (if flags &&& O_APPEND ≠ 0 then s.i.core.iSize else offset) = start
  have hnat : start.toNat = writeStart f offset flags := by
    unfold writeStart
    rw [← hstart]
    split
    · exact h.size
    · rfl
  have hend : (start + UInt64.ofNat buffer.length).toNat = start.toNat + buffer.length := by
    rw [UInt64.toNat_add, UInt64.toNat_ofNat_of_lt' (by rw [UInt64.size]; omega)]
    omega
  have hdata := (write_holds h.data buffer start.toNat).2
  rw [← hnat]
  have hlen := overwrite_length 0 f start.toNat buffer
  by_cases hlt : s.i.core.iSize < start + UInt64.ofNat buffer.length
  · dsimp only
    rw [if_pos hlt]
    refine ⟨hdata, ?_, h.regular⟩
    rw [UInt64.lt_iff_toNat_lt, hend, h.size] at hlt
    show (start + UInt64.ofNat buffer.length).toNat = _
    rw [hend, hlen]
    omega
  · dsimp only
    rw [if_neg hlt]
    refine ⟨hdata, ?_, h.regular⟩
    rw [UInt64.lt_iff_toNat_lt, hend, h.size] at hlt
    show s.i.core.iSize.toNat = _
    rw [h.size, hlen]
    omega

theorem Agrees.truncate (h : Agrees s f) (offset : UInt64) (ts : Timespec) :
    Agrees (localTruncate s offset ts).2 (resize 0 f offset.toNat) := by
  unfold localTruncate
  rw [if_neg (by rw [isDir_of_isReg h.regular]; decide)]
  dsimp only
  constructor
  · rw [OpenInode.record_dataPool, OpenInode.record_i]
    exact (truncate_holds h.data offset.toNat).2
  · rw [OpenInode.record_i, resize_length]
    rfl
  · rw [OpenInode.record_i]
    exact h.regular

theorem Agrees.perform (h : Agrees s f) {c : FileCall} (hfit : Fits f c) (he : MeetsEmpty s c) :
    Agrees (perform s c) (flat f c) := by
  cases c with
  | «open» flags => exact h.open he
  | read size offset => exact h
  | write buffer offset flags => exact h.write hfit
  | truncate offset ts => exact h.truncate offset ts

/-- `O_TRUNC` leaves the bytes of a file where they are. -/
theorem Agrees.not_follows_open (h : Agrees s f) {flags : UInt32} (ht : Truncates flags)
    (hsize : s.i.core.iSize ≠ 0) : ¬ FollowsFile (localOpen s flags).2 [] := by
  intro hf
  have hread := (hf.read f.length 0).1
  rw [localOpen_eq h.regular, if_pos ht] at hread
  have hdata : (localRead (s.setSize 0).chreg f.length 0).value = slice f 0 f.length :=
    (read_eq h.data f.length 0).1
  rw [hdata] at hread
  have hlen := congrArg List.length hread
  rw [slice_length, slice_length, List.length_nil] at hlen
  apply hsize
  apply UInt64.toNat_inj.mp
  rw [h.size]
  show f.length = 0
  omega

end

/-! ## A run of calls -/

/-- After every call so far, the file follows the reference, if and only if `O_TRUNC` has only met
    empty files. -/
theorem file_follows_iff (s : OpenInode) (f : Bytes) (calls : List FileCall) (h : Agrees s f)
    (hfit : AllFit f calls) :
    (∀ pre, pre <+: calls → FollowsFile (pre.foldl perform s) (pre.foldl flat f)) ↔
      TruncatesEmpty s calls := by
  induction calls generalizing s f with
  | nil =>
      refine ⟨fun _ => trivial, fun _ pre hpre => ?_⟩
      rw [List.prefix_nil.mp hpre]
      exact h.follows
  | cons c calls ih =>
      have hhead : (∀ pre, pre <+: c :: calls →
          FollowsFile (pre.foldl perform s) (pre.foldl flat f)) → MeetsEmpty s c := by
        intro hall
        cases c with
        | «open» flags =>
            intro ht
            by_contra hsize
            apply h.not_follows_open ht hsize
            have hone := hall [.open flags] ((List.prefix_cons_inj _).mpr List.nil_prefix)
            simp only [List.foldl_cons, List.foldl_nil, perform, flat, if_pos ht] at hone
            exact hone
        | _ => trivial
      constructor
      · intro hall
        refine ⟨hhead hall, ?_⟩
        apply (ih (perform s c) (flat f c) (h.perform hfit.1 (hhead hall)) hfit.2).mp
        intro pre hpre
        exact hall (c :: pre) ((List.prefix_cons_inj c).mpr hpre)
      · rintro ⟨he, hrest⟩ pre hpre
        match pre with
        | [] => exact h.follows
        | d :: pre =>
            obtain ⟨rfl, hrun⟩ := List.cons_prefix_cons.mp hpre
            exact (ih (perform s d) (flat f d) (h.perform hfit.1 he) hfit.2).mpr hrest pre hrun

/-- A file that has just been made. -/
def emptyFile : OpenInode where
  i := ⟨⟨0x81A4, 0, 0, Uuid.rootIno, 1, 0, ⟨0, 0⟩, ⟨0, 0⟩, ⟨0, 0⟩, 0⟩, none⟩
  pIno := Uuid.rootIno
  dataPool := ∅
  jtable := ∅

theorem emptyFile_agrees : Agrees emptyFile [] :=
  ⟨Holds.of_absent fun _ => AList.lookup_empty _, rfl, rfl⟩

def cutAndOpen : List FileCall := [.write [7] 2 0, .truncate 0 ⟨0, 0⟩, .open O_TRUNC]

/-- Cut to nothing before it is opened with `O_TRUNC`. -/
theorem file_follows_iff_cut :
    FollowsFile (cutAndOpen.foldl perform emptyFile) (cutAndOpen.foldl flat []) := by
  have hfit : AllFit [] cutAndOpen :=
    ⟨by unfold Fits writeStart; decide, by unfold Fits; decide, trivial, trivial⟩
  exact (file_follows_iff emptyFile [] cutAndOpen emptyFile_agrees hfit).mpr
    ⟨trivial, trivial, fun _ => rfl, trivial⟩ cutAndOpen List.prefix_rfl

/-- One byte, and then `O_TRUNC`. -/
theorem truncating_open_keeps_bytes :
    ¬ ∀ pre, pre <+: [.write [7] 0 0, .open O_TRUNC] →
      FollowsFile (pre.foldl perform emptyFile) (pre.foldl flat []) := by
  intro hall
  have hbyte : Agrees (localWrite emptyFile [7] 0 0).2 (overwrite 0 [] 0 [7]) :=
    emptyFile_agrees.write (by decide)
  exact hbyte.not_follows_open (by decide) (by decide) (hall _ List.prefix_rfl)

end LocalOps

end Nmfs
