import Nmfs.Meta.Dentry

/-
  How the inode of a rename between two directories is sent: from the source's leader in the
  response of `rpc_rename_not_same_parent_src`, to the destination's leader in the request of
  `rpc_rename_not_same_parent_dst`. The two messages have the same fields for it, and protobuf
  fields as wide as the inode's. The link target is taken to be valid UTF-8: a `string` of protobuf
  carries nothing else.
-/

namespace Nmfs

open Lib

/-- The fields `target_*`. -/
structure TargetFields where
  iMode : UInt32
  iUid : UInt32
  iGid : UInt32
  iInoPrefix : UInt64
  iInoPostfix : UInt64
  iNlink : UInt64
  iSize : UInt64
  aSec : UInt64
  aNsec : UInt64
  mSec : UInt64
  mNsec : UInt64
  cSec : UInt64
  cNsec : UInt64
  iLinkTargetLen : UInt32
  /-- empty where it was not set -/
  iLinkTargetName : Bytes

namespace Inode

/-- The target of a link is given as a C string. -/
def toFields (i : Inode) : TargetFields where
  iMode := i.core.iMode
  iUid := i.core.iUid
  iGid := i.core.iGid
  iInoPrefix := i.core.iIno.getPrefixFromUuid
  iInoPostfix := i.core.iIno.getPostfixFromUuid
  iNlink := i.core.iNlink
  iSize := i.core.iSize
  aSec := i.core.iAtime.tvSec
  aNsec := i.core.iAtime.tvNsec
  mSec := i.core.iMtime.tvSec
  mNsec := i.core.iMtime.tvNsec
  cSec := i.core.iCtime.tvSec
  cNsec := i.core.iCtime.tvNsec
  iLinkTargetLen := i.core.linkTargetLen
  iLinkTargetName := if isLnk i.core.iMode then Dentry.cString (i.linkTargetName.getD []) else []

/-- All of a new inode's core is set. -/
def ofFields (m : TargetFields) : Inode where
  core := {
    iMode := m.iMode
    iUid := m.iUid
    iGid := m.iGid
    iIno := Uuid.splicePrefixAndPostfix m.iInoPrefix m.iInoPostfix
    iNlink := m.iNlink
    iSize := m.iSize
    iAtime := ⟨m.aSec, m.aNsec⟩
    iMtime := ⟨m.mSec, m.mNsec⟩
    iCtime := ⟨m.cSec, m.cNsec⟩
    linkTargetLen := m.iLinkTargetLen }
  linkTargetName := if isLnk m.iMode then some m.iLinkTargetName else none

def inodeToRenameSrcResponse : Inode → TargetFields := toFields
def renameSrcResponseToInode : TargetFields → Inode := ofFields
def inodeToRenameDstRequest : Inode → TargetFields := toFields
def renameDstRequestToInode : TargetFields → Inode := ofFields

/-- An inode that arrives as it was sent: a link has a target without a NUL byte, and nothing else
    has one. -/
def Sendable (i : Inode) : Prop :=
  if isLnk i.core.iMode then ∃ target, i.linkTargetName = some target ∧ (0 : UInt8) ∉ target
  else i.linkTargetName = none

theorem ino_ofFields_toFields (i : Inode) : (ofFields i.toFields).ino = i.ino :=
  Uuid.splice_prefix_postfix i.core.iIno

theorem core_ofFields_toFields (i : Inode) : (ofFields i.toFields).core = i.core := by
  unfold ofFields toFields
  dsimp only
  rw [Uuid.splice_prefix_postfix]

/-- Whatever the kind of the inode. -/
theorem ofFields_toFields {i : Inode} (h : i.Sendable) : ofFields i.toFields = i := by
  have hcore : (ofFields i.toFields).core = i.core := by
    unfold ofFields toFields
    dsimp only
    rw [Uuid.splice_prefix_postfix]
  have hname : (ofFields i.toFields).linkTargetName = i.linkTargetName := by
    unfold ofFields toFields
    dsimp only
    unfold Sendable at h
    by_cases hl : isLnk i.core.iMode = true
    · rw [if_pos hl] at h
      obtain ⟨target, htarget, hzero⟩ := h
      rw [if_pos hl, if_pos hl, htarget, Option.getD_some]
      congr 1
      apply List.takeWhile_eq_self_iff.mpr
      intro b hb
      exact decide_eq_true fun hz => hzero (hz ▸ hb)
    · rw [if_neg hl] at h
      rw [if_neg hl, h]
  cases i
  exact congrArg₂ Inode.mk hcore hname

end Inode

end Nmfs
