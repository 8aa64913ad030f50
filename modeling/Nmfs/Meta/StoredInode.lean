import Nmfs.Meta.Inode
import Nmfs.Rados.StoredFile

/-
  An INODE object that begins with an inode's record, and what is pulled from it. A shorter record
  that is written over a longer one leaves the end of the longer one.
-/

namespace Nmfs

open Lib RadosIo

namespace Inode

/-- The object begins with the record of `i`. -/
def Spells (object : Bytes) (i : Inode) : Prop := ∃ post, object = i.serialize ++ post

theorem serialize_copy (i : Inode) : i.copy.serialize = i.serialize := by
  unfold serialize copy
  dsimp only
  split <;> rfl

theorem spells_overwrite (object : Bytes) (i : Inode) :
    Spells (overwrite 0 object 0 i.serialize) i :=
  ⟨object.drop i.serialize.length, by simp [overwrite]⟩

/-- What the constructor makes of an inode. -/
def pulled (i : Inode) : Inode := ⟨i.core, if isLnk i.core.iMode then some i.target else none⟩

theorem pulled_target {i : Inode} : i.pulled.target = i.target := by
  unfold target pulled
  dsimp only
  by_cases hl : isLnk i.core.iMode = true
  · rw [if_pos hl, if_pos hl, if_pos hl]
    unfold target
    rw [if_pos hl]
    rfl
  · rw [if_neg hl, if_neg hl]

theorem resize_full {xs : Bytes} {n : Nat} (h : xs.length = n) : resize 0 xs n = xs := by
  unfold resize
  rw [h, List.take_of_length_le (Nat.le_of_eq h)]
  simp

/-- The record of a link ends with its target. -/
theorem serialize_link {i : Inode} (hl : isLnk i.core.iMode = true)
    (hname : (i.linkTargetName.getD []).length = i.core.linkTargetLen.toNat) :
    i.serialize = i.core.bytes ++ i.linkTargetName.getD [] := by
  unfold serialize
  by_cases hlen : 0 < i.core.linkTargetLen
  · rw [if_pos ⟨hl, hlen⟩, resize_full hname]
  · rw [if_neg fun hc => hlen hc.2]
    have hzero : i.core.linkTargetLen.toNat = 0 := by
      rw [UInt32.lt_iff_toNat_lt] at hlen
      simpa using hlen
    rw [hzero] at hname ⊢
    rw [List.eq_nil_of_length_eq_zero hname]
    rfl

theorem pulled_wellFormed {i : Inode} (hw : i.WellFormed) : i.pulled.WellFormed := by
  unfold WellFormed pulled target at *
  dsimp only
  by_cases hl : isLnk i.core.iMode = true
  · rw [if_pos hl] at hw ⊢
    rw [if_pos hl, if_pos hl]
    exact hw
  · rw [if_neg hl] at hw ⊢
    exact hw

theorem serialize_pulled {i : Inode} (hw : i.WellFormed) : i.pulled.serialize = i.serialize := by
  have hp := pulled_wellFormed hw
  by_cases hl : isLnk i.core.iMode = true
  · unfold WellFormed at hw hp
    rw [if_pos hl] at hw
    rw [show isLnk i.pulled.core.iMode = true from hl] at hp
    rw [serialize_link hl hw, serialize_link (i := i.pulled) hl hp]
    unfold pulled target
    dsimp only
    rw [if_pos hl, if_pos hl]
    rfl
  · unfold serialize pulled
    dsimp only
    rw [if_neg fun hc => hl hc.1, if_neg fun hc => hl hc.1]

/-- The first bytes of the record are the core. -/
theorem read_core {pool : Pool} {i : Inode} {object : Bytes}
    (hobject : Holds pool .inode i.ino.toStr object) (h : Spells object i) :
    RadosIo.read pool .inode i.ino.toStr REG_INODE_SIZE 0 = .done i.core.bytes REG_INODE_SIZE := by
  obtain ⟨post, rfl⟩ := h
  have hlen := serialize_length i
  have hfront : slice (i.serialize ++ post) 0 REG_INODE_SIZE = i.core.bytes := by
    unfold serialize
    rw [List.append_assoc]
    exact slice_head _ _ _ (Core.bytes_length i.core)
  rw [read_within hobject (by rw [List.length_append]; omega), hfront]

theorem ofBytes_core (i : Inode) : Core.ofBytes (resize 0 i.core.bytes REG_INODE_SIZE) = i.core := by
  rw [resize_full (Core.bytes_length i.core)]
  have := Core.ofBytes_append i.core []
  rwa [List.append_nil] at this

/-- Behind it is the target of a link. -/
theorem read_link {pool : Pool} {i : Inode} {object : Bytes}
    (hobject : Holds pool .inode i.ino.toStr object) (h : Spells object i) (hw : i.WellFormed)
    (hl : isLnk i.core.iMode = true) :
    RadosIo.read pool .inode i.ino.toStr i.core.linkTargetLen.toNat REG_INODE_SIZE =
        .done i.target i.core.linkTargetLen.toNat ∧
      resize 0 i.target i.core.linkTargetLen.toNat = i.target := by
  obtain ⟨post, rfl⟩ := h
  have hlen := serialize_length i
  have hcore := Core.bytes_length i.core
  have hname : (i.linkTargetName.getD []).length = i.core.linkTargetLen.toNat := by
    unfold WellFormed at hw
    rwa [if_pos hl] at hw
  have htarget : slice (i.serialize ++ post) REG_INODE_SIZE i.core.linkTargetLen.toNat =
      i.linkTargetName.getD [] := by
    rw [serialize_link hl hname, ← hcore, ← hname]
    exact slice_mid _ _ _
  unfold target
  rw [if_pos hl]
  refine ⟨?_, resize_full hname⟩
  rw [read_within hobject (by rw [List.length_append]; omega), htarget]

/-- An inode reads back from an object that begins with its record. -/
theorem pull_of_spells {pool : Pool} {i : Inode} {object : Bytes}
    (hobject : Holds pool .inode i.ino.toStr object) (h : Spells object i)
    (hw : i.WellFormed) : pull pool i.ino = .ok i.pulled := by
  unfold pull
  rw [read_core hobject h]
  dsimp only
  unfold deserialize
  dsimp only
  rw [ofBytes_core]
  unfold pulled
  by_cases hl : isLnk i.core.iMode = true
  · rw [if_pos hl, if_pos hl]
    obtain ⟨hread, htarget⟩ := read_link hobject h hw hl
    rw [show i.core.iIno = i.ino from rfl, hread]
    dsimp only
    rw [htarget]
  · rw [if_neg hl, if_neg hl]

end Inode

end Nmfs
