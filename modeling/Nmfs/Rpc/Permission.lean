import Nmfs.Rpc.InodeRequests

/-
  Permissions that are asked for at the leader. The requests carry a mask and no ids, and
  `permission_check` goes by the ids of the client it runs at, so the answer is the one the leader
  itself would get. `rpc_mkdir` is sent the ids of the requester.
-/

namespace Nmfs

open Lib

/-- Whom the permissions of an inode are for. -/
inductive AccessClass where
  | owner
  | group
  | others
  deriving DecidableEq, Repr

namespace Inode

def accessClass (i : Inode) (client : Ids) : AccessClass :=
  if client.uid = i.core.iUid then .owner
  else if client.gid = i.core.iGid then .group
  else .others

/-- The three bits of a class. -/
def bits (i : Inode) : AccessClass → UInt32
  | .owner => (i.core.iMode &&& S_IRWXU) >>> 6
  | .group => (i.core.iMode &&& S_IRWXG) >>> 3
  | .others => i.core.iMode &&& S_IRWXO

end Inode

namespace Permission

open Inode

def permissions : List UInt32 := [R_OK, W_OK, X_OK]

/-- Every permission of the mask is among the bits. -/
def Grants (bits mask : UInt32) : Prop := ∀ p ∈ permissions, mask &&& p ≠ 0 → bits &&& p ≠ 0

instance (bits mask : UInt32) : Decidable (Grants bits mask) :=
  inferInstanceAs (Decidable (∀ p ∈ permissions, mask &&& p ≠ 0 → bits &&& p ≠ 0))

def SameBits (bits bits' : UInt32) : Prop := ∀ p ∈ permissions, bits &&& p ≠ 0 ↔ bits' &&& p ≠ 0

/-- The remote inode stands for this inode of the leader. -/
def HasTarget (i : RemoteTarget) (s : Led) (target : Inode) : Prop :=
  if i.targetIsParent then s.table.thisDirInode = target
  else ∃ c, s.table.child i.fileName = some c ∧ c.inode = target

/-- The answer to `access`, of what `permission_check` does. -/
def answer (check : Except Err Unit) : Except Err Int := check.map fun _ => 0

/-- Two leaders that have the inode answer alike, and as the inode itself would answer the
    requester. -/
structure FollowsRequester (requester leader leader' : Ids) (i : RemoteTarget) (s s' : Led)
    (target : Inode) (mask : UInt32) : Prop where
  access_alike : (RpcClient.access leader i mask s).1 = (RpcClient.access leader' i mask s').1
  access : (RpcClient.access leader i mask s).1 = answer (target.permissionCheck requester mask)
  traversal_alike : (RpcClient.permissionCheck leader i mask s).1 =
    (RpcClient.permissionCheck leader' i mask s').1
  traversal : (RpcClient.permissionCheck leader i mask s).1 =
    target.permissionCheck requester mask

/-- The client's class is granted the mask as the requester's class is. -/
def AgreesOn (target : Inode) (requester client : Ids) (mask : UInt32) : Prop :=
  Grants (target.bits (target.accessClass client)) mask ↔
    Grants (target.bits (target.accessClass requester)) mask

/-! ## The check -/

section

variable {target : Inode} {client client' leader : Ids} {mask : UInt32} {i : RemoteTarget} {s : Led}

theorem grants_iff {bits : UInt32} : Grants bits mask ↔ (mask &&& R_OK ≠ 0 → bits &&& R_OK ≠ 0) ∧
    (mask &&& W_OK ≠ 0 → bits &&& W_OK ≠ 0) ∧ (mask &&& X_OK ≠ 0 → bits &&& X_OK ≠ 0) := by
  unfold Grants permissions
  simp only [List.forall_mem_cons, List.not_mem_nil, IsEmpty.forall_iff, implies_true, and_true]

theorem permissionCheck_eq (target : Inode) (client : Ids) (mask : UInt32) :
    target.permissionCheck client mask =
      if Grants (target.bits (target.accessClass client)) mask then .ok ()
      else .error .permissionDenied := by
  have hbits : target.bits (target.accessClass client) =
      if client.uid = target.core.iUid then (target.core.iMode &&& S_IRWXU) >>> 6
      else if client.gid = target.core.iGid then (target.core.iMode &&& S_IRWXG) >>> 3
      else target.core.iMode &&& S_IRWXO := by
    unfold accessClass
    split
    · rfl
    · split <;> rfl
  unfold Inode.permissionCheck
  dsimp only
  rw [← hbits]
  exact if_congr grants_iff.symm rfl rfl

theorem mem_permissions {p : UInt32} : p ∈ permissions ↔ p = R_OK ∨ p = W_OK ∨ p = X_OK := by
  unfold permissions
  simp only [List.mem_cons, List.not_mem_nil, or_false]

/-- Two permissions have no bit in common. -/
theorem eq_of_common {p q : UInt32} (hp : p ∈ permissions) (hq : q ∈ permissions)
    (h : p &&& q ≠ 0) : q = p := by
  rcases mem_permissions.mp hp with rfl | rfl | rfl <;>
    rcases mem_permissions.mp hq with rfl | rfl | rfl <;>
    first
    | rfl
    | exact absurd (by decide) h

/-- One permission at a time. -/
theorem grants_single {bits p : UInt32} (hp : p ∈ permissions) : Grants bits p ↔ bits &&& p ≠ 0 := by
  have hself : p &&& p ≠ 0 := by
    rcases mem_permissions.mp hp with rfl | rfl | rfl <;> decide
  constructor
  · exact fun h => h p hp hself
  · intro h q hq hpq
    rw [eq_of_common hp hq hpq]
    exact h

theorem sameBits_iff {bits bits' : UInt32} :
    SameBits bits bits' ↔ ∀ mask, Grants bits mask ↔ Grants bits' mask := by
  constructor
  · exact fun h mask => forall₂_congr fun p hp => imp_congr_right fun _ => h p hp
  · intro h p hp
    rw [← grants_single hp, ← grants_single hp]
    exact h p

theorem permissionCheck_eq_iff : target.permissionCheck client mask =
    target.permissionCheck client' mask ↔ AgreesOn target client' client mask := by
  unfold AgreesOn
  rw [permissionCheck_eq, permissionCheck_eq]
  by_cases h : Grants (target.bits (target.accessClass client)) mask <;>
    by_cases h' : Grants (target.bits (target.accessClass client')) mask <;> simp [h, h']

/-! ## The check at a leader -/

theorem targetInode_eq (h : HasTarget i s target) :
    RpcServer.targetInode i.targetIsParent i.fileName s = (.ok target, s) := by
  unfold HasTarget at h
  cases hi : i.targetIsParent with
  | true =>
      rw [hi, if_pos rfl] at h
      rw [RpcServer.targetInode_self, h]
  | false =>
      rw [hi] at h
      obtain ⟨c, hc, rfl⟩ := h
      exact RpcServer.targetInode_child hc

/-- What the requester gets is what the leader would get. -/
theorem access_eq (h : HasTarget i s target) : RpcClient.access leader i mask s =
    (answer (target.permissionCheck leader mask), s) := by
  have htarget := targetInode_eq h
  unfold answer
  rw [permissionCheck_eq]
  by_cases hg : Grants (target.bits (target.accessClass leader)) mask
  · have hhandler : RpcServer.accessHandler leader
        { filename := i.fileName, mask, targetIsParent := i.targetIsParent } s = (.ok 0, s) := by
      unfold RpcServer.accessHandler
      rw [Op.bind_ok htarget, permissionCheck_eq, if_pos hg]
      rfl
    unfold RpcClient.access
    rw [Op.bind_ok (RpcClient.call_ok hhandler), if_pos hg]
    rfl
  · have hhandler : RpcServer.accessHandler leader
        { filename := i.fileName, mask, targetIsParent := i.targetIsParent } s =
        (.ok (-EACCES), s) := by
      unfold RpcServer.accessHandler
      rw [Op.bind_ok htarget, permissionCheck_eq, if_neg hg]
      rfl
    unfold RpcClient.access
    rw [Op.bind_ok (RpcClient.call_ok hhandler), if_neg hg]
    rfl

theorem traversal_eq (h : HasTarget i s target) : RpcClient.permissionCheck leader i mask s =
    (target.permissionCheck leader mask, s) := by
  have htarget := targetInode_eq h
  rw [permissionCheck_eq]
  by_cases hg : Grants (target.bits (target.accessClass leader)) mask
  · have hhandler : RpcServer.permissionCheckHandler leader
        { filename := i.fileName, mask, targetIsParent := i.targetIsParent } s = (.ok 0, s) := by
      unfold RpcServer.permissionCheckHandler
      rw [Op.bind_ok htarget, permissionCheck_eq, if_pos hg]
      rfl
    unfold RpcClient.permissionCheck
    rw [Op.bind_ok (RpcClient.call_ok hhandler), if_pos hg]
    rfl
  · have hhandler : RpcServer.permissionCheckHandler leader
        { filename := i.fileName, mask, targetIsParent := i.targetIsParent } s =
        (.ok (-EACCES), s) := by
      unfold RpcServer.permissionCheckHandler
      rw [Op.bind_ok htarget, permissionCheck_eq, if_neg hg]
      rfl
    unfold RpcClient.permissionCheck
    rw [Op.bind_ok (RpcClient.call_ok hhandler), if_neg hg]
    rfl

end

/-! ## Two leaders -/

theorem followsRequester_iff {requester leader leader' : Ids} {i : RemoteTarget} {s s' : Led}
    {target : Inode} (hs : HasTarget i s target) (hs' : HasTarget i s' target) (mask : UInt32) :
    FollowsRequester requester leader leader' i s s' target mask ↔
      AgreesOn target requester leader mask ∧ AgreesOn target requester leader' mask := by
  rw [← permissionCheck_eq_iff, ← permissionCheck_eq_iff]
  constructor
  · intro h
    have htraversal := h.traversal
    have halike := h.traversal_alike
    rw [traversal_eq hs] at htraversal halike
    rw [traversal_eq hs'] at halike
    exact ⟨htraversal, halike.symm.trans htraversal⟩
  · rintro ⟨h, h'⟩
    constructor
    · rw [access_eq hs, access_eq hs', h, h']
    · rw [access_eq hs, h]
    · rw [traversal_eq hs, traversal_eq hs', h, h']
    · rw [traversal_eq hs, h]

/-- For a mask the answer follows the requester exactly if both leaders' classes are granted it as the
    requester's class is, and for every mask exactly if the three classes have the same bits. -/
theorem answers_follow_requester_iff (requester leader leader' : Ids) (i : RemoteTarget)
    (s s' : Led) (target : Inode) (hs : HasTarget i s target) (hs' : HasTarget i s' target) :
    (∀ mask, FollowsRequester requester leader leader' i s s' target mask ↔
      AgreesOn target requester leader mask ∧ AgreesOn target requester leader' mask) ∧
    ((∀ mask, FollowsRequester requester leader leader' i s s' target mask) ↔
      SameBits (target.bits (target.accessClass leader))
        (target.bits (target.accessClass requester)) ∧
      SameBits (target.bits (target.accessClass leader'))
        (target.bits (target.accessClass requester))) := by
  refine ⟨followsRequester_iff hs hs', ?_⟩
  rw [sameBits_iff, sameBits_iff, ← forall_and]
  exact forall_congr' (followsRequester_iff hs hs')

/-- A file of the user 0 that nobody else may read. -/
def secret : Inode := ⟨⟨0x8180, 0, 0, (Creation.envOf 1).newIno, 1, 0, ⟨0, 0⟩, ⟨0, 0⟩, ⟨0, 0⟩, 0⟩, none⟩

def secretDir : Led :=
  (Led.mk (.ofNew Creation.homeInode) ∅ ∅).created [97] ⟨secret, Creation.homeInode.ino⟩

def remoteSecret : RemoteTarget := ⟨⟨Creation.homeInode.ino, [97], secret.ino⟩, false⟩

theorem hasTarget_secret : HasTarget remoteSecret secretDir secret := ⟨_, rfl, rfl⟩

/-- Leaders that are nobody to the file, like the requester. -/
theorem answers_follow_requester_iff_nobody :
    FollowsRequester ⟨1000, 1000⟩ ⟨1001, 1001⟩ ⟨1002, 1002⟩ remoteSecret secretDir secretDir secret
      R_OK :=
  ((answers_follow_requester_iff ⟨1000, 1000⟩ ⟨1001, 1001⟩ ⟨1002, 1002⟩ remoteSecret secretDir
    secretDir secret hasTarget_secret hasTarget_secret).1 R_OK).mpr ⟨Iff.rfl, Iff.rfl⟩

/-- A leader that runs as the owner lets anybody read the file; one that does not lets nobody. -/
theorem leader_decides :
    (RpcClient.access ⟨0, 0⟩ remoteSecret R_OK secretDir).1 = .ok 0 ∧
    (RpcClient.access ⟨1000, 1000⟩ remoteSecret R_OK secretDir).1 = .error .permissionDenied ∧
    secret.permissionCheck ⟨1000, 1000⟩ R_OK = .error .permissionDenied ∧
    ¬ FollowsRequester ⟨1000, 1000⟩ ⟨0, 0⟩ ⟨1000, 1000⟩ remoteSecret secretDir secretDir secret
      R_OK := by
  have hdenied : secret.permissionCheck ⟨1000, 1000⟩ R_OK = .error .permissionDenied := by
    decide
  have hallowed : secret.permissionCheck ⟨0, 0⟩ R_OK = .ok () := by
    decide
  refine ⟨?_, ?_, hdenied, ?_⟩
  · rw [access_eq hasTarget_secret, hallowed]
    rfl
  · rw [access_eq hasTarget_secret, hdenied]
    rfl
  · intro h
    have htraversal := h.traversal
    rw [traversal_eq hasTarget_secret, hallowed, hdenied] at htraversal
    cases htraversal

end Permission

end Nmfs
