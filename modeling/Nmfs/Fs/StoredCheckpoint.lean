import Nmfs.Fs.Checkpointers

/-
  A checkpoint of one directory, call by call, on what is stored of it: in the end it is
  `Stored.sync`. An INODE object that it does not write may change in the meantime.
-/

namespace Nmfs

open Lib RadosIo

namespace Checkpointers

/-! ## One call -/

/-- What a call makes of a stored directory. -/
def execStored : (c : MetaCall) → Stored → c.Reply × Stored
  | .read _ _ len _, m => (headOf m.dentry len, m)
  | .write .inode key value offset, m =>
    ((), { m with inodes := fun u =>
      if u.toStr = key then overwrite 0 (m.inodes u) offset value else m.inodes u })
  | .write .dentry _ value offset, m =>
    ((), { m with dentry := some (overwrite 0 (m.dentry.getD []) offset value) })
  | .write _ _ _ _, m => ((), m)
  | .remove .inode key, m =>
    ((), { m with inodes := fun u => if u.toStr = key then [] else m.inodes u })
  | .remove .dentry _, m => ((), { m with dentry := none })
  | .remove _ _, m => ((), m)

/-- It reads nothing but the DENTRY object of the directory, and touches no other one. -/
def OfDirectory (dir : Uuid) (c : MetaCall) : Prop :=
  c.Plain ∧ (c.file.1 = .dentry → c.file.2 = dir.toStr) ∧
    ∀ category key len offset, c = .read category key len offset → category = .dentry

section

variable {dir u : Uuid} {m m' : Stored} {pool : Pool} {tx : Transaction}

theorem exec_stored (c : MetaCall) (pool : Pool) (m : Stored) (hc : OfDirectory dir c)
    (h : Stores pool dir m) :
    (c.exec pool).1 = (execStored c m).1 ∧ Stores (c.exec pool).2 dir (execStored c m).2 := by
  obtain ⟨hplain, hdentry, hread⟩ := hc
  cases c with
  | read category key len offset =>
      obtain rfl := hread _ _ _ _ rfl
      obtain rfl := hdentry rfl
      obtain ⟨rfl, hlen, hmax⟩ := hplain
      exact ⟨h.dentry.read hlen hmax, h⟩
  | write category key value offset =>
      refine ⟨by cases category <;> rfl, ?_⟩
      have hframe : Frame category key pool (RadosIo.write pool category key value offset).2 :=
        frame_write_file value offset
      cases category with
      | inode =>
          refine ⟨hframe.storedAs (fun heq => nomatch (Prod.mk.inj heq).1) h.dentry, fun v => ?_⟩
          show Holds _ _ _ (if v.toStr = key then _ else _)
          split
          · subst key
            exact (write_holds (h.inodes v) _ _).2
          · rename_i hne
            exact hframe.holds (fun heq => hne (Prod.mk.inj heq).2) (h.inodes v)
      | dentry =>
          obtain rfl := hdentry rfl
          refine ⟨h.dentry.write hplain offset, fun v => ?_⟩
          exact hframe.holds (fun heq => nomatch (Prod.mk.inj heq).1) (h.inodes v)
      | _ =>
          refine ⟨hframe.storedAs (fun heq => nomatch (Prod.mk.inj heq).1) h.dentry, fun v => ?_⟩
          exact hframe.holds (fun heq => nomatch (Prod.mk.inj heq).1) (h.inodes v)
  | remove category key =>
      refine ⟨by cases category <;> rfl, ?_⟩
      have hframe : Frame category key pool (RadosIo.remove pool category key) := frame_remove
      cases category with
      | inode =>
          refine ⟨hframe.storedAs (fun heq => nomatch (Prod.mk.inj heq).1) h.dentry, fun v => ?_⟩
          show Holds _ _ _ (if v.toStr = key then _ else _)
          split
          · subst key
            exact remove_holds (h.inodes v)
          · rename_i hne
            exact hframe.holds (fun heq => hne (Prod.mk.inj heq).2) (h.inodes v)
      | dentry =>
          obtain rfl := hdentry rfl
          refine ⟨h.dentry.remove, fun v => ?_⟩
          exact hframe.holds (fun heq => nomatch (Prod.mk.inj heq).1) (h.inodes v)
      | _ =>
          refine ⟨hframe.storedAs (fun heq => nomatch (Prod.mk.inj heq).1) h.dentry, fun v => ?_⟩
          exact hframe.holds (fun heq => nomatch (Prod.mk.inj heq).1) (h.inodes v)

/-! ## Another INODE object -/

/-- Nothing differs but one INODE object. -/
structure SameBut (u : Uuid) (m m' : Stored) : Prop where
  dentry : m'.dentry = m.dentry
  inodes : ∀ v, v ≠ u → m'.inodes v = m.inodes v

theorem SameBut.load {u : Uuid} (h : SameBut u m m') (dir : Uuid) (mkdir : Bool) :
    m'.load dir mkdir = m.load dir mkdir := by
  unfold Stored.load
  rw [h.dentry]

theorem SameBut.write {u : Uuid} (h : SameBut u m m') (i : Inode) :
    SameBut u (m.write i) (m'.write i) := by
  refine ⟨h.dentry, ?_⟩
  intro v hv
  show Function.update m'.inodes i.ino _ v = Function.update m.inodes i.ino _ v
  by_cases hi : v = i.ino
  · subst hi
    rw [Function.update_self, Function.update_self, h.inodes _ hv]
  · rw [Function.update_of_ne hi, Function.update_of_ne hi]
    exact h.inodes v hv

theorem SameBut.writeFiles {u : Uuid} (h : SameBut u m m')
    (entries : List ((_ : Uuid) × Option Inode)) :
    SameBut u (m.writeFiles entries) (m'.writeFiles entries) := by
  induction entries generalizing m m' with
  | nil => exact h
  | cons e entries ih =>
      obtain ⟨v, x⟩ := e
      cases x with
      | none => exact ih h
      | some i => exact ih (h.write i)

theorem SameBut.sync {u : Uuid} (h : SameBut u m m') {tx : Transaction} {m₁ : Stored}
    (hs : m.sync tx = .ok m₁) : ∃ m₁', m'.sync tx = .ok m₁' ∧ SameBut u m₁ m₁' := by
  unfold Stored.sync at hs ⊢
  split at hs
  · rename_i hd
    rw [if_pos hd]
    cases hs
    refine ⟨_, rfl, rfl, ?_⟩
    intro v hv
    show Function.update m'.inodes tx.sIno [] v = Function.update m.inodes tx.sIno [] v
    by_cases hi : v = tx.sIno
    · rw [hi, Function.update_self, Function.update_self]
    · rw [Function.update_of_ne hi, Function.update_of_ne hi]
      exact h.inodes v hv
  · rename_i hd
    rw [if_neg hd]
    have hself : SameBut u ((tx.sInode.map m.write).getD m) ((tx.sInode.map m'.write).getD m') := by
      cases tx.sInode with
      | none => exact h
      | some i => exact h.write i
    dsimp only at hs ⊢
    rw [hself.load]
    split at hs
    · cases hs
    · rename_i d' _
      cases hs
      have hdentry : SameBut u
          (((tx.sInode.map m.write).getD m).writeDentry
            (Transaction.applyDentries tx.dentries.entries d'))
          (((tx.sInode.map m'.write).getD m').writeDentry
            (Transaction.applyDentries tx.dentries.entries d')) := by
        refine ⟨?_, hself.inodes⟩
        unfold Stored.writeDentry
        rw [hself.dentry]
      exact ⟨_, rfl, hdentry.writeFiles _⟩

theorem exec_sameBut (c : MetaCall) (m m' : Stored) (h : SameBut u m m') :
    (execStored c m).1 = (execStored c m').1 ∧ SameBut u (execStored c m).2 (execStored c m').2 := by
  have hd := h.dentry
  cases c with
  | read category key len offset => exact ⟨congrArg (headOf · len) hd.symm, h⟩
  | write category key value offset =>
      refine ⟨by cases category <;> rfl, ?_⟩
      cases category with
      | inode =>
          refine ⟨hd, fun v hv => ?_⟩
          unfold execStored
          dsimp only
          rw [h.inodes v hv]
      | dentry =>
          refine ⟨?_, h.inodes⟩
          unfold execStored
          dsimp only
          rw [hd]
      | _ => exact h
  | remove category key =>
      refine ⟨by cases category <;> rfl, ?_⟩
      cases category with
      | inode =>
          refine ⟨hd, fun v hv => ?_⟩
          unfold execStored
          dsimp only
          rw [h.inodes v hv]
      | dentry => exact ⟨rfl, h.inodes⟩
      | _ => exact h

/-! ## A checkpoint -/

theorem ofDirectory_checkpoint (tx : Transaction) :
    (Checkpointers.checkpoint tx).Calls (OfDirectory tx.sIno) := by
  refine calls_checkpoint_of (fun i _ => ?_) ?_ (fun d hd => ?_) (fun _ => ?_) ?_ ?_
  · exact ⟨serialize_ne_nil i, nofun, nofun⟩
  · exact ⟨⟨rfl, objSize_pos, Nat.le_refl _⟩, fun _ => rfl, fun _ _ _ _ heq => by cases heq; rfl⟩
  · exact ⟨dentry_serialize_ne_nil d, fun _ => congrArg Uuid.toStr hd, nofun⟩
  · exact ⟨trivial, nofun, nofun⟩
  · exact ⟨trivial, fun _ => rfl, nofun⟩
  · exact ⟨List.cons_ne_nil _ _, nofun, nofun⟩

/-- The write of one inode is `Stored.write`. -/
theorem exec_inode (i : Inode) (m : Stored) :
    (execStored (.write .inode i.ino.toStr i.serialize 0) m).2 = m.write i := by
  show Stored.mk m.dentry _ = Stored.mk m.dentry _
  congr 1
  funext v
  by_cases hv : v = i.ino
  · subst hv
    rw [if_pos rfl, Function.update_self]
  · rw [if_neg fun heq => hv (Uuid.toStr_inj heq), Function.update_of_ne hv]

theorem run_syncSelf_stored (self : Option Inode) (m : Stored) :
    (syncSelf self).run execStored m = (.ok (), (self.map m.write).getD m) := by
  cases self with
  | none => rfl
  | some i => exact congrArg (Prod.mk _) (exec_inode i m)

theorem run_syncFInodes_stored (entries : List ((_ : Uuid) × Option Inode)) (m : Stored) :
    (syncFInodes entries).run execStored m = (.ok (), m.writeFiles entries) := by
  induction entries generalizing m with
  | nil => rfl
  | cons e entries ih =>
      obtain ⟨v, x⟩ := e
      cases x with
      | none => exact ih m
      | some i =>
          have hwrite : (syncInode i).run execStored m = (.ok (), m.write i) :=
            congrArg (Prod.mk _) (exec_inode i m)
          exact (Prog.run_bind_ok hwrite).trans (ih _)

theorem run_loadDentry_stored (ino : Uuid) (mkdir : Bool) (m : Stored) :
    (loadDentry ino mkdir).run execStored m = (m.load ino mkdir, m) := by
  cases mkdir with
  | true => rfl
  | false =>
      unfold loadDentry Stored.load
      rw [if_neg Bool.false_ne_true, if_neg Bool.false_ne_true]
      refine (Prog.run_bind_ok (Prog.run_make _)).trans ?_
      dsimp only [execStored]
      cases m.dentry <;> rfl

/-- What a checkpoint makes of a stored directory is `Stored.sync`. -/
theorem run_checkpoint_stored (hs : m.sync tx = .ok m') :
    (Checkpointers.checkpoint tx).run execStored m = (.ok (), m') := by
  have hsync : (Checkpointers.sync tx).run execStored m = (.ok (), m') := by
    unfold Checkpointers.sync
    unfold Stored.sync at hs
    by_cases hdeleted : tx.status = .S_DELETED
    · rw [if_pos hdeleted] at hs ⊢
      cases hs
      refine congrArg (Prod.mk _) ?_
      show Stored.mk none _ = Stored.mk none _
      congr 1
      funext v
      by_cases hv : v = tx.sIno
      · subst hv
        rw [Function.update_self]
        exact if_pos rfl
      · rw [Function.update_of_ne hv]
        exact if_neg fun heq => hv (Uuid.toStr_inj heq)
    · rw [if_neg hdeleted] at hs ⊢
      rw [Prog.run_bind_ok (run_syncSelf_stored tx.sInode m), Prog.run_bind, run_loadDentry_stored]
      dsimp only at hs ⊢
      split at hs
      · cases hs
      · rename_i d hload
        cases hs
        rw [hload]
        refine (Prog.run_bind_ok (Prog.run_make _)).trans ?_
        exact run_syncFInodes_stored _ _
  exact (Prog.run_bind_ok hsync).trans rfl

end

end Checkpointers

end Nmfs
