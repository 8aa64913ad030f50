import Nmfs.Fs.Checkpointers

/-
  How a new leader builds its table, one call of `rados_io` at a time: the constructor of
  `dentry_table` pulls the directory's own inode, and `pull_child_metadata` loads the children and
  pulls the inode of each. Between two calls others may write.
-/

namespace Nmfs

open Lib RadosIo Checkpointers

namespace Pulling

/-- The constructor that pulls an inode. -/
def pullInode (ino : Uuid) : Prog Inode := do
  match ← read .inode ino.toStr Inode.REG_INODE_SIZE 0 with
  | .noSuchObject _ _ => .done (.error .noEntry)
  | .done bytes _ =>
    let core := Inode.Core.ofBytes (resize 0 bytes Inode.REG_INODE_SIZE)
    if Inode.isLnk core.iMode then
      let len := core.linkTargetLen.toNat
      match ← read .inode core.iIno.toStr len Inode.REG_INODE_SIZE with
      | .noSuchObject _ _ => .done (.error .noEntry)
      | .done bytes _ => pure ⟨core, some (resize 0 bytes len)⟩
    else pure ⟨core, none⟩

/-- The loop of `pull_child_metadata`. -/
def pullChildren (dirIno : Uuid) : List ((_ : Bytes) × Uuid) →
    AList (fun _ : Bytes => MemInode) → Prog (AList (fun _ : Bytes => MemInode))
  | [], childInodes => pure childInodes
  | e :: entries, childInodes => do
    let child ← pullInode e.2
    pullChildren dirIno entries (DentryTable.addChildInode childInodes e.1 ⟨child, dirIno⟩)

/-- What `lease_dentry_table` does once it has the lease. -/
def pullTable (dirIno : Uuid) : Prog DentryTable := do
  let thisDirInode ← pullInode dirIno
  let dentries ← loadDentry dirIno false
  let childInodes ← pullChildren dirIno dentries.childList.entries ∅
  pure ⟨dirIno, thisDirInode, dentries, childInodes⟩

/-! ## With nobody else at the pool -/

section

variable {pool : Pool}

theorem run_pullInode (ino : Uuid) :
    (pullInode ino).run MetaCall.exec pool = (Inode.pull pool ino, pool) := by
  unfold pullInode Inode.pull
  refine (Prog.run_bind_ok (Prog.run_make _)).trans ?_
  dsimp only [MetaCall.exec]
  cases RadosIo.read pool .inode ino.toStr Inode.REG_INODE_SIZE 0 with
  | noSuchObject v n => rfl
  | done bytes n =>
      unfold Inode.deserialize
      dsimp only
      generalize Inode.Core.ofBytes (resize 0 bytes Inode.REG_INODE_SIZE) = core
      by_cases hl : Inode.isLnk core.iMode = true
      · rw [if_pos hl, if_pos hl]
        refine (Prog.run_bind_ok (Prog.run_make _)).trans ?_
        dsimp only [MetaCall.exec]
        cases RadosIo.read pool .inode core.iIno.toStr core.linkTargetLen.toNat
            Inode.REG_INODE_SIZE <;> rfl
      · rw [if_neg hl, if_neg hl]
        rfl

theorem run_pullChildren (dirIno : Uuid) (entries : List ((_ : Bytes) × Uuid))
    (childInodes : AList (fun _ : Bytes => MemInode)) :
    (pullChildren dirIno entries childInodes).run MetaCall.exec pool =
      (DentryTable.pullChildren pool dirIno entries childInodes, pool) := by
  induction entries generalizing childInodes with
  | nil => rfl
  | cons e entries ih =>
      unfold pullChildren DentryTable.pullChildren
      rw [Prog.run_bind, run_pullInode]
      cases Inode.pull pool e.2 with
      | error err => rfl
      | ok child => exact ih _

/-- It is `DentryTable.pull`. -/
theorem run_pullTable (dirIno : Uuid) :
    (pullTable dirIno).run MetaCall.exec pool = (DentryTable.pull pool dirIno, pool) := by
  unfold pullTable DentryTable.pull
  rw [Prog.run_bind, run_pullInode]
  cases Inode.pull pool dirIno with
  | error e => rfl
  | ok self =>
      dsimp only
      rw [Prog.run_bind, run_loadDentry]
      show _ = (Dentry.load pool dirIno false >>= _, pool)
      cases Dentry.load pool dirIno false with
      | error e => rfl
      | ok dentries =>
          dsimp only
          rw [Prog.run_bind, run_pullChildren]
          show _ = (DentryTable.pullChildren pool dirIno dentries.childList.entries ∅ >>= _, pool)
          cases DentryTable.pullChildren pool dirIno dentries.childList.entries ∅ <;> rfl

end

/-! ## With others at the pool -/

section

variable {R : (c : MetaCall) → c.Reply → Prop}

/-- Every reply about the INODE object comes from one that spells the inode. -/
theorem pullInode_ends {i : Inode} (hw : i.WellFormed)
    (h : ∀ (c : MetaCall) r, c.file = (.inode, i.ino.toStr) → R c r → ∃ pool object,
      Holds pool .inode i.ino.toStr object ∧ Inode.Spells object i ∧ r = (c.exec pool).1) :
    (pullInode i.ino).Ends R fun result => result = .ok i.pulled := by
  unfold pullInode
  refine Prog.Ends.bind (Prog.Ends.make fun r hr => ⟨r, rfl, hr⟩) fun r hr => ?_
  obtain ⟨pool, object, hobject, hspells, rfl⟩ := h (.read _ _ _ _) r rfl hr
  dsimp only [MetaCall.exec]
  rw [Inode.read_core hobject hspells]
  dsimp only
  rw [Inode.ofBytes_core]
  by_cases hl : Inode.isLnk i.core.iMode = true
  · rw [if_pos hl]
    refine Prog.Ends.bind (Prog.Ends.make fun r hr => ⟨r, rfl, hr⟩) fun r hr => ?_
    obtain ⟨pool', object', hobject', hspells', rfl⟩ := h (.read _ _ _ _) r rfl hr
    obtain ⟨hread, htarget⟩ := Inode.read_link hobject' hspells' hw hl
    dsimp only [MetaCall.exec]
    rw [hread]
    dsimp only
    rw [htarget]
    show Except.ok _ = Except.ok _
    unfold Inode.pulled
    rw [if_pos hl]
  · rw [if_neg hl]
    show Except.ok _ = Except.ok _
    unfold Inode.pulled
    rw [if_neg hl]

/-- A directory's inode is pulled whatever else is in it. -/
theorem pullInode_ends_directory {u : Uuid}
    (h : ∀ r, R (.read .inode u.toStr Inode.REG_INODE_SIZE 0) r → ∃ pool i,
      r = RadosIo.read pool .inode u.toStr Inode.REG_INODE_SIZE 0 ∧
        Inode.pull pool u = .ok i ∧ Inode.isDir i.core.iMode = true) :
    (pullInode u).Ends R fun result => ∃ i, result = .ok i := by
  unfold pullInode
  refine Prog.Ends.bind (Prog.Ends.make fun r hr => ⟨r, rfl, hr⟩) fun r hr => ?_
  obtain ⟨pool, i, rfl, hpull, hdir⟩ := h r hr
  unfold Inode.pull at hpull
  revert hpull
  cases RadosIo.read pool .inode u.toStr Inode.REG_INODE_SIZE 0 with
  | noSuchObject v n => exact fun hpull => (nomatch hpull)
  | done bytes n =>
      intro hpull
      unfold Inode.deserialize at hpull
      dsimp only at hpull ⊢
      generalize Inode.Core.ofBytes (resize 0 bytes Inode.REG_INODE_SIZE) = core at hpull ⊢
      by_cases hl : Inode.isLnk core.iMode = true
      · -- a link is no directory
        rw [if_pos hl] at hpull
        revert hpull
        cases RadosIo.read pool .inode core.iIno.toStr core.linkTargetLen.toNat
            Inode.REG_INODE_SIZE with
        | noSuchObject v n => exact fun hpull => (nomatch hpull)
        | done target n =>
            intro hpull
            cases hpull
            have hlnk := of_decide_eq_true hl
            rw [of_decide_eq_true hdir] at hlnk
            exact absurd hlnk (by decide)
      · rw [if_neg hl]
        exact ⟨_, rfl⟩

/-- What is asked of the children is asked of each as it is pulled. -/
theorem pullChildren_ends {dirIno : Uuid} {entries : List ((_ : Bytes) × Uuid)}
    {childInodes : AList (fun _ : Bytes => MemInode)} {asked : Bytes → Inode → Prop}
    (hnodup : (entries.map Sigma.fst).Nodup)
    (hnew : ∀ e ∈ entries, childInodes.lookup e.1 = none)
    (h : ∀ e ∈ entries, (pullInode e.2).Ends R fun result =>
      ∃ i, result = .ok i ∧ asked e.1 i) :
    (pullChildren dirIno entries childInodes).Ends R fun result =>
      ∃ childInodes', result = .ok childInodes' ∧ ∀ name,
        match entries.dlookup name with
        | none => childInodes'.lookup name = childInodes.lookup name
        | some _ => ∃ i, asked name i ∧ childInodes'.lookup name = some ⟨i, dirIno⟩ := by
  induction entries generalizing childInodes with
  | nil => exact ⟨childInodes, rfl, fun _ => rfl⟩
  | cons e entries ih =>
      obtain ⟨name', u⟩ := e
      rw [List.map_cons, List.nodup_cons] at hnodup
      refine Prog.Ends.bind (h ⟨name', u⟩ List.mem_cons_self) fun i hi => ?_
      have hadd : DentryTable.addChildInode childInodes name' ⟨i, dirIno⟩ =
          childInodes.insert name' ⟨i, dirIno⟩ := by
        unfold DentryTable.addChildInode
        rw [hnew ⟨name', u⟩ List.mem_cons_self]
      have hnew' : ∀ e ∈ entries, (childInodes.insert name' ⟨i, dirIno⟩).lookup e.1 = none := by
        intro e he
        rw [AList.lookup_insert_ne]
        · exact hnew e (List.mem_cons_of_mem _ he)
        · intro heq
          have hmem : e.1 ∈ entries.map Sigma.fst := List.mem_map_of_mem he
          exact hnodup.1 (heq ▸ hmem)
      have hrest := ih hnodup.2 hnew' fun e he => h e (List.mem_cons_of_mem _ he)
      dsimp only
      rw [hadd]
      refine hrest.mono ?_
      rintro result ⟨childInodes', rfl, hall⟩
      refine ⟨childInodes', rfl, fun name => ?_⟩
      have hname := hall name
      by_cases hn : name = name'
      · subst hn
        have hnone : entries.dlookup name = none := by
          rw [List.dlookup_eq_none]
          exact hnodup.1
        rw [hnone] at hname
        rw [List.dlookup_cons_eq]
        exact ⟨i, hi, hname.trans (AList.lookup_insert _)⟩
      · rw [List.dlookup_cons_ne _ _ hn]
        revert hname
        cases entries.dlookup name with
        | none => exact fun hname => hname.trans (AList.lookup_insert_ne hn)
        | some v => exact fun hname => hname

end

end Pulling

end Nmfs
