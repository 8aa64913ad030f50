import Nmfs.Fs.Entries

/-
  What mkdir, rmdir and rename do to the namespace. The paths are any byte strings and lead wherever
  `path_traversal` goes.
-/

namespace Nmfs

open Lib

namespace Cluster

variable {C : Type} [DecidableEq C]

/-- Every table is sound, with children in `P`, no pending transaction has been committed, and the
    entries are `f`. -/
structure Lists (P : Uuid → Prop) (f : Uuid → Bytes → Option Uuid) (s : Cluster C) : Prop where
  tables : ∀ dir led, s.led dir = some led → led.Within P dir
  jtables : ∀ c, (s.jtables c).Uncommitted
  entries : s.entries = f

variable {P : Uuid → Prop} {f : Uuid → Bytes → Option Uuid} {s : Cluster C} {dir : Uuid}
  {led : Led} {names : Bytes → Option Uuid}

omit [DecidableEq C] in
theorem Lists.of_led (h : s.Lists P f) (hl : s.led dir = some led) : led.Lists P dir (f dir) := by
  refine ⟨h.tables dir led hl, ?_⟩
  rw [← h.entries]
  exact (entries_of_led hl).symm

omit [DecidableEq C] in
theorem Lists.table (h : s.Lists P f) {table : DentryTable} (ht : s.tables dir = some table) :
    table.thisDirInode.ino = dir ∧ table.Sound ∧
      ∀ n c, table.child n = some c → P c.inode.ino := by
  have hw := h.tables dir ⟨table, s.jtables (s.leader dir), s.dataPool⟩
    (led_eq_some.mpr ⟨ht, rfl, rfl⟩)
  exact ⟨hw.self, hw.sound, hw.within⟩

omit [DecidableEq C] in
theorem Lists.intro (ht : ∀ dir table, s.tables dir = some table →
      table.thisDirInode.ino = dir ∧ table.Sound ∧ ∀ n c, table.child n = some c → P c.inode.ino)
    (hj : ∀ c, (s.jtables c).Uncommitted) (he : s.entries = f) : s.Lists P f where
  tables := by
    intro dir led hl
    obtain ⟨htable, hjtable, -⟩ := led_eq_some.mp hl
    obtain ⟨hself, hsound, hwithin⟩ := ht dir led.table htable
    refine ⟨hself, hsound, hwithin, ?_⟩
    rw [hjtable]
    exact hj _
  jtables := hj
  entries := he

/-- One table and one client's journal change. -/
theorem Lists.put (h : s.Lists P f) (hl : led.Lists P dir names) :
    (s.put dir led).Lists P (Function.update f dir names) := by
  apply Lists.intro
  · intro d table ht
    rcases update_eq_some ht with ⟨rfl, hu⟩ | ⟨-, hold⟩
    · cases hu
      exact ⟨hl.within.self, hl.within.sound, hl.within.within⟩
    · exact h.table hold
  · intro c
    show JournalTable.Uncommitted (Function.update s.jtables (s.leader dir) led.jtable c)
    by_cases hc : c = s.leader dir
    · rw [hc, Function.update_self]
      exact hl.within.uncommitted
    · rw [Function.update_of_ne hc]
      exact h.jtables c
  · rw [entries_put, hl.listed, h.entries]

omit [DecidableEq C] in
theorem Lists.mem (h : s.Lists P f) {name : Bytes} {ino : Uuid} (hi : f dir name = some ino) :
    P ino := by
  have he : s.entries dir name = some ino := by
    rw [h.entries]
    exact hi
  obtain ⟨table, ht, hname⟩ := Option.bind_eq_some_iff.mp he
  obtain ⟨-, hsound, hwithin⟩ := h.table ht
  rw [hsound] at hname
  obtain ⟨c, hc, rfl⟩ := Option.map_eq_some_iff.mp hname
  exact hwithin name c hc

/-- A call afterwards: its result and the entries. -/
def Leaves {α : Type} (P : Uuid → Prop)
    (Q : Except Err α → (Uuid → Bytes → Option Uuid) → Prop) (r : Except Err α)
    (s : Cluster C) : Prop :=
  ∃ f, s.Lists P f ∧ Q r f

end Cluster

namespace FuseOps

open DirectoryOps

variable {C α : Type} [DecidableEq C] {P : Uuid → Prop} {f : Uuid → Bytes → Option Uuid}
  {s : Cluster C} {me : C} {dir : Uuid} {name : Bytes} {y : Option Uuid}

theorem update_set (f : Uuid → Bytes → Option Uuid) :
    Function.update f dir (Function.update (f dir) name y) = Namespace.set f dir name y := by
  funext d k
  unfold Namespace.set
  by_cases hd : d = dir
  · subst hd
    rw [Function.update_self, Function.update_apply]
    exact if_congr (and_iff_right rfl).symm rfl rfl
  · rw [Function.update_of_ne hd, if_neg fun h => hd h.1]

/-! ## Rules -/

theorem onDir_leaves {m : Section α} {Q : Except Err α → (Bytes → Option Uuid) → Prop}
    (hm : Op.Ensures (Led.Lists P dir (f dir)) m (Sections.Leaves P dir Q))
    (hq : ∀ e, (∀ k, f dir k = none) → Q (.error e) (f dir)) :
    Op.Ensures (Cluster.Lists P f) (onDir dir m : ClientOp C α)
      fun r s => ∃ names, s.Lists P (Function.update f dir names) ∧ Q r names := by
  intro s h
  unfold onDir
  split
  · rename_i hl
    refine ⟨f dir, ?_, hq _ fun k => ?_⟩
    · rw [Function.update_eq_self]
      exact h
    · rw [← h.entries]
      unfold Cluster.entries
      rw [Option.map_eq_none_iff.mp hl]
      rfl
  · rename_i led hl
    obtain ⟨names, hn, hr⟩ := hm led (h.of_led hl)
    exact ⟨names, h.put hn, hr⟩

theorem whereLed_ensures {here there : ClientOp C α} {pre : Cluster C → Prop}
    {Q : Except Err α → Cluster C → Prop} (h : Op.Ensures pre here Q)
    (h' : Op.Ensures pre there Q) : Op.Ensures pre (whereLed me dir here there) Q := by
  intro s hs
  unfold whereLed
  split
  · exact h s hs
  · exact h' s hs

omit [DecidableEq C] in
theorem remotely_ensures {what : String} {m : ClientOp C α} {pre : Cluster C → Prop}
    {Q : Except Err α → Cluster C → Prop} (h : Op.Ensures pre m Q)
    (hq : ∀ e s, Q (.error e) s → Q (.error (.runtimeError what)) s) :
    Op.Ensures pre (remotely what m) Q := by
  intro s hs
  have hr := h s hs
  unfold remotely Op.mapError
  revert hr
  cases (m s).1 with
  | ok a => exact id
  | error e => exact hq e _

omit [DecidableEq C] in
theorem lift_ensures {x : Except Err α} {pre : Cluster C → Prop} :
    Op.Ensures pre (Op.lift x : ClientOp C α) fun r s => pre s ∧ r = x := fun _ h => ⟨h, rfl⟩

/-! ## The source and the destination -/

/-- The object is out of the source, or nothing has been done. -/
def TakesAt (f : Uuid → Bytes → Option Uuid) (dir : Uuid) (path : Bytes) (flags : UInt32)
    (ino? : α → Option Uuid) (r : Except Err α) (f' : Uuid → Bytes → Option Uuid) : Prop :=
  f' = f ∧ (∀ a, r = .ok a → ino? a = none) ∧
      (∀ name, Path.getFilenameFromPath path = .ok name → flags = 0 → f dir name = none) ∨
    flags = 0 ∧ ∃ name ino, Path.getFilenameFromPath path = .ok name ∧ f dir name = some ino ∧
      f' = Namespace.set f dir name none ∧ ∀ a, r = .ok a → ino? a = some ino

theorem onDir_takes {m : Section α} {path : Bytes} {flags : UInt32} {ino? : α → Option Uuid}
    (hname : Path.getFilenameFromPath path = .ok name)
    (hm : Op.Ensures (Led.Lists P dir (f dir)) m
      (Sections.Leaves P dir (Sections.Takes (f dir) name flags ino?))) :
    Op.Ensures (Cluster.Lists P f) (onDir dir m : ClientOp C α)
      (Cluster.Leaves P (TakesAt f dir path flags ino?)) := by
  intro s h
  obtain ⟨names, hl, ht⟩ :=
    onDir_leaves hm (fun e hnone => .inl ⟨rfl, nofun, fun _ => hnone name⟩) s h
  rcases ht with ⟨rfl, hno, habsent⟩ | ⟨hz, ino, hino, rfl, hr⟩
  · rw [Function.update_eq_self] at hl
    refine ⟨f, hl, .inl ⟨rfl, hno, fun name' hname' hz => ?_⟩⟩
    rw [hname] at hname'
    cases hname'
    exact habsent hz
  · rw [update_set] at hl
    exact ⟨_, hl, .inr ⟨hz, name, ino, hname, hino, rfl, hr⟩⟩

/-- What is raised says nothing of an inode. -/
theorem TakesAt.error {path : Bytes} {flags : UInt32} {ino? : α → Option Uuid}
    {β : Type} {ino?' : β → Option Uuid} {r : Except Err α} {e : Err}
    {f' : Uuid → Bytes → Option Uuid} (h : TakesAt f dir path flags ino? r f') :
    TakesAt f dir path flags ino?' (.error e) f' := by
  rcases h with ⟨rfl, -, habsent⟩ | ⟨hz, name, ino, hname, hino, rfl, -⟩
  · exact .inl ⟨rfl, nofun, habsent⟩
  · exact .inr ⟨hz, name, ino, hname, hino, rfl, nofun⟩

theorem TakesAt.ok {path : Bytes} {flags : UInt32} {ino? : α → Option Uuid}
    {β : Type} {ino?' : β → Option Uuid} {a : α} {b : β} {f' : Uuid → Bytes → Option Uuid}
    (h : TakesAt f dir path flags ino? (.ok a) f') (heq : ino?' b = ino? a) :
    TakesAt f dir path flags ino?' (.ok b) f' := by
  rcases h with ⟨rfl, hno, habsent⟩ | ⟨hz, name, ino, hname, hino, rfl, hr⟩
  · refine .inl ⟨rfl, fun b' hb => ?_, habsent⟩
    cases hb
    exact heq.trans (hno a rfl)
  · refine .inr ⟨hz, name, ino, hname, hino, rfl, fun b' hb => ?_⟩
    cases hb
    exact heq.trans (hr a rfl)

theorem renameNotSameParentSrc_takes (path : Bytes) (flags : UInt32) :
    Op.Ensures (Cluster.Lists P f) (renameNotSameParentSrc me dir path flags)
      (Cluster.Leaves P (TakesAt f dir path flags fun target => some target.ino)) := by
  have hnothing : ∀ {β : Type} {e : Err} {s : Cluster C} {ino? : β → Option Uuid}, s.Lists P f →
      Except.error e = Path.getFilenameFromPath path →
      Cluster.Leaves P (TakesAt f dir path flags ino?) (.error e : Except Err β) s := by
    intro β e s ino? h he
    refine ⟨f, h, .inl ⟨rfl, nofun, fun name hname => ?_⟩⟩
    rw [← he] at hname
    cases hname
  unfold renameNotSameParentSrc
  apply whereLed_ensures
  · refine lift_ensures.bind (fun name => ?_) fun e s h => hnothing h.1 h.2
    rintro s ⟨h, hname⟩
    refine Op.Ensures.bind (onDir_takes hname.symm (Sections.lists_localRenameSrc name flags))
      (fun t s h => ?_) (fun e s h => ?_) s h
    · obtain ⟨f', hl, ht⟩ := h
      exact ⟨f', hl, ht.ok rfl⟩
    · obtain ⟨f', hl, ht⟩ := h
      exact ⟨f', hl, ht.error⟩
  · have hremote : Op.Ensures (Cluster.Lists P f)
        (do
          let oldName ← Op.lift (Path.getFilenameFromPath path)
          onDir dir (RpcServer.renameNotSameParentSrcHandler oldName flags) : ClientOp C _)
        (Cluster.Leaves P (TakesAt f dir path flags fun t => t.2.map Inode.ino)) := by
      refine lift_ensures.bind (fun name => ?_) fun e s h => hnothing h.1 h.2
      rintro s ⟨h, hname⟩
      exact onDir_takes hname.symm (Sections.lists_renameSrcHandler name flags) s h
    refine (remotely_ensures hremote ?_).bind ?_ ?_
    · rintro e s ⟨f', hl, ht⟩
      exact ⟨f', hl, ht.error⟩
    · rintro ⟨ret, target⟩ s ⟨f', hl, ht⟩
      cases target with
      | none => exact ⟨f', hl, ht.error⟩
      | some i => exact ⟨f', hl, ht.ok (congrArg some (Inode.ino_ofFields_toFields i))⟩
    · rintro e s ⟨f', hl, ht⟩
      exact ⟨f', hl, ht.error⟩

/-- The object is in the destination, or the destination step has raised. -/
def ReceivesAt (f : Uuid → Bytes → Option Uuid) (dir : Uuid) (name : Bytes) (ino : Uuid)
    (r : Except Err α) (f' : Uuid → Bytes → Option Uuid) : Prop :=
  f' = Namespace.set f dir name (some ino) ∨
    (f' = f ∨ f' = Namespace.set f dir name none) ∧ ∃ e, r = .error e

theorem onDir_receives {m : Section Reply} {ino : Uuid}
    (hm : Op.Ensures (Led.Lists P dir (f dir)) m
      (Sections.Leaves P dir (Sections.Receives (f dir) name ino))) :
    Op.Ensures (Cluster.Lists P f) (onDir dir m : ClientOp C Reply)
      (Cluster.Leaves P (ReceivesAt f dir name ino)) := by
  intro s h
  obtain ⟨names, hl, hr⟩ := onDir_leaves hm (fun e _ => .inr ⟨.inl rfl, e, rfl⟩) s h
  rcases hr with rfl | ⟨rfl | rfl, herror⟩
  · rw [update_set] at hl
    exact ⟨_, hl, .inl rfl⟩
  · rw [Function.update_eq_self] at hl
    exact ⟨f, hl, .inr ⟨.inl rfl, herror⟩⟩
  · rw [update_set] at hl
    exact ⟨_, hl, .inr ⟨.inr rfl, herror⟩⟩

theorem ReceivesAt.mono {β : Type} {ino : Uuid} {r : Except Err α} {r' : Except Err β}
    {f' : Uuid → Bytes → Option Uuid} (h : ReceivesAt f dir name ino r f')
    (herror : ∀ e, r = .error e → ∃ e', r' = .error e') : ReceivesAt f dir name ino r' f' := by
  rcases h with h | ⟨h, e, he⟩
  · exact .inl h
  · exact .inr ⟨h, herror e he⟩

theorem renameNotSameParentDst_receives {target : Inode} (hi : P target.ino) {checkDstIno : Uuid}
    {path : Bytes} (hname : Path.getFilenameFromPath path = .ok name)
    (hcheck : checkDstIno = Uuid.nil → f dir name = none) :
    Op.Ensures (Cluster.Lists P f) (renameNotSameParentDst me dir target checkDstIno path 0)
      (Cluster.Leaves P (ReceivesAt f dir name target.ino)) := by
  have hret : ∀ {m : Section Reply}, Op.Ensures (Led.Lists P dir (f dir)) m
      (Sections.Leaves P dir (Sections.Receives (f dir) name target.ino)) →
      Op.Ensures (Cluster.Lists P f)
        (do
          let reply ← onDir dir m
          return reply.ret : ClientOp C Int)
        (Cluster.Leaves P (ReceivesAt f dir name target.ino)) := by
    intro m hm
    refine (onDir_receives hm).bind ?_ ?_
    · rintro reply s ⟨f', hl, hr⟩
      exact ⟨f', hl, hr.mono nofun⟩
    · rintro e s ⟨f', hl, hr⟩
      exact ⟨f', hl, hr.mono fun _ _ => ⟨e, rfl⟩⟩
  unfold renameNotSameParentDst
  apply whereLed_ensures
  · intro s h
    rw [Op.bind_ok (Op.lift_ok hname)]
    exact hret (Sections.lists_localRenameDst hi hcheck) s h
  · rw [Uuid.splice_prefix_postfix]
    have hino : (Inode.renameDstRequestToInode target.inodeToRenameDstRequest).ino = target.ino :=
      Inode.ino_ofFields_toFields target
    have hi' : P (Inode.renameDstRequestToInode target.inodeToRenameDstRequest).ino := hino ▸ hi
    refine remotely_ensures (fun s h => ?_) ?_
    · rw [Op.bind_ok (Op.lift_ok hname)]
      have hm := @Sections.lists_renameDstHandler P dir (f dir) name _ hi' checkDstIno hcheck
      rw [hino] at hm
      exact hret hm s h
    · rintro e s ⟨f', hl, hr⟩
      exact ⟨f', hl, hr.mono fun _ _ => ⟨_, rfl⟩⟩

/-! ## Within one directory -/

/-- The entry is moved, or it or the one in its way is gone, and 0 is not returned. -/
def Moved (f : Uuid → Bytes → Option Uuid) (src : Uuid) (oldName : Bytes) (dst : Uuid)
    (newName : Bytes) (r : Except Err Int) (f' : Uuid → Bytes → Option Uuid) : Prop :=
  f' = Namespace.move f src oldName dst newName ∨
    (f' = Namespace.set f src oldName none ∨ f' = Namespace.set f dst newName none ∨
      f' = Namespace.set (Namespace.set f src oldName none) dst newName none) ∧ r ≠ .ok 0

/-- An entry is moved within the directory, or nothing is done and 0 is not returned. -/
def RenamesAt (f : Uuid → Bytes → Option Uuid) (dir : Uuid) (oldPath newPath : Bytes)
    (flags : UInt32) (r : Except Err Int) (f' : Uuid → Bytes → Option Uuid) : Prop :=
  f' = f ∧ r ≠ .ok 0 ∧ (∀ oldName newName, paradoxCheck oldPath newPath = .ok false →
      Path.getFilenameFromPath oldPath = .ok oldName →
      Path.getFilenameFromPath newPath = .ok newName → flags = 0 → f dir oldName = none) ∨
    flags = 0 ∧ ∃ oldName newName ino, Path.getFilenameFromPath oldPath = .ok oldName ∧
      Path.getFilenameFromPath newPath = .ok newName ∧ f dir oldName = some ino ∧
      Moved f dir oldName dir newName r f'

theorem set_set (f : Uuid → Bytes → Option Uuid) {oldName newName : Bytes} :
    Function.update f dir (Function.update (Function.update (f dir) oldName none) newName y) =
      Namespace.set (Namespace.set f dir oldName none) dir newName y := by
  rw [← update_set, ← update_set, Function.update_idem, Function.update_self]

theorem onDir_renames {m : Section Reply} {oldPath newPath oldName newName : Bytes} {flags : UInt32}
    (hold : Path.getFilenameFromPath oldPath = .ok oldName)
    (hnew : Path.getFilenameFromPath newPath = .ok newName)
    (hm : Op.Ensures (Led.Lists P dir (f dir)) m
      (Sections.Leaves P dir (Sections.Renames (f dir) oldName newName flags))) :
    Op.Ensures (Cluster.Lists P f)
      (do
        let reply ← onDir dir m
        return reply.ret : ClientOp C Int)
      (Cluster.Leaves P (RenamesAt f dir oldPath newPath flags)) := by
  have hfin : ∀ {r : Except Err Reply} {r' : Except Err Int} {s : Cluster C},
      (∃ names, s.Lists P (Function.update f dir names) ∧
        Sections.Renames (f dir) oldName newName flags r names) →
      (∀ e, r = .error e → r' ≠ .ok 0) → (∀ reply, r = .ok reply → r' = .ok reply.ret) →
      Cluster.Leaves P (RenamesAt f dir oldPath newPath flags) r' s := by
    rintro r r' s ⟨names, hl, hr⟩ herror hok
    rcases hr with ⟨rfl, hret, habsent⟩ | ⟨hz, ino, hino, hmoves⟩
    · rw [Function.update_eq_self] at hl
      refine ⟨f, hl, .inl ⟨rfl, ?_, fun oldName' newName' _ hold' _ hz => ?_⟩⟩
      · cases r with
        | error e => exact herror e rfl
        | ok reply =>
            rw [hok reply rfl]
            exact fun h => hret reply rfl (Except.ok.inj h)
      · rw [hold] at hold'
        cases hold'
        exact habsent hz
    · refine ⟨_, hl, .inr ⟨hz, oldName, newName, ino, hold, hnew, hino, ?_⟩⟩
      rcases hmoves with rfl | ⟨rfl | rfl, e, he⟩
      · rw [set_set]
        exact .inl (congrArg _ hino.symm)
      · rw [update_set]
        exact .inr ⟨.inr (.inl rfl), herror e he⟩
      · rw [set_set]
        exact .inr ⟨.inr (.inr rfl), herror e he⟩
  refine (onDir_leaves hm fun e hnone => .inl ⟨rfl, nofun, fun _ => hnone oldName⟩).bind ?_ ?_
  · exact fun reply s h => hfin h nofun fun reply' hr => by cases hr; rfl
  · exact fun e s h => hfin h (fun _ _ => nofun) nofun

theorem renameSameParent_renames (hP : ∀ u, P u → u ≠ Uuid.nil) (oldPath newPath : Bytes)
    (flags : UInt32) (ts : Timespec) :
    Op.Ensures (Cluster.Lists P f) (renameSameParent me dir oldPath newPath flags ts)
      (Cluster.Leaves P (RenamesAt f dir oldPath newPath flags)) := by
  have hnothing : ∀ {r : Except Err Int} {s : Cluster C}, s.Lists P f → r ≠ .ok 0 →
      (∀ oldName newName, paradoxCheck oldPath newPath = .ok false →
        Path.getFilenameFromPath oldPath = .ok oldName →
        Path.getFilenameFromPath newPath ≠ .ok newName) →
      Cluster.Leaves P (RenamesAt f dir oldPath newPath flags) r s :=
    fun h hr hno => ⟨f, h, .inl ⟨rfl, hr, fun _ _ hp ho hn _ => absurd hn (hno _ _ hp ho)⟩⟩
  have hold : ∀ {e : Err}, Except.error e = Path.getFilenameFromPath oldPath →
      ∀ oldName newName, paradoxCheck oldPath newPath = .ok false →
        Path.getFilenameFromPath oldPath = .ok oldName →
        Path.getFilenameFromPath newPath ≠ .ok newName :=
    fun he _ _ _ ho => nomatch he.trans ho
  have hnew : ∀ {e : Err}, Except.error e = Path.getFilenameFromPath newPath →
      ∀ oldName newName, paradoxCheck oldPath newPath = .ok false →
        Path.getFilenameFromPath oldPath = .ok oldName →
        Path.getFilenameFromPath newPath ≠ .ok newName :=
    fun he _ _ _ _ hn => nomatch he.trans hn
  unfold renameSameParent
  apply whereLed_ensures
  · refine lift_ensures.bind (fun paradox => ?_) fun e s h =>
      hnothing h.1 nofun fun _ _ hp => nomatch h.2.trans hp
    rintro s ⟨h, hparadox⟩
    split
    · rename_i htrue
      refine hnothing h (fun hr => absurd (Except.ok.inj hr) (by decide)) fun _ _ hp => ?_
      rw [htrue] at hparadox
      cases hparadox.trans hp
    · refine Op.Ensures.bind lift_ensures (fun oldName => ?_)
        (fun e s h => hnothing h.1 nofun (hold h.2)) s h
      rintro s ⟨h, hoName⟩
      refine Op.Ensures.bind lift_ensures (fun newName => ?_)
        (fun e s h => hnothing h.1 nofun (hnew h.2)) s h
      rintro s ⟨h, hnName⟩
      exact onDir_renames hoName.symm hnName.symm
        (Sections.lists_localRename hP ts oldName newName flags) s h
  · refine remotely_ensures ?_ ?_
    · refine lift_ensures.bind (fun oldName => ?_) fun e s h => hnothing h.1 nofun (hold h.2)
      rintro s ⟨h, hoName⟩
      refine Op.Ensures.bind lift_ensures (fun newName => ?_)
        (fun e s h => hnothing h.1 nofun (hnew h.2)) s h
      rintro s ⟨h, hnName⟩
      exact onDir_renames hoName.symm hnName.symm
        (Sections.lists_renameHandler hP oldName newName flags) s h
    · rintro e s ⟨f', hl, ⟨rfl, -, hno⟩ | ⟨hz, oldName, newName, ino, hold, hnew, hino, hm⟩⟩
      · exact ⟨_, hl, .inl ⟨rfl, nofun, hno⟩⟩
      · refine ⟨f', hl, .inr ⟨hz, oldName, newName, ino, hold, hnew, hino, ?_⟩⟩
        exact hm.imp id fun h => ⟨h.1, nofun⟩

/-! ## Paths -/

theorem whereLed_reads {here there : ClientOp C α} {R : α → Prop} (h : Op.Reads s here R)
    (h' : Op.Reads s there R) : Op.Reads s (whereLed me dir here there) R := by
  unfold Op.Reads whereLed
  split
  · exact h
  · exact h'

omit [DecidableEq C] in
theorem remotely_reads {what : String} {m : ClientOp C α} {R : α → Prop} (h : Op.Reads s m R) :
    Op.Reads s (remotely what m) R := by
  refine ⟨h.1, fun a ha => h.2 a ?_⟩
  unfold remotely Op.mapError at ha
  revert ha
  cases (m s).1 with
  | ok b => exact id
  | error e => exact nofun

theorem onDir_reads {m : Section α} {R : α → Prop} (h : ∀ led, s.led dir = some led →
    Op.Reads led m R) : Op.Reads s (onDir dir m : ClientOp C α) R := by
  unfold Op.Reads onDir
  split
  · exact ⟨rfl, nofun⟩
  · rename_i led hl
    obtain ⟨hs, hr⟩ := h led hl
    refine ⟨?_, hr⟩
    dsimp only
    rw [hs, Cluster.put_led hl]

omit [DecidableEq C] in
theorem getDentryTable_reads : Op.Reads s (getDentryTable dir : ClientOp C Unit)
    fun _ => (s.tables dir).isSome = true := by
  unfold Op.Reads getDentryTable
  cases s.tables dir with
  | none => exact ⟨rfl, nofun⟩
  | some table => exact ⟨rfl, fun _ _ => rfl⟩

/-- Where the lookup gives nil, the name is free. Only "/" is not looked up. -/
theorem checkChildInode_reads (hP : ∀ u, P u → u ≠ Uuid.nil) (h : s.Lists P f) :
    Op.Reads s (checkChildInode me dir name) fun ino =>
      (ino = Uuid.nil → f dir name = none) ∧
        (ino ≠ Uuid.nil → ino = Uuid.rootIno ∨ f dir name = some ino) := by
  have hdir : Op.Reads s (onDir dir (Led.checkChildInode name) : ClientOp C Uuid) fun ino =>
      (ino = Uuid.nil → f dir name = none) ∧
        (ino ≠ Uuid.nil → ino = Uuid.rootIno ∨ f dir name = some ino) := by
    refine onDir_reads fun led hl => ⟨rfl, fun ino hino => ?_⟩
    obtain rfl : led.table.checkChildInode name = ino := Except.ok.inj hino
    have hlists := h.of_led hl
    refine ⟨Sections.Lists.free_of_check hP hlists, fun hne => ?_⟩
    unfold DentryTable.checkChildInode at hne ⊢
    split
    · exact .inl rfl
    · rename_i hname
      rw [if_neg hname] at hne
      unfold Dentry.getChildIno at hne ⊢
      rw [← hlists.listed]
      show _ ∨ led.table.dentries.childList.lookup name = _
      revert hne
      cases led.table.dentries.childList.lookup name with
      | none => exact fun hne => absurd rfl hne
      | some u => exact fun _ => .inr rfl
  exact whereLed_reads hdir (remotely_reads hdir)

theorem getMode_reads : Op.Reads s (getMode me dir name) fun _ => True := by
  have hdir : Op.Reads s (onDir dir (Led.getChildInode name) : ClientOp C MemInode) fun _ => True :=
    onDir_reads fun led _ => ⟨rfl, fun _ _ => trivial⟩
  exact (whereLed_reads hdir (remotely_reads hdir)).bind_reads fun _ _ => .pure trivial

theorem permissionCheck_reads {mask : UInt32} :
    Op.Reads s (permissionCheck me dir mask) fun _ => True := by
  refine whereLed_reads (onDir_reads fun led _ => ?_) ?_
  · exact Op.Reads.bind_reads (R := fun _ => True) ⟨rfl, fun _ _ => trivial⟩
      fun i _ => ⟨rfl, fun _ _ => trivial⟩
  · refine Op.Reads.bind_reads (R := fun _ => True) (remotely_reads (onDir_reads fun led _ => ?_))
      fun ret _ => ?_
    · refine Op.Reads.bind_reads (R := fun _ => True) ⟨rfl, fun _ _ => trivial⟩ fun i _ => ?_
      cases i.permissionCheck (s.ids (s.leader dir)) mask with
      | error e => exact .pure trivial
      | ok u => exact .pure trivial
    · split
      · exact .raise
      · exact .pure trivial

/-- Wherever `path_traversal` leads, that is below the root. -/
theorem traverse_reads (hP : ∀ u, P u → u ≠ Uuid.nil) (h : s.Lists P f) {names : List Bytes}
    {parent target : Uuid} (hparent : Namespace.Reach f Uuid.rootIno parent)
    (htarget : Namespace.Reach f Uuid.rootIno target) :
    Op.Reads s (traverse me names parent target) fun d => Namespace.Reach f Uuid.rootIno d := by
  induction names generalizing parent target with
  | nil => exact .pure htarget
  | cons name names ih =>
      unfold traverse
      refine (checkChildInode_reads hP h).bind_reads fun ino hino => ?_
      split
      · exact Op.Reads.raise.bind_reads fun _ h => h
      · rename_i hne
        have hreach : Namespace.Reach f Uuid.rootIno ino := by
          rcases hino.2 hne with rfl | hino
          · exact .refl
          · exact hparent.tail ⟨name, hino⟩
        refine getMode_reads.bind_reads fun mode _ => ?_
        split
        · refine getDentryTable_reads.bind_reads fun _ _ => ?_
          exact permissionCheck_reads.bind_reads fun _ _ => ih hreach hreach
        · exact ih hparent hreach

theorem pathTraversal_reads (hP : ∀ u, P u → u ≠ Uuid.nil) (h : s.Lists P f) (path : Bytes) :
    Op.Reads s (pathTraversal me path) fun d => Namespace.Reach f Uuid.rootIno d := by
  unfold pathTraversal
  exact getDentryTable_reads.bind_reads fun _ _ => traverse_reads hP h .refl .refl

/-- The directory that a path's parent leads to, and the last name. -/
structure LeadsTo (s : Cluster C) (me : C) (path : Bytes) (dir : Uuid) (name : Bytes) : Prop where
  parent : ∃ parentPath, Path.getParentDirPath path = .ok parentPath ∧
    (pathTraversal me parentPath s).1 = .ok dir
  file : Path.getFilenameFromPath path = .ok name

theorem LeadsTo.traversed {path parentPath : Bytes} (h : LeadsTo s me path dir name)
    (hp : Path.getParentDirPath path = .ok parentPath) :
    (pathTraversal me parentPath s).1 = .ok dir := by
  obtain ⟨parentPath', hp', hd⟩ := h.parent
  rw [hp] at hp'
  cases hp'
  exact hd

theorem LeadsTo.unique {path : Bytes} {dir' : Uuid} {name' : Bytes}
    (h : LeadsTo s me path dir name) (h' : LeadsTo s me path dir' name') :
    dir = dir' ∧ name = name' := by
  obtain ⟨p, hp, hd⟩ := h.parent
  obtain ⟨p', hp', hd'⟩ := h'.parent
  rw [hp] at hp'
  cases hp'
  rw [hd] at hd'
  have hname := h.file.symm.trans h'.file
  exact ⟨Except.ok.inj hd', Except.ok.inj hname⟩

theorem LeadsTo.reach (hP : ∀ u, P u → u ≠ Uuid.nil) (h : s.Lists P f) {path : Bytes}
    (hl : LeadsTo s me path dir name) : Namespace.Reach f Uuid.rootIno dir := by
  obtain ⟨parentPath, -, hd⟩ := hl.parent
  exact (pathTraversal_reads hP h parentPath).2 dir hd

/-! ## rename -/

/-- Both paths lead to directories, and the rename is not refused before it begins. -/
structure Ready (s : Cluster C) (me : C) (oldPath newPath : Bytes) (src : Uuid) (oldName : Bytes)
    (dst : Uuid) (newName : Bytes) : Prop where
  old : LeadsTo s me oldPath src oldName
  new : LeadsTo s me newPath dst newName
  srcTable : (s.tables src).isSome = true
  dstTable : (s.tables dst).isSome = true
  ne : oldPath ≠ newPath
  clear : Path.getParentDirPath oldPath = Path.getParentDirPath newPath →
    paradoxCheck oldPath newPath = .ok false

/-- An entry is moved from where the old path leads to where the new one does, or nothing is done;
    not where everything is ready and the entry is there. -/
def RenameLeaves (s : Cluster C) (me : C) (f : Uuid → Bytes → Option Uuid) (oldPath newPath : Bytes)
    (flags : UInt32) (r : Except Err Int) (f' : Uuid → Bytes → Option Uuid) : Prop :=
  f' = f ∧ r ≠ .ok 0 ∧ (∀ src oldName dst newName,
      Ready s me oldPath newPath src oldName dst newName → flags = 0 → f src oldName = none) ∨
    flags = 0 ∧ ∃ src oldName dst newName ino, LeadsTo s me oldPath src oldName ∧
      LeadsTo s me newPath dst newName ∧ f src oldName = some ino ∧
      Moved f src oldName dst newName r f'

theorem renameBlock_leaves (me : C) (hP : ∀ u, P u → u ≠ Uuid.nil) (h : s.Lists P f)
    (oldPath newPath : Bytes) (flags : UInt32) (ts : Timespec) :
    Cluster.Leaves P (RenameLeaves s me f oldPath newPath flags)
      (renameBlock me oldPath newPath flags ts s).1
      (renameBlock me oldPath newPath flags ts s).2 := by
  have hnothing : ∀ {e : Err},
      (∀ src oldName dst newName, ¬ Ready s me oldPath newPath src oldName dst newName) →
      Cluster.Leaves P (RenameLeaves s me f oldPath newPath flags) (.error e) s :=
    fun hno => ⟨f, h, .inl ⟨rfl, nofun, fun _ _ _ _ hr _ => absurd hr (hno _ _ _ _)⟩⟩
  have htable : ∀ {e : Err} {dir : Uuid},
      (getDentryTable dir s : Except Err Unit × Cluster C).1 = .error e →
      (s.tables dir).isSome ≠ true := by
    intro e dir he hd
    rw [getDentryTable_present hd] at he
    cases he
  unfold renameBlock
  refine Op.Reads.bind .lift (fun e he => hnothing fun _ _ _ _ hr => ?_)
    fun srcParentPath hsrcPath => ?_
  · obtain ⟨path, hp, -⟩ := hr.old.parent
    cases hp.symm.trans he
  refine Op.Reads.bind .lift (fun e he => hnothing fun _ _ _ _ hr => ?_)
    fun dstParentPath hdstPath => ?_
  · obtain ⟨path, hp, -⟩ := hr.new.parent
    cases hp.symm.trans he
  split
  · rename_i hsame
    refine Op.Reads.bind (pathTraversal_reads hP h _).result
      (fun e he => hnothing fun _ _ _ _ hr => nomatch (hr.old.traversed hsrcPath).symm.trans he)
      fun parent hparent => ?_
    refine Op.Reads.bind getDentryTable_reads (fun e he => hnothing fun _ _ _ _ hr => ?_)
      fun _ _ => ?_
    · have hd := (hr.old.traversed hsrcPath).symm.trans hparent.2
      cases hd
      exact htable he hr.srcTable
    have hrename : Op.Ensures (Cluster.Lists P f)
        (renameSameParent me parent oldPath newPath flags ts)
        (Cluster.Leaves P (RenamesAt f parent oldPath newPath flags)) :=
      renameSameParent_renames hP oldPath newPath flags ts
    obtain ⟨f', hl, hr⟩ := hrename s h
    refine ⟨f', hl, hr.imp ?_ ?_⟩
    · rintro ⟨hf, hne, hno⟩
      refine ⟨hf, hne, fun src oldName dst newName hr hz => ?_⟩
      have hd := (hr.old.traversed hsrcPath).symm.trans hparent.2
      cases hd
      have hclear := hr.clear (hsrcPath.trans (hsame ▸ hdstPath.symm))
      exact hno oldName newName hclear hr.old.file hr.new.file hz
    · rintro ⟨hz, oldName, newName, ino, hold, hnew, hino, hm⟩
      exact ⟨hz, parent, oldName, parent, newName, ino, ⟨⟨_, hsrcPath, hparent.2⟩, hold⟩,
        ⟨⟨_, hdstPath, hsame ▸ hparent.2⟩, hnew⟩, hino, hm⟩
  · refine Op.Reads.bind (pathTraversal_reads hP h _).result
      (fun e he => hnothing fun _ _ _ _ hr => nomatch (hr.old.traversed hsrcPath).symm.trans he)
      fun src hsrc => ?_
    refine Op.Reads.bind getDentryTable_reads (fun e he => hnothing fun _ _ _ _ hr => ?_)
      fun _ _ => ?_
    · cases (hr.old.traversed hsrcPath).symm.trans hsrc.2
      exact htable he hr.srcTable
    refine Op.Reads.bind (pathTraversal_reads hP h _).result
      (fun e he => hnothing fun _ _ _ _ hr => nomatch (hr.new.traversed hdstPath).symm.trans he)
      fun dst hdst => ?_
    refine Op.Reads.bind getDentryTable_reads (fun e he => hnothing fun _ _ _ _ hr => ?_)
      fun _ hdstTable => ?_
    · cases (hr.new.traversed hdstPath).symm.trans hdst.2
      exact htable he hr.dstTable
    refine Op.Reads.bind .lift
      (fun e he => hnothing fun _ _ _ _ hr => nomatch hr.new.file.symm.trans he)
      fun newName hnew => ?_
    refine Op.Reads.bind (checkChildInode_reads hP h) (fun e he => ?_) fun check hcheck => ?_
    · obtain ⟨table, ht⟩ := Option.isSome_iff_exists.mp hdstTable
      have hl : s.led dst = some ⟨table, s.jtables (s.leader dst), s.dataPool⟩ :=
        Cluster.led_eq_some.mpr ⟨ht, rfl, rfl⟩
      rw [checkChildInode_led hl] at he
      cases he
    refine Op.Ensures.bind (renameNotSameParentSrc_takes oldPath flags) (fun target => ?_)
      (fun e s' h' => ?_) s h
    · rintro s' ⟨f₁, hl₁, ⟨-, hno, -⟩ | ⟨hz, oldName, ino, hold, hino, rfl, hr⟩⟩
      · cases hno target rfl
      · obtain rfl : target.ino = ino := Option.some.inj (hr target rfl)
        have hfree : check = Uuid.nil →
            Namespace.set f src oldName none dst newName = none := by
          intro hnil
          by_contra hne
          obtain ⟨u, hu⟩ := Option.ne_none_iff_exists'.mp hne
          have hu' := Namespace.set_none_subset hu
          rw [hcheck.1 hnil] at hu'
          cases hu'
        obtain ⟨f₂, hl₂, hd⟩ :=
          renameNotSameParentDst_receives (h.mem hino) hnew hfree s' hl₁
        rw [hz]
        refine ⟨f₂, hl₂, .inr ⟨rfl, src, oldName, dst, newName, target.ino,
          ⟨⟨_, hsrcPath, hsrc.2⟩, hold⟩, ⟨⟨_, hdstPath, hdst.2⟩, hnew⟩, hino, ?_⟩⟩
        rcases hd with rfl | ⟨rfl | rfl, e, he⟩
        · left
          unfold Namespace.move
          rw [hino]
        · exact .inr ⟨.inl rfl, he ▸ nofun⟩
        · exact .inr ⟨.inr (.inr rfl), he ▸ nofun⟩
    · obtain ⟨f₁, hl₁, ⟨rfl, -, habsent⟩ | ⟨hz, oldName, ino, hold, hino, rfl, -⟩⟩ := h'
      · refine ⟨_, hl₁, .inl ⟨rfl, nofun, fun src' oldName dst' newName' hr hz => ?_⟩⟩
        cases (hr.old.traversed hsrcPath).symm.trans hsrc.2
        exact habsent oldName hr.old.file hz
      · exact ⟨_, hl₁, .inr ⟨hz, src, oldName, dst, newName, ino, ⟨⟨_, hsrcPath, hsrc.2⟩, hold⟩,
          ⟨⟨_, hdstPath, hdst.2⟩, hnew⟩, hino, .inr ⟨.inl rfl, nofun⟩⟩⟩

omit [DecidableEq C] in
/-- What is caught is not 0. -/
theorem handle_renameCatch_ne {m : ClientOp C Int} (h : (m s).1 ≠ .ok 0) :
    (m.handle renameCatch s).1 ≠ .ok 0 := by
  unfold Op.handle
  revert h
  cases m s with
  | mk r s' =>
      intro h
      cases r with
      | ok ret => exact h
      | error e => cases e <;> simp [renameCatch, ENOENT, EACCES, ENOSYS]

theorem rename_leaves (me : C) (hP : ∀ u, P u → u ≠ Uuid.nil) (h : s.Lists P f) (oldPath newPath : Bytes)
    (flags : UInt32) (ts : Timespec) :
    Cluster.Leaves P (RenameLeaves s me f oldPath newPath flags)
      (rename me oldPath newPath flags ts s).1 (rename me oldPath newPath flags ts s).2 := by
  unfold rename
  split
  · rename_i heq
    refine ⟨f, h, .inl ⟨rfl, fun hr => absurd (Except.ok.inj hr) (by decide), ?_⟩⟩
    exact fun _ _ _ _ hr => absurd heq hr.ne
  · have hblock : Cluster.Leaves P (RenameLeaves s me f oldPath newPath flags)
        (renameBlock me oldPath newPath flags ts s).1
        (renameBlock me oldPath newPath flags ts s).2 :=
      renameBlock_leaves me hP h oldPath newPath flags ts
    obtain ⟨f', hl, hr⟩ := hblock
    refine ⟨f', by rw [Op.handle_snd]; exact hl, ?_⟩
    rcases hr with ⟨hf, hr, hno⟩ | ⟨hz, src, oldName, dst, newName, ino, hold, hnew, hino, hm⟩
    · exact .inl ⟨hf, handle_renameCatch_ne hr, hno⟩
    · refine .inr ⟨hz, src, oldName, dst, newName, ino, hold, hnew, hino, ?_⟩
      exact hm.imp id fun hpart => ⟨hpart.1, handle_renameCatch_ne hpart.2⟩

/-! ## rmdir and mkdir -/

/-- No entry is new. -/
def Shrinks (f f' : Uuid → Bytes → Option Uuid) : Prop :=
  ∀ d k u, f' d k = some u → f d k = some u

theorem onDir_shrinks {m : Section α} (hm : Op.Ensures (Led.Lists P dir (f dir)) m
    fun _ led => ∃ names, led.Lists P dir names ∧ ∀ k u, names k = some u → f dir k = some u) :
    Op.Ensures (Cluster.Lists P f) (onDir dir m : ClientOp C α)
      (Cluster.Leaves P fun _ => Shrinks f) := by
  intro s h
  obtain ⟨names, hl, hsub⟩ := onDir_leaves (Q := fun _ names => ∀ k u, names k = some u →
    f dir k = some u) hm (fun _ _ _ _ hu => hu) s h
  refine ⟨_, hl, fun d k u hu => ?_⟩
  by_cases hd : d = dir
  · subst hd
    rw [Function.update_self] at hu
    exact hsub k u hu
  · rw [Function.update_of_ne hd] at hu
    exact hu

omit [DecidableEq C] in
/-- The directory loses its table. -/
theorem deleteDentryTable_lists (h : s.Lists P f) :
    (deleteDentryTable dir s).2.Lists P (Function.update f dir fun _ => none) := by
  apply Cluster.Lists.intro
  · intro d table ht
    exact h.table (update_none_eq_some ht).2
  · exact h.jtables
  · funext d k
    show (Function.update s.tables dir none d).bind _ = _
    by_cases hd : d = dir
    · subst hd
      rw [Function.update_self, Function.update_self]
      rfl
    · rw [Function.update_of_ne hd, Function.update_of_ne hd, ← h.entries]
      rfl

theorem rmdirTop_shrinks : Op.Ensures (Cluster.Lists P f) (FuseOps.rmdirTop me dir)
    (Cluster.Leaves P fun _ => Shrinks f) := by
  have hdir : Op.Ensures (Cluster.Lists P f)
      (onDir dir (DirectoryOps.rmdirTop dir) : ClientOp C Reply) fun _ s => s.Lists P f := by
    intro s h
    obtain ⟨names, hl, rfl⟩ := onDir_leaves (Q := fun _ names => names = f dir)
      (fun led hl => ⟨_, Sections.lists_rmdirTop dir led hl, rfl⟩) (fun _ _ => rfl) s h
    rw [Function.update_eq_self] at hl
    exact hl
  unfold FuseOps.rmdirTop
  refine (whereLed_ensures hdir (remotely_ensures hdir fun _ _ h => h)).bind
    (fun reply s h => ?_) fun _ s h => ⟨f, h, fun _ _ _ hu => hu⟩
  split
  · refine ⟨_, deleteDentryTable_lists h, fun d k u hu => ?_⟩
    by_cases hd : d = dir
    · subst hd
      rw [Function.update_self] at hu
      cases hu
    · rw [Function.update_of_ne hd] at hu
      exact hu
  · exact ⟨f, h, fun _ _ _ hu => hu⟩

theorem rmdirDown_shrinks (target : Uuid) (targetName : Bytes) (ts : Timespec) :
    Op.Ensures (Cluster.Lists P f) (FuseOps.rmdirDown me dir target targetName ts)
      (Cluster.Leaves P fun _ => Shrinks f) := by
  have hdir : Op.Ensures (Cluster.Lists P f)
      (onDir dir (DirectoryOps.rmdirDown ts target targetName) : ClientOp C Reply)
      (Cluster.Leaves P fun _ => Shrinks f) := by
    refine onDir_shrinks fun led hl => ⟨_, Sections.lists_rmdirDown ts target led hl, ?_⟩
    exact fun k u hu => (update_none_eq_some hu).2
  unfold FuseOps.rmdirDown
  apply whereLed_ensures
  · exact hdir.bind (fun _ s h => h) fun _ s h => h
  · exact remotely_ensures (hdir.bind (fun _ s h => h) fun _ s h => h) fun _ s h => h

theorem rmdir_shrinks (me : C) (hP : ∀ u, P u → u ≠ Uuid.nil) (h : s.Lists P f) (path : Bytes)
    (ts : Timespec) :
    Cluster.Leaves P (fun _ : Except Err Int => Shrinks f) (rmdir me path ts s).1
      (rmdir me path ts s).2 := by
  have hnothing : ∀ r : Except Err Int,
      Cluster.Leaves P (fun _ : Except Err Int => Shrinks f) r s :=
    fun _ => ⟨f, h, fun _ _ _ hu => hu⟩
  have hblock : Cluster.Leaves P (fun _ : Except Err Int => Shrinks f) (rmdirBlock me path ts s).1
      (rmdirBlock me path ts s).2 := by
    unfold rmdirBlock
    refine Op.Reads.bind .lift (fun e _ => hnothing (.error e)) fun targetName _ => ?_
    refine Op.Reads.bind .lift (fun e _ => hnothing (.error e)) fun parentPath _ => ?_
    refine Op.Reads.bind (pathTraversal_reads hP h _) (fun e _ => hnothing (.error e)) fun parent _ => ?_
    refine Op.Reads.bind getDentryTable_reads (fun e _ => hnothing (.error e)) fun _ _ => ?_
    refine Op.Reads.bind (checkChildInode_reads hP h) (fun e _ => hnothing (.error e)) fun target _ => ?_
    refine Op.Reads.bind getMode_reads (fun e _ => hnothing (.error e)) fun mode _ => ?_
    split
    · exact hnothing (.ok _)
    refine Op.Reads.bind getDentryTable_reads (fun e _ => hnothing (.error e)) fun _ _ => ?_
    refine Op.Ensures.bind rmdirTop_shrinks (fun ret => ?_) (fun _ _ h => h) s h
    rintro s' ⟨f₁, hl₁, hsub₁⟩
    split
    · obtain ⟨f₂, hl₂, hsub₂⟩ := rmdirDown_shrinks target targetName ts s' hl₁
      exact ⟨f₂, hl₂, fun d k u hu => hsub₁ d k u (hsub₂ d k u hu)⟩
    · exact ⟨f₁, hl₁, hsub₁⟩
  obtain ⟨f', hl, hsub⟩ := hblock
  refine ⟨f', ?_, hsub⟩
  unfold rmdir
  rw [Op.handle_snd]
  exact hl

/-- The new directory has an entry, or nothing is new. -/
def AddsAt (f : Uuid → Bytes → Option Uuid) (ino : Uuid) (f' : Uuid → Bytes → Option Uuid) :
    Prop :=
  f' = f ∨ ∃ d k, d ≠ ino ∧ f d k = none ∧ f' = Namespace.set f d k (some ino)

/-- Under the number of a directory that has no table there is nothing, before and after. -/
theorem AddsAt.leaf {ino : Uuid} {f' : Uuid → Bytes → Option Uuid} (h : AddsAt f ino f')
    (hf : ∀ k, f ino k = none) : ∀ k, f' ino k = none := by
  intro k
  rcases h with rfl | ⟨d, k', hd, -, rfl⟩
  · exact hf k
  · rw [Namespace.set_of_ne fun heq => hd heq.1.symm]
    exact hf k

theorem onDir_adds {m : Section α} {ino : Uuid} (hd : dir ≠ ino)
    (hm : Op.Ensures (Led.Lists P dir (f dir)) m
      fun _ => Sections.Adds P dir (f dir) name ino) :
    Op.Ensures (Cluster.Lists P f) (onDir dir m : ClientOp C α)
      (Cluster.Leaves P fun _ => AddsAt f ino) := by
  intro s h
  have hm' : Op.Ensures (Led.Lists P dir (f dir)) m (Sections.Leaves P dir fun _ names =>
      names = f dir ∨ f dir name = none ∧ names = Function.update (f dir) name (some ino)) := by
    intro led hl
    rcases hm led hl with hl' | ⟨hn, hl'⟩
    · exact ⟨_, hl', .inl rfl⟩
    · exact ⟨_, hl', .inr ⟨hn, rfl⟩⟩
  obtain ⟨names, hl, rfl | ⟨hn, rfl⟩⟩ := onDir_leaves hm' (fun _ _ => .inl rfl) s h
  · rw [Function.update_eq_self] at hl
    exact ⟨f, hl, .inl rfl⟩
  · rw [update_set] at hl
    exact ⟨_, hl, .inr ⟨dir, name, hd, hn, rfl⟩⟩

theorem mkself_lists (h : s.Lists P f) (i : Inode) : (mkself me i s).2.Lists P f := by
  refine .intro (fun d table ht => h.table ht) (fun c => ?_) h.entries
  show JournalTable.Uncommitted (Function.update s.jtables me _ c)
  by_cases hc : c = me
  · rw [hc, Function.update_self]
    exact (h.jtables me).record i.ino (.mkself i)
  · rw [Function.update_of_ne hc]
    exact h.jtables c

omit [DecidableEq C] in
/-- The new table is empty. -/
theorem leaseDentryTableMkdir_lists (h : s.Lists P f) {i : Inode} (hleaf : ∀ k, f i.ino k = none) :
    (leaseDentryTableMkdir me i s).2.Lists P f := by
  apply Cluster.Lists.intro
  · intro d table ht
    rcases update_eq_some ht with ⟨rfl, hu⟩ | ⟨-, hold⟩
    · cases hu
      exact ⟨rfl, fun _ => rfl, fun _ _ hc => (nomatch hc)⟩
    · exact h.table hold
  · exact h.jtables
  · funext d k
    show (Function.update s.tables i.ino (some (.ofNew i)) d).bind _ = _
    by_cases hd : d = i.ino
    · rw [hd, Function.update_self, hleaf k]
      rfl
    · rw [Function.update_of_ne hd, ← h.entries]
      rfl

theorem mkdir_adds (me : C) (hP : ∀ u, P u → u ≠ Uuid.nil) (h : s.Lists P f) {env : Env}
    (hu : P env.newIno) (hnew : s.tables env.newIno = none) (path : Bytes) (mode : UInt32)
    (born : Timespec) :
    Cluster.Leaves P (fun _ : Except Err Int => AddsAt f env.newIno)
      (mkdir me env path mode born s).1 (mkdir me env path mode born s).2 := by
  have hnothing : ∀ r : Except Err Int,
      Cluster.Leaves P (fun _ : Except Err Int => AddsAt f env.newIno) r s :=
    fun _ => ⟨f, h, .inl rfl⟩
  have hleaf : ∀ k, f env.newIno k = none := by
    intro k
    rw [← h.entries]
    unfold Cluster.entries
    rw [hnew]
    rfl
  have hblock : Cluster.Leaves P (fun _ : Except Err Int => AddsAt f env.newIno)
      (mkdirBlock me env path mode born s).1 (mkdirBlock me env path mode born s).2 := by
    unfold mkdirBlock
    refine Op.Reads.bind .lift (fun e _ => hnothing (.error e)) fun targetName _ => ?_
    refine Op.Reads.bind .lift (fun e _ => hnothing (.error e)) fun parentPath _ => ?_
    refine Op.Reads.bind (pathTraversal_reads hP h _) (fun e _ => hnothing (.error e)) fun parent _ => ?_
    refine Op.Reads.bind getDentryTable_reads (fun e _ => hnothing (.error e)) fun _ hparent => ?_
    have hne : parent ≠ env.newIno := by
      rintro rfl
      rw [hnew] at hparent
      cases hparent
    have hmade : Op.Ensures (Cluster.Lists P f)
        (whereLed me parent
          (do
            let _ ← onDir parent (LocalOps.localMkdir env targetName mode)
            return newDirInode env mode env.born)
          (do
            let _ ← remotely needRecovery (onDir parent (RpcServer.mkdirHandler env targetName mode))
            mkself me (newDirInode env mode born)
            return newDirInode env mode born) : ClientOp C Inode)
        (Cluster.Leaves P fun r f' => AddsAt f env.newIno f' ∧ ∀ i, r = .ok i → i.ino = env.newIno) := by
      apply whereLed_ensures
      · refine (onDir_adds hne (Sections.adds_localMkdir hu mode)).bind ?_ ?_
        · rintro reply s' ⟨f', hl, hadds⟩
          exact ⟨f', hl, hadds, fun i hi => by cases hi; rfl⟩
        · rintro e s' ⟨f', hl, hadds⟩
          exact ⟨f', hl, hadds, nofun⟩
      · refine (remotely_ensures (onDir_adds hne (Sections.adds_mkdirHandler hu mode))
          fun _ _ h => h).bind ?_ ?_
        · rintro reply s' ⟨f', hl, hadds⟩
          exact ⟨f', mkself_lists hl _, hadds, fun i hi => by cases hi; rfl⟩
        · rintro e s' ⟨f', hl, hadds⟩
          exact ⟨f', hl, hadds, nofun⟩
    refine hmade.bind ?_ ?_ s h
    · rintro i s' ⟨f', hl, hadds, hi⟩
      have hino : i.ino = env.newIno := hi i rfl
      exact ⟨f', leaseDentryTableMkdir_lists hl (hino ▸ hadds.leaf hleaf), hadds⟩
    · rintro e s' ⟨f', hl, hadds, -⟩
      exact ⟨f', hl, hadds⟩
  obtain ⟨f', hl, hadds⟩ := hblock
  refine ⟨f', ?_, hadds⟩
  unfold mkdir
  rw [Op.handle_snd]
  exact hl

end FuseOps

end Nmfs
