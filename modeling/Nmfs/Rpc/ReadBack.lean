import Nmfs.Rpc.AttributeRequests

/-
  `getattr` after any sequence of `chmod`, `chown`, `utimens` and `truncate` at the leader, beside a
  record that is updated as the calls say. The record is a `struct stat`.

  `fill_stat` and `rpc_client::getattr` both put the nanoseconds of `i_ctime` into
  `st_ctim.tv_sec`, over the seconds. `local_chmod` takes all bits of its argument, and `local_chown`
  every id from 2^31 on for "unchanged".
-/

namespace Nmfs

open Lib

namespace AttributeRequests

open LocalOps RpcServer

/-- The calls that set attributes. -/
inductive Setter where
  | chmod (mode : UInt32)
  | chown (uid gid : UInt32)
  | utimens (atime mtime : Timespec)
  | truncate (offset : UInt64)
  deriving DecidableEq

namespace Setter

def call : Setter → AttributeCall
  | chmod mode => .chmod mode
  | chown uid gid => .chown uid gid
  | utimens atime mtime => .utimens atime mtime
  | truncate offset => .truncate offset

/-- The leader after the call, with what the clock showed. -/
def perform (pIno : Uuid) (i : RemoteTarget) (s : Led) (e : Timespec × Setter) : Led :=
  (e.2.call.here pIno e.1 i s).2

/-- What the call makes of the inode. -/
def apply (ts : Timespec) (target : Inode) : Setter → Inode
  | chmod mode =>
    { target with core := { target.core with
        iMode := mode ||| (target.core.iMode &&& Inode.S_IFMT) } }
  | chown uid gid =>
    { target with core := { target.core with
        iUid := if uid.toNat < 2 ^ 31 then uid else target.core.iUid
        iGid := if gid.toNat < 2 ^ 31 then gid else target.core.iGid } }
  | utimens atime mtime =>
    { target with core := { target.core with
        iAtime := utimensTime ts atime target.core.iAtime
        iMtime := utimensTime ts mtime target.core.iMtime } }
  | truncate offset =>
    if Inode.isDir target.core.iMode then target
    else { target with core := { target.core with iSize := offset, iMtime := ts, iCtime := ts } }

end Setter

/-! ## The record -/

def S_IALLUGO : UInt32 := 0xFFF

/-- `(uid_t)-1` and `(gid_t)-1` -/
def unchangedId : UInt32 := 0xFFFFFFFF

/-- All the attributes of an inode. -/
def recordOf (i : Inode) : Stat where
  stMode := i.core.iMode
  stUid := i.core.iUid
  stGid := i.core.iGid
  stIno := i.core.iIno.getPostfixFromUuid
  stNlink := i.core.iNlink
  stSize := i.core.iSize
  stAtim := i.core.iAtime
  stMtim := i.core.iMtime
  stCtim := i.core.iCtime

/-- What the call makes of the record: the type stays, and only -1 leaves an id as it is. -/
def Setter.update (ts : Timespec) (a : Stat) : Setter → Stat
  | chmod mode => { a with stMode := (mode &&& S_IALLUGO) ||| (a.stMode &&& Inode.S_IFMT) }
  | chown uid gid =>
    { a with
      stUid := if uid = unchangedId then a.stUid else uid
      stGid := if gid = unchangedId then a.stGid else gid }
  | utimens atime mtime =>
    { a with
      stAtim := utimensTime ts atime a.stAtim
      stMtim := utimensTime ts mtime a.stMtim }
  | truncate offset =>
    if Inode.isDir a.stMode then a
    else { a with stSize := offset, stMtim := ts, stCtim := ts }

def updates (a : Stat) (calls : List (Timespec × Setter)) : Stat :=
  calls.foldl (fun a e => e.2.update e.1 a) a

/-- `getattr` fills the buffer with the record, at the leader and through the RPC. -/
def ReadsBack (pIno : Uuid) (i : RemoteTarget) (s : Led) (stat a : Stat) : Prop :=
  ∀ ts, (AttributeCall.getattr stat).here pIno ts i s = (.ok ⟨0, some a⟩, s) ∧
    (AttributeCall.getattr stat).remote pIno ts i s = (.ok ⟨0, some a⟩, s)

/-! ## The condition -/

/-- Seconds and nanoseconds are the same number, which the buffer has in `tv_nsec` already. -/
def CtimeShows (stat a : Stat) : Prop :=
  a.stCtim.tvSec = a.stCtim.tvNsec ∧ stat.stCtim.tvNsec = a.stCtim.tvNsec

/-- An id that the code takes as it is meant, or that is set to what it is. -/
def IdTaken (id old : UInt32) : Prop := id = unchangedId ∨ id.toNat < 2 ^ 31 ∨ id = old

/-- A mode has no bits but permissions and those of the file's type, and ids are taken. -/
def Setter.Taken (a : Stat) : Setter → Prop
  | .chmod mode => mode &&& ~~~S_IALLUGO &&& ~~~(a.stMode &&& Inode.S_IFMT) = 0
  | .chown uid gid => IdTaken uid a.stUid ∧ IdTaken gid a.stGid
  | .utimens _ _ => True
  | .truncate _ => True

/-- Each call is taken, and the time of change shows after each of them. -/
def Shows (stat : Stat) : Stat → List (Timespec × Setter) → Prop
  | a, [] => CtimeShows stat a
  | a, e :: calls => CtimeShows stat a ∧ e.2.Taken a ∧ Shows stat (e.2.update e.1 a) calls

/-! ## One call -/

section

variable {pIno : Uuid} {i : RemoteTarget} {s : Led} {target : Inode}

/-- A section on the inode that keeps its number leaves the target where it is. -/
theorem Resolves.onTarget {α : Type} {f : OpenInode → α × OpenInode} (h : Resolves i s target)
    (hino : ∀ o, (f o).2.i.ino = o.i.ino) :
    ∃ o, o.i = target ∧
      Resolves i (Led.onTarget pIno i.targetIsParent i.fileName f s).2 (f o).2.i := by
  unfold Resolves at *
  by_cases hi : i.targetIsParent = true
  · simp only [hi, if_true] at h ⊢
    obtain ⟨hname, hnone, rfl⟩ := h
    exact ⟨s.openSelf pIno, rfl, hname, hnone, rfl⟩
  · simp only [hi] at h ⊢
    obtain ⟨c, hc, rfl⟩ := h
    refine ⟨s.openChild c, rfl, { c with inode := (f (s.openChild c)).2.i }, ?_, rfl⟩
    rw [Led.onTarget_child hc]
    show (s.table.setChildInode i.fileName (f (s.openChild c)).2.i).child i.fileName = _
    rw [DentryTable.child_setChild, hc, Option.map_some, if_pos ⟨rfl, (hino (s.openChild c)).symm⟩]

theorem Setter.apply_truncate_dir {ts : Timespec} {offset : UInt64}
    (hd : Inode.isDir target.core.iMode = true) :
    (truncate offset).apply ts target = target := if_pos hd

theorem Setter.apply_truncate {ts : Timespec} {offset : UInt64}
    (hd : ¬ Inode.isDir target.core.iMode = true) :
    (truncate offset).apply ts target =
      { target with core := { target.core with iSize := offset, iMtime := ts, iCtime := ts } } :=
  if_neg hd

/-- What a setter does to the inode it is for. -/
def Setter.body (ts : Timespec) : Setter → OpenInode → Reply × OpenInode
  | chmod mode, o => (⟨0, none⟩, localChmod o mode)
  | chown uid gid, o => (⟨0, none⟩, localChown o uid gid)
  | utimens atime mtime, o => (⟨0, none⟩, localUtimens o ts atime mtime)
  | truncate offset, o => (⟨(localTruncate o offset ts).1, none⟩, (localTruncate o offset ts).2)

theorem Setter.here_eq (ts : Timespec) (c : Setter) :
    c.call.here pIno ts i = Led.onTarget pIno i.targetIsParent i.fileName (c.body ts) := by
  match c with
  | .chmod mode => rfl
  | .chown uid gid => rfl
  | .utimens atime mtime => rfl
  | .truncate offset => rfl

theorem Setter.body_i (ts : Timespec) (c : Setter) (o : OpenInode) :
    (c.body ts o).2.i = c.apply ts o.i := by
  match c with
  | .chmod mode => exact OpenInode.record_i _
  | .chown uid gid => exact OpenInode.record_i _
  | .utimens atime mtime => exact OpenInode.record_i _
  | .truncate offset =>
      by_cases hd : Inode.isDir o.i.core.iMode = true
      · rw [apply_truncate_dir hd]
        exact congrArg (fun r : Int × OpenInode => r.2.i) (if_pos hd)
      · rw [apply_truncate hd]
        exact (congrArg (fun r : Int × OpenInode => r.2.i) (if_neg hd)).trans (OpenInode.record_i _)

theorem Setter.apply_ino (ts : Timespec) (c : Setter) : (c.apply ts target).ino = target.ino := by
  match c with
  | .chmod mode => rfl
  | .chown uid gid => rfl
  | .utimens atime mtime => rfl
  | .truncate offset =>
      by_cases hd : Inode.isDir target.core.iMode = true
      · rw [apply_truncate_dir hd]
      · rw [apply_truncate hd]
        rfl

/-- The leader after a call. -/
theorem Resolves.perform (h : Resolves i s target) (e : Timespec × Setter) :
    Resolves i (Setter.perform pIno i s e) (e.2.apply e.1 target) := by
  have hino : ∀ o, (e.2.body e.1 o).2.i.ino = o.i.ino := by
    intro o
    rw [Setter.body_i, Setter.apply_ino]
  obtain ⟨o, rfl, hr⟩ := @Resolves.onTarget pIno i s target _ _ h hino
  rw [Setter.body_i, ← Setter.here_eq] at hr
  exact hr

/-- What `getattr` fills in, on either way. -/
theorem readsBack_iff (h : Resolves i s target) (stat a : Stat) :
    ReadsBack pIno i s stat a ↔ target.fillStat stat = a := by
  obtain ⟨o, close, hf, rfl⟩ := @focus_of_resolves pIno i s target h
  have hhere : ∀ ts, (AttributeCall.getattr stat).here pIno ts i s =
      (.ok ⟨0, some (o.i.fillStat stat)⟩, s) := fun _ => Op.bind_ok hf.targetInode
  have hremote : ∀ ts, (AttributeCall.getattr stat).remote pIno ts i s =
      (.ok ⟨0, some (o.i.fillStat stat)⟩, s) := by
    intro ts
    rw [getattr_same hf stat]
    exact hhere ts
  constructor
  · intro hr
    have heq := (hhere ⟨0, 0⟩).symm.trans (hr ⟨0, 0⟩).1
    have hreply := Except.ok.inj (congrArg Prod.fst heq)
    exact Option.some.inj (congrArg Reply.stat hreply)
  · rintro rfl
    exact fun ts => ⟨hhere ts, hremote ts⟩

end

/-! ## The record and the inode -/

/-- Only the time of change can be off. -/
theorem fillStat_eq_iff {target : Inode} {stat a : Stat} (hc : a.stCtim = target.core.iCtime) :
    target.fillStat stat = a ↔ recordOf target = a ∧ CtimeShows stat a := by
  have hfill : target.fillStat stat =
      { recordOf target with stCtim := ⟨target.core.iCtime.tvNsec, stat.stCtim.tvNsec⟩ } := rfl
  have hrecord : recordOf target = { recordOf target with stCtim := target.core.iCtime } := rfl
  obtain ⟨mode, uid, gid, ino, nlink, size, atim, mtim, ctim⟩ := a
  dsimp only at hc
  subst hc
  rw [hfill, hrecord]
  unfold CtimeShows
  obtain ⟨sec, nsec⟩ := target.core.iCtime
  simp only [Stat.mk.injEq, Timespec.mk.injEq]
  constructor
  · intro ⟨h1, h2, h3, h4, h5, h6, h7, h8, hsec, hnsec⟩
    exact ⟨⟨h1, h2, h3, h4, h5, h6, h7, h8, trivial⟩, hsec.symm, hnsec⟩
  · intro ⟨⟨h1, h2, h3, h4, h5, h6, h7, h8, _⟩, hsec, hnsec⟩
    exact ⟨h1, h2, h3, h4, h5, h6, h7, h8, hsec.symm, hnsec⟩

/-- The bits that `|` leaves over. -/
theorem or_eq_and_or_iff (m p t : UInt32) :
    m ||| t = (m &&& p) ||| t ↔ m &&& ~~~p &&& ~~~t = 0 := by
  rw [← UInt32.toBitVec_inj, ← UInt32.toBitVec_inj]
  simp only [UInt32.toBitVec_or, UInt32.toBitVec_and, UInt32.toBitVec_not]
  constructor
  · intro h
    ext k hk
    have hbit := congrArg (fun x => x[k]) h
    simp at hbit ⊢
    grind
  · intro h
    ext k hk
    have hbit := congrArg (fun x => x[k]) h
    simp at hbit ⊢
    grind

theorem id_eq_iff (id old : UInt32) :
    (if id.toNat < 2 ^ 31 then id else old) = (if id = unchangedId then old else id) ↔
      IdTaken id old := by
  have hneg : ¬ unchangedId.toNat < 2 ^ 31 := by decide
  by_cases hu : id = unchangedId
  · subst hu
    rw [if_neg hneg, if_pos rfl]
    exact iff_of_true rfl (Or.inl rfl)
  · rw [if_neg hu]
    by_cases hlt : id.toNat < 2 ^ 31
    · rw [if_pos hlt]
      exact iff_of_true rfl (Or.inr (Or.inl hlt))
    · rw [if_neg hlt]
      constructor
      · exact fun h => Or.inr (Or.inr h.symm)
      · intro h
        obtain h | h | h := h
        · exact absurd h hu
        · exact absurd h hlt
        · exact h.symm

/-- A call does to the record what it does to the inode, if it is taken. -/
theorem apply_update_iff (ts : Timespec) (target : Inode) (c : Setter) :
    recordOf (c.apply ts target) = c.update ts (recordOf target) ↔ c.Taken (recordOf target) := by
  match c with
  | .chmod mode =>
      refine Iff.trans ?_ (or_eq_and_or_iff mode S_IALLUGO _)
      constructor
      · exact fun h => congrArg Stat.stMode h
      · exact fun h => congrArg (fun m => { recordOf target with stMode := m }) h
  | .chown uid gid =>
      refine Iff.trans ?_ (and_congr (id_eq_iff uid _) (id_eq_iff gid _))
      constructor
      · exact fun h => ⟨congrArg Stat.stUid h, congrArg Stat.stGid h⟩
      · exact fun h => congrArg₂ (fun u g => { recordOf target with stUid := u, stGid := g }) h.1 h.2
  | .utimens atime mtime => exact iff_of_true rfl trivial
  | .truncate offset =>
      refine iff_of_true ?_ trivial
      by_cases hd : Inode.isDir target.core.iMode = true
      · rw [Setter.apply_truncate_dir hd]
        exact (if_pos hd).symm
      · rw [Setter.apply_truncate hd]
        exact (if_neg hd).symm

/-- The time of change is set where it should be. -/
theorem update_ctime (ts : Timespec) (target : Inode) (c : Setter) :
    (c.update ts (recordOf target)).stCtim = (c.apply ts target).core.iCtime := by
  match c with
  | .chmod mode => rfl
  | .chown uid gid => rfl
  | .utimens atime mtime => rfl
  | .truncate offset =>
      have h := (apply_update_iff ts target (.truncate offset)).mpr trivial
      rw [← h]
      rfl

/-! ## All calls -/

theorem forall_prefix_cons {α : Type} {P : List α → Prop} {a : α} {as : List α} :
    (∀ pre, pre <+: a :: as → P pre) ↔ P [] ∧ ∀ pre, pre <+: as → P (a :: pre) := by
  constructor
  · intro h
    exact ⟨h [] List.nil_prefix, fun pre hpre => h _ ((List.prefix_cons_inj a).mpr hpre)⟩
  · intro ⟨hnil, hcons⟩ pre hpre
    match pre with
    | [] => exact hnil
    | b :: pre =>
        obtain ⟨rfl, htail⟩ := List.cons_prefix_cons.mp hpre
        exact hcons pre htail

/-- The record read back after any number of the calls, starting from `a`. -/
def ReadsBackAll (pIno : Uuid) (i : RemoteTarget) (s : Led) (stat a : Stat)
    (calls : List (Timespec × Setter)) : Prop :=
  ∀ pre, pre <+: calls → ReadsBack pIno i (pre.foldl (Setter.perform pIno i) s) stat (updates a pre)

/-- After every one of the calls `getattr` reads back the record, if and only if each call is taken
    and the times of change show. -/
theorem attributes_read_back_iff (pIno : Uuid) (i : RemoteTarget) (s : Led) (target : Inode)
    (h : Resolves i s target) (stat : Stat) (calls : List (Timespec × Setter)) :
    ReadsBackAll pIno i s stat (recordOf target) calls ↔ Shows stat (recordOf target) calls := by
  have hnow : ∀ s target, Resolves i s target →
      (ReadsBack pIno i s stat (recordOf target) ↔ CtimeShows stat (recordOf target)) := by
    intro s target h
    rw [readsBack_iff h, fillStat_eq_iff rfl]
    exact and_iff_right rfl
  unfold ReadsBackAll
  induction calls generalizing s target with
  | nil =>
      simp only [List.prefix_nil, forall_eq]
      exact hnow s target h
  | cons e calls ih =>
      have hnext := @Resolves.perform pIno i s target h e
      rw [forall_prefix_cons]
      refine and_congr (hnow s target h) ?_
      constructor
      · intro hall
        have hfirst := (readsBack_iff hnext _ _).mp (hall [] List.nil_prefix)
        have heq := ((fillStat_eq_iff (update_ctime e.1 target e.2)).mp hfirst).1
        refine ⟨(apply_update_iff e.1 target e.2).mp heq, ?_⟩
        rw [← heq]
        apply (ih _ _ hnext).mp
        rw [heq]
        exact hall
      · intro ⟨htaken, hshows⟩
        have heq := (apply_update_iff e.1 target e.2).mpr htaken
        rw [← heq] at hshows
        have hrest := (ih _ _ hnext).mpr hshows
        rw [heq] at hrest
        exact hrest

/-- The buffer as libfuse gives it. -/
def blank : Stat := ⟨0, 0, 0, 0, 0, 0, ⟨0, 0⟩, ⟨0, 0⟩, ⟨0, 0⟩⟩

/-- Permissions, an owner and times of a directory. -/
def settings : List (Timespec × Setter) :=
  [(⟨1, 2⟩, .chmod 0x1C0), (⟨2, 3⟩, .chown 1000 unchangedId),
    (⟨3, 4⟩, .utimens ⟨5, 6⟩ ⟨0, UTIME_OMIT⟩), (⟨4, 5⟩, .utimens ⟨0, UTIME_NOW⟩ ⟨7, 8⟩)]

theorem attributes_read_back_iff_settings :
    ReadsBackAll Uuid.rootIno remoteHome homeDir blank (recordOf Creation.homeInode) settings := by
  refine (attributes_read_back_iff Uuid.rootIno remoteHome homeDir Creation.homeInode resolves_home
    blank settings).mpr ?_
  exact ⟨⟨rfl, rfl⟩, rfl, ⟨rfl, rfl⟩, ⟨Or.inr (Or.inl (by decide)), Or.inl rfl⟩, ⟨rfl, rfl⟩,
    trivial, ⟨rfl, rfl⟩, trivial, ⟨rfl, rfl⟩⟩

/-- A directory that was changed 7.000000005 seconds after the epoch. -/
def changedInode : Inode :=
  { Creation.homeInode with core := { Creation.homeInode.core with iCtime := ⟨7, 5⟩ } }

def changedDir : Led := ⟨.ofNew changedInode, ∅, ∅⟩

/-- The time of change comes out as 5 s. An owner from 2^31 on is not set, and a directory takes the
    type of a file. -/
theorem attributes_misread :
    (∀ ts, (AttributeCall.getattr blank).here Uuid.rootIno ts remoteHome changedDir =
      (.ok ⟨0, some { recordOf changedInode with stCtim := ⟨5, 0⟩ }⟩, changedDir)) ∧
    ¬ ReadsBackAll Uuid.rootIno remoteHome changedDir blank (recordOf changedInode) [] ∧
    ¬ ReadsBackAll Uuid.rootIno remoteHome homeDir blank (recordOf Creation.homeInode)
      [(⟨1, 0⟩, .chown 0x80000000 unchangedId)] ∧
    ¬ ReadsBackAll Uuid.rootIno remoteHome homeDir blank (recordOf Creation.homeInode)
      [(⟨1, 0⟩, .chmod 0x81A4)] := by
  have hchanged : Resolves remoteHome changedDir changedInode := ⟨rfl, rfl, rfl⟩
  refine ⟨fun _ => rfl, fun h => ?_, fun h => ?_, fun h => ?_⟩
  · have hread := (readsBack_iff hchanged _ _).mp (h [] List.nil_prefix)
    exact absurd hread (by decide)
  · have hread := (readsBack_iff (resolves_home.perform _) _ _).mp (h _ (List.prefix_refl _))
    exact absurd hread (by decide)
  · have hread := (readsBack_iff (resolves_home.perform _) _ _).mp (h _ (List.prefix_refl _))
    exact absurd hread (by decide)

end AttributeRequests

end Nmfs
