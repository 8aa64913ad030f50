import Nmfs.Fs.VolumeSteps

/-
  What the clients tell the journals, and what every pending transaction has in it, whoever led the
  directory and whatever became of it.
-/

namespace Nmfs

open Lib RadosIo Cluster

namespace JournalTable

variable {G G' : Uuid → Transaction.Mutation → Prop} {jtable jtable' jtable'' : JournalTable}

theorem Records.mono (h : Records G jtable jtable') (hG : ∀ d m, G d m → G' d m) :
    Records G' jtable jtable' :=
  h.invariant (I := Records G' jtable) (fun _ _ _ hj hm => hj.record (hG _ _ hm)) .refl

theorem Records.trans (h : Records G jtable jtable') (h' : Records G jtable' jtable'') :
    Records G jtable jtable'' :=
  h'.invariant (I := Records G jtable) (fun _ _ _ hj hm => hj.record hm) h

end JournalTable

namespace Volume

/-- The calls that a directory hears of. -/
inductive Spoken : Uuid → Transaction.Mutation → Prop
  | call {dir : Uuid} {m : Transaction.Mutation} (hm : Calls (fun _ => True) dir dir m) :
    Spoken dir m
  | mkself {i : Inode} : Spoken i.ino (.mkself i)
  | rmself {dir : Uuid} : Spoken dir .rmself

/-- Every pending transaction is one of its directory. -/
def Told (jtable : JournalTable) : Prop :=
  ∀ dir tx, jtable.lookup dir = some tx → TxOk (fun _ => True) dir tx

section

variable {jtable jtable' : JournalTable} {dir : Uuid} {m : Transaction.Mutation}

theorem spoken_of_calls {P : Uuid → Prop}
    (h : JournalTable.Records (Calls P dir) jtable jtable') :
    JournalTable.Records Spoken jtable jtable' := by
  refine h.mono fun d m hm => ?_
  obtain ⟨rfl, hm⟩ := hm.mono (Q := fun _ => True) fun _ _ => trivial
  exact .call hm

theorem Told.getEntry (h : Told jtable) (dir : Uuid) :
    TxOk (fun _ => True) dir (jtable.getEntry dir) := by
  unfold JournalTable.getEntry
  cases hl : jtable.lookup dir with
  | none => exact txOk_new
  | some tx => exact h dir tx hl

theorem TxOk.spoken {tx : Transaction} (h : TxOk (fun _ => True) dir tx) (hm : Spoken dir m) :
    TxOk (fun _ => True) dir (m.apply tx).2 := by
  have hcomes := Transaction.apply_comesTo tx m
  generalize m.apply tx = r at hcomes ⊢
  cases hm with
  | call hm => exact (h.comesTo hm hcomes).1
  | mkself =>
      cases hcomes with
      | turnedAway => exact h
      | mkself => exact h.withSelf rfl .S_CREATED
      | refused _ _ hm => cases hm
  | rmself =>
      cases hcomes with
      | turnedAway => exact h
      | rmself => exact ⟨h.sIno, h.nameOk, h.self, h.files⟩
      | refused _ _ hm => cases hm

theorem Told.records (h : Told jtable) (hr : JournalTable.Records Spoken jtable jtable') :
    Told jtable' := by
  refine hr.invariant (fun j d m hj hm u tx hl => ?_) h
  have hl' : (j.insert d (m.apply (j.getEntry d)).2).lookup u = some tx := hl
  rcases lookup_insert_eq_some hl' with ⟨rfl, rfl⟩ | ⟨-, hl'⟩
  · exact (hj.getEntry _).spoken hm
  · exact hj u tx hl'

/-- What is left of a table has been in it. -/
theorem lookup_erase_some {d : Uuid} {tx : Transaction}
    (hl : (jtable.erase dir).lookup d = some tx) : jtable.lookup d = some tx := by
  by_cases hd : d = dir
  · rw [hd, AList.lookup_erase] at hl
    cases hl
  · rwa [AList.lookup_erase_ne hd] at hl

end

variable {C : Type} [DecidableEq C] {s s' : Volume C} {dir : Uuid}

theorem update_jtable {I : C → JournalTable → Prop} {jtables : C → JournalTable}
    (h : ∀ c, I c (jtables c)) {c : C} {jtable : JournalTable} (hj : I c jtable) :
    ∀ c', I c' (Function.update jtables c jtable c') :=
  (Function.forall_update_iff jtables I).mpr ⟨hj, fun c' _ => h c'⟩

/-! ## Steps -/

theorem records_put {cluster : Cluster C} {led led' : Led} {P : Uuid → Prop}
    (hl : cluster.led dir = some led) (ht : led'.Tells P dir led.jtable) (c : C) :
    JournalTable.Records Spoken (cluster.jtables c) ((cluster.put dir led').jtables c) := by
  obtain ⟨-, hj, -⟩ := led_eq_some.mp hl
  refine update_jtable (I := fun c => JournalTable.Records Spoken (cluster.jtables c))
    (fun c => .refl) ?_ c
  rw [← hj]
  exact spoken_of_calls ht.records

/-- `mkdir` in a directory that is led. -/
theorem records_mkdir (htidy : s.Tidy) {led : Led} (hl : s.cluster.led dir = some led) {me : C}
    {env : Env} {name : Bytes} {mode : UInt32} {born : Timespec} (hname : Refinement.IsName name)
    (hf : env.newIno ∉ s.used) (c : C) :
    JournalTable.Records Spoken (s.cluster.jtables c)
      ((FuseOps.mkdirIn me env dir name mode born s.cluster).2.jtables c) := by
  obtain ⟨born', heq⟩ := @FuseOps.mkdirIn_eq C _ s.cluster me dir led env name mode born hl
  have htells := mkdirSection_tells htidy hl hname.1 hf (s.cluster.leader dir = me) mode
  rw [heq]
  revert htells
  generalize FuseOps.mkdirSection (s.cluster.leader dir = me) env name mode led = r
  obtain ⟨r, led'⟩ := r
  intro htells
  have hput := records_put hl htells
  cases r with
  | error e => exact hput c
  | ok u =>
      refine update_jtable
        (I := fun c => JournalTable.Records Spoken (s.cluster.jtables c)) hput ?_ c
      exact (hput me).record (.mkself (i := FuseOps.newDirInode env mode born'))

theorem records_rmdir (htidy : s.Tidy) {me : C} {name : Bytes} {ts : Timespec}
    (hname : Refinement.IsName name) (c : C) :
    JournalTable.Records Spoken (s.cluster.jtables c)
      ((FuseOps.rmdirIn me dir name ts s.cluster).2.jtables c) := by
  have hrmdirs : FuseOps.Rmdirs dir name ts s.cluster
    (FuseOps.rmdirIn me dir name ts s.cluster).2 := FuseOps.rmdirIn_rmdirs
  rcases Cluster.Tidy.rmdirs htidy hname hrmdirs with heq | ⟨ino, led, top, led', hr⟩
  · rw [heq]
    exact .refl
  · have htop : ∀ c, JournalTable.Records Spoken (s.cluster.jtables c)
        ((FuseOps.topped s.cluster ino top).jtables c) := by
      intro c
      rw [jtables_topped hr.child]
      split
      · exact .record .refl .rmself
      · exact .refl
    have htells : (DirectoryOps.rmdirDown ts ino name led').2.Tells (Has led' []) dir
        led'.jtable := Sections.tells_rmdirDown hname.1 led'
      ((Cluster.Tidy.topped htidy ino hr.child).tells hr.next fun n u hn => .inl ⟨n, hn⟩)
    rw [hr.eq]
    exact (htop c).trans (records_put hr.next htells c)

/-- All that a step tells the journals, where no commit thread takes them. -/
theorem records_step (htidy : s.Tidy) {a : Action C} (ha : Legal s a) (hs : step s a = some s')
    (hne : ∀ me, a ≠ .replace me) (c : C) :
    JournalTable.Records Spoken (s.cluster.jtables c) (s'.cluster.jtables c) := by
  cases a with
  | replace me => exact absurd rfl (hne me)
  | perform dir o =>
      obtain ⟨led, hl, rfl⟩ := Option.map_eq_some_iff.mp hs
      exact records_put hl (perform_tells htidy hl (ha led hl)) c
  | mkdir me env dir name mode born =>
      cases hs
      cases hl : s.cluster.led dir with
      | none =>
          rw [FuseOps.mkdirIn_absent hl]
          exact .refl
      | some led => exact records_mkdir htidy hl ha.1 ha.2.2 c
  | rmdir me dir name ts =>
      cases hs
      exact records_rmdir htidy ha c
  | handle i pIno change =>
      cases hs
      refine update_jtable (I := fun c => JournalTable.Records Spoken (s.cluster.jtables c))
        (fun c => .refl) ?_ c
      exact spoken_of_calls (handled_calls ha.1 ha.2)
  | commit dir =>
      obtain ⟨tx, hc⟩ := commits_of_step hs
      rw [hc.cluster]
      exact .refl
  | checkpoint dir =>
      obtain ⟨tx, hc⟩ := checkpoints_of_step hs
      rw [hc.cluster.1]
      exact .refl

/-- No step of the clients puts anything else into a transaction. -/
theorem told_step (h : ∀ c, Told (s.cluster.jtables c)) (htidy : s.Tidy) {a : Action C}
    (ha : Legal s a) (hs : step s a = some s') (c : C) : Told (s'.cluster.jtables c) := by
  by_cases hne : ∃ me, a = .replace me
  · obtain ⟨me, rfl⟩ := hne
    obtain ⟨-, rfl⟩ := replace_of_step hs
    exact update_jtable (I := fun _ => Told) h (fun d tx hl => by cases hl) c
  · exact (h c).records (records_step htidy ha hs (fun me heq => hne ⟨me, heq⟩) c)

/-- What the commit threads have comes from the journals. -/
theorem cycle_of_step {a : Action C} (hs : step s a = some s') {c : C} {d : Uuid}
    {tx : Transaction} (hl : (s'.cycle c).lookup d = some tx) :
    (s.cycle c).lookup d = some tx ∨ (s.cluster.jtables c).lookup d = some tx := by
  cases a with
  | perform dir o =>
      obtain ⟨led, -, rfl⟩ := Option.map_eq_some_iff.mp hs
      exact .inl hl
  | mkdir me env dir name mode born =>
      cases hs
      exact .inl hl
  | rmdir me dir name ts =>
      cases hs
      exact .inl hl
  | handle i pIno change =>
      cases hs
      exact .inl hl
  | replace me =>
      obtain ⟨-, rfl⟩ := replace_of_step hs
      dsimp only at hl
      by_cases hc : c = me
      · rw [hc, Function.update_self] at hl
        exact .inr (hc ▸ hl)
      · rw [Function.update_of_ne hc] at hl
        exact .inl hl
  | commit dir =>
      obtain ⟨tx', hc⟩ := commits_of_step hs
      rw [hc.cycle] at hl
      by_cases hl' : c = s.cluster.leader dir
      · rw [hl', Function.update_self] at hl
        exact .inl (hl' ▸ lookup_erase_some hl)
      · rw [Function.update_of_ne hl'] at hl
        exact .inl hl
  | checkpoint dir =>
      obtain ⟨tx', hc⟩ := checkpoints_of_step hs
      rw [hc.cluster.2] at hl
      exact .inl hl

theorem told_cycle_step (hj : ∀ c, Told (s.cluster.jtables c)) (h : ∀ c, Told (s.cycle c))
    {a : Action C} (hs : step s a = some s') (c : C) : Told (s'.cycle c) :=
  fun d tx hl => (cycle_of_step hs hl).elim (h c d tx) (hj c d tx)

end Volume

end Nmfs
