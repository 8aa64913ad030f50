import Nmfs.Fs.VolumeSteps

/-
  Checkpoints of whatever the clients have done. A transaction that changes a directory needs the
  DENTRY object, and `rmself` removes it; a call that comes after the transaction with `rmself` has
  been committed makes another transaction. And a transaction of the parent may have the inode of a
  directory among its files, and writes it after `rmself` has removed it.
-/

namespace Nmfs

open Lib RadosIo Cluster

namespace Volume

/-! ## The transactions of a directory -/

section

variable {pool pool' : Pool} {dir : Uuid}

/-- The states of the transactions that wait for a checkpoint, the oldest first: `rmself` is the
    last one, and the DENTRY object is there when the first one needs it. -/
structure Ordered (pool : Pool) (erased removed : List Uuid) (led : Prop) (dir : Uuid)
    (states : List SelfStatus) : Prop where
  last : .S_DELETED ∉ states.dropLast
  unchanged : states.head? = some .S_UNCHANGED → Spelled pool dir
  synced : led → states = [] → Spelled pool dir
  gone : dir ∈ removed ↔ dir ∈ erased ∨ .S_DELETED ∈ states
  done : dir ∈ erased → states = [] ∧ Absent pool dir
  unborn : ¬ led → dir ∉ removed → states = []

variable {erased removed : List Uuid} {led : Prop} {states : List SelfStatus}

theorem Ordered.not_deleted (h : Ordered pool erased removed led dir states)
    (hr : dir ∉ removed) : dir ∉ erased ∧ .S_DELETED ∉ states :=
  not_or.mp fun hor => hr (h.gone.mpr hor)

theorem Ordered.grown (h : Ordered pool erased removed led dir states) (hled : led)
    (hr : dir ∉ removed) :
    Ordered pool erased removed led dir (states ++ [.S_UNCHANGED]) := by
  obtain ⟨herased, hdeleted⟩ := h.not_deleted hr
  refine ⟨?_, fun hhead => ?_, fun _ hnil => ?_, ?_, fun he => absurd he herased,
    fun hnot => absurd hled hnot⟩
  · rwa [List.dropLast_concat]
  · cases states with
    | nil => exact h.synced hled rfl
    | cons x states => exact h.unchanged hhead
  · exact absurd hnil (List.concat_ne_nil _ _)
  · simp [hr, herased, hdeleted]

theorem Ordered.born (h : Ordered pool erased removed led dir states) (hled : ¬ led)
    (hr : dir ∉ removed) : states = [] ∧ Ordered pool erased removed True dir [.S_CREATED] := by
  obtain ⟨herased, -⟩ := h.not_deleted hr
  refine ⟨h.unborn hled hr, List.not_mem_nil, fun hhead => (nomatch hhead),
    fun _ hnil => (nomatch hnil), ?_, fun he => absurd he herased, fun hnot => absurd trivial hnot⟩
  simp [hr, herased]

theorem Ordered.ended (h : Ordered pool erased removed led dir states) (hr : dir ∉ removed)
    (init : List SelfStatus) (hinit : states = init ∨ ∃ x, states = init ++ [x]) :
    Ordered pool erased (dir :: removed) False dir (init ++ [.S_DELETED]) := by
  obtain ⟨herased, hdeleted⟩ := h.not_deleted hr
  refine ⟨?_, fun hhead => ?_, fun hf => hf.elim, ?_, fun he => absurd he herased,
    fun _ hnot => absurd List.mem_cons_self hnot⟩
  · rw [List.dropLast_concat]
    rcases hinit with rfl | ⟨x, rfl⟩
    · exact hdeleted
    · exact fun hmem => hdeleted (List.mem_append_left _ hmem)
  · cases init with
    | nil => cases hhead
    | cons y init =>
        refine h.unchanged ?_
        rcases hinit with rfl | ⟨x, rfl⟩ <;> exact hhead
  · simp

theorem Ordered.written {state : SelfStatus}
    (h : Ordered pool erased removed led dir (state :: states)) (hs : state ≠ .S_DELETED)
    (hd : Spelled pool' dir) : Ordered pool' erased removed led dir states := by
  refine ⟨fun hmem => h.last ?_, fun _ => hd, fun _ _ => hd, ?_,
    fun he => (nomatch (h.done he).1), fun hled hr => (nomatch h.unborn hled hr)⟩
  · cases states with
    | nil => cases hmem
    | cons x states => exact List.mem_cons_of_mem _ hmem
  · rw [h.gone, List.mem_cons]
    simp [hs.symm]

/-- Nothing comes after `rmself`. -/
theorem Ordered.nil_of_deleted
    (h : Ordered pool erased removed led dir (.S_DELETED :: states)) : states = [] := by
  cases states with
  | nil => rfl
  | cons x states => exact absurd List.mem_cons_self h.last

theorem Ordered.deleted (h : Ordered pool erased removed led dir (.S_DELETED :: states))
    (hled : led → dir ∉ removed) (ha : Absent pool' dir) :
    Ordered pool' (dir :: erased) removed led dir states := by
  have hr : dir ∈ removed := h.gone.mpr (.inr List.mem_cons_self)
  rw [h.nil_of_deleted]
  refine ⟨List.not_mem_nil, fun hhead => (nomatch hhead), fun hl _ => absurd hr (hled hl), ?_,
    fun _ => ⟨rfl, ha⟩, fun _ _ => rfl⟩
  simp [hr]

/-- Another directory does not touch it. -/
theorem Ordered.frame {erased' removed' : List Uuid} {led' : Prop}
    (h : Ordered pool erased removed led dir states) (hs : Spelled pool dir → Spelled pool' dir)
    (ha : dir ∈ erased → Absent pool dir → Absent pool' dir) (he : dir ∈ erased' ↔ dir ∈ erased)
    (hr : dir ∈ removed' ↔ dir ∈ removed) (hl : led' ↔ led) :
    Ordered pool' erased' removed' led' dir states := by
  refine ⟨h.last, fun hhead => hs (h.unchanged hhead), fun hled hnil => hs (h.synced ?_ hnil), ?_,
    fun hd => ?_, fun hled hnot => h.unborn ?_ ?_⟩
  · exact hl.mp hled
  · rw [hr, he, h.gone]
  · obtain ⟨hnil, habs⟩ := h.done (he.mp hd)
    exact ⟨hnil, ha (he.mp hd) habs⟩
  · exact fun hled' => hled (hl.mpr hled')
  · exact fun hold => hnot (hr.mpr hold)

end

/-! ## All directories -/

variable {C : Type} [DecidableEq C] {s s' : Volume C} {dir ino : Uuid}

structure InOrder (s : Volume C) : Prop where
  stored : WellStored s.pool
  keys : ∀ c u tx, (s.cluster.jtables c).lookup u = some tx → u ∈ s.used
  cycleKeys : ∀ c u tx, (s.cycle c).lookup u = some tx → u ∈ s.used
  txs : ∀ dir, ∀ tx ∈ s.line dir, TxOk (· ∉ s.erased) dir tx
  ordered : ∀ dir, Ordered s.pool s.erased s.removed ((s.cluster.tables dir).isSome = true) dir
    ((s.line dir).map Transaction.status)

/-- The journal of the directory's leader has heard of it. -/
structure Hears (s : Volume C) (dir : Uuid) (cluster : Cluster C) : Prop where
  here : Heard (· ∉ s.erased) dir (s.cluster.jtables (s.cluster.leader dir))
    (cluster.jtables (s.cluster.leader dir))
  others : ∀ c, c ≠ s.cluster.leader dir → cluster.jtables c = s.cluster.jtables c
  leader : cluster.leader = s.cluster.leader
  tables : ∀ d, (cluster.tables d).isSome = (s.cluster.tables d).isSome

theorem heard_line {live : Uuid → Prop} {queue : List Transaction} {o o' : Option Transaction}
    (h : o' = o ∨ ∃ tx, o' = some tx ∧ TxOk live dir tx ∧
      tx.status = (o.getD (Transaction.new dir)).status) :
    (∀ tx ∈ queue ++ o'.toList, tx ∈ queue ++ o.toList ∨ TxOk live dir tx) ∧
      ((queue ++ o'.toList).map Transaction.status = (queue ++ o.toList).map Transaction.status ∨
        o = none ∧ (queue ++ o'.toList).map Transaction.status =
          (queue ++ o.toList).map Transaction.status ++ [.S_UNCHANGED]) := by
  rcases h with rfl | ⟨tx, rfl, hok, hs⟩
  · exact ⟨fun tx htx => .inl htx, .inl rfl⟩
  refine ⟨fun t ht => ?_, ?_⟩
  · rcases List.mem_append.mp ht with hq | hlast
    · exact .inl (List.mem_append_left _ hq)
    · rw [List.mem_singleton.mp hlast]
      exact .inr hok
  · cases o with
    | none =>
        have hs' : tx.status = .S_UNCHANGED := hs
        exact .inr ⟨rfl, by simp [hs']⟩
    | some old =>
        have hs' : tx.status = old.status := hs
        exact .inl (by simp [hs'])

theorem Hears.pending_ne {cluster : Cluster C} (h : s.Hears dir cluster) {us : List Uuid} {d : Uuid}
    (hd : d ≠ dir) : pending { s with cluster, used := us } d = s.pending d := by
  show (cluster.jtables (cluster.leader d)).lookup d = _
  rw [h.leader]
  by_cases hc : s.cluster.leader d = s.cluster.leader dir
  · rw [hc, h.here.other d hd]
    unfold pending
    rw [hc]
  · rw [h.others _ hc]
    rfl

omit [DecidableEq C] in
theorem Hears.taken_eq {cluster : Cluster C} (h : s.Hears dir cluster) {us : List Uuid} (d : Uuid) :
    taken { s with cluster, used := us } d = s.taken d := by
  unfold taken waiting
  rw [h.leader]

theorem Hears.line_ne {cluster : Cluster C} (h : s.Hears dir cluster) {us : List Uuid} {d : Uuid}
    (hd : d ≠ dir) : line { s with cluster, used := us } d = s.line d := by
  unfold line
  rw [h.taken_eq, h.pending_ne hd]

theorem Hears.keys {cluster : Cluster C} (hin : s.InOrder) (h : s.Hears dir cluster)
    {us : List Uuid} (hus : ∀ u ∈ s.used, u ∈ us) (hdir : dir ∈ us) :
    ∀ c u tx, (cluster.jtables c).lookup u = some tx → u ∈ us := by
  intro c u tx htx
  by_cases hc : c = s.cluster.leader dir
  · by_cases hu : u = dir
    · rwa [hu]
    · rw [hc, h.here.other u hu] at htx
      exact hus u (hin.keys _ u tx htx)
  · rw [h.others c hc] at htx
    exact hus u (hin.keys c u tx htx)

/-- The directory is led, or it has a transaction with `rmself` that is not committed yet. -/
theorem InOrder.heard (h : s.InOrder) {cluster : Cluster C} (hc : s.Hears dir cluster)
    {us : List Uuid} (hus : ∀ u ∈ s.used, u ∈ us) (hdir : dir ∈ us)
    (hled : (s.cluster.tables dir).isSome = true ∧ dir ∉ s.removed ∨ (s.pending dir).isSome) :
    InOrder { s with cluster, used := us } := by
  have hhere := @heard_line dir (· ∉ s.erased) (s.taken dir) (s.pending dir) _ hc.here.here
  have hline : line { s with cluster, used := us } dir =
      s.taken dir ++ ((cluster.jtables (s.cluster.leader dir)).lookup dir).toList := by
    unfold line pending
    rw [hc.taken_eq, hc.leader]
  rw [← hline] at hhere
  refine ⟨h.stored, hc.keys h hus hdir, fun c u tx hu => hus u (h.cycleKeys c u tx hu),
    fun d tx htx => ?_, fun d => ?_⟩
  · by_cases hd : d = dir
    · subst hd
      exact (hhere.1 tx htx).elim (h.txs d tx) id
    · rw [hc.line_ne hd] at htx
      exact h.txs d tx htx
  · have hold := h.ordered d
    suffices hnew : Ordered s.pool s.erased s.removed ((s.cluster.tables d).isSome = true) d
        ((line { s with cluster, used := us } d).map Transaction.status) by
      refine hnew.frame id (fun _ => id) Iff.rfl Iff.rfl ?_
      show (cluster.tables d).isSome = true ↔ _
      rw [hc.tables]
    by_cases hd : d = dir
    · subst hd
      rcases hhere.2 with hsame | ⟨hnone, hgrown⟩
      · exact Eq.mpr (congrArg _ hsame) hold
      · obtain ⟨hl, hr⟩ := hled.resolve_right (by rw [hnone]; exact Bool.false_ne_true)
        exact Eq.mpr (congrArg _ hgrown) (hold.grown hl hr)
    · rw [hc.line_ne hd]
      exact hold

omit [DecidableEq C] in
theorem InOrder.getEntry_ok (h : s.InOrder) (dir : Uuid) :
    TxOk (· ∉ s.erased) dir ((s.cluster.jtables (s.cluster.leader dir)).getEntry dir) := by
  unfold JournalTable.getEntry
  cases hl : (s.cluster.jtables (s.cluster.leader dir)).lookup dir with
  | none => exact txOk_new
  | some tx => exact h.txs dir tx (List.mem_append_right _ (Option.mem_toList.mpr hl))

/-- `rmdir_top`: the last transaction of the directory has `rmself` now. -/
theorem InOrder.topped (h : s.InOrder) (hu : ∀ c, (s.cluster.jtables c).Uncommitted) {top : Led}
    (ht : s.cluster.led ino = some top) (hused : ino ∈ s.used) (hr : ino ∉ s.removed) :
    InOrder { s with
      cluster := FuseOps.topped s.cluster ino top
      removed := ino :: s.removed } := by
  let s' : Volume C := { s with
    cluster := FuseOps.topped s.cluster ino top
    removed := ino :: s.removed }
  show s'.InOrder
  have hjtable : ∀ c, s'.cluster.jtables c = if c = s.cluster.leader ino then
      ((s.cluster.jtables c).record ino .rmself).2 else s.cluster.jtables c := jtables_topped ht
  have hother : ∀ c d, d ≠ ino → (s'.cluster.jtables c).lookup d = (s.cluster.jtables c).lookup d := by
    intro c d hd
    rw [hjtable]
    split
    · exact AList.lookup_insert_ne hd
    · rfl
  obtain ⟨tx, htx, hok, hs⟩ : ∃ tx, s'.pending ino = some tx ∧ TxOk (· ∉ s.erased) ino tx ∧
      tx.status = .S_DELETED := by
    have hold := h.getEntry_ok ino
    refine ⟨{ (s.cluster.jtables (s.cluster.leader ino)).getEntry ino with status := .S_DELETED },
      ?_, ⟨hold.sIno, hold.nameOk, hold.self, hold.files⟩, rfl⟩
    show (s'.cluster.jtables (s.cluster.leader ino)).lookup ino = _
    rw [hjtable, if_pos rfl]
    refine (AList.lookup_insert _).trans ?_
    show some (Transaction.rmself _).2 = _
    rw [Transaction.rmself_eq (hu _ ino)]
  have hline : ∀ d, d ≠ ino → s'.line d = s.line d := fun d hd =>
    congrArg (s.taken d ++ ·.toList) (hother _ d hd)
  have hself : s'.line ino = s.taken ino ++ [tx] := congrArg (s.taken ino ++ ·.toList) htx
  refine ⟨h.stored, fun c u t ht => ?_, h.cycleKeys, fun d t ht => ?_, fun d => ?_⟩
  · by_cases hd : u = ino
    · exact hd ▸ hused
    · rw [hother c u hd] at ht
      exact h.keys c u t ht
  · by_cases hd : d = ino
    · subst hd
      rw [hself] at ht
      rcases List.mem_append.mp ht with hq | hlast
      · exact h.txs d t (List.mem_append_left _ hq)
      · rw [List.mem_singleton.mp hlast]
        exact hok
    · rw [hline d hd] at ht
      exact h.txs d t ht
  · have htables : ∀ d, d ≠ ino → s'.cluster.tables d = s.cluster.tables d := fun d hd =>
      (Function.update_of_ne hd _ _).trans (Function.update_of_ne hd _ _)
    by_cases hd : d = ino
    · subst hd
      rw [hself, List.map_append, List.map_singleton, hs]
      refine ((h.ordered d).ended hr _ ?_).frame id (fun _ => id) Iff.rfl Iff.rfl ?_
      · unfold line
        cases s.pending d with
        | none => exact .inl (congrArg _ (List.append_nil _))
        | some t => exact .inr ⟨t.status, List.map_append⟩
      · have hnone : s'.cluster.tables d = none := Function.update_self _ _ _
        rw [hnone]
        simp
    · rw [hline d hd]
      refine (h.ordered d).frame id (fun _ => id) Iff.rfl ?_ ?_
      · show d ∈ ino :: s.removed ↔ _
        simp [hd]
      · rw [htables d hd]

/-- A new directory's first transaction has `mkself`. -/
theorem InOrder.founded (h : s.InOrder) (me : C) {i : Inode} (hused : i.ino ∈ s.used)
    (hr : i.ino ∉ s.removed) (ht : s.cluster.tables i.ino = none)
    (hnone : ∀ c, (s.cluster.jtables c).lookup i.ino = none)
    (hcycle : ∀ c, (s.cycle c).lookup i.ino = none) :
    InOrder { s with cluster := FuseOps.founded me i s.cluster } := by
  let s' : Volume C := { s with cluster := FuseOps.founded me i s.cluster }
  show s'.InOrder
  have hjtable : ∀ c, s'.cluster.jtables c = if c = me then
      ((s.cluster.jtables c).record i.ino (.mkself i)).2 else s.cluster.jtables c :=
    jtables_founded s.cluster me i
  have hother : ∀ c d, d ≠ i.ino →
      (s'.cluster.jtables c).lookup d = (s.cluster.jtables c).lookup d := by
    intro c d hd
    rw [hjtable]
    split
    · exact AList.lookup_insert_ne hd
    · rfl
  have hleader : ∀ d, d ≠ i.ino → s'.cluster.leader d = s.cluster.leader d := fun d hd =>
    Function.update_of_ne hd _ _
  have hline : ∀ d, d ≠ i.ino → s'.line d = s.line d := by
    intro d hd
    have hpending : s'.pending d = s.pending d := by
      unfold pending
      rw [hleader d hd, hother _ d hd]
    have hwaiting : s'.waiting d = s.waiting d := by
      unfold waiting
      rw [hleader d hd]
    unfold line taken
    rw [hpending, hwaiting]
  obtain ⟨hnil, hborn⟩ := (h.ordered i.ino).born (by rw [ht]; exact Bool.false_ne_true) hr
  have hqueue : s.queues i.ino = [] :=
    (List.append_eq_nil_iff.mp (List.append_eq_nil_iff.mp (List.map_eq_nil_iff.mp hnil)).1).1
  let tx : Transaction := { Transaction.new i.ino with sInode := some i.copy, status := .S_CREATED }
  have hself : s'.line i.ino = [tx] := by
    have hp : s'.pending i.ino = some tx := by
      show (s'.cluster.jtables (Function.update s.cluster.leader i.ino me i.ino)).lookup i.ino = _
      rw [Function.update_self, hjtable, if_pos rfl]
      refine (AList.lookup_insert _).trans ?_
      unfold JournalTable.getEntry
      rw [hnone]
      rfl
    have hw : s'.waiting i.ino = none := hcycle _
    show s.queues i.ino ++ (s'.waiting i.ino).toList ++ (s'.pending i.ino).toList = _
    rw [hqueue, hw, hp]
    rfl
  refine ⟨h.stored, fun c u t hu => ?_, h.cycleKeys, fun d t htx => ?_, fun d => ?_⟩
  · by_cases hd : u = i.ino
    · exact hd ▸ hused
    · rw [hother c u hd] at hu
      exact h.keys c u t hu
  · by_cases hd : d = i.ino
    · rw [hd, hself] at htx
      rw [List.mem_singleton.mp htx, hd]
      exact txOk_new.withSelf rfl .S_CREATED
    · rw [hline d hd] at htx
      exact h.txs d t htx
  · by_cases hd : d = i.ino
    · rw [hd, hself]
      refine hborn.frame id (fun _ => id) Iff.rfl Iff.rfl ?_
      show (Function.update s.cluster.tables i.ino _ i.ino).isSome = true ↔ True
      rw [Function.update_self]
      simp
    · rw [hline d hd]
      refine (h.ordered d).frame id (fun _ => id) Iff.rfl Iff.rfl ?_
      show (Function.update s.cluster.tables i.ino _ d).isSome = true ↔ _
      rw [Function.update_of_ne hd]

/-! ## Commits and checkpoints -/

theorem Commits.line {tx : Transaction} (h : Commits s dir tx s') :
    s.line dir = s.queues dir ++ [tx] ++ (s.pending dir).toList ∧
    s'.line dir = s.queues dir ++ [{ tx with
      committed := true
      offset := (RadosIo.stat s.pool .journal tx.sIno.toStr).2 }] ++ (s.pending dir).toList ∧
    ∀ d, d ≠ dir → s'.line d = s.line d := by
  have hwaiting : ∀ d, s'.waiting d = if d = dir then none else s.waiting d := by
    intro d
    unfold Volume.waiting
    rw [h.cluster, h.cycle]
    by_cases hd : d = dir
    · rw [if_pos hd, hd, Function.update_self, AList.lookup_erase]
    · rw [if_neg hd]
      by_cases hc : s.cluster.leader d = s.cluster.leader dir
      · rw [hc, Function.update_self, AList.lookup_erase_ne hd]
      · rw [Function.update_of_ne hc]
  have hpending : s'.pending = s.pending := by
    unfold Volume.pending
    rw [h.cluster]
  unfold Volume.line Volume.taken
  rw [hwaiting, if_pos rfl, h.waiting, h.queues, Function.update_self, hpending]
  refine ⟨rfl, congrArg (· ++ _) (List.append_nil _), fun d hd => ?_⟩
  rw [hwaiting, if_neg hd, Function.update_of_ne hd]

theorem InOrder.commit (h : s.InOrder) {tx : Transaction} (hc : Commits s dir tx s') :
    s'.InOrder := by
  obtain ⟨hold, hnew, hother⟩ := hc.line
  obtain ⟨hused, hremoved, herased⟩ := hc.history
  obtain ⟨hstored, hspelled, habsent⟩ := h.stored.journal tx.sIno.toStr
    (List.length_pos_iff.mp (Nat.zero_lt_of_lt (Journal.serialize_pos tx)))
    (RadosIo.stat s.pool .journal tx.sIno.toStr).2
  rw [← hc.pool] at hstored hspelled habsent
  refine ⟨hstored, ?_, fun c u t hu => ?_, fun d t ht => ?_, fun d => ?_⟩
  · rw [hused, hc.cluster]
    exact h.keys
  · rw [hused]
    rw [hc.cycle] at hu
    by_cases hl : c = s.cluster.leader dir
    · rw [hl, Function.update_self] at hu
      by_cases hd : u = dir
      · rw [hd, AList.lookup_erase] at hu
        cases hu
      · rw [AList.lookup_erase_ne hd] at hu
        exact h.cycleKeys _ u t hu
    · rw [Function.update_of_ne hl] at hu
      exact h.cycleKeys c u t hu
  · rw [herased]
    by_cases hd : d = dir
    · subst hd
      have hok := h.txs d
      rw [hold] at hok
      rw [hnew] at ht
      simp only [List.mem_append, List.mem_singleton] at hok ht
      rcases ht with (hq | rfl) | hp
      · exact hok t (.inl (.inl hq))
      · obtain ⟨hsino, hname, hself, hfiles⟩ := hok tx (.inl (.inr rfl))
        exact ⟨hsino, hname, hself, hfiles⟩
      · exact hok t (.inr hp)
    · rw [hother d hd] at ht
      exact h.txs d t ht
  · rw [hremoved, herased, hc.cluster]
    have hstates : (s'.line d).map Transaction.status = (s.line d).map Transaction.status := by
      by_cases hd : d = dir
      · subst hd
        rw [hold, hnew]
        simp only [List.map_append, List.map_cons]
      · rw [hother d hd]
    rw [hstates]
    exact (h.ordered d).frame (hspelled d) (fun _ => habsent d) Iff.rfl Iff.rfl Iff.rfl

/-- `replace_map` does not change what there is. -/
theorem line_replace {me : C} (hs : step s (.replace me) = some s') : s'.line = s.line := by
  obtain ⟨hnil, rfl⟩ := replace_of_step hs
  have hempty : ∀ u, (s.cycle me).lookup u = none := by
    intro u
    unfold AList.lookup
    rw [hnil]
    rfl
  funext d
  unfold line taken waiting pending
  dsimp only
  by_cases hl : s.cluster.leader d = me
  · rw [hl, Function.update_self, Function.update_self, hempty, AList.lookup_empty]
    simp
  · rw [Function.update_of_ne hl, Function.update_of_ne hl]

theorem InOrder.replace (h : s.InOrder) {me : C} (hs : step s (.replace me) = some s') :
    s'.InOrder := by
  have hline := line_replace hs
  obtain ⟨-, rfl⟩ := replace_of_step hs
  refine ⟨h.stored, fun c u t hu => ?_, fun c u t hu => ?_, ?_, ?_⟩
  · dsimp only at hu
    by_cases hc : c = me
    · rw [hc, Function.update_self] at hu
      cases hu
    · rw [Function.update_of_ne hc] at hu
      exact h.keys c u t hu
  · dsimp only at hu
    by_cases hc : c = me
    · rw [hc, Function.update_self] at hu
      exact h.keys me u t hu
    · rw [Function.update_of_ne hc] at hu
      exact h.cycleKeys c u t hu
  · rw [hline]
    exact h.txs
  · rw [hline]
    exact h.ordered

omit [DecidableEq C] in
theorem Checkpoints.line {tx : Transaction} (h : Checkpoints s dir tx s') :
    s.line dir = tx :: s'.line dir ∧ ∀ d, d ≠ dir → s'.line d = s.line d := by
  obtain ⟨queue, hq, hq'⟩ := h.head
  have hpending : ∀ d, s'.pending d = s.pending d := by
    intro d
    unfold Volume.pending
    rw [h.cluster.1]
  have hwaiting : ∀ d, s'.waiting d = s.waiting d := by
    intro d
    unfold Volume.waiting
    rw [h.cluster.1, h.cluster.2]
  unfold Volume.line Volume.taken
  rw [hq, hq', Function.update_self, hpending, hwaiting]
  refine ⟨rfl, fun d hd => ?_⟩
  rw [Function.update_of_ne hd, hpending, hwaiting]

/-- The condition for a transaction of `dir` to be written. A DENTRY object is read in one piece, of
    4 MiB. No other transaction has the inode of a directory that is being removed. -/
structure Writable (s : Volume C) (dir : Uuid) (tx : Transaction) : Prop where
  fits : tx.status = .S_UNCHANGED →
    (RadosIo.stat s.pool .dentry dir.toStr).2 ≤ Dentry.MAX_DENTRY_OBJ_SIZE
  alone : tx.status = .S_DELETED →
    ∀ d, d ≠ dir → ∀ t ∈ s.line d, ∀ i, t.fInodes.lookup dir ≠ some (some i)

omit [DecidableEq C] in
/-- The transaction that comes first can be written. -/
theorem InOrder.sync_ok (h : s.InOrder) {tx : Transaction} {rest : List Transaction}
    (hl : s.line dir = tx :: rest) (hw : s.Writable dir tx) : (tx.sync s.pool).1 = .ok () := by
  have hok : TxOk (· ∉ s.erased) dir tx := h.txs dir tx (hl ▸ List.mem_cons_self)
  by_cases hs : tx.status = .S_DELETED
  · exact (sync_deleted hok.sIno h.stored hs).1
  · refine (sync_spelled hok h.stored hs fun hu => ⟨(h.ordered dir).unchanged ?_, hw.fits hu⟩).1
    rw [hl]
    exact congrArg some hu

omit [DecidableEq C] in
theorem InOrder.checkpoint (h : s.InOrder) (htidy : s.Tidy) {tx : Transaction}
    (hc : Checkpoints s dir tx s') (hw : s.Writable dir tx) : s'.InOrder := by
  obtain ⟨hline, hother⟩ := hc.line
  obtain ⟨hused, hremoved⟩ := hc.history
  have hok : TxOk (· ∉ s.erased) dir tx := h.txs dir tx (hline ▸ List.mem_cons_self)
  have hord := h.ordered dir
  rw [hline, List.map_cons] at hord
  have hdir : dir ∉ s.erased := fun he => (nomatch (hord.done he).1)
  have hsync : WellStored (tx.sync s.pool).2 := sync_wellStored h.stored
  obtain ⟨hstored, hspelled, habsent⟩ := hsync.journal tx.sIno.toStr
    (List.cons_ne_nil (0 : UInt8) []) tx.offset
  rw [← hc.pool] at hstored hspelled habsent
  have hframe : ∀ d, d ≠ dir → (Spelled s.pool d → Spelled s'.pool d) ∧
      (d ∈ s.erased → Absent s.pool d → Absent s'.pool d) := by
    intro d hd
    have hkey : ∀ c : ObjCategory, (c, d.toStr) ≠ (c, dir.toStr) := fun c heq =>
      hd (Uuid.toStr_inj (Prod.mk.inj heq).2)
    have hcat : ∀ (u : Uuid) {c c' : ObjCategory} {k : Str}, c ≠ c' → (c, k) ≠ (c', u.toStr) :=
      fun u _ _ _ hne heq => hne (Prod.mk.inj heq).1
    have hdentry : ∀ x, StoredAs s.pool .dentry d.toStr x →
        StoredAs (tx.sync s.pool).2 .dentry d.toStr x := fun x hx =>
      sync_storedAs hok (hkey _) (hcat _ (by decide)) (fun u _ => hcat u (by decide)) hx
    refine ⟨fun hs => hspelled d (spelled_of_dentry hdentry hs), fun he ha => habsent d ⟨?_, ?_⟩⟩
    · refine sync_storedAs hok (hcat _ (by decide)) (hkey _) (fun u hu heq => hu ?_) ha.inode
      rwa [← Uuid.toStr_inj (Prod.mk.inj heq).2]
    · exact hdentry _ ha.dentry
  have herased : ∀ d, d ≠ dir → (d ∈ s'.erased ↔ d ∈ s.erased) := by
    intro d hd
    rw [hc.erased]
    split
    · simp [hd]
    · rfl
  refine ⟨hstored, ?_, ?_, fun d t ht => ?_, fun d => ?_⟩
  · rw [hc.cluster.1, hused]
    exact h.keys
  · rw [hc.cluster.2, hused]
    exact h.cycleKeys
  · have hold : t ∈ s.line d := by
      by_cases hd : d = dir
      · rw [hd, hline]
        exact List.mem_cons_of_mem _ (hd ▸ ht)
      · rwa [hother d hd] at ht
    refine (h.txs d t hold).mono fun u i hu => ?_
    have hlive := ((h.txs d t hold).files u i hu).2
    rw [hc.erased]
    split
    · rename_i hdel
      refine List.not_mem_cons_of_ne_of_not_mem ?_ hlive
      rintro rfl
      by_cases hd : d = u
      · -- nothing comes after `rmself`
        subst hd
        rw [hdel] at hord
        have hnil := List.map_eq_nil_iff.mp hord.nil_of_deleted
        rw [hnil] at ht
        cases ht
      · exact hw.alone hdel d hd t hold i hu
    · exact hlive
  · by_cases hd : d = dir
    · subst hd
      rw [hc.cluster.1, hremoved, hc.erased]
      by_cases hs : tx.status = .S_DELETED
      · rw [if_pos hs]
        rw [hs] at hord
        refine hord.deleted (fun hl => ?_) (habsent d (sync_deleted hok.sIno h.stored hs).2)
        obtain ⟨table, ht⟩ := Option.isSome_iff_exists.mp hl
        exact (htidy.led d table ht).2
      · rw [if_neg hs]
        refine hord.written hs (hspelled d (sync_spelled hok h.stored hs fun hu => ?_).2)
        exact ⟨hord.unchanged (congrArg some hu), hw.fits hu⟩
    · rw [hother d hd, hc.cluster.1, hremoved]
      exact (h.ordered d).frame (hframe d hd).1 (hframe d hd).2 (herased d hd) Iff.rfl Iff.rfl

/-! ## Steps -/

omit [DecidableEq C] in
theorem InOrder.not_erased (h : s.InOrder) {u : Uuid} (hu : u ∉ s.removed) : u ∉ s.erased :=
  ((h.ordered u).not_deleted hu).1

theorem InOrder.hears_put (h : s.InOrder) {led led' : Led} {P : Uuid → Prop}
    (hl : s.cluster.led dir = some led) (ht : led'.Tells P dir led.jtable)
    (hP : ∀ u, P u → u ∉ s.erased) : s.Hears dir (s.cluster.put dir led') := by
  obtain ⟨htable, hj, -⟩ := led_eq_some.mp hl
  refine ⟨?_, fun c hc => Function.update_of_ne hc _ _, rfl, fun d => ?_⟩
  · show Heard _ dir _ (Function.update s.cluster.jtables _ led'.jtable _)
    rw [Function.update_self, ← hj]
    exact heard_of_records (hj ▸ h.getEntry_ok dir) hP ht.records
  · show (Function.update s.cluster.tables dir (some led'.table) d).isSome = _
    by_cases hd : d = dir
    · rw [hd, Function.update_self, htable]
      rfl
    · rw [Function.update_of_ne hd]

omit [DecidableEq C] in
theorem InOrder.not_erased_of_has (h : s.InOrder) (htidy : s.Tidy) {led : Led} {us : List Uuid}
    (hl : s.cluster.led dir = some led) (hus : ∀ u ∈ us, u ∉ s.removed) {u : Uuid}
    (hu : Has led us u) : u ∉ s.erased := by
  refine h.not_erased ?_
  rcases hu with ⟨n, hn⟩ | hnew
  · exact (htidy.listed dir n u (by rw [entries_of_led hl, hn])).2
  · exact hus u hnew

/-- A section on a directory is over. -/
theorem InOrder.put (h : s.InOrder) (htidy : s.Tidy) {led led' : Led} {P : Uuid → Prop}
    (hl : s.cluster.led dir = some led) (ht : led'.Tells P dir led.jtable)
    (hP : ∀ u, P u → u ∉ s.erased) (us : List Uuid) :
    InOrder { s with cluster := s.cluster.put dir led', used := us ++ s.used } := by
  obtain ⟨hused, hr⟩ := htidy.of_isSome (FuseOps.isSome_of_led hl)
  exact h.heard (h.hears_put hl ht hP) (fun u hu => List.mem_append_right _ hu)
    (List.mem_append_right _ hused) (.inl ⟨FuseOps.isSome_of_led hl, hr⟩)

/-- A change through a handle is journaled where the directory is led, or where the transaction with
    its `rmself` has not been committed. -/
theorem InOrder.handle (h : s.InOrder) (htidy : s.Tidy) {i : Inode} {pIno : Uuid}
    {change : Refinement.InodeChange} (hv : change.Valid i) (ho : s.Open i pIno change)
    (hclean : change.Records i → (s.cluster.tables (home i pIno)).isSome = true ∨
      (s.pending (home i pIno)).isSome = true) :
    InOrder { s with cluster := handled s.cluster i pIno change } := by
  have hj : ∀ c, (handled s.cluster i pIno change).jtables c = if c = s.cluster.leader (home i pIno)
      then (change.perform ⟨i, pIno, s.cluster.dataPool, s.cluster.jtables c⟩).jtable
      else s.cluster.jtables c := by
    intro c
    unfold handled
    dsimp only
    by_cases hc : c = s.cluster.leader (home i pIno)
    · rw [hc, Function.update_self, if_pos rfl]
    · rw [Function.update_of_ne hc, if_neg hc]
  have hhears : s.Hears (home i pIno) (handled s.cluster i pIno change) := by
    refine ⟨?_, fun c hc => ?_, rfl, fun d => rfl⟩
    · rw [hj, if_pos rfl]
      refine heard_of_records (h.getEntry_ok _) (fun u hu => ?_) (handled_calls hv ho)
      exact h.not_erased hu.2
    · rw [hj, if_neg hc]
  by_cases hr : change.Records i
  · refine h.heard hhears (fun u hu => hu) ?_ ?_
    · rcases hclean hr with hl | hp
      · exact (htidy.of_isSome hl).1
      · obtain ⟨tx, htx⟩ := Option.isSome_iff_exists.mp hp
        exact h.keys _ _ tx htx
    · exact (hclean hr).imp_left fun hl => ⟨hl, (htidy.of_isSome hl).2⟩
  · have hsame : (handled s.cluster i pIno change).jtables = s.cluster.jtables := by
      funext c
      rw [hj]
      split
      · exact Refinement.InodeChange.quiet hr
      · rfl
    have hline : line { s with cluster := handled s.cluster i pIno change } = s.line := by
      funext d
      unfold line pending
      rw [hsame]
      rfl
    refine ⟨h.stored, ?_, h.cycleKeys, ?_, ?_⟩
    · rw [hsame]
      exact h.keys
    · rw [hline]
      exact h.txs
    · rw [hline]
      exact h.ordered

/-- What a step has to do with a directory that is removed. -/
def Clean (s : Volume C) : Action C → Prop
  | .handle i pIno change => change.Records i →
    (s.cluster.tables (home i pIno)).isSome = true ∨ (s.pending (home i pIno)).isSome = true
  | .checkpoint dir => ∀ tx queue, s.queues dir = tx :: queue → s.Writable dir tx
  | _ => True

theorem InOrder.mkdir (h : s.InOrder) (htidy : s.Tidy) {me : C} {env : Env} {name : Bytes}
    {mode : UInt32} {born : Timespec} (hname : Refinement.IsName name)
    (hf : env.newIno ∉ s.used) :
    InOrder { s with
      cluster := (FuseOps.mkdirIn me env dir name mode born s.cluster).2
      used := env.newIno :: s.used } := by
  cases hl : s.cluster.led dir with
  | none =>
      rw [FuseOps.mkdirIn_absent hl]
      exact ⟨h.stored, fun c u tx hu => List.mem_cons_of_mem _ (h.keys c u tx hu),
        fun c u tx hu => List.mem_cons_of_mem _ (h.cycleKeys c u tx hu), h.txs, h.ordered⟩
  | some led =>
      have hfresh := (htidy.fresh hf).2
      obtain ⟨born', heq⟩ := @FuseOps.mkdirIn_eq C _ s.cluster me dir led env name mode born hl
      have htells := mkdirSection_tells htidy hl hname.1 hf (s.cluster.leader dir = me) mode
      have hP : ∀ u, Has led [env.newIno] u → u ∉ s.erased := fun u hu =>
        h.not_erased_of_has htidy hl (fun v hv => List.mem_singleton.mp hv ▸ hfresh) hu
      have hput := h.put htidy hl htells hP [env.newIno]
      have hhears := h.hears_put hl htells hP
      rw [heq]
      revert hput hhears
      generalize FuseOps.mkdirSection (s.cluster.leader dir = me) env name mode led = r
      obtain ⟨r, led'⟩ := r
      intro hput hhears
      cases r with
      | error e => exact hput
      | ok u =>
          refine hput.founded me List.mem_cons_self hfresh ?_ (fun c => ?_) fun c => ?_
          · refine Option.eq_none_iff_forall_ne_some.mpr fun table ht => hf ?_
            refine (htidy.of_isSome ?_).1
            rw [← hhears.tables]
            exact Option.isSome_iff_exists.mpr ⟨table, ht⟩
          · refine Option.eq_none_iff_forall_ne_some.mpr fun tx htx => hf ?_
            refine hhears.keys h (fun u hu => hu) ?_ c env.newIno tx htx
            exact (htidy.of_isSome (FuseOps.isSome_of_led hl)).1
          · exact Option.eq_none_iff_forall_ne_some.mpr fun tx htx =>
              hf (h.cycleKeys c env.newIno tx htx)

theorem InOrder.rmdir (h : s.InOrder) (htidy : s.Tidy) {me : C} {name : Bytes} {ts : Timespec}
    (hname : Refinement.IsName name) (hs : step s (.rmdir me dir name ts) = some s') :
    s'.InOrder := by
  obtain rfl := Option.some.inj hs
  have hrmdirs : FuseOps.Rmdirs dir name ts s.cluster (FuseOps.rmdirIn me dir name ts s.cluster).2 :=
    FuseOps.rmdirIn_rmdirs
  rcases Cluster.Tidy.rmdirs htidy hname hrmdirs with heq | ⟨ino, led, top, led', hr⟩
  · rw [heq, lost_of_same]
    exact h
  rw [lost_of_removes hr]
  have hino := htidy.of_isSome (FuseOps.isSome_of_led hr.child)
  have hdir := htidy.of_isSome (FuseOps.isSome_of_led hr.parent)
  have htop := h.topped htidy.uncommitted hr.child hino.1 hino.2
  have htells : (DirectoryOps.rmdirDown ts ino name led').2.Tells (Has led' []) dir led'.jtable :=
    Sections.tells_rmdirDown hname.1 led'
      ((Cluster.Tidy.topped htidy ino hr.child).tells hr.next fun n u hn => .inl ⟨n, hn⟩)
  have hP : ∀ u, Has led' [] u → u ∉ s.erased := by
    intro u hu
    unfold Has at hu
    rw [hr.same] at hu
    exact h.not_erased_of_has htidy hr.parent (fun v hv => absurd hv List.not_mem_nil) hu
  have hput := htop.heard (htop.hears_put hr.next htells hP) (fun u hu => hu) hdir.1
    (.inl ⟨FuseOps.isSome_of_led hr.next, List.not_mem_cons_of_ne_of_not_mem hr.ne hdir.2⟩)
  rw [hr.eq]
  exact hput

/-- Every step of the clients keeps the transactions in order. -/
theorem InOrder.step (h : s.InOrder) (htidy : s.Tidy) {a : Action C} (ha : Legal s a)
    (hc : Clean s a) (hs : step s a = some s') : s'.InOrder := by
  cases a with
  | perform dir o =>
      obtain ⟨led, hl, rfl⟩ := Option.map_eq_some_iff.mp hs
      refine h.put htidy hl (perform_tells htidy hl (ha led hl)) (fun u hu => ?_) (brought o)
      exact h.not_erased_of_has htidy hl (fun v hv => (brought_homeless htidy (ha led hl) v hv).2) hu
  | mkdir me env dir name mode born =>
      cases hs
      exact h.mkdir htidy ha.1 ha.2.2
  | rmdir me dir name ts => exact h.rmdir htidy ha hs
  | handle i pIno change =>
      cases hs
      exact h.handle htidy ha.1 ha.2 hc
  | replace me => exact h.replace hs
  | commit dir =>
      obtain ⟨tx, htx⟩ := commits_of_step hs
      exact h.commit htx
  | checkpoint dir =>
      obtain ⟨tx, htx⟩ := checkpoints_of_step hs
      obtain ⟨queue, hq, -⟩ := htx.head
      exact h.checkpoint htidy htx (hc tx queue hq)

/-! ## Runs -/

omit [DecidableEq C] in
theorem Start.inOrder (h : s.Start) : s.InOrder := by
  have hline : ∀ dir, s.line dir = [] := by
    intro dir
    unfold line taken pending waiting
    rw [(h.idle _).1, (h.idle _).2, h.queues]
    rfl
  obtain ⟨hremoved, herased⟩ := h.history
  refine ⟨h.stored, fun c u tx hu => ?_, fun c u tx hu => ?_, fun dir tx htx => ?_, fun dir => ?_⟩
  · rw [(h.idle c).1] at hu
    cases hu
  · rw [(h.idle c).2] at hu
    cases hu
  · rw [hline] at htx
    cases htx
  · rw [hline, hremoved, herased]
    refine ⟨List.not_mem_nil, fun hhead => (nomatch hhead), fun hl _ => ?_, by simp,
      fun hd => (nomatch hd), fun _ _ => rfl⟩
    obtain ⟨table, ht⟩ := Option.isSome_iff_exists.mp hl
    exact h.spelled dir table ht

/-- A checkpoint does not raise, and what has been removed stays removed. -/
structure Sound (s : Volume C) (a : Action C) : Prop where
  checkpoint : ∀ dir tx queue, a = .checkpoint dir → s.queues dir = tx :: queue →
    (tx.checkpoint s.pool).1 = .ok ()
  erased : ∀ dir ∈ s.erased, Absent s.pool dir

omit [DecidableEq C] in
theorem InOrder.absent (h : s.InOrder) : ∀ dir ∈ s.erased, Absent s.pool dir :=
  fun dir hd => ((h.ordered dir).done hd).2

omit [DecidableEq C] in
theorem InOrder.sound (h : s.InOrder) {a : Action C} (hc : Clean s a) : Sound s a := by
  refine ⟨?_, h.absent⟩
  rintro dir tx queue rfl hq
  rw [checkpoint_fst]
  have hline : s.line dir =
      tx :: (queue ++ (s.waiting dir).toList ++ (s.pending dir).toList) := by
    unfold line taken
    rw [hq]
    rfl
  exact h.sync_ok hline (hc tx queue hq)

theorem step_inOrder {a : Action C} (h : s.Tidy ∧ s.InOrder) (ha : Legal s a ∧ Clean s a)
    (hs : step s a = some s') : s'.Tidy ∧ s'.InOrder :=
  ⟨h.1.step ha.1 hs, h.2.step h.1 ha.1 ha.2 hs⟩

theorem run_inOrder {as : List (Action C)} (h : s.Start) (hlegal : StepsMeet step Legal s as)
    (hclean : StepsMeet step Clean s as) (hr : run step s as = some s') : s'.InOrder :=
  (run_invariant_of_stepsMeet (fun _ _ _ => step_inOrder) ⟨h.tidy, h.inOrder⟩
    (hlegal.and hclean) hr).2

/-- A run of legal steps that are all clean: no checkpoint raises, and the objects of a directory
    that has been removed do not come back. -/
theorem checkpoints_sound {as : List (Action C)} (h : s.Start)
    (hlegal : StepsMeet step Legal s as) (hclean : StepsMeet step Clean s as) :
    StepsMeet step Sound s as ∧
      ∀ s', run step s as = some s' → ∀ dir ∈ s'.erased, Absent s'.pool dir := by
  refine ⟨?_, fun s' hr => (run_inOrder h hlegal hclean hr).absent⟩
  exact .of_invariant (fun _ _ _ => step_inOrder) (fun s a hs ha => hs.2.sound ha.2)
    ⟨h.tidy, h.inOrder⟩ (hlegal.and hclean)

/-! ## A change that comes late -/

open Placement Refinement

def lateDir : Uuid := (envOf 1).newIno

/-- A file that has been unlinked and is still open. -/
def lateFile : Inode := Inode.make (envOf 2) (0x1A4 ||| Inode.S_IFREG)

/-- "/a" and "/a/f" are made and removed, and what has been done in "/a" is committed. -/
def removal : List (Action Bool) :=
  [.mkdir false (envOf 1) Uuid.rootIno [97] 0x41ED clock,
    .perform lateDir (.request (.localCreate (envOf 2) [102] 0x1A4)),
    .perform lateDir (.request (.localUnlink clock [102])),
    .rmdir false Uuid.rootIno [97] clock,
    .replace false,
    .commit lateDir]

theorem removal_legal : StepsMeet step Legal fresh removal := by
  refine .cons ?_ rfl (.cons ?_ rfl (.cons ?_ rfl (.cons ?_ rfl ?_)))
  · exact ⟨⟨⟨by decide, by decide⟩, by decide⟩, by decide, by decide⟩
  · rintro led -
    refine ⟨⟨by decide, by decide⟩, ?_⟩
    rintro ino ⟨⟩
    decide
  · rintro led -
    exact ⟨⟨by decide, by decide⟩, fun ino hino => (nomatch hino)⟩
  · exact ⟨⟨by decide, by decide⟩, by decide⟩
  · exact ⟨trivial, fun _ _ => ⟨trivial, fun _ _ => trivial⟩⟩

theorem removal_clean : StepsMeet step Clean fresh removal := by
  refine .of_forall fun a ha s => ?_
  simp only [removal, List.mem_cons, List.not_mem_nil, or_false] at ha
  rcases ha with rfl | rfl | rfl | rfl | rfl | rfl <;> trivial

theorem removal_run : ∃ s tx t, run step fresh removal = some s ∧
    s.queues = Function.update (fun _ => []) lateDir [tx] ∧ tx.status = .S_DELETED ∧
    s.cluster.leader = Function.update (fun _ => false) lateDir false ∧
    s.cluster.jtables false = ∅ ∧ (s.cycle false).entries = [⟨Uuid.rootIno, t⟩] ∧ t.fInodes = ∅ :=
  ⟨_, _, _, rfl, rfl, rfl, rfl, rfl, rfl, rfl⟩

/-- The parent's transaction has nothing but names. -/
theorem removal_checkpoint {s : Volume Bool} (h : run step fresh removal = some s) :
    Clean s (.checkpoint lateDir) := by
  obtain ⟨s', tx, t, hs, hqueues, hdeleted, hleader, hjtable, hentries, hfiles⟩ := removal_run
  obtain rfl := Option.some.inj (h.symm.trans hs)
  intro tx' queue hq
  rw [hqueues, Function.update_self] at hq
  cases hq
  refine ⟨?_, fun _ d hd u hu i hi => ?_⟩
  · rw [hdeleted]
    exact fun h => (nomatch h)
  · have hl : (s.cycle false).lookup d = some u := by
      have hline : s.line d = ((s.cycle false).lookup d).toList := by
        unfold line taken waiting pending
        rw [hqueues, hleader, Function.update_of_ne hd, Function.update_of_ne hd, hjtable]
        exact List.append_nil _
      rw [hline] at hu
      exact Option.mem_toList.mp hu
    have hmem := AList.mem_lookup_iff.mp hl
    rw [hentries] at hmem
    cases List.mem_singleton.mp hmem
    rw [hfiles] at hi
    cases hi

theorem erasure_legal : StepsMeet step Legal fresh (removal ++ [.checkpoint lateDir]) :=
  removal_legal.append fun _ _ => ⟨trivial, fun _ _ => trivial⟩

theorem erasure_clean : StepsMeet step Clean fresh (removal ++ [.checkpoint lateDir]) :=
  removal_clean.append fun _ hs => ⟨removal_checkpoint hs, fun _ _ => trivial⟩

theorem checkpoints_sound_removal :
    StepsMeet step Sound fresh (removal ++ [.checkpoint lateDir]) ∧
      ∀ s', run step fresh (removal ++ [.checkpoint lateDir]) = some s' →
        ∀ dir ∈ s'.erased, Absent s'.pool dir :=
  checkpoints_sound fresh_start erasure_legal erasure_clean

/-- The chmod comes when the `rmself` of "/a" has been written. -/
def lateChange : List (Action Bool) :=
  [.checkpoint lateDir, .handle lateFile lateDir (.chmod 0x81A4), .commit Uuid.rootIno,
    .replace false, .commit lateDir]

theorem lateChange_run : ∃ s tx queue, run step fresh (removal ++ lateChange) = some s ∧
    s.queues lateDir = tx :: queue ∧ tx.sIno = lateDir ∧ tx.sInode = none ∧
    tx.status = .S_UNCHANGED :=
  ⟨_, _, _, rfl, rfl, rfl, rfl, rfl⟩

theorem lateChange_legal :
    StepsMeet step Legal fresh (removal ++ lateChange ++ [.checkpoint lateDir]) := by
  refine (removal_legal.append fun s hs => ?_).append fun _ _ => ⟨trivial, fun _ _ => trivial⟩
  cases hs
  refine .cons trivial rfl (.cons ?_ rfl ?_)
  rotate_left
  · exact ⟨trivial, fun _ _ => ⟨trivial, fun _ _ => ⟨trivial, fun _ _ => trivial⟩⟩⟩
  have hvalid : HasType 0x81A4 (lateFile.core.iMode &&& Inode.S_IFMT) := by decide
  exact ⟨hvalid, .file rfl (by decide) ⟨rfl, by decide⟩ (.inr (by decide))⟩

/-- Only a checkpoint brings an object back. -/
theorem absent_of_step {a : Action C} (ha : ∀ d, a ≠ .checkpoint d) (hs : step s a = some s')
    (h : WellStored s.pool ∧ Absent s.pool dir) : WellStored s'.pool ∧ Absent s'.pool dir := by
  cases moves_of_step hs with
  | kept hpool hqueues =>
      rw [hpool]
      exact h
  | @commit d tx hc =>
      obtain ⟨hstored, -, habsent⟩ := h.1.journal tx.sIno.toStr
        (List.length_pos_iff.mp (Nat.zero_lt_of_lt (Journal.serialize_pos tx)))
        (RadosIo.stat s.pool .journal tx.sIno.toStr).2
      rw [hc.pool]
      exact ⟨hstored, habsent dir h.2⟩
  | @checkpoint d tx hc => exact absurd rfl (ha d)

/-- The directory has neither object any more, and its journal has one more transaction. -/
theorem lateChange_absent {s : Volume Bool} (hr : run step fresh (removal ++ lateChange) = some s) :
    Absent s.pool lateDir := by
  obtain ⟨t, ht, hrest⟩ := run_append.mp hr
  obtain ⟨s₁, h₁, hrest⟩ := run_cons.mp hrest
  have hrun : run step fresh (removal ++ [.checkpoint lateDir]) = some s₁ :=
    run_append.mpr ⟨t, ht, run_cons.mpr ⟨s₁, h₁, rfl⟩⟩
  have hin := run_inOrder fresh_start erasure_legal erasure_clean hrun
  have herased : lateDir ∈ s₁.erased := by
    cases hrun
    exact List.mem_cons_self
  refine (run_invariant_of_stepsMeet (P := fun _ a => ∀ d, a ≠ .checkpoint d)
    (fun _ _ _ h ha hs => absent_of_step ha hs h) ⟨hin.stored, hin.absent lateDir herased⟩
    (.of_forall fun a ha _ => ?_) hrest).2
  simp only [List.mem_cons, List.not_mem_nil, or_false] at ha
  rcases ha with rfl | rfl | rfl | rfl <;> exact fun d => nofun

/-- A change through a handle on a file that is gone, in a directory that is gone: the checkpoint
    raises. -/
theorem late_change_raises : fresh.Start ∧
    StepsMeet step Legal fresh (removal ++ lateChange ++ [.checkpoint lateDir]) ∧
    ¬ StepsMeet step Sound fresh (removal ++ lateChange ++ [.checkpoint lateDir]) := by
  refine ⟨fresh_start, lateChange_legal, fun h => ?_⟩
  obtain ⟨s, tx, queue, hr, hq, hino, hself, hs⟩ := lateChange_run
  have hok := (h.after hr).1.checkpoint lateDir tx queue rfl hq
  have hraise := sync_absent hino (fun i hi => by rw [hself] at hi; cases hi) hs
    (lateChange_absent hr).dentry
  rw [checkpoint_fst, hraise] at hok
  cases hok

end Volume

end Nmfs
