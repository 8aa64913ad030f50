import Nmfs.Fs.VolumeSteps

/-
  The calls that a directory can make to its journal, one after the other, and what a transaction
  has after some of them. `create` and `symlink` call `mkreg`, `unlink` calls `rmreg`, or `chreg`
  where the file has other links, a rename inside the directory `rmreg` for what it replaces, `rmreg`
  and `mkreg`; a change of the directory's own inode calls `chself`, one of a file `chreg`.
-/

namespace Nmfs

open Lib Transaction

/-- What has become of a number as a child of the directory. One that was taken out with `rmreg` can
    come back, which is how a rename goes; one that was removed with `rmdir` cannot. -/
inductive Standing where
  | fresh
  | listed
  | taken
  | gone
  deriving DecidableEq, Repr

/-- The directory as far as its calls tell. `self` is its own inode as it was last told, `targetLen`
    the length of the link target of each number, which never changes. -/
structure Course where
  made : Bool
  self : Option Inode
  children : ChildList
  standing : Uuid → Standing
  targetLen : Uuid → UInt32

namespace Course

/-- Before `mkself`. -/
def unmade (targetLen : Uuid → UInt32) : Course := ⟨false, none, ∅, fun _ => .fresh, targetLen⟩

/-- A directory that has been loaded. -/
def opened (d : Dentry) (targetLen : Uuid → UInt32) : Course :=
  ⟨true, none, d.childList,
    fun u => if d.childList.entries.any (fun e => e.2 = u) then .listed else .fresh, targetLen⟩

variable (dir : Uuid) (c : Course)

/-- The directory's own inode, as an entry carries it: only the times are newer. -/
structure Touches (s : Inode) : Prop where
  made : c.made = true
  ino : s.ino = dir
  noTarget : s.core.linkTargetLen = 0
  times : ∀ old, c.self = some old →
    s.core = { old.core with iMtime := s.core.iMtime, iCtime := s.core.iCtime }

/-- The name is free, and the number of children stays a `size_t`. -/
structure Takes (name : Bytes) : Prop where
  nameOk : Dentry.NameOk name
  free : c.children.lookup name = none
  sized : c.children.entries.length + 1 < 2 ^ 64

structure Has (name : Bytes) (u : Uuid) : Prop where
  nameOk : Dentry.NameOk name
  there : c.children.lookup name = some u
  listed : c.standing u = .listed

structure FileOk (f : Inode) : Prop where
  notSelf : f.ino ≠ dir
  targetLen : f.core.linkTargetLen = c.targetLen f.ino

/-- The call is one that the directory can make now. `rmself` is not one of them. -/
def Allowed : Mutation → Prop
  | .mkself s => c.made = false ∧ s.ino = dir ∧ s.core.linkTargetLen = 0
  | .rmself => False
  | .chself s => c.made = true ∧ s.ino = dir ∧ s.core.linkTargetLen = 0
  | .mkdir s name u => c.Touches dir s ∧ c.Takes name ∧ c.standing u = .fresh
  | .rmdir s name u => c.Touches dir s ∧ c.Has name u
  | .mkreg s name f => c.Touches dir s ∧ c.Takes name ∧
    (c.standing f.ino = .fresh ∨ c.standing f.ino = .taken) ∧ c.FileOk dir f
  | .rmreg s name f => c.Touches dir s ∧ c.Has name f.ino
  | .chreg f => c.made = true ∧ c.standing f.ino = .listed ∧ c.FileOk dir f

def enter (self : Inode) (name : Bytes) (u : Uuid) : Course :=
  { c with
    self := some self
    children := c.children.insert name u
    standing := Function.update c.standing u .listed }

def leave (self : Inode) (name : Bytes) (u : Uuid) (standing : Standing) : Course :=
  { c with
    self := some self
    children := c.children.erase name
    standing := Function.update c.standing u standing }

def after : Mutation → Course
  | .mkself s => { c with made := true, self := some s }
  | .rmself => c
  | .chself s => { c with self := some s }
  | .mkdir s name u => c.enter s name u
  | .rmdir s name u => c.leave s name u .gone
  | .mkreg s name f => c.enter s name f.ino
  | .rmreg s name f => c.leave s name f.ino .taken
  | .chreg _ => c

def afterAll (ms : List Mutation) : Course := ms.foldl after c

/-- A sequence of calls that the directory can make. -/
def Legal (c : Course) : List Mutation → Prop
  | [] => True
  | m :: ms => c.Allowed dir m ∧ (c.after m).Legal ms

variable {dir c}

theorem legal_append {as bs : List Mutation} :
    c.Legal dir (as ++ bs) ↔ c.Legal dir as ∧ (c.afterAll as).Legal dir bs := by
  induction as generalizing c with
  | nil => exact ⟨fun h => ⟨trivial, h⟩, fun h => h.2⟩
  | cons m as ih =>
      refine ⟨fun h => ?_, fun h => ?_⟩
      · obtain ⟨has, hbs⟩ := ih.mp h.2
        exact ⟨⟨h.1, has⟩, hbs⟩
      · exact ⟨h.1.1, ih.mpr ⟨h.1.2, h.2⟩⟩

@[simp] theorem targetLen_after (m : Mutation) : (c.after m).targetLen = c.targetLen := by
  cases m <;> rfl

theorem made_after {m : Mutation} (h : c.Allowed dir m) : (c.after m).made = true := by
  cases m with
  | mkself _ => rfl
  | rmself => exact h.elim
  | chself _ | chreg _ => exact h.1
  | mkdir _ _ _ | rmdir _ _ _ | mkreg _ _ _ | rmreg _ _ _ => exact h.1.made

theorem noTarget_after {m : Mutation} (h : c.Allowed dir m)
    (hself : ∀ i, c.self = some i → i.core.linkTargetLen = 0) {i : Inode}
    (hi : (c.after m).self = some i) : i.core.linkTargetLen = 0 := by
  cases m with
  | rmself => exact h.elim
  | chreg _ => exact hself i hi
  | mkself _ | chself _ =>
      cases hi
      exact h.2.2
  | mkdir _ _ _ | rmdir _ _ _ | mkreg _ _ _ | rmreg _ _ _ =>
      cases hi
      exact h.1.noTarget

theorem sized_after {m : Mutation} (h : c.Allowed dir m)
    (hsized : c.children.entries.length < 2 ^ 64) :
    (c.after m).children.entries.length < 2 ^ 64 := by
  have hleave : ∀ name, (c.children.entries.kerase name).length < 2 ^ 64 := fun name =>
    Nat.lt_of_le_of_lt (List.kerase_sublist name c.children.entries).length_le hsized
  have henter : ∀ {name : Bytes} {u : Uuid}, c.Takes name →
      (c.children.insert name u).entries.length < 2 ^ 64 := by
    intro name u hn
    rw [AList.entries_insert_of_notMem (AList.lookup_eq_none.mp hn.free)]
    exact hn.sized
  cases m with
  | mkself _ | rmself | chself _ | chreg _ => exact hsized
  | mkdir _ name _ | mkreg _ name _ => exact henter h.2.1
  | rmdir _ name _ | rmreg _ name _ => exact hleave name

theorem targetLen_afterAll (ms : List Mutation) : (c.afterAll ms).targetLen = c.targetLen := by
  induction ms generalizing c with
  | nil => rfl
  | cons m ms ih => exact ih.trans (targetLen_after m)

theorem made_afterAll {ms : List Mutation} (h : c.Legal dir ms) (hne : ms ≠ []) :
    (c.afterAll ms).made = true := by
  induction ms generalizing c with
  | nil => exact absurd rfl hne
  | cons m ms ih =>
      cases ms with
      | nil => exact made_after h.1
      | cons m' ms => exact ih h.2 (List.cons_ne_nil _ _)

theorem noTarget_afterAll {ms : List Mutation} (h : c.Legal dir ms)
    (hself : ∀ i, c.self = some i → i.core.linkTargetLen = 0) :
    ∀ i, (c.afterAll ms).self = some i → i.core.linkTargetLen = 0 := by
  induction ms generalizing c with
  | nil => exact hself
  | cons m ms ih => exact ih h.2 fun i hi => noTarget_after h.1 hself hi

theorem sized_afterAll {ms : List Mutation} (h : c.Legal dir ms)
    (hsized : c.children.entries.length < 2 ^ 64) :
    (c.afterAll ms).children.entries.length < 2 ^ 64 := by
  induction ms generalizing c with
  | nil => exact hsized
  | cons m ms ih => exact ih h.2 (sized_after h.1 hsized)

/-! ## What is told of a file -/

/-- What the call tells of the number: its inode, or that it is removed. -/
def fileOf (u : Uuid) : Mutation → Option (Option Inode)
  | .mkreg _ _ f | .chreg f => if f.ino = u then some (some f) else none
  | .rmreg _ _ f => if f.ino = u then some none else none
  | _ => none

/-- What the calls tell of it last. -/
def recorded (u : Uuid) (ms : List Mutation) : Option (Option Inode) :=
  ms.foldl (fun r m => (fileOf u m).or r) none

theorem recorded_foldl (u : Uuid) (ms : List Mutation) (r : Option (Option Inode)) :
    ms.foldl (fun r m => (fileOf u m).or r) r = (recorded u ms).or r := by
  induction ms using List.reverseRecOn with
  | nil => rfl
  | append_singleton ms m ih =>
      unfold recorded
      rw [List.foldl_append, List.foldl_append, ih]
      exact (Option.or_assoc).symm

theorem recorded_append (u : Uuid) (as bs : List Mutation) :
    recorded u (as ++ bs) = (recorded u bs).or (recorded u as) := by
  conv_lhs => unfold recorded
  rw [List.foldl_append]
  exact recorded_foldl u bs _

theorem recorded_concat (u : Uuid) (ms : List Mutation) (m : Mutation) :
    recorded u (ms ++ [m]) = (fileOf u m).or (recorded u ms) := by
  unfold recorded
  rw [List.foldl_append]
  rfl

/-- The inode is one that can be written to the INODE object of the number. -/
def Fitting (dir : Uuid) (c : Course) (u : Uuid) (f : Inode) : Prop :=
  f.ino = u ∧ u ≠ dir ∧ f.core.linkTargetLen = c.targetLen u

theorem fitting_fileOf {m : Mutation} (h : c.Allowed dir m) {u : Uuid} {f : Inode}
    (hf : fileOf u m = some (some f)) : Fitting dir c u f := by
  have hfile : ∀ {g : Inode} {x : Option Inode}, c.FileOk dir g →
      (if g.ino = u then some (some g) else none) = some x → x = some f → Fitting dir c u f := by
    intro g x hok hx hxf
    split at hx
    · rename_i heq
      cases hx
      cases hxf
      subst heq
      exact ⟨rfl, hok.notSelf, hok.targetLen⟩
    · cases hx
  cases m with
  | mkreg s name g => exact hfile h.2.2.2 hf rfl
  | chreg g => exact hfile h.2.2 hf rfl
  | rmreg s name g =>
      unfold fileOf at hf
      dsimp only at hf
      split at hf <;> cases hf
  | mkself _ | rmself | chself _ | mkdir _ _ _ | rmdir _ _ _ => cases hf

theorem fitting_recorded {ms : List Mutation} (h : c.Legal dir ms) {u : Uuid} {f : Inode}
    (hf : recorded u ms = some (some f)) : Fitting dir c u f := by
  induction ms generalizing c with
  | nil => cases hf
  | cons m ms ih =>
      rw [show m :: ms = [m] ++ ms from rfl, recorded_append] at hf
      rcases Option.or_eq_some_iff.mp hf with hf | ⟨-, hf⟩
      · have hfit := ih h.2 hf
        unfold Fitting at hfit
        rwa [targetLen_after] at hfit
      · exact fitting_fileOf h.1 ((Option.or_none).symm.trans hf)

/-! ## What a transaction has after some calls -/

/-- The transaction has what the calls `ms` have changed, which lead from `c₀` to `c`. -/
structure Carries (dir : Uuid) (c₀ c : Course) (ms : List Mutation) (tx : Transaction) : Prop where
  ok : Volume.TxOk (fun u => u ≠ dir) dir tx
  made : c₀.made = true → c.made = true
  status : tx.status = if c₀.made = c.made then .S_UNCHANGED else .S_CREATED
  children : c.children.lookup = overlay tx.dentries c₀.children.lookup
  self : ∀ i, tx.sInode = some i → ∃ s, c.self = some s ∧ i.core = s.core
  untouched : tx.sInode = none → c.self = c₀.self
  files : ∀ u, tx.fInodes.lookup u = (recorded u ms).map fun f => f.map Inode.copy
  taken : ∀ u, tx.fInodes.lookup u = some none → c.standing u = .taken
  live : ∀ u i, tx.fInodes.lookup u = some (some i) → c.standing u = .listed ∨ c.standing u = .gone

/-- The commit thread only marks it. -/
theorem Carries.committed {c₀ : Course} {ms : List Mutation} {tx : Transaction}
    (h : Carries dir c₀ c ms tx) (offset : Nat) :
    Carries dir c₀ c ms { tx with committed := true, offset } :=
  ⟨⟨h.ok.sIno, h.ok.nameOk, h.ok.self, h.ok.files⟩, h.made, h.status, h.children, h.self, h.untouched,
    h.files, h.taken, h.live⟩

theorem carries_new (dir : Uuid) (c : Course) : Carries dir c c [] (Transaction.new dir) := by
  refine ⟨Volume.txOk_new, fun h => h, (if_pos rfl).symm, ?_, fun i hi => (nomatch hi), fun _ => rfl,
    fun u => rfl, fun u hu => (nomatch hu), fun u i hu => (nomatch hu)⟩
  funext name
  rfl

section

variable {c₀ : Course} {ms : List Mutation} {tx : Transaction} {self f : Inode} {name : Bytes}
  {u : Uuid}

theorem Carries.turns_new (h : Carries dir c₀ c ms tx) (hn : c.Takes name) :
    tx.Turns name true := by
  intro ino hl
  have hfree := (congrFun h.children name).symm.trans hn.free
  unfold overlay at hfree
  rw [hl] at hfree
  cases hfree

theorem Carries.turns_removal (h : Carries dir c₀ c ms tx) (hn : c.Has name u) :
    tx.Turns name false := by
  intro ino hl
  have hthere := (congrFun h.children name).symm.trans hn.there
  unfold overlay at hthere
  rw [hl] at hthere
  cases hthere

theorem Carries.takesNew (h : Carries dir c₀ c ms tx) (hopen : tx.committed = false)
    (hn : c.Takes name) (hs : c.standing u = .fresh ∨ c.standing u = .taken) :
    tx.TakesNew name u := by
  refine ⟨hopen, h.turns_new hn, fun g hg => ?_⟩
  rcases h.live u g hg with hl | hl <;> rcases hs with hs | hs <;>
    exact nomatch hl.symm.trans hs

theorem Carries.takesRemoval (h : Carries dir c₀ c ms tx) (hopen : tx.committed = false)
    (hn : c.Has name u) : tx.TakesRemoval name u := by
  refine ⟨hopen, h.turns_removal hn, fun hg => ?_⟩
  exact nomatch (h.taken u hg).symm.trans hn.listed

/-- The directory's own inode after an entry. -/
theorem Carries.touched (h : Carries dir c₀ c ms tx) (ht : c.Touches dir self) :
    ∃ i, (tx.touchSelf self).sInode = some i ∧ i.core = self.core := by
  unfold Transaction.touchSelf
  cases hi : tx.sInode with
  | none => exact ⟨_, rfl, rfl⟩
  | some i =>
      obtain ⟨s, hs, hcore⟩ := h.self i hi
      refine ⟨_, rfl, ?_⟩
      rw [ht.times s hs, ← hcore]

/-- An entry, and perhaps a file. -/
theorem Carries.withEntry (h : Carries dir c₀ c ms tx) (ht : c.Touches dir self) {c' : Course}
    {m : Mutation} {alive : Bool} {fInodes : AList (fun _ : Uuid => Option Inode)}
    (hself : c'.self = some self) (hmade : c'.made = c.made)
    (hchildren : c'.children.lookup =
      Function.update c.children.lookup name (if alive then some u else none))
    (hok : Volume.TxOk (fun u => u ≠ dir) dir { tx.withEntry self name alive u with fInodes })
    (hfiles : ∀ v, fInodes.lookup v =
      ((fileOf v m).map fun f => f.map Inode.copy).or (tx.fInodes.lookup v))
    (htaken : ∀ v, fInodes.lookup v = some none → c'.standing v = .taken)
    (hlive : ∀ v i, fInodes.lookup v = some (some i) →
      c'.standing v = .listed ∨ c'.standing v = .gone) :
    Carries dir c₀ c' (ms ++ [m]) { tx.withEntry self name alive u with fInodes } := by
  obtain ⟨i, hi, hcore⟩ := h.touched ht
  have hsi : (tx.withEntry self name alive u).sInode = some i := by
    rw [withEntry_sInode]
    exact hi
  refine ⟨hok, ?_, ?_, ?_, fun j hj => ?_, fun hn => ?_, fun v => ?_, htaken, hlive⟩
  · rw [hmade]
    exact h.made
  · show (tx.withEntry self name alive u).status = _
    rw [withEntry_status, h.status, hmade]
  · show _ = overlay (tx.withEntry self name alive u).dentries _
    rw [withEntry_dentries, overlay_insert, ← h.children, hchildren]
  · cases hsi.symm.trans hj
    exact ⟨self, hself, hcore⟩
  · exact nomatch hsi.symm.trans hn
  · show fInodes.lookup v = _
    rw [hfiles v, h.files v, recorded_concat]
    cases fileOf v m <;> rfl

theorem withEntry_same {alive : Bool} :
    { tx.withEntry self name alive u with fInodes := tx.fInodes } =
      tx.withEntry self name alive u := by
  unfold Transaction.withEntry touchSelf
  split <;> rfl

theorem withFile_withEntry {alive : Bool} {x : Option Inode} :
    (tx.withEntry self name alive u).withFile u x =
      { tx.withEntry self name alive u with fInodes := tx.fInodes.insert u x } := by
  unfold withFile
  rw [withEntry_fInodes]

theorem lookup_insert_or (fInodes : AList (fun _ : Uuid => Option Inode)) (x : Option Inode)
    (v : Uuid) :
    (fInodes.insert u x).lookup v = (if u = v then some x else none).or (fInodes.lookup v) := by
  by_cases huv : u = v
  · subst huv
    rw [if_pos rfl, AList.lookup_insert]
    rfl
  · rw [if_neg huv, AList.lookup_insert_ne (Ne.symm huv)]
    rfl

theorem lookup_enter : (c.enter self name u).children.lookup =
    Function.update c.children.lookup name (some u) := by
  funext n
  by_cases hn : n = name
  · rw [hn, Function.update_self]
    exact AList.lookup_insert _
  · rw [Function.update_of_ne hn]
    exact AList.lookup_insert_ne hn

theorem lookup_leave {standing : Standing} : (c.leave self name u standing).children.lookup =
    Function.update c.children.lookup name none := by
  funext n
  by_cases hn : n = name
  · rw [hn, Function.update_self]
    exact AList.lookup_erase _ _
  · rw [Function.update_of_ne hn]
    exact AList.lookup_erase_ne hn

theorem update_or {standing : Uuid → Standing} {v : Uuid} {x p q : Standing}
    (hx : v = u → x = p ∨ x = q) (h : v ≠ u → standing v = p ∨ standing v = q) :
    Function.update standing u x v = p ∨ Function.update standing u x v = q := by
  rw [Function.update_apply]
  split
  · exact hx ‹_›
  · exact h ‹_›

/-- What a call that the directory can make does to the transaction. It does not raise. -/
theorem Carries.step {m : Mutation} (h : Carries dir c₀ c ms tx) (hopen : tx.committed = false)
    (ha : c.Allowed dir m) :
    (m.apply tx).1 = .ok 0 ∧ (m.apply tx).2.committed = false ∧
      Carries dir c₀ (c.after m) (ms ++ [m]) (m.apply tx).2 := by
  have hkept : ∀ v, fileOf v m = none → tx.fInodes.lookup v =
      (recorded v (ms ++ [m])).map fun f => f.map Inode.copy := by
    intro v hv
    rw [recorded_concat, hv, Option.none_or]
    exact h.files v
  cases m with
  | mkself s =>
      obtain ⟨hmade, hino, -⟩ := ha
      have hmade₀ : c₀.made = false := by
        cases hm : c₀.made with
        | false => rfl
        | true => exact nomatch (h.made hm).symm.trans hmade
      show (tx.mkself s).1 = _ ∧ (tx.mkself s).2.committed = _ ∧ Carries dir c₀ _ _ (tx.mkself s).2
      rw [mkself_eq hopen]
      refine ⟨rfl, hopen, h.ok.withSelf hino .S_CREATED, fun _ => rfl, ?_, h.children,
        fun i hi => ?_, fun hn => (nomatch hn), fun v => hkept v rfl, h.taken, h.live⟩
      · rw [hmade₀]
        rfl
      · cases hi
        exact ⟨s, rfl, rfl⟩
  | rmself => exact ha.elim
  | chself s =>
      obtain ⟨-, hino, -⟩ := ha
      show (tx.chself s).1 = _ ∧ (tx.chself s).2.committed = _ ∧ Carries dir c₀ _ _ (tx.chself s).2
      rw [chself_eq hopen]
      refine ⟨rfl, hopen, h.ok.withSelf hino tx.status, h.made, h.status, h.children,
        fun i hi => ?_, fun hn => (nomatch hn), fun v => hkept v rfl, h.taken, h.live⟩
      cases hi
      exact ⟨s, rfl, rfl⟩
  | mkdir s name u =>
      obtain ⟨ht, hn, hfresh⟩ := ha
      have hcall : Calls (fun u => u ≠ dir) dir dir (.mkdir s name u) := .mkdir ht.ino hn.nameOk
      have hok := (h.ok.apply hcall).1
      have heq : tx.mkdir s name u = _ := mkdir_eq hopen (h.turns_new hn)
      rw [show (Mutation.mkdir s name u).apply tx = _ from heq] at hok ⊢
      refine ⟨rfl, withEntry_committed.trans hopen, ?_⟩
      rw [← withEntry_same] at hok ⊢
      refine h.withEntry ht rfl rfl lookup_enter hok (fun v => rfl) (fun v hv => ?_)
        fun v i hv => ?_
      · have hold := h.taken v hv
        have hne : v ≠ u := by
          rintro rfl
          exact nomatch hold.symm.trans hfresh
        exact (Function.update_of_ne hne _ _).trans hold
      · exact update_or (fun _ => .inl rfl) fun _ => h.live v i hv
  | rmdir s name u =>
      obtain ⟨ht, hn⟩ := ha
      have hcall : Calls (fun u => u ≠ dir) dir dir (.rmdir s name u) := .rmdir ht.ino hn.nameOk
      have hok := (h.ok.apply hcall).1
      have heq : tx.rmdir s name u = _ := rmdir_eq hopen (h.turns_removal hn)
      rw [show (Mutation.rmdir s name u).apply tx = _ from heq] at hok ⊢
      refine ⟨rfl, withEntry_committed.trans hopen, ?_⟩
      rw [← withEntry_same] at hok ⊢
      refine h.withEntry ht rfl rfl lookup_leave hok (fun v => rfl) (fun v hv => ?_)
        fun v i hv => ?_
      · have hold := h.taken v hv
        have hne : v ≠ u := by
          rintro rfl
          exact nomatch hold.symm.trans hn.listed
        exact (Function.update_of_ne hne _ _).trans hold
      · exact update_or (fun _ => .inr rfl) fun _ => h.live v i hv
  | mkreg s name f =>
      obtain ⟨ht, hn, hs, hf⟩ := ha
      have hok := (h.ok.apply (.mkreg ht.ino hn.nameOk hf.notSelf)).1
      have heq : tx.mkreg s name f = _ := mkreg_eq (h.takesNew hopen hn hs)
      rw [show (Mutation.mkreg s name f).apply tx = _ from heq] at hok ⊢
      refine ⟨rfl, withEntry_committed.trans hopen, ?_⟩
      rw [withFile_withEntry] at hok ⊢
      refine h.withEntry ht rfl rfl lookup_enter hok (fun v => ?_) (fun v hv => ?_)
        fun v i hv => ?_
      · rw [lookup_insert_or]
        unfold fileOf
        dsimp only
        split <;> rfl
      · rcases lookup_insert_eq_some hv with ⟨-, hnone⟩ | ⟨hvu, hv⟩
        · cases hnone
        · exact (Function.update_of_ne hvu _ _).trans (h.taken v hv)
      · refine update_or (fun _ => .inl rfl) fun hvu => ?_
        rcases lookup_insert_eq_some hv with ⟨heq, -⟩ | ⟨-, hv⟩
        · exact absurd heq hvu
        · exact h.live v i hv
  | rmreg s name f =>
      obtain ⟨ht, hn⟩ := ha
      have hok := (h.ok.apply (.rmreg (f := f) ht.ino hn.nameOk)).1
      have heq : tx.rmreg s name f = _ := rmreg_eq (h.takesRemoval hopen hn)
      rw [show (Mutation.rmreg s name f).apply tx = _ from heq] at hok ⊢
      refine ⟨rfl, withEntry_committed.trans hopen, ?_⟩
      rw [withFile_withEntry] at hok ⊢
      refine h.withEntry ht rfl rfl lookup_leave hok (fun v => ?_) (fun v hv => ?_)
        fun v i hv => ?_
      · rw [lookup_insert_or]
        unfold fileOf
        dsimp only
        split <;> rfl
      · rcases lookup_insert_eq_some hv with ⟨rfl, -⟩ | ⟨hvu, hv⟩
        · exact Function.update_self _ _ _
        · exact (Function.update_of_ne hvu _ _).trans (h.taken v hv)
      · rcases lookup_insert_eq_some hv with ⟨-, hsome⟩ | ⟨hvu, hv⟩
        · cases hsome
        · exact update_or (fun heq => absurd heq hvu) fun _ => h.live v i hv
  | chreg f =>
      obtain ⟨hmade, hs, hf⟩ := ha
      have hok := (h.ok.apply (.chreg hf.notSelf)).1
      rw [show (Mutation.chreg f).apply tx = _ from chreg_eq hopen] at hok ⊢
      refine ⟨rfl, hopen, hok, h.made, h.status, h.children, h.self, h.untouched, fun v => ?_,
        fun v hv => ?_, fun v i hv => ?_⟩
      · refine (lookup_insert_or tx.fInodes _ v).trans ?_
        rw [h.files v, recorded_concat]
        unfold fileOf
        dsimp only
        split <;> rfl
      · have hv' : (tx.fInodes.insert f.ino (some f.copy)).lookup v = some none := hv
        rcases lookup_insert_eq_some hv' with ⟨-, hnone⟩ | ⟨-, hv'⟩
        · cases hnone
        · exact h.taken v hv'
      · have hv' : (tx.fInodes.insert f.ino (some f.copy)).lookup v = some (some i) := hv
        rcases lookup_insert_eq_some hv' with ⟨rfl, -⟩ | ⟨-, hv'⟩
        · exact .inl hs
        · exact h.live v i hv'

/-- After all of them. -/
theorem Carries.mutate {ms' : List Mutation} (h : Carries dir c₀ c ms tx)
    (hopen : tx.committed = false) (hl : c.Legal dir ms') :
    (tx.mutate ms').committed = false ∧
      Carries dir c₀ (c.afterAll ms') (ms ++ ms') (tx.mutate ms') := by
  induction ms' generalizing c ms tx with
  | nil =>
      rw [List.append_nil]
      exact ⟨hopen, h⟩
  | cons m ms' ih =>
      obtain ⟨-, hopen', h'⟩ := h.step hopen hl.1
      rw [show ms ++ m :: ms' = (ms ++ [m]) ++ ms' by rw [List.append_assoc]; rfl]
      exact ih h' hopen' hl.2

theorem carries_mutate (hl : c.Legal dir ms) :
    ((Transaction.new dir).mutate ms).committed = false ∧
      Carries dir c (c.afterAll ms) ms ((Transaction.new dir).mutate ms) :=
  (carries_new dir c).mutate rfl hl

end

end Course

end Nmfs
