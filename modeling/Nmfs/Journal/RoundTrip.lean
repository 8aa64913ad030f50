import Nmfs.Journal.Mutators
import Nmfs.Lib.Op
import Nmfs.Lib.PartialMap

/-
  When a journal record reads back. The decoder goes astray in two places: behind the directory's
  own inode it goes on 88 bytes too far, and the target of a link it takes from the pool. A record
  without either reads back, whatever the pool holds; a record with one of them never does.
-/

namespace Nmfs.Transaction

open Lib

/-! ## The transactions that the mutators make -/

/-- The transaction after the calls, those that throw included. -/
def mutate (tx : Transaction) (ms : List Mutation) : Transaction :=
  ms.foldl (fun tx m => (m.apply tx).2) tx

/-- The inode of a directory. -/
def IsDir (s : Inode) : Prop := s.WellFormed ∧ Inode.isDir s.core.iMode

/-- The inode of a file: its number comes from the random generator. -/
def IsFile (f : Inode) : Prop := f.WellFormed ∧ f.ino.isRandom

/-- What the callers pass. -/
def Mutation.Valid : Mutation → Prop
  | mkself s => IsDir s
  | rmself => True
  | chself s => IsDir s
  | mkdir s _ _ => IsDir s
  | rmdir s _ _ => IsDir s
  | mkreg s _ f => IsDir s ∧ IsFile f
  | rmreg s _ f => IsDir s ∧ IsFile f
  | chreg f => IsFile f

instance (s : Inode) : Decidable (IsDir s) :=
  inferInstanceAs (Decidable (s.WellFormed ∧ Inode.isDir s.core.iMode))

instance (f : Inode) : Decidable (IsFile f) :=
  inferInstanceAs (Decidable (f.WellFormed ∧ f.ino.isRandom))

/-- What every mutator keeps. -/
structure Sound (dir : Uuid) (tx : Transaction) : Prop where
  sIno : tx.sIno = dir
  committed : tx.committed = false
  created : tx.status = .S_CREATED → tx.sInode ≠ none
  sInode : ∀ s, tx.sInode = some s → s.core.linkTargetLen = 0
  fInodes : ∀ u i, ⟨u, some i⟩ ∈ tx.fInodes.entries → i.ino = u ∧ IsFile i

theorem IsDir.linkTargetLen {s : Inode} (h : IsDir s) : s.core.linkTargetLen = 0 := by
  obtain ⟨hw, hd⟩ := h
  have hl : ¬ Inode.isLnk s.core.iMode = true := by
    intro hl
    simp only [Inode.isLnk, Inode.isDir, decide_eq_true_eq] at hl hd
    exact absurd (hl.symm.trans hd) (by decide)
  unfold Inode.WellFormed at hw
  rwa [if_neg hl] at hw

theorem IsFile.copy {f : Inode} (h : IsFile f) : IsFile f.copy :=
  ⟨Inode.copy_wellFormed h.1, h.2⟩

theorem new_sound (dir : Uuid) : (new dir).Sound dir := by
  refine ⟨rfl, rfl, fun h => (nomatch h), ?_, ?_⟩
  · intro s hs
    cases hs
  · intro u i hi
    cases hi

section

variable {dir : Uuid} {tx : Transaction}

theorem Sound.setSelf (h : tx.Sound dir) (s : Inode) (hs : s.core.linkTargetLen = 0)
    (status : SelfStatus) : Sound dir { tx with sInode := some s, status := status } := by
  refine ⟨h.sIno, h.committed, fun _ => Option.some_ne_none _, ?_, h.fInodes⟩
  intro s' heq
  cases heq
  exact hs

theorem Sound.touchSelf {s : Inode} (h : tx.Sound dir) (hs : IsDir s) :
    (tx.touchSelf s).Sound dir := by
  unfold Transaction.touchSelf
  split
  · rename_i s' hs'
    refine h.setSelf _ ?_ tx.status
    exact h.sInode s' hs'
  · refine h.setSelf _ ?_ tx.status
    exact hs.linkTargetLen

theorem Sound.withEntry {self : Inode} (h : tx.Sound dir) (hs : IsDir self) (name : Bytes)
    (alive : Bool) (ino : Uuid) : (tx.withEntry self name alive ino).Sound dir := by
  have hentry : Sound dir { tx with dentries := tx.dentries.insert name (alive, ino) } :=
    ⟨h.sIno, h.committed, h.created, h.sInode, h.fInodes⟩
  exact hentry.touchSelf hs

theorem Sound.withFile (h : tx.Sound dir) (u : Uuid) (x : Option Inode)
    (hx : ∀ i, x = some i → i.ino = u ∧ IsFile i) : (tx.withFile u x).Sound dir := by
  refine ⟨h.sIno, h.committed, h.created, h.sInode, ?_⟩
  intro v i hi
  have hl : (tx.fInodes.insert u x).lookup v = some (some i) := AList.mem_lookup_iff.mpr hi
  rcases lookup_insert_eq_some hl with ⟨rfl, heq⟩ | ⟨-, hl⟩
  · exact hx i heq.symm
  · exact h.fInodes v i (AList.mem_lookup_iff.mp hl)

theorem Sound.withCopy {f : Inode} (h : tx.Sound dir) (hf : IsFile f) :
    (tx.withFile f.ino (some f.copy)).Sound dir := by
  refine h.withFile _ _ fun i hi => ?_
  cases hi
  exact ⟨rfl, hf.copy⟩

theorem Mutation.apply_sound {m : Mutation} (h : tx.Sound dir) (hm : m.Valid) :
    (m.apply tx).2.Sound dir := by
  have hcomes := apply_comesTo tx m
  generalize m.apply tx = r at hcomes ⊢
  cases hcomes with
  | turnedAway => exact h
  | refused => exact h
  | mkself self => exact h.setSelf self.copy (IsDir.linkTargetLen (s := self) hm) .S_CREATED
  | rmself => exact ⟨h.sIno, h.committed, fun heq => (nomatch heq), h.sInode, h.fInodes⟩
  | chself self => exact h.setSelf self.copy (IsDir.linkTargetLen (s := self) hm) tx.status
  | mkdir self name ino => exact h.withEntry hm name true ino
  | rmdir self name ino => exact h.withEntry hm name false ino
  | mkreg self name f => exact (h.withEntry hm.1 name true f.ino).withCopy hm.2
  | mkregLate self name f => exact h.withEntry hm.1 name true f.ino
  | rmreg self name f =>
      exact (h.withEntry hm.1 name false f.ino).withFile _ _ fun i hi => (nomatch hi)
  | rmregLate self name f => exact h.withEntry hm.1 name false f.ino
  | chreg f => exact h.withCopy hm

theorem mutate_sound {ms : List Mutation} (hms : ∀ m ∈ ms, m.Valid) (h : tx.Sound dir) :
    (tx.mutate ms).Sound dir := by
  induction ms generalizing tx with
  | nil => exact h
  | cons m ms ih =>
      exact ih (fun m' hm' => hms m' (List.mem_cons_of_mem _ hm'))
        (Mutation.apply_sound h (hms m List.mem_cons_self))

end

/-! ## Reading pieces of a record -/

theorem ok_bind {α β : Type} (a : α) (f : α → Except Err β) : (Except.ok a >>= f) = f a := rfl

theorem getRaw_eq_ok {raw bs : Bytes} {index len : Nat} :
    getRaw raw index len = .ok bs ↔ index + len ≤ raw.length ∧ slice raw index len = bs := by
  unfold getRaw
  split
  · rename_i h
    exact ⟨fun heq => ⟨h, Except.ok.inj heq⟩, fun heq => congrArg _ heq.2⟩
  · rename_i h
    exact ⟨fun heq => (nomatch heq), fun heq => absurd heq.1 h⟩

theorem getRaw_length {raw bs : Bytes} {index len : Nat} (h : getRaw raw index len = .ok bs) :
    bs.length = len := by
  obtain ⟨hle, rfl⟩ := getRaw_eq_ok.mp h
  rw [slice_length]
  omega

/-- A piece reads back where it stands. -/
theorem getRaw_at {raw : Bytes} (pre xs post : Bytes) (hr : raw = pre ++ (xs ++ post))
    {index len : Nat} (hi : pre.length = index) (hl : xs.length = len) :
    getRaw raw index len = .ok xs := by
  subst hr hi hl
  apply getRaw_eq_ok.mpr
  constructor
  · simp only [List.length_append]
    omega
  · rw [← List.append_assoc, slice_mid]

theorem dentryBytes_length (e : (_ : Bytes) × (Bool × Uuid)) :
    (dentryBytes e).length = 21 + e.1.length := by
  simp only [dentryBytes, List.length_cons, List.length_append, leBytes_length,
    e.2.2.length_data]
  omega

theorem getUuid_data (u : Uuid) : Inode.getUuid u.data 0 = u := by
  apply Uuid.ext
  simp only [Inode.getUuid]
  rw [← u.length_data, slice_all, u.length_data, Inode.resize_uuid]

/-! ## The entries -/

/-- A round of the loop, where an entry stands. -/
theorem readDentries_entry (e : (_ : Bytes) × (Bool × Uuid)) (pre post : Bytes) (fuel : Nat)
    {dentries : AList (fun _ : Bytes => Bool × Uuid)} (hlen : e.1.length < 2 ^ 31)
    (hnot : e.1 ∉ dentries) :
    readDentries (pre ++ (dentryBytes e ++ post)) (fuel + 1) pre.length dentries =
      readDentries (pre ++ (dentryBytes e ++ post)) fuel (pre ++ dentryBytes e).length
        (dentries.insert e.1 e.2) := by
  obtain ⟨name, alive, ino⟩ := e
  dsimp only at hlen hnot
  generalize hstat : (if alive then 1 else 0 : UInt8) = stat
  generalize hraw : pre ++ (dentryBytes ⟨name, alive, ino⟩ ++ post) = raw
  have hraw' : raw = pre ++ ([stat] ++ (leBytes 4 name.length ++ (name ++ (ino.data ++ post)))) := by
    rw [← hraw, ← hstat]
    simp only [dentryBytes, List.append_assoc, List.cons_append, List.nil_append]
  have h4 : (leBytes 4 name.length).length = 4 := leBytes_length _ _
  have hino := ino.length_data
  have g0 : getRaw raw pre.length 1 = .ok [stat] := getRaw_at pre _ _ hraw' rfl rfl
  have g1 : getRaw raw (pre.length + 1) 4 = .ok (leBytes 4 name.length) :=
    getRaw_at (pre ++ [stat]) _ _ (by rw [hraw', List.append_assoc])
      (by rw [List.length_append, List.length_singleton]) h4
  have g2 : getRaw raw (pre.length + 5) name.length = .ok name :=
    getRaw_at (pre ++ ([stat] ++ leBytes 4 name.length)) _ (ino.data ++ post)
      (by rw [hraw']; simp only [List.append_assoc])
      (by simp only [List.length_append, List.length_singleton, h4]) rfl
  have g3 : getRaw raw (pre.length + 5 + name.length) 16 = .ok ino.data :=
    getRaw_at (pre ++ ([stat] ++ (leBytes 4 name.length ++ name))) _ post
      (by rw [hraw']; simp only [List.append_assoc])
      (by simp only [List.length_append, List.length_singleton, h4]; omega) hino
  have hnat : leNat (leBytes 4 name.length) = name.length := leNat_leBytes _ _ (by omega)
  have hnotEnd : ¬ [stat] = ([255] : Bytes) := by
    rw [← hstat]
    cases alive <;> decide
  have halive : decide ([stat] ≠ ([0] : Bytes)) = alive := by
    rw [← hstat]
    cases alive <;> decide
  have hnext : (pre ++ dentryBytes ⟨name, alive, ino⟩).length = pre.length + 5 + name.length + 16 := by
    rw [List.length_append, dentryBytes_length]
    dsimp only
    omega
  simp only [readDentries, g0, ok_bind, if_neg hnotEnd, g1, hnat, if_neg (Nat.not_le.mpr hlen), g2,
    g3, if_neg hnot, halive, getUuid_data, hnext]

/-- The loop reads the entries one after the other, up to the byte -1. -/
theorem readDentries_eq (es : List ((_ : Bytes) × (Bool × Uuid))) (pre post : Bytes) (fuel : Nat)
    (dentries : AList (fun _ : Bytes => Bool × Uuid)) (hnames : ∀ e ∈ es, e.1.length < 2 ^ 31)
    (hfuel : es.length < fuel) (hnodup : (es.map Sigma.fst).Nodup)
    (hnew : ∀ e ∈ es, e.1 ∉ dentries) :
    ∃ dentries', readDentries (pre ++ (es.flatMap dentryBytes ++ 255 :: post)) fuel pre.length
        dentries = .ok (pre.length + (es.flatMap dentryBytes).length + 1, dentries') ∧
      dentries'.entries = es.reverse ++ dentries.entries := by
  induction es generalizing pre fuel dentries with
  | nil =>
      obtain ⟨fuel, rfl⟩ : ∃ n, fuel = n + 1 := ⟨fuel - 1, by simp at hfuel; omega⟩
      have g : getRaw (pre ++ 255 :: post) pre.length 1 = .ok [255] :=
        getRaw_at pre [255] post rfl rfl rfl
      refine ⟨dentries, ?_, rfl⟩
      simp only [List.flatMap_nil, List.nil_append, readDentries, g, ok_bind, if_true]
      rfl
  | cons e es ih =>
      obtain ⟨fuel, rfl⟩ : ∃ n, fuel = n + 1 := ⟨fuel - 1, by simp at hfuel; omega⟩
      have hnot : e.1 ∉ dentries := hnew e List.mem_cons_self
      rw [List.map_cons, List.nodup_cons] at hnodup
      have hnew' : ∀ e' ∈ es, e'.1 ∉ dentries.insert e.1 e.2 := by
        intro e' he' hmem
        rcases (AList.mem_insert _).mp hmem with heq | hold
        · exact hnodup.1 (List.mem_map.mpr ⟨e', he', heq⟩)
        · exact hnew e' (List.mem_cons_of_mem _ he') hold
      obtain ⟨dentries', hd, hentries⟩ := ih (pre ++ dentryBytes e) fuel (dentries.insert e.1 e.2)
        (fun e' he' => hnames e' (List.mem_cons_of_mem _ he')) (by simpa using hfuel) hnodup.2 hnew'
      refine ⟨dentries', ?_, ?_⟩
      · rw [List.flatMap_cons, List.append_assoc,
          readDentries_entry e pre _ fuel (hnames e List.mem_cons_self) hnot, ← List.append_assoc, hd,
          List.length_append, List.length_append, Nat.add_assoc pre.length]
      · rw [hentries, AList.entries_insert_of_notMem hnot]
        simp

/-- However the loop ends, it has gone over as many bytes as its entries take in a record. -/
theorem readDentries_index {raw : Bytes} {fuel index index' : Nat}
    {dentries dentries' : AList (fun _ : Bytes => Bool × Uuid)}
    (h : readDentries raw fuel index dentries = .ok (index', dentries')) :
    index' + (dentries.entries.flatMap dentryBytes).length =
      index + (dentries'.entries.flatMap dentryBytes).length + 1 := by
  induction fuel generalizing index dentries with
  | zero => cases h
  | succ fuel ih =>
      rw [readDentries] at h
      obtain ⟨entryStat, h0, h⟩ := bind_eq_ok.mp h
      split at h
      · cases h
        omega
      obtain ⟨lenBytes, h1, h⟩ := bind_eq_ok.mp h
      dsimp only at h
      split at h
      · cases h
      obtain ⟨name, h2, h⟩ := bind_eq_ok.mp h
      obtain ⟨ino, h3, h⟩ := bind_eq_ok.mp h
      split at h
      · cases h
      rename_i hnot
      have hnext := ih h
      rw [AList.entries_insert_of_notMem hnot, List.flatMap_cons, List.length_append,
        dentryBytes_length] at hnext
      have hname := getRaw_length h2
      dsimp only at hnext
      omega

/-! ## The inodes -/

/-- An inode as it comes back from a record, its target aside. -/
def reread (i : Inode) : Inode :=
  ⟨i.core, if Inode.isLnk i.core.iMode then some [] else none⟩

theorem deserialize_reread (pool : Pool) {i : Inode} (h : i.core.linkTargetLen = 0) :
    Inode.deserialize pool none i.core.bytes = .ok (reread i) := by
  have hcore : Inode.Core.ofBytes i.core.bytes = i.core := by
    have := Inode.Core.ofBytes_append i.core []
    rwa [List.append_nil] at this
  unfold Inode.deserialize reread
  rw [hcore]
  dsimp only
  split
  · have hread : RadosIo.read pool .inode i.core.iIno.toStr 0 Inode.REG_INODE_SIZE = .done [] 0 :=
      rfl
    have h0 : i.core.linkTargetLen.toNat = 0 := by
      rw [h]
      rfl
    rw [h0, hread]
    rfl
  · rfl

theorem reread_target {i : Inode} (hw : i.WellFormed) (h : i.core.linkTargetLen = 0) :
    (reread i).target = i.target := by
  unfold Inode.target reread
  dsimp only
  by_cases hl : Inode.isLnk i.core.iMode = true
  · unfold Inode.WellFormed at hw
    rw [if_pos hl, h] at hw
    rw [if_pos hl, if_pos hl, if_pos hl]
    exact (List.eq_nil_of_length_eq_zero hw).symm
  · rw [if_neg hl, if_neg hl]

theorem serialize_of_noTarget {i : Inode} (h : i.core.linkTargetLen = 0) :
    i.serialize = i.core.bytes := by
  unfold Inode.serialize
  rw [h, if_neg fun hc => absurd hc.2 (by decide)]
  exact List.append_nil _

theorem inodeBytes_of_noTarget {i : Inode} (h : i.core.linkTargetLen = 0) :
    inodeBytes i = leBytes 4 Inode.REG_INODE_SIZE ++ i.core.bytes := by
  rw [inodeBytes, serialize_of_noTarget h, Inode.Core.bytes_length]

/-- A round of the loop, where a live inode stands. -/
theorem readFInodes_inode (pool : Pool) {i : Inode} (hlen : i.core.linkTargetLen = 0)
    (pre post : Bytes) (fuel : Nat) {fInodes : AList (fun _ : Uuid => Option Inode)}
    (hnot : (reread i).ino ∉ fInodes) :
    readFInodes pool (pre ++ (inodeBytes i ++ post)) (fuel + 1) pre.length fInodes =
      readFInodes pool (pre ++ (inodeBytes i ++ post)) fuel (pre ++ inodeBytes i).length
        (fInodes.insert (reread i).ino (some (reread i))) := by
  rw [inodeBytes_of_noTarget hlen]
  have hcore := Inode.Core.bytes_length i.core
  have h4 : (leBytes 4 Inode.REG_INODE_SIZE).length = 4 := leBytes_length _ _
  generalize hraw : pre ++ ((leBytes 4 Inode.REG_INODE_SIZE ++ i.core.bytes) ++ post) = raw
  have hraw' : raw = pre ++ (leBytes 4 Inode.REG_INODE_SIZE ++ (i.core.bytes ++ post)) := by
    rw [← hraw, List.append_assoc]
  have g0 : getRaw raw pre.length 4 = .ok (leBytes 4 Inode.REG_INODE_SIZE) :=
    getRaw_at pre _ _ hraw' rfl h4
  have g1 : getRaw raw (pre.length + 4) Inode.REG_INODE_SIZE = .ok i.core.bytes :=
    getRaw_at (pre ++ leBytes 4 Inode.REG_INODE_SIZE) _ post (by rw [hraw', List.append_assoc])
      (by rw [List.length_append, h4]) hcore
  have hsize : leNat (leBytes 4 Inode.REG_INODE_SIZE) = Inode.REG_INODE_SIZE := by decide
  have hgo : ¬ Inode.REG_INODE_SIZE = 2 ^ 32 - 1 := by decide
  have hadv : advance (pre.length + 4) Inode.REG_INODE_SIZE =
      .ok (pre.length + 4 + Inode.REG_INODE_SIZE) := if_pos (by decide)
  have hnext : (pre ++ (leBytes 4 Inode.REG_INODE_SIZE ++ i.core.bytes)).length =
      pre.length + 4 + Inode.REG_INODE_SIZE := by
    rw [List.length_append, List.length_append, h4, hcore, Nat.add_assoc]
  simp only [readFInodes, g0, ok_bind, hsize, if_neg hgo, g1, deserialize_reread pool hlen,
    if_neg hnot, hadv, hnext]

/-- The loop reads the live inodes one after the other, up to the size -1. -/
theorem readFInodes_eq (pool : Pool) (es : List ((_ : Uuid) × Option Inode)) (pre : Bytes)
    (fuel : Nat) (fInodes : AList (fun _ : Uuid => Option Inode))
    (hes : ∀ u i, ⟨u, some i⟩ ∈ es → i.ino = u ∧ i.core.linkTargetLen = 0)
    (hfuel : (es.flatMap fInodeBytes).length < fuel) (hnodup : (es.map Sigma.fst).Nodup)
    (hnew : ∀ e ∈ es, e.1 ∉ fInodes) :
    ∃ fInodes', readFInodes pool (pre ++ (es.flatMap fInodeBytes ++ minusOne)) fuel pre.length
        fInodes = .ok fInodes' ∧
      ∀ u x, ⟨u, x⟩ ∈ fInodes'.entries ↔
        ⟨u, x⟩ ∈ fInodes.entries ∨ ∃ i, ⟨u, some i⟩ ∈ es ∧ x = some (reread i) := by
  induction es generalizing pre fuel fInodes with
  | nil =>
      obtain ⟨fuel, rfl⟩ : ∃ n, fuel = n + 1 := ⟨fuel - 1, by simp at hfuel; omega⟩
      have g : getRaw (pre ++ minusOne) pre.length 4 = .ok minusOne :=
        getRaw_at pre minusOne [] (by rw [List.append_nil]) rfl rfl
      have hend : leNat minusOne = 2 ^ 32 - 1 := by decide
      refine ⟨fInodes, ?_, ?_⟩
      · simp only [List.flatMap_nil, List.nil_append, readFInodes, g, ok_bind, hend, if_true]
        rfl
      · intro u x
        simp
  | cons e es ih =>
      obtain ⟨u, x⟩ := e
      rw [List.map_cons, List.nodup_cons] at hnodup
      have hes' : ∀ v i, ⟨v, some i⟩ ∈ es → i.ino = v ∧ i.core.linkTargetLen = 0 :=
        fun v i hi => hes v i (List.mem_cons_of_mem _ hi)
      rw [List.flatMap_cons] at hfuel ⊢
      cases x with
      | none =>
          obtain ⟨fInodes', hd, hmem⟩ := ih pre fuel fInodes hes' hfuel hnodup.2
            (fun e he => hnew e (List.mem_cons_of_mem _ he))
          refine ⟨fInodes', hd, ?_⟩
          intro v x
          rw [hmem v x]
          simp
      | some i =>
          obtain ⟨rfl, hlen⟩ := hes u i List.mem_cons_self
          obtain ⟨fuel, rfl⟩ : ∃ n, fuel = n + 1 := ⟨fuel - 1, by omega⟩
          dsimp only [fInodeBytes] at hfuel ⊢
          rw [List.length_append, inodeBytes, List.length_append, leBytes_length] at hfuel
          have hnot : (reread i).ino ∉ fInodes := hnew _ List.mem_cons_self
          have hnew' : ∀ e ∈ es, e.1 ∉ fInodes.insert (reread i).ino (some (reread i)) := by
            intro e he hmem
            rcases (AList.mem_insert _).mp hmem with heq | hold
            · exact hnodup.1 (List.mem_map.mpr ⟨e, he, heq⟩)
            · exact hnew e (List.mem_cons_of_mem _ he) hold
          obtain ⟨fInodes', hd, hmem⟩ := ih (pre ++ inodeBytes i) fuel
            (fInodes.insert (reread i).ino (some (reread i))) hes' (by omega) hnodup.2 hnew'
          refine ⟨fInodes', ?_, ?_⟩
          · rw [List.append_assoc, readFInodes_inode pool hlen pre _ fuel hnot, ← List.append_assoc]
            exact hd
          · intro v x
            rw [hmem v x, AList.entries_insert_of_notMem hnot]
            simp only [List.mem_cons, Sigma.mk.injEq, heq_eq_eq]
            constructor
            · rintro ((⟨rfl, rfl⟩ | hold) | ⟨j, hj, rfl⟩)
              · exact .inr ⟨i, .inl ⟨rfl, rfl⟩, rfl⟩
              · exact .inl hold
              · exact .inr ⟨j, .inr hj, rfl⟩
            · rintro (hold | ⟨j, ⟨rfl, hj⟩ | hj, rfl⟩)
              · exact .inl (.inr hold)
              · cases hj
                exact .inl (.inl ⟨rfl, rfl⟩)
              · exact .inr ⟨j, hj, rfl⟩

/-- The loop forgets nothing. -/
theorem readFInodes_keeps {pool : Pool} {raw : Bytes} {fuel index : Nat}
    {fInodes fInodes' : AList (fun _ : Uuid => Option Inode)}
    (h : readFInodes pool raw fuel index fInodes = .ok fInodes') (u : Uuid) (x : Option Inode)
    (hu : ⟨u, x⟩ ∈ fInodes.entries) : ⟨u, x⟩ ∈ fInodes'.entries := by
  induction fuel generalizing index fInodes with
  | zero => cases h
  | succ fuel ih =>
      rw [readFInodes] at h
      obtain ⟨sizeBytes, -, h⟩ := bind_eq_ok.mp h
      dsimp only at h
      split at h
      · cases h
        exact hu
      obtain ⟨value, -, h⟩ := bind_eq_ok.mp h
      obtain ⟨i, -, h⟩ := bind_eq_ok.mp h
      split at h
      · cases h
      rename_i hnot
      obtain ⟨index', -, h⟩ := bind_eq_ok.mp h
      apply ih h
      rw [AList.entries_insert_of_notMem hnot]
      exact List.mem_cons_of_mem _ hu

/-- Every inode of the loop comes from `Inode.deserialize`. -/
theorem readFInodes_source {pool : Pool} {raw : Bytes} {fuel index : Nat}
    {fInodes fInodes' : AList (fun _ : Uuid => Option Inode)}
    (h : readFInodes pool raw fuel index fInodes = .ok fInodes') (u : Uuid) (x : Option Inode)
    (hu : ⟨u, x⟩ ∈ fInodes'.entries) :
    ⟨u, x⟩ ∈ fInodes.entries ∨
      ∃ value i, Inode.deserialize pool none value = .ok i ∧ x = some i ∧ i.ino = u := by
  induction fuel generalizing index fInodes with
  | zero => cases h
  | succ fuel ih =>
      rw [readFInodes] at h
      obtain ⟨sizeBytes, -, h⟩ := bind_eq_ok.mp h
      dsimp only at h
      split at h
      · cases h
        exact .inl hu
      obtain ⟨value, -, h⟩ := bind_eq_ok.mp h
      obtain ⟨i, hi, h⟩ := bind_eq_ok.mp h
      split at h
      · cases h
      rename_i hnot
      obtain ⟨index', -, h⟩ := bind_eq_ok.mp h
      rcases ih h with hacc | hfrom
      · rw [AList.entries_insert_of_notMem hnot] at hacc
        rcases List.mem_cons.mp hacc with heq | hold
        · cases heq
          exact .inr ⟨value, i, hi, rfl, rfl⟩
        · exact .inl hold
      · exact .inr hfrom

/-! ## Records -/

/-- The inode that a file is changed to. -/
def liveInode (tx : Transaction) (u : Uuid) : Option Inode := (tx.fInodes.lookup u).join

structure SameContent (tx tx' : Transaction) : Prop where
  sInode : tx'.sInode.map Inode.core = tx.sInode.map Inode.core
  dentries : ∀ name, tx'.dentries.lookup name = tx.dentries.lookup name
  fInodes : ∀ u, (tx'.liveInode u).map (fun i => (i.core, i.target)) =
    (tx.liveInode u).map (fun i => (i.core, i.target))

/-- The record decodes to what was encoded, whatever the pool holds. -/
def RoundTrip (tx : Transaction) : Prop :=
  ∀ pool, ∃ tx', deserialize pool tx.sIno tx.serialize = .ok (0, tx') ∧ SameContent tx tx'

/-- The same transaction, with its maps in any order. -/
structure Reordered (tx tx' : Transaction) : Prop where
  committed : tx'.committed = tx.committed
  status : tx'.status = tx.status
  sIno : tx'.sIno = tx.sIno
  sInode : tx'.sInode = tx.sInode
  dentries : tx'.dentries.entries.Perm tx.dentries.entries
  fInodes : tx'.fInodes.entries.Perm tx.fInodes.entries

theorem Sound.reordered {dir : Uuid} {tx tx' : Transaction} (h : tx.Sound dir)
    (hr : Reordered tx tx') : tx'.Sound dir := by
  refine ⟨hr.sIno.trans h.sIno, hr.committed.trans h.committed, ?_, ?_, ?_⟩
  · rw [hr.status, hr.sInode]
    exact h.created
  · intro s hs
    exact h.sInode s (hr.sInode ▸ hs)
  · intro u i hi
    exact h.fInodes u i (hr.fInodes.mem_iff.mp hi)

theorem liveInode_eq_some {tx : Transaction} {u : Uuid} {i : Inode} :
    tx.liveInode u = some i ↔ ⟨u, some i⟩ ∈ tx.fInodes.entries := by
  rw [liveInode, Option.join_eq_some_iff, ← Option.mem_def, AList.mem_lookup_iff]

theorem IsFile.target_eq_nil {i : Inode} (h : IsFile i) :
    i.target = [] ↔ i.core.linkTargetLen = 0 := by
  have hw := h.1
  unfold Inode.WellFormed at hw
  unfold Inode.target
  by_cases hl : Inode.isLnk i.core.iMode = true
  · rw [if_pos hl] at hw ⊢
    rw [← List.length_eq_zero_iff, hw, ← UInt32.toNat_inj]
    rfl
  · rw [if_neg hl] at hw
    rw [if_neg hl]
    exact ⟨fun _ => hw, fun _ => rfl⟩

/-- The record of a transaction that leaves the directory's inode alone. -/
theorem body_of_none {tx : Transaction} (h : tx.sInode = none) :
    tx.body = [1] ++ (minusOne ++ (tx.dentries.entries.flatMap dentryBytes ++
      255 :: (tx.fInodes.entries.flatMap fInodeBytes ++ minusOne))) := by
  unfold body
  rw [h]
  rfl

theorem nameLength_lt {tx : Transaction} (hlen : tx.serialize.length < 2 ^ 31) :
    ∀ e ∈ tx.dentries.entries, e.1.length < 2 ^ 31 := by
  intro e he
  have hone := length_le_flatMap_of_mem dentryBytes he
  rw [dentryBytes_length] at hone
  simp only [serialize, body, List.length_append, List.length_cons] at hlen
  omega

/-- What a record decodes to that has neither the directory's inode nor a target. -/
theorem deserialize_of_none (pool : Pool) {tx : Transaction} (hlen : tx.serialize.length < 2 ^ 31)
    (hs : tx.sInode = none)
    (hfile : ∀ u i, ⟨u, some i⟩ ∈ tx.fInodes.entries → i.ino = u ∧ i.core.linkTargetLen = 0) :
    ∃ tx', deserialize pool tx.sIno tx.serialize = .ok (0, tx') ∧ tx'.sInode = none ∧
      tx'.dentries.entries.Perm tx.dentries.entries ∧
      ∀ u x, ⟨u, x⟩ ∈ tx'.fInodes.entries ↔
        ∃ i, ⟨u, some i⟩ ∈ tx.fInodes.entries ∧ x = some (reread i) := by
  have hnames := nameLength_lt hlen
  have hraw : tx.serialize = leBytes 4 (4 + tx.body.length) ++ ([1] ++ (minusOne ++
      (tx.dentries.entries.flatMap dentryBytes ++
        255 :: (tx.fInodes.entries.flatMap fInodeBytes ++ minusOne)))) := by
    rw [← body_of_none hs]
    rfl
  generalize tx.serialize = raw at hlen hraw ⊢
  generalize hhead : leBytes 4 (4 + tx.body.length) = head at hraw
  have h4 : head.length = 4 := by rw [← hhead, leBytes_length]
  have hpre : (head ++ ([1] ++ minusOne)).length = 9 := by
    rw [List.length_append, h4]
    rfl
  have hfuel : (tx.dentries.entries.flatMap dentryBytes).length +
      (tx.fInodes.entries.flatMap fInodeBytes).length ≤ raw.length := by
    rw [hraw]
    simp only [List.length_append, List.length_cons]
    omega
  have hcount := length_le_flatMap (f := dentryBytes)
    (fun e => by rw [dentryBytes_length]; omega) tx.dentries.entries
  -- the valid byte, and no inode of the directory
  have hvalid : getRaw raw 4 1 = .ok [1] := getRaw_at head [1] _ hraw h4 rfl
  have hsize : getRaw raw 5 4 = .ok minusOne :=
    getRaw_at (head ++ [1]) minusOne (tx.dentries.entries.flatMap dentryBytes ++
        255 :: (tx.fInodes.entries.flatMap fInodeBytes ++ minusOne))
      (by rw [hraw, List.append_assoc]) (by rw [List.length_append, h4]; rfl) rfl
  have hnone : readSInode pool raw = .ok (9, none) := by
    unfold readSInode
    rw [hsize, ok_bind]
    exact if_pos (by decide)
  -- the entries
  obtain ⟨dentries, hd, hdentries⟩ := readDentries_eq tx.dentries.entries
    (head ++ ([1] ++ minusOne)) (tx.fInodes.entries.flatMap fInodeBytes ++ minusOne)
    (raw.length + 1) ∅ hnames (by omega) tx.dentries.keys_nodup (fun e _ => AList.notMem_empty e.1)
  have hsplit : raw = (head ++ ([1] ++ minusOne)) ++ (tx.dentries.entries.flatMap dentryBytes ++
      255 :: (tx.fInodes.entries.flatMap fInodeBytes ++ minusOne)) := by
    rw [hraw]
    simp only [List.append_assoc]
  rw [← hsplit, hpre] at hd
  -- the inodes
  obtain ⟨fInodes, hfi, hfInodes⟩ := readFInodes_eq pool tx.fInodes.entries
    (head ++ ([1] ++ minusOne) ++ (tx.dentries.entries.flatMap dentryBytes ++ [255]))
    (raw.length + 1) ∅ hfile (by omega) tx.fInodes.keys_nodup (fun e _ => AList.notMem_empty e.1)
  have hsplit' : raw = (head ++ ([1] ++ minusOne) ++
      (tx.dentries.entries.flatMap dentryBytes ++ [255])) ++
        (tx.fInodes.entries.flatMap fInodeBytes ++ minusOne) := by
    rw [hraw]
    simp only [List.append_assoc, List.cons_append, List.nil_append]
  have hindex : (head ++ ([1] ++ minusOne) ++
      (tx.dentries.entries.flatMap dentryBytes ++ [255])).length =
        9 + (tx.dentries.entries.flatMap dentryBytes).length + 1 := by
    rw [List.length_append, hpre, List.length_append, List.length_singleton]
    omega
  rw [← hsplit', hindex] at hfi
  refine ⟨{ new tx.sIno with sInode := none, dentries := dentries, fInodes := fInodes },
    ?_, rfl, ?_, ?_⟩
  · unfold deserialize
    rw [hvalid, ok_bind, if_neg (by decide), hnone, ok_bind]
    dsimp only
    rw [hd, ok_bind]
    dsimp only
    rw [hfi, ok_bind]
    rfl
  · rw [hdentries, AList.empty_entries, List.append_nil]
    exact List.reverse_perm _
  · intro u x
    rw [hfInodes u x]
    simp

/-- A record without the two reads back. -/
theorem roundTrip_of_kept {dir : Uuid} {tx : Transaction} (h : tx.Sound dir)
    (hlen : tx.serialize.length < 2 ^ 31)
    (hs : tx.sInode = none) (hf : ∀ u i, tx.liveInode u = some i → i.target = []) :
    RoundTrip tx := by
  intro pool
  have hfile : ∀ u i, ⟨u, some i⟩ ∈ tx.fInodes.entries →
      i.ino = u ∧ i.core.linkTargetLen = 0 := by
    intro u i hi
    obtain ⟨hino, hfile⟩ := h.fInodes u i hi
    exact ⟨hino, hfile.target_eq_nil.mp (hf u i (liveInode_eq_some.mpr hi))⟩
  obtain ⟨tx', hd, hs', hperm, hmem⟩ := deserialize_of_none pool hlen hs hfile
  refine ⟨tx', hd, ?_, fun name => AList.perm_lookup hperm, ?_⟩
  · rw [hs, hs']
  · intro u
    have hiff : ∀ i', tx'.liveInode u = some i' ↔ ∃ i, tx.liveInode u = some i ∧ i' = reread i := by
      intro i'
      rw [liveInode_eq_some, hmem u (some i')]
      simp only [liveInode_eq_some, Option.some.injEq]
    cases hlive : tx.liveInode u with
    | none =>
        cases hlive' : tx'.liveInode u with
        | none => rfl
        | some i' =>
            obtain ⟨i, hi, -⟩ := (hiff i').mp hlive'
            rw [hlive] at hi
            cases hi
    | some i =>
        have hi := h.fInodes u i (liveInode_eq_some.mp hlive)
        have hlen0 := hi.2.target_eq_nil.mp (hf u i hlive)
        rw [(hiff (reread i)).mpr ⟨i, hlive, rfl⟩, Option.map_some, Option.map_some,
          reread_target hi.2.1 hlen0]
        rfl

/-! ## The two ways a record is lost -/

/-- There is nothing to read in an empty pool. -/
theorem read_empty (category : ObjCategory) (key : Str) {len : Nat} (h : 0 < len) (offset : Nat) :
    RadosIo.read ∅ category key len offset = .noSuchObject [] 0 := by
  obtain ⟨n, rfl⟩ : ∃ n, len = n + 1 := ⟨len - 1, by omega⟩
  unfold RadosIo.read segments segmentsFrom
  rw [if_pos (by omega)]
  rfl

theorem deserialize_eq_ok {pool : Pool} {selfIno : Uuid} {raw : Bytes} {tx : Transaction}
    (h : deserialize pool selfIno raw = .ok (0, tx)) :
    ∃ index index', readSInode pool raw = .ok (index, tx.sInode) ∧
      readDentries raw (raw.length + 1) index ∅ = .ok (index', tx.dentries) ∧
      readFInodes pool raw (raw.length + 1) index' ∅ = .ok tx.fInodes ∧
      tx.status = .S_UNCHANGED ∧ tx.sIno = selfIno := by
  unfold deserialize at h
  obtain ⟨valid, -, h⟩ := bind_eq_ok.mp h
  split at h
  · cases h
  obtain ⟨⟨index, sInode⟩, hs, h⟩ := bind_eq_ok.mp h
  obtain ⟨⟨index', dentries⟩, hd, h⟩ := bind_eq_ok.mp h
  obtain ⟨fInodes, hf, h⟩ := bind_eq_ok.mp h
  cases h
  exact ⟨index, index', hs, hd, hf, rfl, rfl⟩

/-- A decoded link has its target from the pool. -/
theorem deserialize_link {pool : Pool} {value : Bytes} {i : Inode}
    (h : Inode.deserialize pool none value = .ok i) (hl : Inode.isLnk i.core.iMode = true) :
    ∃ bytes sum, RadosIo.read pool .inode i.ino.toStr i.core.linkTargetLen.toNat
        Inode.REG_INODE_SIZE = .done bytes sum ∧
      i.target = resize 0 bytes i.core.linkTargetLen.toNat := by
  unfold Inode.deserialize at h
  dsimp only at h
  split at h
  · rename_i hl'
    split at h
    · rename_i bytes sum hread
      cases h
      exact ⟨bytes, sum, hread, if_pos hl'⟩
    · cases h
  · cases h
    contradiction

/-- The target of a link is lost where the pool does not have it. -/
theorem target_eq_nil_of_decode {pool : Pool} {dir : Uuid} {tx tx' : Transaction}
    (h : tx.Sound dir)
    (hd : deserialize pool tx.sIno tx.serialize = .ok (0, tx')) (hsame : SameContent tx tx')
    (u : Uuid) (i : Inode) (hi : tx.liveInode u = some i)
    (hpool : ∀ bytes sum, 0 < i.core.linkTargetLen.toNat →
      RadosIo.read pool .inode i.ino.toStr i.core.linkTargetLen.toNat Inode.REG_INODE_SIZE =
        .done bytes sum → i.target ≠ resize 0 bytes i.core.linkTargetLen.toNat) :
    i.target = [] := by
  obtain ⟨-, hfile⟩ := h.fInodes u i (liveInode_eq_some.mp hi)
  by_cases hl : Inode.isLnk i.core.iMode = true
  · rw [hfile.target_eq_nil]
    have hlive := hsame.fInodes u
    rw [hi, Option.map_some] at hlive
    obtain ⟨i', hi', heq⟩ := Option.map_eq_some_iff.mp hlive
    obtain ⟨hcore, htarget⟩ := Prod.mk.inj heq
    obtain ⟨index, index', -, -, hf, -, -⟩ := deserialize_eq_ok hd
    rcases readFInodes_source hf u (some i') (liveInode_eq_some.mp hi') with hnil | hfrom
    · cases hnil
    · obtain ⟨value, j, hj, hij, -⟩ := hfrom
      cases hij
      obtain ⟨bytes, sum, hread, hbytes⟩ := deserialize_link hj (by rw [hcore]; exact hl)
      rw [htarget] at hbytes
      rw [Inode.ino, hcore] at hread
      rw [hcore] at hbytes
      by_contra hne
      refine hpool bytes sum ?_ hread hbytes
      rw [Nat.pos_iff_ne_zero]
      exact fun h0 => hne (UInt32.toNat_inj.mp h0)
  · unfold Inode.target
    rw [if_neg hl]

/-- The record of a transaction with the directory's inode. -/
theorem body_of_some {tx : Transaction} {s : Inode} (h : tx.sInode = some s) :
    tx.body = [1] ++ (inodeBytes s ++ (tx.dentries.entries.flatMap dentryBytes ++
      255 :: (tx.fInodes.entries.flatMap fInodeBytes ++ minusOne))) := by
  unfold body
  rw [h]
  rfl

theorem flatMap_dentryBytes_length {dentries dentries' : AList (fun _ : Bytes => Bool × Uuid)}
    (h : ∀ name, dentries'.lookup name = dentries.lookup name) :
    (dentries'.entries.flatMap dentryBytes).length =
      (dentries.entries.flatMap dentryBytes).length := by
  have hperm : dentries'.entries.Perm dentries.entries := by
    apply List.lookup_ext dentries'.nodupKeys dentries.nodupKeys
    intro name x
    exact (iff_of_eq (congrArg (x ∈ ·) (h name)))
  exact (hperm.flatMap_right dentryBytes).length_eq

/-- With no link target among them, the live inodes take 108 bytes each. -/
theorem fInodes_bytes (es : List ((_ : Uuid) × Option Inode))
    (hes : ∀ u i, ⟨u, some i⟩ ∈ es → i.core.linkTargetLen = 0) :
    ∃ live : List Inode, es.flatMap fInodeBytes =
        live.flatMap (fun i => leBytes 4 Inode.REG_INODE_SIZE ++ i.core.bytes) ∧
      ∀ i, i ∈ live ↔ ∃ u, ⟨u, some i⟩ ∈ es := by
  induction es with
  | nil => exact ⟨[], rfl, by simp⟩
  | cons e es ih =>
      obtain ⟨u, x⟩ := e
      obtain ⟨live, hlive, hmem⟩ := ih fun v i hi => hes v i (List.mem_cons_of_mem _ hi)
      cases x with
      | none =>
          refine ⟨live, hlive, ?_⟩
          intro i
          rw [hmem i]
          simp
      | some i =>
          refine ⟨i :: live, ?_, ?_⟩
          · have hlen := hes u i List.mem_cons_self
            rw [List.flatMap_cons, List.flatMap_cons, hlive]
            congr 1
            exact inodeBytes_of_noTarget hlen
          · intro j
            rw [List.mem_cons, hmem j]
            constructor
            · rintro (rfl | ⟨v, hv⟩)
              · exact ⟨u, List.mem_cons_self⟩
              · exact ⟨v, List.mem_cons_of_mem _ hv⟩
            · rintro ⟨v, hv⟩
              rcases List.mem_cons.mp hv with heq | hold
              · cases heq
                exact .inl rfl
              · exact .inr ⟨v, hold⟩

theorem getUuid_getElem? (raw : Bytes) (off k : Nat) (hk : k < 16) :
    (Inode.getUuid raw off).data[k]? = some (raw[off + k]?.getD 0) := by
  simp only [Inode.getUuid]
  rw [getElem?_resize, if_pos hk, getElem?_slice, if_pos hk, slice_length]
  split
  · rename_i h
    rw [List.getElem?_eq_getElem (by omega), Option.getD_some]
  · rename_i h
    rw [List.getElem?_eq_none (by omega), Option.getD_none]

theorem deserialize_core {pool : Pool} {value : Bytes} {i : Inode}
    (h : Inode.deserialize pool none value = .ok i) : i.core = Inode.Core.ofBytes value := by
  unfold Inode.deserialize at h
  dsimp only at h
  split at h
  · split at h
    · cases h
      rfl
    · cases h
  · cases h
    rfl

/-- Where the inodes are taken to start 88 bytes too late, byte 6 of the first inode number is the
    third byte of the size of the second inode. -/
theorem shifted_not_random (pre rest : Bytes) (i : Inode) :
    ∀ value, getRaw (pre ++ ((leBytes 4 Inode.REG_INODE_SIZE ++ i.core.bytes) ++
        (leBytes 4 Inode.REG_INODE_SIZE ++ rest))) (pre.length + 92) Inode.REG_INODE_SIZE = .ok value →
      (Inode.Core.ofBytes value).iIno.isRandom = false := by
  intro value h
  obtain ⟨-, rfl⟩ := getRaw_eq_ok.mp h
  have hone : (leBytes 4 Inode.REG_INODE_SIZE ++ i.core.bytes).length = 108 := by
    rw [List.length_append, leBytes_length, Inode.Core.bytes_length]
    rfl
  have hbyte : (slice (pre ++ ((leBytes 4 Inode.REG_INODE_SIZE ++ i.core.bytes) ++
      (leBytes 4 Inode.REG_INODE_SIZE ++ rest))) (pre.length + 92) Inode.REG_INODE_SIZE)[12 + 6]? =
        some 0 := by
    rw [getElem?_slice, if_pos (by decide), List.getElem?_append_right (by omega),
      List.getElem?_append_right (by omega), hone, List.getElem?_append_left (by simp; omega)]
    have hk : pre.length + 92 + (12 + 6) - pre.length - 108 = 2 := by omega
    rw [hk]
    decide
  have huuid := getUuid_getElem? (slice (pre ++ ((leBytes 4 Inode.REG_INODE_SIZE ++ i.core.bytes) ++
      (leBytes 4 Inode.REG_INODE_SIZE ++ rest))) (pre.length + 92) Inode.REG_INODE_SIZE) 12 6
      (by decide)
  rw [hbyte, Option.getD_some] at huuid
  unfold Uuid.isRandom Inode.Core.ofBytes
  dsimp only
  rw [List.getD_eq_getElem?_getD, huuid]
  rfl

theorem records_length (live : List Inode) :
    (live.flatMap (fun i => leBytes 4 Inode.REG_INODE_SIZE ++ i.core.bytes)).length =
      108 * live.length := by
  induction live with
  | nil => rfl
  | cons i live ih =>
      rw [List.flatMap_cons, List.length_append, ih, List.length_append, leBytes_length,
        Inode.Core.bytes_length, List.length_cons]
      simp only [Inode.REG_INODE_SIZE]
      omega

/-- The entries are taken to start 88 bytes behind the directory's inode. -/
theorem readSInode_index {pool : Pool} {raw : Bytes} {index : Nat} {sInode : Option Inode}
    (h : readSInode pool raw = .ok (index, sInode))
    (hsize : getRaw raw 5 4 = .ok (leBytes 4 Inode.REG_INODE_SIZE)) : index = 201 := by
  unfold readSInode at h
  rw [hsize, ok_bind, if_neg (by decide)] at h
  obtain ⟨value, -, h⟩ := bind_eq_ok.mp h
  obtain ⟨s, -, h⟩ := bind_eq_ok.mp h
  exact (congrArg Prod.fst (Except.ok.inj h)).symm

/-- Every live inode of the one is live in the other. -/
theorem SameContent.live_iff {tx tx' : Transaction} (h : SameContent tx tx') (u : Uuid) :
    (∃ x, ⟨u, some x⟩ ∈ tx'.fInodes.entries) ↔ ∃ x, ⟨u, some x⟩ ∈ tx.fInodes.entries := by
  have hu := congrArg Option.isSome (h.fInodes u)
  rw [Option.isSome_map, Option.isSome_map] at hu
  have hlive : ∀ tx : Transaction, (∃ x, ⟨u, some x⟩ ∈ tx.fInodes.entries) ↔
      (tx.liveInode u).isSome = true := by
    intro tx
    rw [Option.isSome_iff_exists]
    exact exists_congr fun x => liveInode_eq_some.symm
  rw [hlive, hlive, hu]

/-- A record with the directory's inode does not read back. -/
theorem sInode_eq_none_of_decode {pool : Pool} {dir : Uuid} {tx tx' : Transaction}
    (h : tx.Sound dir)
    (hd : deserialize pool tx.sIno tx.serialize = .ok (0, tx')) (hsame : SameContent tx tx')
    (htargets : ∀ u i, tx.liveInode u = some i → i.target = []) : tx.sInode = none := by
  cases hs : tx.sInode with
  | none => rfl
  | some s =>
  exfalso
  obtain ⟨live, hbytes, hlive⟩ := fInodes_bytes tx.fInodes.entries (by
    intro u i hi
    exact (h.fInodes u i hi).2.target_eq_nil.mp
      (htargets u i (liveInode_eq_some.mpr hi)))
  have hraw : tx.serialize = leBytes 4 (4 + tx.body.length) ++ ([1] ++ (inodeBytes s ++
      (tx.dentries.entries.flatMap dentryBytes ++
        255 :: (tx.fInodes.entries.flatMap fInodeBytes ++ minusOne)))) := by
    rw [← body_of_some hs]
    rfl
  rw [inodeBytes_of_noTarget (h.sInode s hs), hbytes] at hraw
  generalize tx.serialize = raw at hraw hd
  generalize hhead : leBytes 4 (4 + tx.body.length) = head at hraw
  have h4 : head.length = 4 := by rw [← hhead, leBytes_length]
  have hpre : (head ++ ([1] ++ (leBytes 4 Inode.REG_INODE_SIZE ++ s.core.bytes)) ++
      (tx.dentries.entries.flatMap dentryBytes ++ [255])).length =
        114 + (tx.dentries.entries.flatMap dentryBytes).length := by
    simp only [List.length_append, h4, leBytes_length, Inode.Core.bytes_length,
      List.length_singleton, Inode.REG_INODE_SIZE]
    omega
  have hsplit : raw = (head ++ ([1] ++ (leBytes 4 Inode.REG_INODE_SIZE ++ s.core.bytes)) ++
      (tx.dentries.entries.flatMap dentryBytes ++ [255])) ++
        (live.flatMap (fun i => leBytes 4 Inode.REG_INODE_SIZE ++ i.core.bytes) ++ minusOne) := by
    rw [hraw]
    simp only [List.append_assoc, List.cons_append, List.nil_append]
  have hsize : getRaw raw 5 4 = .ok (leBytes 4 Inode.REG_INODE_SIZE) := by
    apply getRaw_at (head ++ [1]) _ (s.core.bytes ++ (tx.dentries.entries.flatMap dentryBytes ++
      255 :: (live.flatMap (fun i => leBytes 4 Inode.REG_INODE_SIZE ++ i.core.bytes) ++ minusOne)))
    · rw [hraw]
      simp only [List.append_assoc]
    · rw [List.length_append, h4]
      rfl
    · exact leBytes_length _ _
  -- the entries end 88 bytes behind where they end in the record
  obtain ⟨index, index', hsi, hde, hf, -, -⟩ := deserialize_eq_ok hd
  have hiff := hsame.live_iff
  generalize tx'.fInodes = fInodes at hf hiff
  obtain rfl := readSInode_index hsi hsize
  have hde' := readDentries_index hde
  have hD := flatMap_dentryBytes_length hsame.dentries
  rw [hD, AList.empty_entries, List.flatMap_nil, List.length_nil] at hde'
  have hrawlen : raw.length = 118 + (tx.dentries.entries.flatMap dentryBytes).length +
      108 * live.length := by
    rw [hsplit, List.length_append, hpre, List.length_append, records_length]
    simp only [minusOne, List.length_replicate]
    omega
  rw [readFInodes] at hf
  obtain ⟨sizeBytes, hsb, hf⟩ := bind_eq_ok.mp hf
  have hroom := (getRaw_eq_ok.mp hsb).1
  cases live with
  | nil =>
      simp only [List.length_nil] at hrawlen
      omega
  | cons i₁ live =>
  dsimp only at hf
  split at hf
  · -- the loop ends at once
    cases hf
    obtain ⟨u, hu⟩ := (hlive i₁).mp List.mem_cons_self
    obtain ⟨x, hx⟩ := (hiff u).mpr ⟨i₁, hu⟩
    cases hx
  obtain ⟨value, hv, hf⟩ := bind_eq_ok.mp hf
  have hroom' := (getRaw_eq_ok.mp hv).1
  cases live with
  | nil =>
      simp only [List.length_singleton, Inode.REG_INODE_SIZE] at hrawlen hroom'
      omega
  | cons i₂ live =>
  obtain ⟨j, hj, hf⟩ := bind_eq_ok.mp hf
  split at hf
  · cases hf
  rename_i hnot
  obtain ⟨index'', -, hf⟩ := bind_eq_ok.mp hf
  -- the inode that it finds first is none of the record's
  have hmem := readFInodes_keeps hf j.ino (some j) (by
    rw [AList.entries_insert_of_notMem hnot]
    exact List.mem_cons_self)
  obtain ⟨x, hx⟩ := (hiff j.ino).mp ⟨j, hmem⟩
  obtain ⟨hino, hfile⟩ := h.fInodes j.ino x hx
  have hrandom := hfile.2
  rw [hino, Inode.ino, deserialize_core hj] at hrandom
  rw [shifted_not_random (head ++ ([1] ++ (leBytes 4 Inode.REG_INODE_SIZE ++ s.core.bytes)) ++
      (tx.dentries.entries.flatMap dentryBytes ++ [255]))
    (i₂.core.bytes ++
      (live.flatMap (fun i => leBytes 4 Inode.REG_INODE_SIZE ++ i.core.bytes) ++ minusOne)) i₁ value
    ?_] at hrandom
  · cases hrandom
  · rw [← hv, hpre]
    congr 1
    · rw [hsplit]
      simp only [List.flatMap_cons, List.append_assoc]
    · omega

/-- **When a record reads back**: the directory's own inode has not changed, and no link with a
    target has. -/
theorem roundTrip_iff (selfIno : Uuid) (ms : List Mutation) (hms : ∀ m ∈ ms, m.Valid)
    (tx : Transaction) (htx : Reordered ((new selfIno).mutate ms) tx)
    (hlen : tx.serialize.length < 2 ^ 31) :
    RoundTrip tx ↔ tx.sInode = none ∧ ∀ u i, tx.liveInode u = some i → i.target = [] := by
  have h : tx.Sound selfIno := (mutate_sound hms (new_sound selfIno)).reordered htx
  constructor
  · intro hr
    obtain ⟨tx', hd, hsame⟩ := hr ∅
    have htargets : ∀ u i, tx.liveInode u = some i → i.target = [] := by
      intro u i hi
      refine target_eq_nil_of_decode h hd hsame u i hi ?_
      intro bytes sum hpos hread
      rw [read_empty _ _ hpos] at hread
      cases hread
    exact ⟨sInode_eq_none_of_decode h hd hsame htargets, htargets⟩
  · rintro ⟨hs, hf⟩
    exact roundTrip_of_kept h hlen hs hf

/-! ## A directory, a file and a link -/

def exampleCore (iMode : UInt32) (iIno : Uuid) (linkTargetLen : UInt32) : Inode.Core :=
  ⟨iMode, 0, 0, iIno, 1, 0, ⟨0, 0⟩, ⟨0, 0⟩, ⟨0, 0⟩, linkTargetLen⟩

def rootDir : Inode := ⟨exampleCore (Inode.S_IFDIR ||| 0o755) Uuid.rootIno 0, none⟩

/-- A version 4 uuid. -/
def fileIno : Uuid := ⟨[1, 2, 3, 4, 5, 6, 0x47, 8, 0x89, 10, 11, 12, 13, 14, 15, 16], rfl⟩

def file : Inode := ⟨exampleCore (Inode.S_IFREG ||| 0o644) fileIno 0, none⟩

def link : Inode := ⟨exampleCore (Inode.S_IFLNK ||| 0o777) fileIno 1, some [97]⟩

theorem roundTrip_iff_chreg : RoundTrip ((new Uuid.rootIno).mutate [.chreg file]) :=
  (roundTrip_iff Uuid.rootIno [.chreg file]
    (by
      intro m hm
      rw [List.mem_singleton.mp hm]
      exact (by decide : IsFile file))
    _ ⟨rfl, rfl, rfl, rfl, .refl _, .refl _⟩ (by decide +kernel)).mpr
    ⟨rfl, by
      intro u i hi
      have hmem := liveInode_eq_some.mp hi
      have hentries : ((new Uuid.rootIno).mutate [.chreg file]).fInodes.entries =
          [⟨fileIno, some file⟩] := by decide
      rw [hentries, List.mem_singleton] at hmem
      cases hmem
      decide⟩

/-- A file made in a directory is not read back; nor is a link that was changed. -/
theorem mkreg_not_roundTrip :
    ¬ RoundTrip ((new Uuid.rootIno).mutate [.mkreg rootDir [97] file]) ∧
      ¬ RoundTrip ((new Uuid.rootIno).mutate [.chreg link]) := by
  constructor
  · intro h
    obtain ⟨tx', hd, -⟩ := h ∅
    have hfail : (deserialize ∅ Uuid.rootIno
        ((new Uuid.rootIno).mutate [.mkreg rootDir [97] file]).serialize).toBool = false := by
      decide +kernel
    rw [show deserialize ∅ Uuid.rootIno _ = _ from hd] at hfail
    cases hfail
  · intro h
    obtain ⟨tx', hd, -⟩ := h ∅
    have hfail : (deserialize ∅ Uuid.rootIno
        ((new Uuid.rootIno).mutate [.chreg link]).serialize).toBool = false := by
      decide +kernel
    rw [show deserialize ∅ Uuid.rootIno _ = _ from hd] at hfail
    cases hfail

end Nmfs.Transaction
