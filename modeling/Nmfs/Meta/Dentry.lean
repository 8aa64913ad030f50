import Nmfs.Meta.Inode
import Mathlib.Data.List.TakeWhile

/-
  `dentry`: the child list of a directory, and its form in the DENTRY object: the number of
  children, then for each child the length of its name, the name and the inode number.

  `deserialize` works on a zeroed buffer of `MAX_DENTRY_OBJ_SIZE` bytes that the object has been
  read into; here the buffer is the bytes read, and zeros up to its end. Bytes after the last child
  are not looked at, which is why `sync` need not cut the object.
-/

namespace Nmfs

open Lib

/-- Names are bytes. -/
abbrev ChildList := AList (fun _ : Bytes => Uuid)

structure Dentry where
  thisIno : Uuid
  childList : ChildList

namespace Dentry

def MAX_DENTRY_OBJ_SIZE : Nat := RadosIo.objSize

def addChild (d : Dentry) (filename : Bytes) (ino : Uuid) : Dentry :=
  { d with childList := d.childList.insert filename ino }

def deleteChild (d : Dentry) (filename : Bytes) : Dentry :=
  { d with childList := d.childList.erase filename }

/-- `nil_uuid()` when there is no such child. -/
def getChildIno (d : Dentry) (childName : Bytes) : Uuid :=
  (d.childList.lookup childName).getD Uuid.nil

def getChildNum (d : Dentry) : Nat := d.childList.entries.length

def childBytes (child : (_ : Bytes) × Uuid) : Bytes :=
  leBytes 4 child.1.length ++ (child.1 ++ child.2.data)

def serialize (d : Dentry) : Bytes :=
  leBytes 8 d.getChildNum ++ d.childList.entries.flatMap childBytes

/-- `len` bytes at position `off` of the buffer. -/
def getRaw (raw : Bytes) (off len : Nat) : Except Err Bytes :=
  if off + len ≤ MAX_DENTRY_OBJ_SIZE then .ok (resize 0 (slice raw off len) len)
  else .error .undefined

/-- `std::string(name.get())`, which ends at the first zero. -/
def cString (name : Bytes) : Bytes := name.takeWhile (· ≠ 0)

def deserializeChildren (raw : Bytes) : Nat → Nat → ChildList → Except Err ChildList
  | 0, _, childList => .ok childList
  | n + 1, pointer, childList =>
    match getRaw raw pointer 4 with
    | .error e => .error e
    | .ok lenBytes =>
      let nameLength := leNat lenBytes
      -- a negative `int` asks for more memory than there is
      if 2 ^ 31 ≤ nameLength then .error .undefined
      else
        match getRaw raw (pointer + 4) nameLength, getRaw raw (pointer + 4 + nameLength) 16 with
        | .ok name, .ok ino =>
          let name := cString name
          let childList :=
            if name ∈ childList then childList
            else childList.insert name (Inode.getUuid ino 0)
          deserializeChildren raw n (pointer + 4 + nameLength + 16) childList
        | _, _ => .error .undefined

def deserialize (thisIno : Uuid) (raw : Bytes) : Except Err Dentry :=
  match deserializeChildren raw (leNat (resize 0 (slice raw 0 8) 8)) 8 ∅ with
  | .error e => .error e
  | .ok childList => .ok ⟨thisIno, childList⟩

/-- The constructor; with `mkdir` it starts empty. -/
def load (pool : Pool) (ino : Uuid) (mkdir : Bool) : Except Err Dentry :=
  if mkdir then .ok ⟨ino, ∅⟩
  else
    match RadosIo.read pool .dentry ino.toStr MAX_DENTRY_OBJ_SIZE 0 with
    | .done bytes _ => deserialize ino bytes
    | .noSuchObject _ _ =>
      .error (.runtimeError ("Dentry Corrupted: inode number " ++ String.ofList ino.toStr))

def sync (pool : Pool) (d : Dentry) : Pool :=
  (RadosIo.write pool .dentry d.thisIno.toStr d.serialize 0).2

/-! ## Reading back -/

/-- A name that the format can carry. -/
def NameOk (name : Bytes) : Prop := 0 ∉ name ∧ name.length < 2 ^ 31

theorem cString_of_nameOk {name : Bytes} (h : NameOk name) : cString name = name := by
  unfold cString
  apply List.takeWhile_eq_self_iff.mpr
  intro b hb
  have : b ≠ 0 := fun h0 => h.1 (h0 ▸ hb)
  simpa using this

theorem getRaw_mid {raw : Bytes} (pre xs post : Bytes) (hr : raw = pre ++ (xs ++ post))
    {off len : Nat} (ho : pre.length = off) (hl : xs.length = len) (h : off + len ≤ MAX_DENTRY_OBJ_SIZE) :
    getRaw raw off len = .ok xs := by
  subst hr ho hl
  unfold getRaw
  rw [if_pos h, ← List.append_assoc, slice_mid, resize, List.take_of_length_le (Nat.le_refl _)]
  simp

theorem childBytes_length (child : (_ : Bytes) × Uuid) :
    (childBytes child).length = 4 + child.1.length + 16 := by
  simp only [childBytes, List.length_append, leBytes_length, child.2.length_data]
  omega

/-- A round of the loop, where a child stands inside the buffer. -/
theorem deserializeChildren_child (e : (_ : Bytes) × Uuid) (pre post : Bytes) (n : Nat)
    (childList : ChildList) (hlen : e.1.length < 2 ^ 31)
    (hfit : (pre ++ childBytes e).length ≤ MAX_DENTRY_OBJ_SIZE) :
    deserializeChildren (pre ++ (childBytes e ++ post)) (n + 1) pre.length childList =
      deserializeChildren (pre ++ (childBytes e ++ post)) n (pre ++ childBytes e).length
        (if cString e.1 ∈ childList then childList else childList.insert (cString e.1) e.2) := by
  obtain ⟨name, ino⟩ := e
  have hnext : (pre ++ childBytes ⟨name, ino⟩).length = pre.length + 4 + name.length + 16 := by
    rw [List.length_append, childBytes_length]
    dsimp only
    omega
  rw [hnext] at hfit ⊢
  dsimp only at hlen ⊢
  generalize hraw : pre ++ (childBytes ⟨name, ino⟩ ++ post) = raw
  have hraw' : raw = pre ++ (leBytes 4 name.length ++ (name ++ (ino.data ++ post))) := by
    rw [← hraw]
    simp only [childBytes, List.append_assoc]
  have h4 : (leBytes 4 name.length).length = 4 := leBytes_length _ _
  have hino := ino.length_data
  have g1 : getRaw raw pre.length 4 = .ok (leBytes 4 name.length) :=
    getRaw_mid pre _ _ hraw' rfl h4 (by omega)
  have g2 : getRaw raw (pre.length + 4) name.length = .ok name :=
    getRaw_mid (pre ++ leBytes 4 name.length) name _
      (by rw [hraw', List.append_assoc]) (by rw [List.length_append, h4]) rfl (by omega)
  have g3 : getRaw raw (pre.length + 4 + name.length) 16 = .ok ino.data :=
    getRaw_mid (pre ++ leBytes 4 name.length ++ name) ino.data post
      (by rw [hraw']; simp only [List.append_assoc])
      (by simp only [List.length_append, h4]) hino hfit
  have hnat : leNat (leBytes 4 name.length) = name.length := leNat_leBytes _ _ (by omega)
  have huuid : Inode.getUuid ino.data 0 = ino := by
    apply Uuid.ext
    simp only [Inode.getUuid]
    rw [← hino, slice_all, hino, Inode.resize_uuid]
  simp only [deserializeChildren, g1, hnat, if_neg (Nat.not_le.mpr hlen), g2, g3, huuid]

/-- The loop reads the children one after the other. -/
theorem deserializeChildren_eq (es : List ((_ : Bytes) × Uuid)) (pre post : Bytes)
    (childList : ChildList) (hnames : ∀ e ∈ es, NameOk e.1)
    (hfit : pre.length + (es.flatMap childBytes).length ≤ MAX_DENTRY_OBJ_SIZE)
    (hnodup : (es.map Sigma.fst).Nodup) (hnew : ∀ e ∈ es, e.1 ∉ childList) :
    ∃ childList', deserializeChildren (pre ++ (es.flatMap childBytes ++ post)) es.length pre.length
        childList = .ok childList' ∧
      childList'.entries = es.reverse ++ childList.entries := by
  induction es generalizing pre childList with
  | nil => exact ⟨childList, rfl, rfl⟩
  | cons e es ih =>
      have hname := hnames e List.mem_cons_self
      have hnot : e.1 ∉ childList := hnew e List.mem_cons_self
      rw [List.flatMap_cons, List.length_append] at hfit
      rw [List.map_cons, List.nodup_cons] at hnodup
      have hnew' : ∀ e' ∈ es, e'.1 ∉ childList.insert e.1 e.2 := by
        intro e' he' hmem
        rcases (AList.mem_insert _).mp hmem with heq | hold
        · exact hnodup.1 (List.mem_map.mpr ⟨e', he', heq⟩)
        · exact hnew e' (List.mem_cons_of_mem _ he') hold
      obtain ⟨childList', hd, hentries⟩ := ih (pre ++ childBytes e) (childList.insert e.1 e.2)
        (fun e' he' => hnames e' (List.mem_cons_of_mem _ he'))
        (by rw [List.length_append]; omega) hnodup.2 hnew'
      refine ⟨childList', ?_, ?_⟩
      · rw [List.flatMap_cons, List.append_assoc, List.length_cons,
          deserializeChildren_child e pre _ es.length childList hname.2
            (by rw [List.length_append]; omega),
          cString_of_nameOk hname, if_neg hnot, ← List.append_assoc]
        exact hd
      · rw [hentries, AList.entries_insert_of_notMem hnot]
        simp

/-- A dentry that fits into its object decodes to the same children, whatever comes after it. -/
theorem deserialize_serialize (d : Dentry) (post : Bytes)
    (hnames : ∀ e ∈ d.childList.entries, NameOk e.1)
    (hfit : d.serialize.length ≤ MAX_DENTRY_OBJ_SIZE) :
    ∃ d', deserialize d.thisIno (d.serialize ++ post) = .ok d' ∧ d'.thisIno = d.thisIno ∧
      d'.childList.entries.Perm d.childList.entries := by
  have hlen : (leBytes 8 d.getChildNum).length = 8 := leBytes_length _ _
  have hsize : d.serialize.length = 8 + (d.childList.entries.flatMap childBytes).length := by
    rw [serialize, List.length_append, hlen]
  have hnum : leNat (leBytes 8 d.getChildNum) = d.getChildNum := by
    apply leNat_leBytes
    have hcount := length_le_flatMap (f := childBytes)
      (fun child => by rw [childBytes_length]; omega) d.childList.entries
    have hmax : MAX_DENTRY_OBJ_SIZE = 4194304 := RadosIo.objSize_eq
    unfold getChildNum
    omega
  obtain ⟨childList, hd, hentries⟩ := deserializeChildren_eq d.childList.entries
    (leBytes 8 d.getChildNum) post ∅ hnames (by rw [hlen]; omega) d.childList.keys_nodup
    (fun e _ => AList.notMem_empty e.1)
  rw [hlen] at hd
  refine ⟨⟨d.thisIno, childList⟩, ?_, rfl, ?_⟩
  · unfold deserialize serialize
    rw [List.append_assoc, slice_head _ _ _ hlen, resize, hlen,
      List.take_of_length_le (by rw [hlen]), Nat.sub_self, List.replicate_zero, List.append_nil,
      hnum]
    unfold getChildNum at hd ⊢
    rw [hd]
  · rw [hentries, AList.empty_entries, List.append_nil]
    exact List.reverse_perm _

/-! ## Objects longer than the buffer -/

theorem getRaw_slice (raw : Bytes) (off len : Nat) :
    getRaw (slice raw 0 MAX_DENTRY_OBJ_SIZE) off len = getRaw raw off len := by
  unfold getRaw
  split
  · rename_i h
    congr 2
    unfold slice
    rw [List.drop_zero, List.drop_take, List.take_take, Nat.min_eq_left (by omega)]
  · rfl

theorem deserializeChildren_slice (raw : Bytes) (n pointer : Nat) (childList : ChildList) :
    deserializeChildren (slice raw 0 MAX_DENTRY_OBJ_SIZE) n pointer childList =
      deserializeChildren raw n pointer childList := by
  induction n generalizing pointer childList with
  | zero => rfl
  | succ n ih => simp only [deserializeChildren, getRaw_slice, ih]

/-- Only the buffer is looked at. -/
theorem deserialize_slice (thisIno : Uuid) (raw : Bytes) :
    deserialize thisIno (slice raw 0 MAX_DENTRY_OBJ_SIZE) = deserialize thisIno raw := by
  have h8 : slice (slice raw 0 MAX_DENTRY_OBJ_SIZE) 0 8 = slice raw 0 8 := by
    have hmax : 8 ≤ MAX_DENTRY_OBJ_SIZE := by
      have : MAX_DENTRY_OBJ_SIZE = 4194304 := RadosIo.objSize_eq
      omega
    unfold slice
    rw [List.drop_zero, List.drop_zero, List.take_take, Nat.min_eq_left hmax]
  unfold deserialize
  rw [h8]
  simp only [deserializeChildren_slice]

/-- A child that lies behind the end of the buffer cannot be read. -/
theorem deserializeChildren_long (es : List ((_ : Bytes) × Uuid)) (pre post : Bytes)
    (childList : ChildList) (hnames : ∀ e ∈ es, e.1.length < 2 ^ 31)
    (hpre : pre.length ≤ MAX_DENTRY_OBJ_SIZE)
    (hlong : MAX_DENTRY_OBJ_SIZE < pre.length + (es.flatMap childBytes).length) :
    deserializeChildren (pre ++ (es.flatMap childBytes ++ post)) es.length pre.length childList =
      .error .undefined := by
  induction es generalizing pre childList with
  | nil =>
      rw [List.flatMap_nil, List.length_nil] at hlong
      omega
  | cons e es ih =>
      have hlen := hnames e List.mem_cons_self
      rw [List.flatMap_cons, List.length_append] at hlong
      rw [List.flatMap_cons, List.append_assoc, List.length_cons]
      by_cases hfit : (pre ++ childBytes e).length ≤ MAX_DENTRY_OBJ_SIZE
      · rw [deserializeChildren_child e pre _ es.length childList hlen hfit, ← List.append_assoc]
        exact ih _ _ (fun e' he' => hnames e' (List.mem_cons_of_mem _ he')) hfit
          (by rw [List.length_append]; omega)
      · rw [List.length_append, childBytes_length] at hfit
        generalize es.flatMap childBytes ++ post = post
        have h4 : (leBytes 4 e.1.length).length = 4 := leBytes_length _ _
        have hnat : leNat (leBytes 4 e.1.length) = e.1.length := leNat_leBytes _ _ (by omega)
        rw [deserializeChildren]
        by_cases hfit4 : pre.length + 4 ≤ MAX_DENTRY_OBJ_SIZE
        · have hraw : pre ++ (childBytes e ++ post) =
              pre ++ (leBytes 4 e.1.length ++ (e.1 ++ (e.2.data ++ post))) := by
            simp only [childBytes, List.append_assoc]
          rw [getRaw_mid pre (leBytes 4 e.1.length) _ hraw rfl h4 hfit4]
          dsimp only
          rw [hnat, if_neg (Nat.not_le.mpr hlen)]
          -- the inode number ends behind the buffer
          have herr : getRaw (pre ++ (childBytes e ++ post)) (pre.length + 4 + e.1.length) 16 =
              .error .undefined := if_neg (by omega)
          rw [herr]
          split
          · rename_i heq
            cases heq
          · rfl
        · have herr : getRaw (pre ++ (childBytes e ++ post)) pre.length 4 = .error .undefined :=
            if_neg hfit4
          rw [herr]

theorem deserialize_long (d : Dentry) (post : Bytes)
    (hnames : ∀ e ∈ d.childList.entries, NameOk e.1) (hcount : d.getChildNum < 2 ^ 64)
    (hlong : MAX_DENTRY_OBJ_SIZE < d.serialize.length) :
    deserialize d.thisIno (d.serialize ++ post) = .error .undefined := by
  have hlen : (leBytes 8 d.getChildNum).length = 8 := leBytes_length _ _
  have hmax : MAX_DENTRY_OBJ_SIZE = 4194304 := RadosIo.objSize_eq
  have hnum : leNat (leBytes 8 d.getChildNum) = d.getChildNum := leNat_leBytes _ _ (by omega)
  have h := deserializeChildren_long d.childList.entries (leBytes 8 d.getChildNum) post ∅
    (fun e he => (hnames e he).2) (by omega) (by rw [serialize, List.length_append] at hlong; omega)
  unfold deserialize serialize
  rw [List.append_assoc, slice_head _ _ _ hlen, resize, hlen,
    List.take_of_length_le (by rw [hlen]), Nat.sub_self, List.replicate_zero, List.append_nil, hnum]
  rw [hlen] at h
  unfold getChildNum at h ⊢
  rw [h]

/-! ## What can come out of an object -/

/-- Names that are read have no zero in them, and there are not more children than bytes. -/
theorem deserializeChildren_ok {raw : Bytes} {n pointer : Nat} {childList childList' : ChildList}
    (h : deserializeChildren raw n pointer childList = .ok childList')
    (hnames : ∀ e ∈ childList.entries, NameOk e.1)
    (hcount : childList.entries.length ≤ pointer) (hpointer : pointer ≤ MAX_DENTRY_OBJ_SIZE) :
    (∀ e ∈ childList'.entries, NameOk e.1) ∧ childList'.entries.length ≤ MAX_DENTRY_OBJ_SIZE := by
  induction n generalizing pointer childList with
  | zero =>
      cases h
      exact ⟨hnames, Nat.le_trans hcount hpointer⟩
  | succ n ih =>
      rw [deserializeChildren] at h
      split at h
      · cases h
      rename_i lenBytes h4
      dsimp only at h
      split at h
      · cases h
      rename_i hlen
      split at h
      · rename_i name ino hname hino
        have hfit : pointer + 4 + leNat lenBytes + 16 ≤ MAX_DENTRY_OBJ_SIZE := by
          unfold getRaw at hino
          split at hino
          · assumption
          · cases hino
        have hnameLen : name.length = leNat lenBytes := by
          unfold getRaw at hname
          split at hname
          · cases hname
            exact resize_length _ _ _
          · cases hname
        have hok : NameOk (cString name) := by
          constructor
          · intro hmem
            have := List.mem_takeWhile_imp hmem
            simp at this
          · have := (List.takeWhile_sublist (p := (· ≠ 0)) (l := name)).length_le
            unfold cString
            omega
        split at h
        · exact ih h hnames (by omega) hfit
        · rename_i hnot
          refine ih h ?_ ?_ hfit
          · rw [AList.entries_insert_of_notMem hnot]
            intro e he
            rcases List.mem_cons.mp he with rfl | hold
            · exact hok
            · exact hnames e hold
          · rw [AList.entries_insert_of_notMem hnot, List.length_cons]
            omega
      · cases h

theorem deserialize_ok {thisIno : Uuid} {raw : Bytes} {d : Dentry}
    (h : deserialize thisIno raw = .ok d) :
    (∀ e ∈ d.childList.entries, NameOk e.1) ∧ d.getChildNum ≤ MAX_DENTRY_OBJ_SIZE := by
  unfold deserialize at h
  split at h
  · cases h
  · rename_i childList hc
    cases h
    have hmax : MAX_DENTRY_OBJ_SIZE = 4194304 := RadosIo.objSize_eq
    refine deserializeChildren_ok hc ?_ (Nat.zero_le _) (by omega)
    intro e he
    cases he

end Dentry

end Nmfs
