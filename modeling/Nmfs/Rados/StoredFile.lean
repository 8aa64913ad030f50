import Nmfs.Rados.FlatFile

/-
  Files that may be missing. `StoredAs pool category key x` says that the file has no object where
  `x` is `none`, and the bytes `f`, in at least one object, where `x` is `some f`.
-/

namespace Nmfs.RadosIo

open Lib

def StoredAs (pool : Pool) (category : ObjCategory) (key : Str) : Option Bytes → Prop
  | none => ∀ num, pool.lookup (objKey category key num) = none
  | some f => Holds pool category key f ∧ (pool.lookup (objKey category key 0)).isSome

variable {pool : Pool} {category : ObjCategory} {key : Str} {f : Bytes}

theorem StoredAs.holds {x : Option Bytes} (h : StoredAs pool category key x) :
    Holds pool category key (x.getD []) := by
  cases x with
  | none => exact Holds.of_absent h
  | some f => exact h.1

theorem Frame.storedAs {pool' : Pool} {c : ObjCategory} {k : Str} {x : Option Bytes}
    (hf : Frame category key pool pool') (hne : (c, k) ≠ (category, key))
    (h : StoredAs pool c k x) : StoredAs pool' c k x := by
  have hb := hf.blocks hne
  cases x with
  | none => exact fun num => (congrFun hb num).trans (h num)
  | some f =>
      refine ⟨hf.holds hne h.1, ?_⟩
      have h0 : pool'.lookup (objKey c k 0) = pool.lookup (objKey c k 0) := congrFun hb 0
      rw [h0]
      exact h.2

/-- A file has one content. -/
theorem Holds.unique {g : Bytes} (h : Holds pool category key f) (h' : Holds pool category key g) :
    f = g := by
  obtain ⟨n, hn⟩ := h
  obtain ⟨n', hn'⟩ := h'
  have hiff : ∀ i, i < n ↔ i < n' := fun i => (isSome_blocks hn i).symm.trans (isSome_blocks hn' i)
  have hnn : n = n' := by
    have h1 := hiff n
    have h2 := hiff n'
    omega
  subst hnn
  exact hn.flatten.symm.trans hn'.flatten

/-- A file with bytes has an object. -/
theorem Holds.storedAs (h : Holds pool category key f) (hne : f ≠ []) :
    StoredAs pool category key (some f) := by
  refine ⟨h, ?_⟩
  obtain ⟨n, hn⟩ := h
  have hpos : 0 < n := by
    rw [Nat.pos_iff_ne_zero]
    rintro rfl
    have hup := hn.upper
    rw [Nat.zero_mul] at hup
    exact hne (List.eq_nil_of_length_eq_zero (Nat.le_zero.mp hup))
  exact (isSome_blocks hn 0).mpr hpos

theorem StoredAs.write {x : Option Bytes} (h : StoredAs pool category key x) {value : Bytes}
    (hv : value ≠ []) (offset : Nat) :
    StoredAs (RadosIo.write pool category key value offset).2 category key
      (some (overwrite 0 (x.getD []) offset value)) := by
  apply (write_holds h.holds value offset).2.storedAs
  intro hnil
  have hlen := congrArg List.length hnil
  rw [overwrite_length, List.length_nil] at hlen
  have := List.length_pos_iff.mpr hv
  omega

theorem StoredAs.remove {x : Option Bytes} (h : StoredAs pool category key x) :
    StoredAs (RadosIo.remove pool category key) category key none := by
  obtain ⟨n, hn⟩ := h.holds
  intro i
  have hb := blocks_removeLoop category key (pool.entries.length + 1) n
    pool 0 (by have := represents_le_entries hn; omega) (fun i _ => isSome_blocks hn i) i
  simpa [blocks, RadosIo.remove] using hb

theorem StoredAs.stat {x : Option Bytes} (h : StoredAs pool category key x) :
    (RadosIo.stat pool category key).2 = (x.getD []).length := by
  obtain ⟨n, hn⟩ := h.holds
  rw [stat_eq hn]

theorem StoredAs.found {x : Option Bytes} (h : StoredAs pool category key x) :
    (RadosIo.stat pool category key).1 = x.isSome := by
  obtain ⟨n, hn⟩ := h.holds
  rw [stat_eq hn]
  have h0 : (pool.lookup (objKey category key 0)).isSome ↔ 0 < n := isSome_blocks hn 0
  cases x with
  | none =>
      rw [h 0] at h0
      simpa using h0
  | some f => simpa [Nat.pos_iff_ne_zero] using h0.mp h.2

/-- What a read of the first `len` bytes gives. -/
def headOf (x : Option Bytes) (len : Nat) : ReadResult :=
  match x with
  | none => .noSuchObject [] 0
  | some f => .done (slice f 0 len) (slice f 0 len).length

/-- A read inside the first object looks at that object only. -/
theorem read_head {len : Nat} (hlen : 0 < len) (hmax : len ≤ objSize) :
    RadosIo.read pool category key len 0 =
      headOf (pool.lookup (objKey category key 0)) len := by
  have hpos := objSize_pos
  have hseg : segments objSize 0 len = [⟨0, 0, len⟩] := by
    obtain ⟨n, rfl⟩ : ∃ n, len = n + 1 := ⟨len - 1, by omega⟩
    unfold segments segmentsFrom
    rw [if_pos (by omega)]
    simp only [Nat.zero_div, Nat.zero_mod, Nat.zero_mul, Nat.zero_add, Nat.sub_zero,
      Nat.min_eq_right hmax, segmentsFrom_done _ _ _ _ hmax]
  unfold RadosIo.read
  rw [hseg]
  unfold readLoop Ioctx.read
  cases pool.lookup (objKey category key 0) with
  | none => rfl
  | some o =>
      simp only [Option.map_some, List.nil_append, Nat.zero_add]
      rfl

theorem StoredAs.read {x : Option Bytes} (h : StoredAs pool category key x) {len : Nat}
    (hlen : 0 < len) (hmax : len ≤ objSize) :
    RadosIo.read pool category key len 0 = headOf x len := by
  rw [read_head hlen hmax]
  cases x with
  | none => rw [h 0]
  | some f =>
      obtain ⟨⟨n, hn⟩, h0⟩ := h
      have hn0 : 0 < n := (isSome_blocks hn 0).mp h0
      have hblock : pool.lookup (objKey category key 0) = some (slice f (0 * objSize) objSize) := by
        have := hn.block 0
        rwa [if_pos hn0] at this
      have hslice : slice (slice f (0 * objSize) objSize) 0 len = slice f 0 len := by
        unfold slice
        rw [Nat.zero_mul, List.drop_zero, List.drop_zero, List.take_take, Nat.min_eq_left hmax]
      rw [hblock, headOf, headOf, hslice]

theorem segmentsFrom_pos {B : Nat} (hB : 0 < B) (fuel cursor stop : Nat) :
    ∀ s ∈ segmentsFrom B fuel cursor stop, 0 < s.len := by
  induction fuel generalizing cursor with
  | zero => exact fun s hs => (nomatch hs)
  | succ fuel ih =>
      intro s hs
      unfold segmentsFrom at hs
      split at hs
      · have hnext := next_bound_gt hB cursor
        rcases List.mem_cons.mp hs with rfl | hs
        · show 0 < min _ _
          omega
        · exact ih _ s hs
      · cases hs

/-- A read that meets a missing object has not read everything. -/
theorem readLoop_noSuchObject_lt (segs : List Segment) (hpos : ∀ s ∈ segs, 0 < s.len)
    (value : Bytes) (sum : Nat) {v : Bytes} {c : Nat}
    (h : readLoop pool category key segs value sum = .noSuchObject v c) :
    c < sum + (segs.map Segment.len).sum := by
  induction segs generalizing value sum with
  | nil => cases h
  | cons s rest ih =>
      have hs := hpos s List.mem_cons_self
      rw [List.map_cons, List.sum_cons]
      unfold readLoop at h
      split at h
      · cases h
        omega
      · rename_i bs hbs
        have hlen : bs.length ≤ s.len := by
          obtain ⟨o, -, rfl⟩ := Option.map_eq_some_iff.mp hbs
          rw [slice_length]
          omega
        have hrest := ih (fun s hs => hpos s (List.mem_cons_of_mem _ hs)) _ _ h
        omega

/-- A read inside the file. -/
theorem read_within (hf : Holds pool category key f) {len offset : Nat}
    (h : offset + len ≤ f.length) :
    RadosIo.read pool category key len offset = .done (slice f offset len) len := by
  obtain ⟨hvalue, hcount⟩ := read_eq hf len offset
  rw [slice_length] at hcount
  cases hr : RadosIo.read pool category key len offset with
  | done v c =>
      rw [hr] at hvalue hcount
      rw [show v = slice f offset len from hvalue,
        show c = len from hcount.trans (by omega)]
  | noSuchObject v c =>
      have hlt := readLoop_noSuchObject_lt _ (segmentsFrom_pos objSize_pos _ _ _) _ _ hr
      rw [segmentsFrom_len_sum objSize_pos _ _ _ (by omega)] at hlt
      rw [hr] at hcount
      have hc : c = len := hcount.trans (by omega)
      omega

/-- There is a pool with nothing in it but one file. -/
theorem exists_storedAs (category : ObjCategory) (key : Str) (x : Option Bytes) :
    ∃ pool, StoredAs pool category key x ∧
      ∀ c k, (c, k) ≠ (category, key) → StoredAs pool c k none := by
  have hempty : ∀ c k, StoredAs ∅ c k none := fun _ _ _ => AList.lookup_empty _
  cases x with
  | none => exact ⟨∅, hempty _ _, fun c k _ => hempty c k⟩
  | some f =>
      have hone : StoredAs (Ioctx.write ∅ (objKey category key 0) [] 0) category key (some []) := by
        refine ⟨⟨1, ?_, by simp, Nat.zero_le _⟩, ?_⟩
        · intro i
          rw [blocks_write]
          by_cases hi : i = 0
          · subst hi
            have hnone : blocks ∅ category key 0 = none := AList.lookup_empty _
            rw [Function.update_self, if_pos Nat.one_pos, hnone]
            simp [overwrite, slice]
          · rw [Function.update_of_ne hi, if_neg (by omega)]
            exact AList.lookup_empty _
        · unfold Ioctx.write
          rw [AList.lookup_insert]
          rfl
      have hframe : Frame category key ∅ (Ioctx.write ∅ (objKey category key 0) [] 0) :=
        frame_write _ _ _
      cases f with
      | nil => exact ⟨_, hone, fun c k hne => hframe.storedAs hne (hempty c k)⟩
      | cons b f =>
          have h := hone.write (List.cons_ne_nil b f) 0
          have hf : overwrite 0 [] 0 (b :: f) = b :: f := by simp [overwrite]
          rw [Option.getD_some, hf] at h
          exact ⟨_, h, fun c k hne =>
            (hframe.trans (frame_write_file _ _)).storedAs hne (hempty c k)⟩

end Nmfs.RadosIo
