import Nmfs.Rados.RadosIo

/-
  The striped store refines a flat file. `Holds pool category key f`: the objects of the file
  `(category, key)` are a dense prefix that spells the byte list `f`. Each operation of `rados_io`
  has one lemma that says what it does to `f`, and one that says it touches no other file;
  `striped_refines_flat` is the run over any sequence of operations on any files.
-/

namespace Nmfs.RadosIo

open Lib

/-! ## Object names -/

theorem hash_notMem_toDigits (num : Nat) : '#' ∉ Nat.toDigits 10 num := by
  intro h
  exact absurd (Nat.isDigit_of_mem_toDigits (by decide) (by decide) h) (by decide)

theorem toDigits_inj {a b : Nat} (h : Nat.toDigits 10 a = Nat.toDigits 10 b) : a = b := by
  have := congrArg (fun l => Nat.ofDigitChars 10 l 0) h
  simpa only [Nat.ofDigitChars_ten_toDigits] using this

theorem getPrefix_length (category : ObjCategory) : (getPrefix category).length = 2 := by
  cases category <;> rfl

theorem getPrefix_inj {c c' : ObjCategory} (h : getPrefix c = getPrefix c') : c = c' := by
  cases c <;> cases c' <;> simp [getPrefix] at h ⊢

theorem split_at_first {α : Type} {a : α} {x x' y y' : List α} (hx : a ∉ x) (hx' : a ∉ x')
    (h : x ++ a :: y = x' ++ a :: y') : x = x' ∧ y = y' := by
  induction x generalizing x' with
  | nil =>
      cases x' with
      | nil => simpa using h
      | cons b x' =>
          simp only [List.nil_append, List.cons_append, List.cons.injEq] at h
          exact absurd (h.1 ▸ List.mem_cons_self) hx'
  | cons b x ih =>
      cases x' with
      | nil =>
          simp only [List.nil_append, List.cons_append, List.cons.injEq] at h
          exact absurd (h.1 ▸ List.mem_cons_self) hx
      | cons b' x' =>
          simp only [List.cons_append, List.cons.injEq] at h
          obtain ⟨rfl, h⟩ := h
          obtain ⟨rfl, rfl⟩ := ih (fun h => hx (List.mem_cons_of_mem _ h))
            (fun h => hx' (List.mem_cons_of_mem _ h)) h
          exact ⟨rfl, rfl⟩

/-- The name of an object says which file it belongs to, and where. -/
theorem objKey_inj {c c' : ObjCategory} {key key' : Str} {num num' : Nat}
    (h : objKey c key num = objKey c' key' num') : c = c' ∧ key = key' ∧ num = num' := by
  unfold objKey at h
  rw [List.append_assoc, List.append_assoc] at h
  obtain ⟨hp, hr⟩ := List.append_inj h (by rw [getPrefix_length, getPrefix_length])
  have hrev := congrArg List.reverse hr
  simp only [getPostfix, List.reverse_append, List.reverse_cons, List.append_assoc,
    List.singleton_append] at hrev
  -- the postfix is what comes after the last '#'
  have hd := fun k => List.mem_reverse.not.mpr (hash_notMem_toDigits k)
  obtain ⟨h1, h2⟩ := split_at_first (hd num) (hd num') hrev
  exact ⟨getPrefix_inj hp, List.reverse_injective h2, toDigits_inj (List.reverse_injective h1)⟩

/-! ## One file and the others -/

/-- The objects of a file. -/
def blocks (pool : Pool) (category : ObjCategory) (key : Str) (num : Nat) : Option Bytes :=
  pool.lookup (objKey category key num)

/-- The objects of the file are a dense prefix that spells `f`. -/
def Holds (pool : Pool) (category : ObjCategory) (key : Str) (f : Bytes) : Prop :=
  ∃ n, Represents objSize (blocks pool category key) f n

/-- Only objects of this file differ. -/
def Frame (category : ObjCategory) (key : Str) (pool pool' : Pool) : Prop :=
  ∀ name, (∀ num, name ≠ objKey category key num) → pool'.lookup name = pool.lookup name

theorem Frame.refl (category : ObjCategory) (key : Str) (pool : Pool) :
    Frame category key pool pool := fun _ _ => rfl

theorem Frame.trans {category : ObjCategory} {key : Str} {p q r : Pool}
    (h1 : Frame category key p q) (h2 : Frame category key q r) : Frame category key p r :=
  fun name h => (h2 name h).trans (h1 name h)

theorem Frame.blocks {category c : ObjCategory} {key k : Str} {pool pool' : Pool}
    (h : Frame category key pool pool') (hne : (c, k) ≠ (category, key)) :
    blocks pool' c k = blocks pool c k := by
  funext i
  apply h
  intro num heq
  obtain ⟨hc, hk, -⟩ := objKey_inj heq
  exact hne (by rw [hc, hk])

theorem Frame.holds {category c : ObjCategory} {key k : Str} {pool pool' : Pool} {f : Bytes}
    (h : Frame category key pool pool') (hne : (c, k) ≠ (category, key))
    (hf : Holds pool c k f) : Holds pool' c k f := by
  obtain ⟨n, hn⟩ := hf
  exact ⟨n, hn.congr fun i => congrFun (h.blocks hne) i⟩

variable {pool : Pool} {category : ObjCategory} {key : Str} {f : Bytes} {n : Nat}

theorem Holds.of_absent (h : ∀ num, pool.lookup (objKey category key num) = none) :
    Holds pool category key [] :=
  ⟨0, Represents.empty _ _ h⟩

theorem blocks_write (value : Bytes) (num off : Nat) :
    blocks (Ioctx.write pool (objKey category key num) value off) category key =
      Function.update (blocks pool category key) num
        (some (overwrite 0 ((blocks pool category key num).getD []) off value)) := by
  funext i
  by_cases hi : i = num
  · subst hi
    rw [Function.update_self]
    exact AList.lookup_insert _
  · rw [Function.update_of_ne hi]
    exact AList.lookup_insert_ne fun h => hi (objKey_inj h).2.2

theorem frame_write (value : Bytes) (num off : Nat) :
    Frame category key pool (Ioctx.write pool (objKey category key num) value off) :=
  fun _ h => AList.lookup_insert_ne (h num)

/-! ## The write loop -/

theorem frame_writeLoop (value : Bytes) (segs : List Segment) (pool : Pool) (sum : Nat) :
    Frame category key pool (writeLoop pool category key value segs sum).2 := by
  induction segs generalizing pool sum with
  | nil => exact Frame.refl _ _ _
  | cons s rest ih => exact (frame_write _ _ _).trans (ih _ _)

/-- One round of a write loop: a piece written inside its object overwrites the file there. -/
theorem write_segment_holds {B : Nat} (hB : 0 < B)
    (hn : Represents B (blocks pool category key) f n) (cursor : Nat) (piece : Bytes)
    (hcur : cursor ≤ f.length) (hp : cursor % B + piece.length ≤ B) :
    ∃ m, Represents B (blocks (Ioctx.write pool (objKey category key (cursor / B)) piece
      (cursor % B)) category key) (overwrite 0 f cursor piece) m := by
  rw [blocks_write]
  exact hn.overwrite hB 0 cursor piece hcur hp

/-- The loop overwrites the range it runs over with what is left of `value`. -/
theorem writeLoop_represents {B : Nat} (hB : 0 < B) (value : Bytes) (fuel : Nat) :
    ∀ (cursor stop sum : Nat) (pool : Pool) (f : Bytes) (n : Nat), stop - cursor ≤ fuel →
      cursor ≤ f.length → sum + (stop - cursor) = value.length →
      Represents B (blocks pool category key) f n →
      (writeLoop pool category key value (segmentsFrom B fuel cursor stop) sum).1
          = value.length ∧
        ∃ m, Represents B
          (blocks (writeLoop pool category key value (segmentsFrom B fuel cursor stop) sum).2
            category key) (overwrite 0 f cursor (value.drop sum)) m := by
  induction fuel with
  | zero =>
      intro cursor stop sum pool f n hfuel hcur hsum hn
      have hd : value.drop sum = [] := List.drop_eq_nil_of_le (by omega)
      rw [hd, overwrite_nil _ _ _ hcur]
      exact ⟨by simp only [segmentsFrom, writeLoop]; omega, n, hn⟩
  | succ fuel ih =>
      intro cursor stop sum pool f n hfuel hcur hsum hn
      by_cases hlt : cursor < stop
      · have hb := next_bound_gt hB cursor
        have hdm : cursor / B * B + cursor % B = cursor := Nat.div_add_mod' cursor B
        rw [segmentsFrom, if_pos hlt]
        simp only [writeLoop]
        generalize hbd : cursor / B * B + B = bound at hb
        generalize hlen : min (bound - cursor) (stop - cursor) = len
        have hpl : ((value.drop sum).take len).length = len := by
          rw [List.length_take, List.length_drop]
          omega
        obtain ⟨m, hstep⟩ := write_segment_holds hB hn cursor ((value.drop sum).take len) hcur
          (by rw [hpl]; omega)
        have hsplit : (value.drop sum).take len ++ value.drop (sum + len) = value.drop sum := by
          rw [← List.drop_drop, List.take_append_drop]
        by_cases hbs : bound ≤ stop
        · have hbe : cursor + ((value.drop sum).take len).length = bound := by
            rw [hpl]
            omega
          have hnext := ih bound stop (sum + len) _ _ m (by omega)
            (by rw [overwrite_length, hbe]; omega) (by omega) hstep
          rw [← hbe, overwrite_overwrite 0 f cursor _ _ hcur, hsplit, hbe] at hnext
          exact hnext
        · have hall : (value.drop sum).take len = value.drop sum := by
            apply List.take_of_length_le
            rw [List.length_drop]
            omega
          rw [segmentsFrom_done _ _ _ _ (by omega), hall]
          rw [hall] at hstep
          exact ⟨by simp only [writeLoop]; omega, m, hstep⟩
      · have hd : value.drop sum = [] := List.drop_eq_nil_of_le (by omega)
        rw [hd, overwrite_nil _ _ _ hcur, segmentsFrom_done _ _ _ _ (by omega)]
        exact ⟨by simp only [writeLoop]; omega, n, hn⟩

theorem writeLoop_holds (value : Bytes) (cursor : Nat) (hcur : cursor ≤ f.length)
    (hf : Holds pool category key f) :
    (writeLoop pool category key value (segments objSize cursor value.length) 0).1
        = value.length ∧
      Holds (writeLoop pool category key value (segments objSize cursor value.length) 0).2
        category key (overwrite 0 f cursor value) := by
  obtain ⟨n, hn⟩ := hf
  exact writeLoop_represents objSize_pos value value.length cursor (cursor + value.length) 0
    pool f n (by omega) hcur (by omega) hn

/-- `zerofill` is the write loop on a buffer of zeros. -/
theorem zerofillLoop_eq (len : Nat) (segs : List Segment) (pool : Pool) (sum : Nat)
    (h : sum + (segs.map Segment.len).sum ≤ len) :
    zerofillLoop pool category key segs =
      (writeLoop pool category key (List.replicate len 0) segs sum).2 := by
  induction segs generalizing pool sum with
  | nil => rfl
  | cons s rest ih =>
      simp only [List.map_cons, List.sum_cons] at h
      have hp : ((List.replicate len (0 : UInt8)).drop sum).take s.len = List.replicate s.len 0 := by
        rw [List.drop_replicate, List.take_replicate, Nat.min_eq_left (by omega)]
      simp only [zerofillLoop, writeLoop, hp]
      exact ih _ _ (by omega)

theorem zerofill_eq (len offset : Nat) :
    zerofill pool category key len offset =
      (writeLoop pool category key (List.replicate len 0) (segments objSize offset len) 0).2 := by
  apply zerofillLoop_eq
  unfold segments
  rw [segmentsFrom_len_sum objSize_pos _ _ _ (by omega)]
  omega

theorem frame_zerofill (len offset : Nat) :
    Frame category key pool (zerofill pool category key len offset) := by
  rw [zerofill_eq]
  exact frame_writeLoop _ _ _ _

/-- `zerofill` from the end of the file on makes it longer by `len` zeros. -/
theorem zerofill_holds (hf : Holds pool category key f) (len : Nat) :
    Holds (zerofill pool category key len f.length) category key
      (f ++ List.replicate len 0) := by
  have h := (writeLoop_holds (List.replicate len (0 : UInt8)) f.length (Nat.le_refl _) hf).2
  rw [overwrite_end, List.length_replicate] at h
  rw [zerofill_eq]
  exact h

/-! ## The size of a file -/

theorem stat_block (hn : Represents objSize (blocks pool category key) f n) (num : Nat) :
    Ioctx.stat pool (objKey category key num) =
      if num < n then some (slice f (num * objSize) objSize).length else none := by
  have h := hn.block num
  unfold blocks at h
  unfold Ioctx.stat
  rw [h]
  split <;> rfl

/-- What the backward search finds: the end of the file, or the end of a full object before it. -/
theorem lbFileSize_eq (hn : Represents objSize (blocks pool category key) f n) (num : Nat) :
    lbFileSize pool category key num =
      if n = 0 then none
      else some (if num + 1 < n then (num + 1) * objSize else f.length) := by
  have hup := hn.upper
  have hlow := hn.lower
  -- the object found, at its place, ends where the file or the object ends
  have found : ∀ i, i < n → i * objSize + (slice f (i * objSize) objSize).length =
      if i + 1 < n then (i + 1) * objSize else f.length := by
    intro i hi
    split
    · rw [hn.full i ‹_›, Nat.succ_mul]
    · have hie : n - 1 = i := by omega
      rw [hie] at hlow
      have hne : n = i + 1 := by omega
      rw [hne, Nat.succ_mul] at hup
      rw [slice_length]
      omega
  induction num with
  | zero =>
      rw [lbFileSize, stat_block hn]
      by_cases h0 : n = 0
      · simp [h0]
      · rw [if_pos (by omega), if_neg h0, ← found 0 (by omega)]
        simp
  | succ num ih =>
      rw [lbFileSize, stat_block hn]
      by_cases hi : num + 1 < n
      · rw [if_pos hi, if_neg (by omega), ← found (num + 1) hi]
      · rw [if_neg hi]
        dsimp only
        rw [ih]
        by_cases h0 : n = 0
        · simp [h0]
        · rw [if_neg h0, if_neg h0, if_neg (by omega), if_neg (by omega)]

/-- `lb_file_size < offset` exactly when `offset` is past the end, and then it is the file size. -/
theorem lbFileSize_lt (hn : Represents objSize (blocks pool category key) f n) (offset : Nat) :
    let lb := (lbFileSize pool category key (offset / objSize)).getD 0
    (lb < offset ↔ f.length < offset) ∧ (lb < offset → lb = f.length) := by
  have hup := hn.upper
  have hlow := hn.lower
  have hb := next_bound_gt objSize_pos offset
  simp only
  rw [lbFileSize_eq hn]
  by_cases h0 : n = 0
  · simp only [h0, Nat.zero_mul] at hup
    have : f.length = 0 := by omega
    simp [h0, this]
  · rw [if_neg h0, Option.getD_some]
    split
    · have h1 : (offset / objSize + 1) * objSize ≤ (n - 1) * objSize :=
        Nat.mul_le_mul_right _ (by omega)
      rw [Nat.succ_mul] at h1 ⊢
      omega
    · simp

/-- The objects of a file are different entries of the pool. -/
theorem represents_le_entries (hn : Represents objSize (blocks pool category key) f n) :
    n ≤ pool.entries.length := by
  have hnd : ((List.range n).map (objKey category key)).Nodup :=
    List.nodup_range.map fun a b h => (objKey_inj h).2.2
  have hsub : (List.range n).map (objKey category key) ⊆ pool.keys := by
    intro k hk
    obtain ⟨i, hi, rfl⟩ := List.mem_map.mp hk
    apply AList.mem_keys.mp
    apply AList.lookup_isSome.mp
    have := hn.block i
    rw [if_pos (List.mem_range.mp hi)] at this
    unfold blocks at this
    rw [this]
    rfl
  have := (List.subperm_of_subset hnd hsub).length_le
  simpa [AList.keys, List.keys] using this

theorem statLoop_eq (hn : Represents objSize (blocks pool category key) f n) (fuel : Nat) :
    ∀ num, num ≤ n → n - num < fuel →
      statLoop pool category key fuel num (min (num * objSize) f.length) =
        (decide (n ≠ 0), f.length) := by
  have hup := hn.upper
  have hlow := hn.lower
  induction fuel with
  | zero => intro num _ h; omega
  | succ fuel ih =>
      intro num hnum hfuel
      unfold statLoop
      rw [stat_block hn]
      by_cases hlt : num < n
      · rw [if_pos hlt]
        dsimp only
        rw [← ih (num + 1) hlt (by omega), slice_length, Nat.succ_mul]
        congr 1
        omega
      · have : num = n := by omega
        subst this
        rw [if_neg (by omega), Nat.min_eq_right hup]
        by_cases h0 : num = 0 <;> simp [h0]

/-- `stat` gives the length of the file when it has an object. -/
theorem stat_eq (hn : Represents objSize (blocks pool category key) f n) :
    stat pool category key = (decide (n ≠ 0), f.length) := by
  have h := statLoop_eq hn (pool.entries.length + 1) 0 (Nat.zero_le n)
    (by have := represents_le_entries hn; omega)
  simpa [stat] using h

theorem exist_eq (hn : Represents objSize (blocks pool category key) f n) :
    exist pool category key = decide (n ≠ 0) := by
  unfold exist
  rw [stat_block hn]
  by_cases h0 : n = 0
  · simp [h0]
  · simp [h0, Nat.pos_of_ne_zero h0]

/-! ## write, truncate, remove, read -/

/-- `write` returns the length of its buffer, and overwrites the flat file. -/
theorem write_holds (hf : Holds pool category key f) (value : Bytes) (offset : Nat) :
    (write pool category key value offset).1 = value.length ∧
      Holds (write pool category key value offset).2 category key
        (overwrite 0 f offset value) := by
  obtain ⟨n, hn⟩ := hf
  obtain ⟨hiff, hlb⟩ := lbFileSize_lt hn offset
  simp only [write]
  generalize (lbFileSize pool category key (offset / objSize)).getD 0 = lb at *
  have key' : ∀ (g : Bytes) (pool' : Pool), Holds pool' category key g → offset ≤ g.length →
      overwrite 0 g offset value = overwrite 0 f offset value →
      (writeLoop pool' category key value (segments objSize offset value.length) 0).1
          = value.length ∧
        Holds (writeLoop pool' category key value (segments objSize offset value.length) 0).2
          category key (overwrite 0 f offset value) := by
    intro g pool' hg hlen heq
    have h := writeLoop_holds value offset hlen hg
    rwa [heq] at h
  by_cases h : lb < offset
  · rw [if_pos h]
    have he := hlb h
    subst he
    have hz := zerofill_holds ⟨n, hn⟩ (offset - f.length)
    refine key' _ _ hz ?_ ?_
    · simp only [List.length_append, List.length_replicate]
      omega
    · have hr : f ++ List.replicate (offset - f.length) 0 = resize 0 f offset := by
        rw [resize, List.take_of_length_le (by omega)]
      rw [hr, overwrite_resize _ _ _ _ (by omega)]
  · rw [if_neg h]
    exact key' f pool ⟨n, hn⟩ (by omega) rfl

theorem frame_write_file (value : Bytes) (offset : Nat) :
    Frame category key pool (write pool category key value offset).2 := by
  simp only [write]
  split
  · exact (frame_zerofill _ _).trans (frame_writeLoop _ _ _ _)
  · exact frame_writeLoop _ _ _ _

theorem lookup_remove {pool' : Pool} {name : Str} (h : Ioctx.remove pool name = some pool') :
    ∀ k, pool'.lookup k = if k = name then none else pool.lookup k := by
  intro k
  unfold Ioctx.remove at h
  split at h
  · cases h
  · cases h
    split
    · subst k
      exact AList.lookup_erase _ _
    · exact AList.lookup_erase_ne ‹_›

theorem remove_none {name : Str} : Ioctx.remove pool name = none ↔ pool.lookup name = none := by
  unfold Ioctx.remove
  cases pool.lookup name <;> simp

theorem frame_removeLoop (fuel : Nat) (pool : Pool) (num : Nat) :
    Frame category key pool (removeLoop category key fuel pool num) := by
  induction fuel generalizing pool num with
  | zero => exact Frame.refl _ _ _
  | succ fuel ih =>
      unfold removeLoop
      cases hr : Ioctx.remove pool (objKey category key num) with
      | none => exact Frame.refl _ _ _
      | some pool' =>
          refine Frame.trans (fun name h => ?_) (ih pool' (num + 1))
          rw [lookup_remove hr, if_neg (h num)]

/-- Removing upwards from `num` leaves the objects before it, and no later ones. -/
theorem blocks_removeLoop (category : ObjCategory) (key : Str) (fuel : Nat) (n : Nat) :
    ∀ (pool : Pool) (num : Nat), n - num < fuel →
      (∀ i, num ≤ i → ((blocks pool category key i).isSome ↔ i < n)) →
      ∀ i, blocks (removeLoop category key fuel pool num) category key i =
        if i < num then blocks pool category key i else none := by
  induction fuel with
  | zero => intro pool num h; omega
  | succ fuel ih =>
      intro pool num hfuel hdense i
      unfold removeLoop
      cases hr : Ioctx.remove pool (objKey category key num) with
      | none =>
          have hnone : ¬ num < n := by
            rw [← hdense num (Nat.le_refl _)]
            unfold blocks
            rw [remove_none.mp hr]
            simp
          dsimp only
          split
          · rfl
          · have := hdense i (by omega)
            rw [← Option.not_isSome_iff_eq_none, this]
            omega
      | some pool' =>
          have hl : ∀ j, blocks pool' category key j =
              if j = num then none else blocks pool category key j := by
            intro j
            unfold blocks
            rw [lookup_remove hr]
            by_cases hj : j = num
            · subst hj
              rw [if_pos rfl, if_pos rfl]
            · rw [if_neg hj, if_neg fun h => hj (objKey_inj h).2.2]
          have hnum : num < n := by
            rw [← hdense num (Nat.le_refl _), ← Option.ne_none_iff_isSome]
            intro h
            rw [remove_none.mpr h] at hr
            cases hr
          dsimp only
          rw [ih pool' (num + 1) (by omega)]
          · rw [hl]
            split_ifs <;> first | rfl | omega
          · intro j hj
            rw [hl, if_neg (by omega)]
            exact hdense j (by omega)

theorem isSome_blocks (hn : Represents objSize (blocks pool category key) f n) (i : Nat) :
    (blocks pool category key i).isSome ↔ i < n := by
  rw [hn.block i]
  split <;> simp_all

theorem remove_holds (hf : Holds pool category key f) :
    Holds (remove pool category key) category key [] := by
  obtain ⟨n, hn⟩ := hf
  apply Holds.of_absent
  intro i
  have h := blocks_removeLoop category key (pool.entries.length + 1) n
    pool 0 (by have := represents_le_entries hn; omega) (fun i _ => isSome_blocks hn i) i
  simpa [blocks, remove] using h

theorem frame_remove : Frame category key pool (remove pool category key) :=
  frame_removeLoop _ _ _

theorem entries_length_le {pool' : Pool} (h : ∀ k ∈ pool.keys, k ∈ pool'.keys) :
    pool.entries.length ≤ pool'.entries.length := by
  have := (List.subperm_of_subset pool.keys_nodup h).length_le
  simpa [AList.keys, List.keys] using this

theorem entries_length_trunc (name : Str) (size : Nat) :
    pool.entries.length ≤ (Ioctx.trunc pool name size).entries.length := by
  apply entries_length_le
  intro k hk
  unfold Ioctx.trunc
  split
  · exact hk
  · rw [← AList.mem_keys, AList.mem_insert]
    exact Or.inr (AList.mem_keys.mp hk)

theorem blocks_trunc (num size i : Nat) :
    blocks (Ioctx.trunc pool (objKey category key num) size) category key i =
      if i = num then (blocks pool category key num).map fun b => resize 0 b size
      else blocks pool category key i := by
  unfold blocks Ioctx.trunc
  cases hl : pool.lookup (objKey category key num) with
  | none =>
      dsimp only
      split
      · subst i
        rw [hl]
        rfl
      · rfl
  | some o =>
      dsimp only
      split
      · subst i
        rw [AList.lookup_insert]
        rfl
      · rw [AList.lookup_insert_ne fun h => ‹¬ i = num› (objKey_inj h).2.2]

theorem frame_trunc (num size : Nat) :
    Frame category key pool (Ioctx.trunc pool (objKey category key num) size) := by
  intro name h
  unfold Ioctx.trunc
  cases pool.lookup (objKey category key num) with
  | none => rfl
  | some o => exact AList.lookup_insert_ne (h num)

/-- `truncate` returns 0, and cuts the flat file or fills it with zeros. -/
theorem truncate_holds (hf : Holds pool category key f) (offset : Nat) :
    (truncate pool category key offset).1 = 0 ∧
      Holds (truncate pool category key offset).2 category key (resize 0 f offset) := by
  obtain ⟨n, hn⟩ := hf
  obtain ⟨hiff, hlb⟩ := lbFileSize_lt hn offset
  have hup := hn.upper
  have grow : f.length ≤ offset →
      Holds (zerofill pool category key (offset - f.length) f.length) category key
        (resize 0 f offset) := by
    intro h
    rw [resize, List.take_of_length_le h]
    exact zerofill_holds ⟨n, hn⟩ _
  unfold truncate
  cases hs : lbFileSize pool category key (offset / objSize) with
  | none =>
      rw [lbFileSize_eq hn] at hs
      have h0 : n = 0 := by
        by_contra h
        rw [if_neg h] at hs
        cases hs
      have hlen : f.length = 0 := by
        rw [h0, Nat.zero_mul] at hup
        omega
      have := grow (by omega)
      rw [hlen] at this
      exact ⟨rfl, this⟩
  | some lb =>
      rw [hs, Option.getD_some] at hiff hlb
      dsimp only
      by_cases h : lb < offset
      · rw [if_pos h, hlb h]
        exact ⟨rfl, grow (by omega)⟩
      · rw [if_neg h]
        refine ⟨rfl, min n (offset / objSize + 1), ?_⟩
        have hres : resize 0 f offset = f.take offset := by
          rw [resize, show offset - f.length = 0 by omega]
          simp
        rw [hres]
        generalize hpt : Ioctx.trunc pool (objKey category key (offset / objSize))
          (offset % objSize) = pt
        have hbt : ∀ i, blocks pt category key i = if i = offset / objSize then
            (blocks pool category key (offset / objSize)).map (fun b => resize 0 b (offset % objSize))
            else blocks pool category key i := by
          intro i
          rw [← hpt]
          exact blocks_trunc _ _ _
        have hentries : pool.entries.length ≤ pt.entries.length := by
          rw [← hpt]
          exact entries_length_trunc _ _
        have hbr := blocks_removeLoop category key (pt.entries.length + 1) n
          pt (offset / objSize + 1)
          (Nat.lt_succ_of_le (((Nat.sub_le _ _).trans (represents_le_entries hn)).trans hentries))
          (fun i hi => by rw [hbt i, if_neg (by omega)]; exact isSome_blocks hn i)
        refine hn.truncate objSize_pos 0 offset (by omega) ?_ ?_ ?_
        · intro i hi
          rw [hbr, if_pos (by omega), hbt, if_neg (by omega)]
        · rw [hbr, if_pos (by omega), hbt, if_pos rfl]
        · intro i hi
          rw [hbr, if_neg (by omega)]

theorem frame_truncate (offset : Nat) :
    Frame category key pool (truncate pool category key offset).2 := by
  unfold truncate
  split
  · exact frame_zerofill _ _
  · split
    · exact frame_zerofill _ _
    · exact (frame_trunc _ _).trans (frame_removeLoop _ _ _)

/-- The bytes a read stores at `value`. -/
def ReadResult.value : ReadResult → Bytes
  | .done value _ => value
  | .noSuchObject value _ => value

/-- The count of a read: its return value, or `num_bytes` of the exception. -/
def ReadResult.count : ReadResult → Nat
  | .done _ sum => sum
  | .noSuchObject _ numBytes => numBytes

theorem readLoop_eq {B : Nat} (hB : 0 < B) (hn : Represents B (blocks pool category key) f n)
    (fuel : Nat) :
    ∀ (cursor stop : Nat) (value : Bytes), stop - cursor ≤ fuel →
      (readLoop pool category key (segmentsFrom B fuel cursor stop) value value.length).value
          = value ++ slice f cursor (stop - cursor) ∧
        (readLoop pool category key (segmentsFrom B fuel cursor stop) value value.length).count
          = (value ++ slice f cursor (stop - cursor)).length := by
  have hup := hn.upper
  induction fuel with
  | zero =>
      intro cursor stop value h
      have : stop - cursor = 0 := by omega
      simp [segmentsFrom, readLoop, ReadResult.value, ReadResult.count, slice, this]
  | succ fuel ih =>
      intro cursor stop value hfuel
      by_cases hlt : cursor < stop
      · have hb := next_bound_gt hB cursor
        have hmod := Nat.mod_lt cursor hB
        have hdm : cursor / B * B + cursor % B = cursor := Nat.div_add_mod' cursor B
        have hblk := hn.block (cursor / B)
        unfold blocks at hblk
        rw [segmentsFrom, if_pos hlt]
        simp only [readLoop, Ioctx.read, hblk]
        by_cases hobj : cursor / B < n
        · rw [if_pos hobj, Option.map_some]
          generalize hq : cursor / B * B = q at *
          generalize hlen : min (q + B - cursor) (stop - cursor) = len
          -- the piece read from the object is the piece of the file
          have hpiece : slice (slice f q B) (cursor % B) len = slice f cursor len := by
            apply List.ext_getElem?
            intro j
            simp only [getElem?_slice]
            split_ifs <;> first | rfl | omega | (congr 1; omega)
          have hjoin : slice f cursor len ++ slice f (q + B) (stop - (q + B)) =
              slice f cursor (stop - cursor) := by
            apply List.ext_getElem?
            intro j
            rw [List.getElem?_append]
            simp only [getElem?_slice, slice_length]
            by_cases hjf : j < f.length - cursor
            · split_ifs <;> first | rfl | omega | (congr 1; omega)
            · have hout : f[cursor + j]? = none := List.getElem?_eq_none_iff.mpr (by omega)
              have hout' : f[q + B + (j - min len (f.length - cursor))]? = none := by
                apply List.getElem?_eq_none_iff.mpr
                omega
              rw [hout, hout']
              split_ifs <;> rfl
          have hnext := ih (q + B) stop (value ++ slice f cursor len) (by omega)
          rw [hpiece]
          rw [List.length_append, List.append_assoc, hjoin] at hnext
          exact hnext
        · rw [if_neg hobj, Option.map_none]
          have h1 : n * B ≤ cursor / B * B := Nat.mul_le_mul_right _ (by omega)
          have hnil : slice f cursor (stop - cursor) = [] := by
            apply List.eq_nil_of_length_eq_zero
            rw [slice_length]
            omega
          simp [ReadResult.value, ReadResult.count, hnil]
      · rw [segmentsFrom_done _ _ _ _ (by omega)]
        have : stop - cursor = 0 := by omega
        simp [readLoop, ReadResult.value, ReadResult.count, slice, this]

/-- `read` delivers exactly the bytes of the range that lie inside the file. -/
theorem read_eq (hf : Holds pool category key f) (len offset : Nat) :
    (read pool category key len offset).value = slice f offset len ∧
      (read pool category key len offset).count = (slice f offset len).length := by
  obtain ⟨n, hn⟩ := hf
  have h := readLoop_eq objSize_pos hn len offset (offset + len) [] (by omega)
  simpa [read, segments] using h

/-! ## Runs over many files -/

/-- What the objects of a file look like: all full but the last, and spelling `f`. -/
def DensePrefix (pool : Pool) (category : ObjCategory) (key : Str) (f : Bytes) : Prop :=
  ∃ objs : List Bytes,
    (∀ num, pool.lookup (objKey category key num) = objs[num]?) ∧
    (∀ o ∈ objs.dropLast, o.length = objSize) ∧
    (∀ o ∈ objs, o.length ≤ objSize) ∧
    objs.flatten = f

theorem Holds.densePrefix (hf : Holds pool category key f) : DensePrefix pool category key f := by
  obtain ⟨n, hn⟩ := hf
  refine ⟨(List.range n).map fun i => (blocks pool category key i).getD [], ?_, ?_, ?_,
    hn.flatten⟩
  · intro num
    have hb := hn.block num
    rw [List.getElem?_map]
    by_cases h : num < n
    · rw [List.getElem?_range h, Option.map_some, hn.getD]
      rw [if_pos h] at hb
      exact hb
    · rw [List.getElem?_eq_none (by simpa using h), Option.map_none]
      rw [if_neg h] at hb
      exact hb
  · intro o ho
    rw [← List.map_dropLast] at ho
    obtain ⟨i, hi, rfl⟩ := List.mem_map.mp ho
    have hin : i < n - 1 := by
      rw [List.dropLast_eq_take, List.length_range, List.take_range] at hi
      have := List.mem_range.mp hi
      omega
    rw [hn.getD]
    exact hn.full i (by omega)
  · intro o ho
    obtain ⟨i, -, rfl⟩ := List.mem_map.mp ho
    rw [hn.getD, slice_length]
    omega

/-- The operations of `rados_io` that change a file. -/
inductive FileOp where
  | write (value : Bytes) (offset : Nat)
  | truncate (offset : Nat)
  | remove
  deriving DecidableEq, Repr

structure FileRequest where
  category : ObjCategory
  key : Str
  op : FileOp
  deriving DecidableEq, Repr

/-- The code's operation on the pool. -/
def FileOp.perform (pool : Pool) (category : ObjCategory) (key : Str) : FileOp → Pool
  | .write value offset => (RadosIo.write pool category key value offset).2
  | .truncate offset => (RadosIo.truncate pool category key offset).2
  | .remove => RadosIo.remove pool category key

def FileRequest.perform (pool : Pool) (req : FileRequest) : Pool :=
  req.op.perform pool req.category req.key

/-- The same operation on one flat file: `write` pads with zeros up to `offset`, `truncate` cuts
    or pads, `remove` empties. -/
def FileOp.flat (f : Bytes) : FileOp → Bytes
  | .write value offset => overwrite 0 f offset value
  | .truncate offset => resize 0 f offset
  | .remove => []

/-- The flat files: one byte list for each category and key. -/
abbrev FlatFiles := ObjCategory × Str → Bytes

def FileRequest.flat (files : FlatFiles) (req : FileRequest) : FlatFiles :=
  Function.update files (req.category, req.key) (req.op.flat (files (req.category, req.key)))

theorem perform_holds (hf : Holds pool category key f) (op : FileOp) :
    Holds (op.perform pool category key) category key (op.flat f) := by
  cases op with
  | write value offset => exact (write_holds hf value offset).2
  | truncate offset => exact (truncate_holds hf offset).2
  | remove => exact remove_holds hf

theorem frame_perform (op : FileOp) :
    Frame category key pool (op.perform pool category key) := by
  cases op with
  | write value offset => exact frame_write_file value offset
  | truncate offset => exact frame_truncate offset
  | remove => exact frame_remove

/-- The pool holds each flat file. -/
def HoldsAll (pool : Pool) (files : FlatFiles) : Prop :=
  ∀ category key, Holds pool category key (files (category, key))

/-- One request keeps the simulation. -/
theorem HoldsAll.perform {pool : Pool} {files : FlatFiles} (h : HoldsAll pool files)
    (req : FileRequest) : HoldsAll (req.perform pool) (req.flat files) := by
  intro c k
  unfold FileRequest.flat
  by_cases he : (c, k) = (req.category, req.key)
  · rw [he, Function.update_self]
    obtain ⟨rfl, rfl⟩ := Prod.mk.inj he
    exact perform_holds (h _ _) req.op
  · rw [Function.update_of_ne he]
    exact (frame_perform req.op).holds he (h c k)

/-- A whole run keeps it, from the empty pool on. -/
theorem run_holdsAll (reqs : List FileRequest) :
    HoldsAll (reqs.foldl FileRequest.perform ∅) (reqs.foldl FileRequest.flat fun _ => []) := by
  apply List.foldl_rel
  · intro c k
    exact Holds.of_absent fun num => AList.lookup_empty _
  · intro req _ pool files h
    exact h.perform req

/-- After any operations on any files, the objects of each file are a dense prefix spelling its flat
    file, and `stat`, `exist` and `read` answer from that file. -/
theorem striped_refines_flat (reqs : List FileRequest) (category : ObjCategory) (key : Str) :
    let pool := reqs.foldl FileRequest.perform ∅
    let f := reqs.foldl FileRequest.flat (fun _ => []) (category, key)
    DensePrefix pool category key f ∧
      ((∃ num, (pool.lookup (objKey category key num)).isSome) →
        stat pool category key = (true, f.length)) ∧
      (exist pool category key ↔ ∃ num, (pool.lookup (objKey category key num)).isSome) ∧
      exist pool category key = (stat pool category key).1 ∧
      ∀ len offset,
        (read pool category key len offset).value = slice f offset len ∧
        (read pool category key len offset).count = (slice f offset len).length := by
  intro pool f
  have hf : Holds pool category key f := run_holdsAll reqs category key
  have hread := read_eq hf
  refine ⟨hf.densePrefix, ?_, ?_, ?_, hread⟩
  all_goals obtain ⟨n, hn⟩ := hf
  · rintro ⟨num, h⟩
    have := (isSome_blocks hn num).mp h
    rw [stat_eq hn, decide_eq_true (by omega)]
  · rw [exist_eq hn, decide_eq_true_iff]
    constructor
    · intro h0
      exact ⟨0, (isSome_blocks hn 0).mpr (by omega)⟩
    · rintro ⟨num, h⟩
      have := (isSome_blocks hn num).mp h
      omega
  · rw [exist_eq hn, stat_eq hn]

end Nmfs.RadosIo
