import Nmfs.Lib.LittleEndian
import Mathlib.Logic.Function.Basic
import Mathlib.Tactic.Ring

/-
  A byte list cut into blocks of `B` elements, block `i` holding positions `i * B` up to
  `(i + 1) * B`. `Represents B blk f n`: the blocks `0 … n - 1` exist, all but the last are full,
  and together they spell `f`. The last block may be short, and even empty.

  `segments B off len` is the list of block-local pieces a loop over `[off, off + len)` visits.
  `Represents.overwrite` is the step lemma of such a loop: writing one piece inside its block is
  overwriting the flat list at the same place.
-/

namespace Nmfs.Lib

variable {α : Type}

/-- Overwrite `xs` from position `off` on with `ys`; a gap after the end is filled with `z`. -/
def overwrite (z : α) (xs : List α) (off : Nat) (ys : List α) : List α :=
  xs.take off ++ List.replicate (off - xs.length) z ++ ys ++ xs.drop (off + ys.length)

/-- Cut `xs` at `n`, or fill it with `z` up to `n`. -/
def resize (z : α) (xs : List α) (n : Nat) : List α :=
  xs.take n ++ List.replicate (n - xs.length) z

@[simp] theorem overwrite_length (z : α) (xs : List α) (off : Nat) (ys : List α) :
    (overwrite z xs off ys).length = max xs.length (off + ys.length) := by
  simp only [overwrite, List.length_append, List.length_take, List.length_replicate,
    List.length_drop]
  omega

@[simp] theorem resize_length (z : α) (xs : List α) (n : Nat) : (resize z xs n).length = n := by
  simp only [resize, List.length_append, List.length_take, List.length_replicate]
  omega

theorem getElem?_resize (z : α) (xs : List α) (n p : Nat) :
    (resize z xs n)[p]? = if p < n then (if p < xs.length then xs[p]? else some z) else none := by
  unfold resize
  rw [List.getElem?_append, List.getElem?_take, List.getElem?_replicate, List.length_take]
  split_ifs <;> first | rfl | omega

theorem getElem?_overwrite (z : α) (xs : List α) (off : Nat) (ys : List α) (p : Nat) :
    (overwrite z xs off ys)[p]? =
      if p < off then (if p < xs.length then xs[p]? else some z)
      else if p < off + ys.length then ys[p - off]? else xs[p]? := by
  unfold overwrite
  have hl : (xs.take off ++ List.replicate (off - xs.length) z).length = off := resize_length z xs off
  rw [List.append_assoc, List.getElem?_append, hl]
  split
  · have h := getElem?_resize z xs off p
    unfold resize at h
    rw [h, if_pos ‹_›]
  · rw [List.getElem?_append]
    split
    · rw [if_pos (by omega)]
    · rw [if_neg (by omega), List.getElem?_drop]
      congr 1
      omega

theorem overwrite_nil (z : α) (xs : List α) (off : Nat) (h : off ≤ xs.length) :
    overwrite z xs off [] = xs := by
  apply List.ext_getElem?
  intro p
  rw [getElem?_overwrite]
  simp only [List.length_nil, Nat.add_zero]
  split_ifs <;> first | rfl | omega

theorem overwrite_end (z : α) (xs ys : List α) : overwrite z xs xs.length ys = xs ++ ys := by
  simp [overwrite]

/-- Two adjacent overwrites are one. -/
theorem overwrite_overwrite (z : α) (xs : List α) (off : Nat) (ys zs : List α)
    (h : off ≤ xs.length) :
    overwrite z (overwrite z xs off ys) (off + ys.length) zs = overwrite z xs off (ys ++ zs) := by
  apply List.ext_getElem?
  intro p
  simp only [getElem?_overwrite, overwrite_length, List.length_append, List.getElem?_append]
  split_ifs <;> first | rfl | omega | (congr 1; omega)

/-- Past the end, filling with `z` first and overwriting then is one overwrite. -/
theorem overwrite_resize (z : α) (xs : List α) (off : Nat) (ys : List α) (h : xs.length ≤ off) :
    overwrite z (resize z xs off) off ys = overwrite z xs off ys := by
  apply List.ext_getElem?
  intro p
  simp only [getElem?_overwrite, getElem?_resize, resize_length]
  split_ifs <;> first | rfl | omega | skip
  symm
  rw [List.getElem?_eq_none_iff]
  omega

/-! ## Segments -/

/-- A piece of a range that lies inside one block. -/
structure Segment where
  num : Nat
  off : Nat
  len : Nat
  deriving DecidableEq, Repr

def segmentsFrom (B : Nat) : Nat → Nat → Nat → List Segment
  | 0, _, _ => []
  | fuel + 1, cursor, stop =>
    if cursor < stop then
      let next_bound := cursor / B * B + B
      ⟨cursor / B, cursor % B, min (next_bound - cursor) (stop - cursor)⟩ ::
        segmentsFrom B fuel next_bound stop
    else []

/-- The pieces of `[off, off + len)`, one for each block it meets. -/
def segments (B off len : Nat) : List Segment := segmentsFrom B len off (off + len)

theorem segmentsFrom_done (B fuel cursor stop : Nat) (h : stop ≤ cursor) :
    segmentsFrom B fuel cursor stop = [] := by
  cases fuel with
  | zero => rfl
  | succ fuel => rw [segmentsFrom, if_neg (by omega)]

theorem next_bound_gt {B : Nat} (hB : 0 < B) (cursor : Nat) : cursor < cursor / B * B + B := by
  have h1 := Nat.div_add_mod cursor B
  have h2 := Nat.mod_lt cursor hB
  rw [Nat.mul_comm] at h1
  omega

/-- The segments of a range cover it. -/
theorem segmentsFrom_len_sum {B : Nat} (hB : 0 < B) (fuel cursor stop : Nat)
    (h : stop - cursor ≤ fuel) :
    ((segmentsFrom B fuel cursor stop).map Segment.len).sum = stop - cursor := by
  induction fuel generalizing cursor with
  | zero =>
      simp [segmentsFrom]
      omega
  | succ fuel ih =>
      unfold segmentsFrom
      split
      · have hb := next_bound_gt hB cursor
        simp only [List.map_cons, List.sum_cons]
        rw [ih _ (by omega)]
        omega
      · simp
        omega

/-- The pieces cover `cursor … stop - 1` in order, each inside its block. -/
def Tiles (B : Nat) : Nat → Nat → List Segment → Prop
  | cursor, stop, [] => cursor = stop
  | cursor, stop, s :: rest =>
    s.num * B + s.off = cursor ∧ s.off + s.len ≤ B ∧ cursor + s.len ≤ stop ∧
      Tiles B (cursor + s.len) stop rest

theorem segmentsFrom_tiles {B : Nat} (hB : 0 < B) (fuel : Nat) :
    ∀ cursor stop, cursor ≤ stop → stop - cursor ≤ fuel →
      Tiles B cursor stop (segmentsFrom B fuel cursor stop) := by
  induction fuel with
  | zero =>
      intro cursor stop hle hfuel
      simp only [segmentsFrom, Tiles]
      omega
  | succ fuel ih =>
      intro cursor stop hle hfuel
      by_cases hlt : cursor < stop
      · have hb := next_bound_gt hB cursor
        have hdm : cursor / B * B + cursor % B = cursor := Nat.div_add_mod' cursor B
        rw [segmentsFrom, if_pos hlt]
        refine ⟨hdm, by simp only; omega, by simp only; omega, ?_⟩
        by_cases hbs : cursor / B * B + B ≤ stop
        · have hend : cursor + min (cursor / B * B + B - cursor) (stop - cursor) =
              cursor / B * B + B := by omega
          rw [hend]
          exact ih _ _ hbs (by omega)
        · have hend : cursor + min (cursor / B * B + B - cursor) (stop - cursor) = stop := by
            omega
          rw [hend, segmentsFrom_done _ _ _ _ (by omega)]
          rfl
      · rw [segmentsFrom_done _ _ _ _ (by omega)]
        simp only [Tiles]
        omega

theorem segments_tiles {B : Nat} (hB : 0 < B) (off len : Nat) :
    Tiles B off (off + len) (segments B off len) :=
  segmentsFrom_tiles hB len off (off + len) (by omega) (by omega)

/-! ## One byte of the blocks -/

/-- The element at position `p` of the striped list, if its block reaches that far. -/
def blockAt (B : Nat) (blk : Nat → Option (List α)) (p : Nat) : Option α :=
  (blk (p / B)).bind fun b => b[p % B]?

/-- Where a piece is written inside block `num`, the positions it covers hold it, and every other
    position keeps what it held. -/
theorem blockAt_update {B : Nat} (blk : Nat → Option (List α)) (z : α)
    {num off : Nat} {seg : List α} (hs : off + seg.length ≤ B) (p : Nat) :
    let blk' := Function.update blk num (some (overwrite z ((blk num).getD []) off seg))
    (∀ j, j < seg.length → p = num * B + off + j → blockAt B blk' p = seg[j]?) ∧
      (p < num * B + off ∨ num * B + off + seg.length ≤ p →
        ∀ a, blockAt B blk p = some a → blockAt B blk' p = some a) := by
  intro blk'
  constructor
  · rintro j hj rfl
    have hdiv : (num * B + off + j) / B = num := by
      rw [Nat.add_assoc, Nat.mul_comm, Nat.mul_add_div (by omega), Nat.div_eq_of_lt (by omega)]
      omega
    have hmod : (num * B + off + j) % B = off + j := by
      rw [Nat.add_assoc, Nat.mul_comm, Nat.mul_add_mod, Nat.mod_eq_of_lt (by omega)]
    unfold blockAt
    rw [hdiv, hmod]
    simp only [blk', Function.update_self, Option.bind_some, getElem?_overwrite]
    split_ifs <;> first | omega | (congr 1; omega)
  · intro hout a ha
    unfold blockAt at ha ⊢
    by_cases hp : p / B = num
    · have hdm := Nat.div_add_mod p B
      rw [hp, Nat.mul_comm] at hdm
      rw [hp] at ha ⊢
      cases hb : blk num with
      | none =>
          rw [hb] at ha
          cases ha
      | some b =>
          rw [hb, Option.bind_some] at ha
          obtain ⟨hlt, -⟩ := List.getElem?_eq_some_iff.mp ha
          simp only [blk', Function.update_self, hb, Option.getD_some, Option.bind_some,
            getElem?_overwrite]
          split_ifs <;> omega
    · simp only [blk', Function.update_of_ne hp]
      exact ha

/-! ## Blocks that spell a list -/

/-- Blocks `0 … n - 1` exist and hold `f`; only the last one may be short. -/
structure Represents (B : Nat) (blk : Nat → Option (List α)) (f : List α) (n : Nat) : Prop where
  block : ∀ i, blk i = if i < n then some (slice f (i * B) B) else none
  lower : (n - 1) * B ≤ f.length
  upper : f.length ≤ n * B

theorem Represents.empty (B : Nat) (blk : Nat → Option (List α)) (h : ∀ i, blk i = none) :
    Represents B blk [] 0 :=
  ⟨fun i => by simp [h i], by simp, by simp⟩

variable {B : Nat} {blk : Nat → Option (List α)} {f : List α} {n : Nat}

theorem Represents.congr {blk' : Nat → Option (List α)} (h : Represents B blk f n)
    (he : ∀ i, blk' i = blk i) : Represents B blk' f n :=
  ⟨fun i => (he i).trans (h.block i), h.lower, h.upper⟩

/-- A block that does not exist reads as the empty piece of the list. -/
theorem Represents.getD (h : Represents B blk f n) (i : Nat) :
    (blk i).getD [] = slice f (i * B) B := by
  rw [h.block i]
  split
  · rfl
  · have h1 : n * B ≤ i * B := Nat.mul_le_mul_right B (by omega)
    have h2 := h.upper
    symm
    apply List.eq_nil_of_length_eq_zero
    rw [slice_length]
    omega

theorem Represents.full (h : Represents B blk f n) (i : Nat) (hi : i + 1 < n) :
    (slice f (i * B) B).length = B := by
  have h1 : (i + 1) * B ≤ (n - 1) * B := Nat.mul_le_mul_right B (by omega)
  have h2 := h.lower
  rw [Nat.succ_mul] at h1
  rw [slice_length]
  omega

/-- The blocks concatenate to the list. -/
theorem Represents.flatten (h : Represents B blk f n) :
    ((List.range n).map fun i => (blk i).getD []).flatten = f := by
  have key : ∀ k, ((List.range k).map fun i => (blk i).getD []).flatten = f.take (k * B) := by
    intro k
    induction k with
    | zero => simp
    | succ k ih =>
        rw [List.range_succ, List.map_append, List.flatten_append, ih, Nat.succ_mul, List.take_add]
        simp [h.getD, slice]
  rw [key, List.take_of_length_le h.upper]

/-- The step of a write loop: one piece written inside its block overwrites the flat list. -/
theorem Represents.overwrite (h : Represents B blk f n) (hB : 0 < B) (z : α) (cursor : Nat)
    (seg : List α) (hc : cursor ≤ f.length) (hs : cursor % B + seg.length ≤ B) :
    ∃ m, Represents B
      (Function.update blk (cursor / B)
        (some (overwrite z ((blk (cursor / B)).getD []) (cursor % B) seg)))
      (overwrite z f cursor seg) m := by
  have hdm : cursor / B * B + cursor % B = cursor := Nat.div_add_mod' cursor B
  have hmod := Nat.mod_lt cursor hB
  have hup := h.upper
  have hlow := h.lower
  have hobj : cursor / B ≤ n := by
    rw [← Nat.mul_div_cancel n hB]
    exact Nat.div_le_div_right (by omega)
  refine ⟨max n (cursor / B + 1), ?_, ?_, ?_⟩
  · intro i
    by_cases hi : i = cursor / B
    · subst hi
      rw [Function.update_self, if_pos (by omega), h.getD]
      congr 1
      apply List.ext_getElem?
      intro j
      simp only [getElem?_slice, getElem?_overwrite, slice_length]
      generalize cursor / B * B = q at *
      split_ifs <;> first | rfl | omega | (congr 1; omega)
    · rw [Function.update_of_ne hi, h.block i]
      by_cases hin : i < n
      · rw [if_pos hin, if_pos (by omega)]
        congr 1
        apply List.ext_getElem?
        intro j
        simp only [getElem?_slice, getElem?_overwrite]
        rcases Nat.lt_or_gt_of_ne hi with hlt | hgt
        · have h1 : (i + 1) * B ≤ cursor / B * B := Nat.mul_le_mul_right B hlt
          rw [Nat.succ_mul] at h1
          split_ifs <;> first | rfl | omega
        · have h1 : (cursor / B + 1) * B ≤ i * B := Nat.mul_le_mul_right B hgt
          rw [Nat.succ_mul] at h1
          split_ifs <;> first | rfl | omega
      · rw [if_neg hin, if_neg (by omega)]
  · rw [overwrite_length]
    rcases Nat.le_total (cursor / B + 1) n with hle | hle
    · rw [Nat.max_eq_left hle]
      omega
    · rw [Nat.max_eq_right hle, Nat.add_sub_cancel]
      omega
  · rw [overwrite_length]
    have h1 : n * B ≤ max n (cursor / B + 1) * B := Nat.mul_le_mul_right B (Nat.le_max_left _ _)
    have h2 : (cursor / B + 1) * B ≤ max n (cursor / B + 1) * B :=
      Nat.mul_le_mul_right B (Nat.le_max_right _ _)
    rw [Nat.succ_mul] at h2
    omega

/-- Cutting the block that `off` lies in and dropping all later ones cuts the flat list. -/
theorem Represents.truncate (h : Represents B blk f n) (hB : 0 < B) (z : α) (off : Nat)
    (ho : off ≤ f.length) {blk' : Nat → Option (List α)}
    (hlt : ∀ i, i < off / B → blk' i = blk i)
    (heq : blk' (off / B) = (blk (off / B)).map fun b => resize z b (off % B))
    (hgt : ∀ i, off / B < i → blk' i = none) :
    Represents B blk' (f.take off) (min n (off / B + 1)) := by
  have hdm : off / B * B + off % B = off := Nat.div_add_mod' off B
  have hmod := Nat.mod_lt off hB
  have hup := h.upper
  have hlow := h.lower
  have hlen : (f.take off).length = off := by
    rw [List.length_take]
    omega
  have hobj : off / B ≤ n := by
    rw [← Nat.mul_div_cancel n hB]
    exact Nat.div_le_div_right (by omega)
  refine ⟨?_, ?_, ?_⟩
  · intro i
    rcases Nat.lt_trichotomy i (off / B) with hi | hi | hi
    · have h1 : (i + 1) * B ≤ off / B * B := Nat.mul_le_mul_right B hi
      rw [Nat.succ_mul] at h1
      rw [hlt i hi, h.block i, if_pos (by omega), if_pos (by omega)]
      congr 1
      apply List.ext_getElem?
      intro j
      simp only [getElem?_slice, List.getElem?_take]
      split_ifs <;> first | rfl | omega
    · subst hi
      rw [heq, h.block]
      by_cases hn : off / B < n
      · rw [if_pos hn, if_pos (by omega), Option.map_some]
        congr 1
        apply List.ext_getElem?
        intro j
        simp only [getElem?_slice, getElem?_resize, slice_length, List.getElem?_take]
        generalize off / B * B = q at *
        split_ifs <;> first | rfl | omega
      · rw [if_neg hn, if_neg (by omega), Option.map_none]
    · rw [hgt i hi, if_neg (by omega)]
  · rw [hlen]
    have h1 : (min n (off / B + 1) - 1) * B ≤ off / B * B :=
      Nat.mul_le_mul_right B (Nat.sub_le_of_le_add (Nat.min_le_right _ _))
    omega
  · rw [hlen]
    rcases Nat.le_total n (off / B + 1) with hle | hle
    · rw [Nat.min_eq_left hle]
      omega
    · rw [Nat.min_eq_right hle, Nat.succ_mul]
      omega

end Nmfs.Lib
