import Mathlib.Data.List.Basic
import Mathlib.Algebra.Order.Ring.Nat

/-
  Little-endian byte codec over `List UInt8`, and cutting a byte list at positions.
  `leBytes w n` is the `w` low bytes of `n`, lowest first; `leNat` reads them back.
-/

namespace Nmfs.Lib

/-- The `w` low bytes of `n`, lowest first. -/
def leBytes : Nat → Nat → List UInt8
  | 0, _ => []
  | w + 1, n => UInt8.ofNat n :: leBytes w (n / 256)

/-- The value of a byte list, lowest byte first. -/
def leNat : List UInt8 → Nat
  | [] => 0
  | b :: bs => b.toNat + 256 * leNat bs

@[simp] theorem leBytes_length (w n : Nat) : (leBytes w n).length = w := by
  induction w generalizing n with
  | zero => rfl
  | succ w ih => simp [leBytes, ih]

theorem leNat_leBytes (w n : Nat) (h : n < 256 ^ w) : leNat (leBytes w n) = n := by
  induction w generalizing n with
  | zero =>
      have : n = 0 := by simpa using h
      simp [leBytes, leNat, this]
  | succ w ih =>
      have hq : n / 256 < 256 ^ w := by
        rw [Nat.div_lt_iff_lt_mul (by decide)]
        rwa [pow_succ] at h
      simp only [leBytes, leNat, ih _ hq, UInt8.toNat_ofNat']
      omega

theorem leNat_lt (bs : List UInt8) : leNat bs < 256 ^ bs.length := by
  induction bs with
  | nil => simp [leNat]
  | cons b bs ih =>
      have hb := b.toNat_lt
      simp only [leNat, List.length_cons, pow_succ]
      omega

theorem leBytes_leNat (bs : List UInt8) : leBytes bs.length (leNat bs) = bs := by
  induction bs with
  | nil => rfl
  | cons b bs ih =>
      have hb := b.toNat_lt
      have hd : (b.toNat + 256 * leNat bs) / 256 = leNat bs := by omega
      have hm : UInt8.ofNat (b.toNat + 256 * leNat bs) = b := by
        apply UInt8.toNat_inj.mp
        rw [UInt8.toNat_ofNat']
        omega
      simp only [List.length_cons, leNat, leBytes, hd, ih, hm]

/-! ## Cutting at positions -/

variable {α : Type}

/-- The `len` elements from position `off` on (fewer at the end). -/
def slice (xs : List α) (off len : Nat) : List α := (xs.drop off).take len

theorem getElem?_slice (xs : List α) (off len j : Nat) :
    (slice xs off len)[j]? = if j < len then xs[off + j]? else none := by
  unfold slice
  rw [List.getElem?_take]
  simp [List.getElem?_drop]

@[simp] theorem slice_length (xs : List α) (off len : Nat) :
    (slice xs off len).length = min len (xs.length - off) := by
  simp [slice]

theorem slice_append_left (xs ys : List α) (off len : Nat) (h : off + len ≤ xs.length) :
    slice (xs ++ ys) off len = slice xs off len := by
  unfold slice
  rw [List.drop_append_of_le_length (by omega), List.take_append_of_le_length]
  simp
  omega

theorem slice_append_right (xs ys : List α) (off len : Nat) (h : xs.length ≤ off) :
    slice (xs ++ ys) off len = slice ys (off - xs.length) len := by
  unfold slice
  rw [List.drop_append, List.drop_eq_nil_of_le h, List.nil_append]

/-- The middle part of a concatenation. -/
theorem slice_mid (pre xs post : List α) :
    slice (pre ++ xs ++ post) pre.length xs.length = xs := by
  rw [List.append_assoc, slice_append_right _ _ _ _ (Nat.le_refl _)]
  simp [slice]

theorem slice_head (xs ys : List α) (len : Nat) (h : xs.length = len) :
    slice (xs ++ ys) 0 len = xs := by
  subst h
  simp [slice]

theorem slice_all (xs : List α) : slice xs 0 xs.length = xs := by simp [slice]

/-! ## Joined pieces -/

theorem length_le_flatMap {β : Type} {f : β → List α} (h : ∀ b, 0 < (f b).length) (bs : List β) :
    bs.length ≤ (bs.flatMap f).length := by
  induction bs with
  | nil => exact Nat.le_refl _
  | cons b bs ih =>
      have hb := h b
      rw [List.flatMap_cons, List.length_append, List.length_cons]
      omega

theorem length_le_flatMap_of_mem {β : Type} (f : β → List α) {bs : List β} {b : β} (h : b ∈ bs) :
    (f b).length ≤ (bs.flatMap f).length := by
  rw [List.flatMap_def]
  exact (List.sublist_flatten_of_mem (List.mem_map_of_mem h)).length_le

end Nmfs.Lib
