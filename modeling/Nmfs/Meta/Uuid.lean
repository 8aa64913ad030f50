import Nmfs.Rados.RadosIo

/-
  `util/uuid`: an inode number is a `boost::uuids::uuid`, 16 bytes. `uuid_to_string` is boost's
  `to_string`: lower-case hexadecimal, a dash after bytes 3, 5, 7 and 9. It is injective, so two
  inode numbers never share an object.
-/

namespace Nmfs

open Lib

structure Uuid where
  data : Bytes
  length_data : data.length = 16
  deriving DecidableEq

namespace Uuid

@[ext] theorem ext {u v : Uuid} (h : u.data = v.data) : u = v := by
  cases u
  cases v
  simpa using h

def nil : Uuid := ⟨List.replicate 16 0, rfl⟩

/-- `get_root_ino`: the nil uuid with its last byte 1. -/
def rootIno : Uuid := ⟨List.replicate 15 0 ++ [1], rfl⟩

/-- `get_prefix_from_uuid`: the `memcpy` of the first eight bytes into a `uint64_t`. -/
def getPrefixFromUuid (u : Uuid) : UInt64 := UInt64.ofNat (leNat (u.data.take 8))

def getPostfixFromUuid (u : Uuid) : UInt64 := UInt64.ofNat (leNat (u.data.drop 8))

def splicePrefixAndPostfix (high low : UInt64) : Uuid :=
  ⟨leBytes 8 high.toNat ++ leBytes 8 low.toNat, by
    rw [List.length_append, leBytes_length, leBytes_length]⟩

/-- The version field of the random uuids that `boost::uuids::random_generator` makes. -/
def isRandom (u : Uuid) : Bool := (u.data.getD 6 0).toNat / 16 = 4

def hexDigit (n : Nat) : Char :=
  if n < 10 then Char.ofNat (48 + n) else Char.ofNat (87 + n)

/-- The bytes from position `i` on. -/
def hexFrom : Nat → Bytes → Str
  | _, [] => []
  | i, b :: bs =>
    hexDigit (b.toNat / 16) :: hexDigit (b.toNat % 16) ::
      ((if i ∈ [3, 5, 7, 9] then ['-'] else []) ++ hexFrom (i + 1) bs)

/-- `uuid_to_string`. -/
def toStr (u : Uuid) : Str := hexFrom 0 u.data

theorem hexDigit_inj : ∀ m < 16, ∀ n < 16, hexDigit m = hexDigit n → m = n := by
  decide

theorem hexFrom_inj (xs ys : Bytes) (i : Nat) (hlen : xs.length = ys.length)
    (h : hexFrom i xs = hexFrom i ys) : xs = ys := by
  induction xs generalizing ys i with
  | nil =>
      cases ys with
      | nil => rfl
      | cons b ys => simp at hlen
  | cons a xs ih =>
      cases ys with
      | nil => simp at hlen
      | cons b ys =>
          simp only [hexFrom, List.cons.injEq] at h
          obtain ⟨h1, h2, h3⟩ := h
          have ha := a.toNat_lt
          have hb := b.toNat_lt
          have hdiv := hexDigit_inj _ (by omega) _ (by omega) h1
          have hmod := hexDigit_inj _ (by omega) _ (by omega) h2
          have hab : a = b := UInt8.toNat_inj.mp (by omega)
          have hrest := List.append_cancel_left h3
          rw [hab, ih ys (i + 1) (by simpa using hlen) hrest]

theorem toStr_inj {u v : Uuid} (h : u.toStr = v.toStr) : u = v :=
  Uuid.ext (hexFrom_inj _ _ 0 (u.length_data.trans v.length_data.symm) h)

theorem leBytes_ofNat {bs : Bytes} (h : bs.length = 8) :
    leBytes 8 (UInt64.ofNat (leNat bs)).toNat = bs := by
  have hlt : leNat bs < 2 ^ 64 := by
    have := leNat_lt bs
    rwa [h] at this
  rw [UInt64.toNat_ofNat_of_lt' hlt]
  have := leBytes_leNat bs
  rwa [h] at this

/-- An inode number that is sent in two halves arrives. -/
@[simp] theorem splice_prefix_postfix (u : Uuid) :
    splicePrefixAndPostfix u.getPrefixFromUuid u.getPostfixFromUuid = u := by
  have hlen := u.length_data
  have hfront : (u.data.take 8).length = 8 := by rw [List.length_take, hlen]; rfl
  have hback : (u.data.drop 8).length = 8 := by rw [List.length_drop, hlen]
  apply Uuid.ext
  show leBytes 8 _ ++ leBytes 8 _ = u.data
  unfold getPrefixFromUuid getPostfixFromUuid
  rw [leBytes_ofNat hfront, leBytes_ofNat hback, List.take_append_drop]

end Uuid

end Nmfs
