import Nmfs.Lib.Stripe
import Mathlib.Data.List.AList

/-
  `lib/rados_io`: a file, named by a category and a key, is striped over RADOS objects of
  `OBJ_SIZE` bytes. A pool is the map from object names to their bytes. The `ioctx` calls below
  are a correct byte store per object; a missing object is `none` (`-ENOENT`).

  Offsets are non-negative and do not overflow, so they are `Nat`: `cursor >> OBJ_BITS` is
  `cursor / objSize`, `cursor & ~OBJ_MASK` is `cursor % objSize`. The `while (cursor < stop)` loops
  of `zerofill`, `read` and `write` run over the same pieces, `segments objSize offset len`.
-/

namespace Nmfs

open Lib

abbrev Bytes := List UInt8

/-- `std::string` where it is an object key. -/
abbrev Str := List Char

abbrev Pool := AList (fun _ : Str => Bytes)

instance : DecidableEq Pool := fun p q => decidable_of_iff (p.entries = q.entries) AList.ext_iff.symm

inductive ObjCategory where
  | inode
  | dentry
  | data
  | client
  | journal
  deriving DecidableEq, Repr

/-! ## librados, one object -/

namespace Ioctx

def stat (pool : Pool) (key : Str) : Option Nat := (pool.lookup key).map List.length

def read (pool : Pool) (key : Str) (len off : Nat) : Option Bytes :=
  (pool.lookup key).map fun o => slice o off len

/-- A write past the end of an object zero-extends it; a missing object is created. -/
def write (pool : Pool) (key : Str) (value : Bytes) (off : Nat) : Pool :=
  pool.insert key (overwrite 0 ((pool.lookup key).getD []) off value)

/-- `trunc` of a missing object succeeds and does nothing. -/
def trunc (pool : Pool) (key : Str) (size : Nat) : Pool :=
  match pool.lookup key with
  | none => pool
  | some o => pool.insert key (resize 0 o size)

def remove (pool : Pool) (key : Str) : Option Pool :=
  match pool.lookup key with
  | none => none
  | some _ => some (pool.erase key)

end Ioctx

namespace RadosIo

@[irreducible] def objSize : Nat := 4194304

theorem objSize_eq : objSize = 4194304 := by
  unfold objSize
  rfl

theorem objSize_pos : 0 < objSize := by
  rw [objSize_eq]
  decide

def getPrefix : ObjCategory → Str
  | .inode => ['i', '$']
  | .dentry => ['e', '$']
  | .data => ['d', '$']
  | .client => ['c', '$']
  | .journal => ['j', '$']

def getPostfix (num : Nat) : Str := '#' :: Nat.toDigits 10 num

/-- `get_prefix(category) + key + get_postfix(num)`. -/
def objKey (category : ObjCategory) (key : Str) (num : Nat) : Str :=
  getPrefix category ++ key ++ getPostfix num

/-- What `read` leaves behind: the bytes stored at `value`, and the count it returns or, when an
    object is missing, the `num_bytes` of the exception. -/
inductive ReadResult where
  | done (value : Bytes) (sum : Nat)
  | noSuchObject (value : Bytes) (numBytes : Nat)
  deriving DecidableEq, Repr

def zerofillLoop (pool : Pool) (category : ObjCategory) (key : Str) : List Segment → Pool
  | [] => pool
  | s :: rest =>
    zerofillLoop (Ioctx.write pool (objKey category key s.num) (List.replicate s.len 0) s.off)
      category key rest

def zerofill (pool : Pool) (category : ObjCategory) (key : Str) (len offset : Nat) : Pool :=
  zerofillLoop pool category key (segments objSize offset len)

def readLoop (pool : Pool) (category : ObjCategory) (key : Str) :
    List Segment → Bytes → Nat → ReadResult
  | [], value, sum => .done value sum
  | s :: rest, value, sum =>
    match Ioctx.read pool (objKey category key s.num) s.len s.off with
    | none => .noSuchObject value sum
    | some bs => readLoop pool category key rest (value ++ bs) (sum + bs.length)

def read (pool : Pool) (category : ObjCategory) (key : Str) (len offset : Nat) : ReadResult :=
  readLoop pool category key (segments objSize offset len) [] 0

/-- The search of `write` and `truncate` for the last object at or before `prev_obj_num`:
    `lb_file_size`, or `none` when the loop ends with `-ENOENT`. -/
def lbFileSize (pool : Pool) (category : ObjCategory) (key : Str) : Nat → Option Nat
  | 0 => Ioctx.stat pool (objKey category key 0)
  | num + 1 =>
    match Ioctx.stat pool (objKey category key (num + 1)) with
    | some size => some ((num + 1) * objSize + size)
    | none => lbFileSize pool category key num

def writeLoop (pool : Pool) (category : ObjCategory) (key : Str) (value : Bytes) :
    List Segment → Nat → Nat × Pool
  | [], sum => (sum, pool)
  | s :: rest, sum =>
    writeLoop
      (Ioctx.write pool (objKey category key s.num) ((value.drop sum).take s.len) s.off)
      category key value rest (sum + s.len)

/-- Returns the number of bytes written, and the pool. -/
def write (pool : Pool) (category : ObjCategory) (key : Str) (value : Bytes) (offset : Nat) :
    Nat × Pool :=
  let lb := (lbFileSize pool category key (offset / objSize)).getD 0
  -- fill the hole between the end of the file and `offset`
  let pool := if lb < offset then zerofill pool category key (offset - lb) lb else pool
  writeLoop pool category key value (segments objSize offset value.length) 0

def exist (pool : Pool) (category : ObjCategory) (key : Str) : Bool :=
  (Ioctx.stat pool (objKey category key 0)).isSome

/-- Every object found is another entry of the pool, so `pool.entries.length + 1` rounds are
    enough for the loops that go up from one object to the next. -/
def statLoop (pool : Pool) (category : ObjCategory) (key : Str) : Nat → Nat → Nat → Bool × Nat
  | 0, _, size => (true, size)
  | fuel + 1, num, size =>
    match Ioctx.stat pool (objKey category key num) with
    | none => if num = 0 then (false, size) else (true, size)
    | some objSize => statLoop pool category key fuel (num + 1) (size + objSize)

def stat (pool : Pool) (category : ObjCategory) (key : Str) : Bool × Nat :=
  statLoop pool category key (pool.entries.length + 1) 0 0

def removeLoop (category : ObjCategory) (key : Str) : Nat → Pool → Nat → Pool
  | 0, pool, _ => pool
  | fuel + 1, pool, num =>
    match Ioctx.remove pool (objKey category key num) with
    | none => pool
    | some pool => removeLoop category key fuel pool (num + 1)

def remove (pool : Pool) (category : ObjCategory) (key : Str) : Pool :=
  removeLoop category key (pool.entries.length + 1) pool 0

/-- Returns the code of `truncate`, and the pool. -/
def truncate (pool : Pool) (category : ObjCategory) (key : Str) (offset : Nat) : Nat × Pool :=
  match lbFileSize pool category key (offset / objSize) with
  | none => (0, zerofill pool category key offset 0)
  | some lb =>
    if lb < offset then
      (0, zerofill pool category key (offset - lb) lb)
    else
      let num := offset / objSize
      let pool := Ioctx.trunc pool (objKey category key num) (offset % objSize)
      -- the objects after the cut one
      (0, removeLoop category key (pool.entries.length + 1) pool (num + 1))

end RadosIo

end Nmfs
