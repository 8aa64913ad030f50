import Nmfs.Lib.LittleEndian
import Nmfs.Lib.Run
import Nmfs.Meta.Inode
import Nmfs.Rados.StoredFile

/-
  The manager's `session_impl`, which numbers the clients. The next number is a field of the process
  and a file of the CLIENT category, read back when a manager starts. `System` is one pool under any
  other traffic, with managers that start, die at any point and lose writes.
-/

namespace Nmfs.Session

open Lib RadosIo

def CLIENT_BITS : Nat := 24

def nextIdKey : Str := ['n', 'e', 'x', 't', '_', 'i', 'd']

/-- `session_impl::session_impl`. `memory` is what the field has before it is set. -/
def start (pool : Pool) (memory : UInt64) : Except Err UInt64 :=
  let (found, size) := RadosIo.stat pool .client nextIdKey
  if found then
    match RadosIo.read pool .client nextIdKey size 0 with
    | .noSuchObject _ _ => .error .noSuchObject
    | .done value _ =>
      -- the field has room for eight bytes, the read stores `size`
      if 8 < value.length then .error .undefined
      else .ok (UInt64.ofNat (leNat (overwrite 0 (leBytes 8 memory.toNat) 0 value)))
  else .ok 1

/-- A running manager. `granting` is the id of a `mount` that has counted `next_id` up and not yet
    written it; the mutex keeps every other `mount` out meanwhile. -/
structure Manager where
  nextId : UInt64
  granting : Option UInt64
  deriving DecidableEq

structure System where
  pool : Pool
  manager : Option Manager
  /-- history: the ids of the replies, oldest first -/
  replies : List Int

def init : System := ⟨∅, none, []⟩

inductive Action where
  | start (memory : UInt64)
  | die
  /-- `mount` up to the write -/
  | grant
  /-- the write, and the reply -/
  | persist
  /-- the write throws -/
  | fail
  /-- `mount` when all ids are used up -/
  | refuse
  /-- the pool's other users -/
  | other (request : FileRequest)
  deriving DecidableEq

def persisted (pool : Pool) (nextId : UInt64) : Pool :=
  (RadosIo.write pool .client nextIdKey (leBytes 8 nextId.toNat) 0).2

def step (s : System) : Action → Option System
  | .start memory =>
    match s.manager, start s.pool memory with
    | none, .ok nextId => some { s with manager := some ⟨nextId, none⟩ }
    | _, _ => none
  | .die => s.manager.map fun _ => { s with manager := none }
  | .grant =>
    match s.manager with
    | some ⟨nextId, none⟩ =>
      if nextId.toNat < 1 <<< CLIENT_BITS then
        some { s with manager := some ⟨nextId + 1, some nextId⟩ }
      else none
    | _ => none
  | .persist =>
    match s.manager with
    | some ⟨nextId, some id⟩ =>
      some ⟨persisted s.pool nextId, some ⟨nextId, none⟩, s.replies ++ [(id.toNat : Int)]⟩
    | _ => none
  | .fail =>
    match s.manager with
    | some ⟨nextId, some _⟩ => some { s with manager := some ⟨nextId, none⟩ }
    | _ => none
  | .refuse =>
    match s.manager with
    | some ⟨nextId, none⟩ =>
      if nextId.toNat < 1 <<< CLIENT_BITS then none
      else some { s with replies := s.replies ++ [-1] }
    | _ => none
  | .other request =>
    if (request.category, request.key) = (.client, nextIdKey) then none
    else some { s with pool := request.perform s.pool }

theorem limit_eq : 1 <<< CLIENT_BITS = 16777216 := rfl

/-! ## The number in the pool -/

/-- The pool says that `n` is the next number. 1 is not written: it is what a manager starts with
    when there is no file. -/
def Counts (pool : Pool) (n : Nat) : Prop :=
  StoredAs pool .client nextIdKey (if n = 1 then none else some (leBytes 8 n))

variable {pool : Pool} {n : Nat} {s s' : System}

theorem counts_empty : Counts ∅ 1 := fun _ => AList.lookup_empty _

theorem overwrite_all {x value : Bytes} (h : x.length ≤ value.length) :
    overwrite 0 x 0 value = value := by
  simp [overwrite, List.drop_eq_nil_of_le h]

theorem Counts.persisted (h : Counts pool n) (nextId : UInt64) (hne : nextId.toNat ≠ 1) :
    Counts (persisted pool nextId) nextId.toNat := by
  have hvalue : leBytes 8 nextId.toNat ≠ [] := by
    intro hnil
    have := congrArg List.length hnil
    simp at this
  have hw := StoredAs.write h hvalue 0
  rw [overwrite_all (by split <;> simp)] at hw
  unfold Counts
  rw [if_neg hne]
  exact hw

theorem Counts.other (h : Counts pool n) {request : FileRequest}
    (hne : (request.category, request.key) ≠ (.client, nextIdKey)) :
    Counts (request.perform pool) n :=
  (frame_perform request.op).storedAs hne.symm h

/-- A manager that starts finds the number, and stores nothing outside its field. -/
theorem Counts.start (h : Counts pool n) (hn : n < 2 ^ 64) (memory : UInt64) :
    start pool memory = .ok (UInt64.ofNat n) := by
  unfold Counts at h
  unfold Session.start
  have hfound := StoredAs.found h
  have hsize := StoredAs.stat h
  by_cases h1 : n = 1
  · subst h1
    simp only [if_true, Option.isSome_none] at hfound
    simp [hfound]
  · rw [if_neg h1] at h hfound hsize
    have h8 : (8 : Nat) ≤ objSize := by
      rw [objSize_eq]
      decide
    have hlen : (leBytes 8 n).length = 8 := leBytes_length 8 n
    have hread := StoredAs.read h (by decide) h8
    rw [Option.getD_some, hlen] at hsize
    have hslice : slice (leBytes 8 n) 0 8 = leBytes 8 n := by
      simp [slice, List.take_of_length_le (le_of_eq hlen)]
    rw [headOf, hslice] at hread
    simp only [Option.isSome_some] at hfound
    simp only [hfound, hsize, hread, hlen, if_true, Nat.lt_irrefl, if_false]
    rw [overwrite_all (by simp), leNat_leBytes 8 n (by omega)]

/-! ## What a step does -/

inductive Moves (s : System) : Action → System → Prop
  | start {memory nextId : UInt64} (h : s.manager = none) (hid : start s.pool memory = .ok nextId) :
      Moves s (.start memory) { s with manager := some ⟨nextId, none⟩ }
  | die {m : Manager} (h : s.manager = some m) : Moves s .die { s with manager := none }
  | grant {nextId : UInt64} (h : s.manager = some ⟨nextId, none⟩)
      (hlt : nextId.toNat < 1 <<< CLIENT_BITS) :
      Moves s .grant { s with manager := some ⟨nextId + 1, some nextId⟩ }
  | persist {nextId id : UInt64} (h : s.manager = some ⟨nextId, some id⟩) :
      Moves s .persist
        ⟨persisted s.pool nextId, some ⟨nextId, none⟩, s.replies ++ [(id.toNat : Int)]⟩
  | fail {nextId id : UInt64} (h : s.manager = some ⟨nextId, some id⟩) :
      Moves s .fail { s with manager := some ⟨nextId, none⟩ }
  | refuse {nextId : UInt64} (h : s.manager = some ⟨nextId, none⟩)
      (hle : 1 <<< CLIENT_BITS ≤ nextId.toNat) :
      Moves s .refuse { s with replies := s.replies ++ [-1] }
  | other {request : FileRequest} (hne : (request.category, request.key) ≠ (.client, nextIdKey)) :
      Moves s (.other request) { s with pool := request.perform s.pool }

theorem moves_of_step {a : Action} (h : step s a = some s') : Moves s a s' := by
  cases a with
  | start memory =>
      simp only [step] at h
      split at h
      · rename_i nextId hm hid
        cases h
        exact .start hm hid
      · cases h
  | die =>
      obtain ⟨m, hm, rfl⟩ := Option.map_eq_some_iff.mp h
      exact .die hm
  | grant =>
      simp only [step] at h
      split at h
      · rename_i nextId hm
        split at h
        · rename_i hlt
          cases h
          exact .grant hm hlt
        · cases h
      · cases h
  | persist =>
      simp only [step] at h
      split at h
      · rename_i nextId id hm
        cases h
        exact .persist hm
      · cases h
  | fail =>
      simp only [step] at h
      split at h
      · rename_i nextId id hm
        cases h
        exact .fail hm
      · cases h
  | refuse =>
      simp only [step] at h
      split at h
      · rename_i nextId hm
        split at h
        · cases h
        · rename_i hlt
          cases h
          exact .refuse hm (Nat.le_of_not_lt hlt)
      · cases h
  | other request =>
      simp only [step] at h
      split at h
      · cases h
      · rename_i hne
        cases h
        exact .other hne

theorem toNat_next {x : UInt64} (h : x.toNat < 1 <<< CLIENT_BITS) :
    (x + 1).toNat = x.toNat + 1 := by
  rw [limit_eq] at h
  rw [UInt64.toNat_add]
  exact Nat.mod_eq_of_lt (by show x.toNat + 1 < _; omega)

theorem toNat_counted (h : n ≤ 1 <<< CLIENT_BITS) : (UInt64.ofNat n).toNat = n := by
  rw [limit_eq] at h
  rw [UInt64.toNat_ofNat', Nat.mod_eq_of_lt]
  omega

/-! ## Every run -/

/-- The pool is ahead of every id given away, and a running manager is not behind the pool. -/
structure Ahead (s : System) (n : Nat) : Prop where
  one_le : 1 ≤ n
  limit : n ≤ 1 <<< CLIENT_BITS
  counts : Counts s.pool n
  given : ∀ id ∈ s.replies, id = -1 ∨ (1 ≤ id ∧ id < n)
  sorted : (s.replies.filter (0 ≤ ·)).Pairwise (· < ·)
  running : ∀ m, s.manager = some m → n ≤ m.nextId.toNat ∧ m.nextId.toNat ≤ 1 <<< CLIENT_BITS
  granting : ∀ nextId id, s.manager = some ⟨nextId, some id⟩ →
    n ≤ id.toNat ∧ id.toNat + 1 = nextId.toNat

theorem ahead_init : Ahead init 1 where
  one_le := Nat.le_refl 1
  limit := by decide
  counts := counts_empty
  given := fun _ h => (nomatch h)
  sorted := List.Pairwise.nil
  running := fun _ h => (nomatch h)
  granting := fun _ _ h => (nomatch h)

/-- A manager that starts has the number of the pool. -/
theorem Ahead.starts (h : Ahead s n) (memory : UInt64) :
    start s.pool memory = .ok (UInt64.ofNat n) :=
  h.counts.start (by have := h.limit; rw [limit_eq] at this; omega) memory

/-- What the next reply adds is above all the others. -/
theorem Ahead.replies (h : Ahead s n) {id : Nat} (hid : n ≤ id) :
    (∀ x ∈ s.replies ++ [(id : Int)], x = -1 ∨ (1 ≤ x ∧ x < (id + 1 : Nat))) ∧
      ((s.replies ++ [(id : Int)]).filter (0 ≤ ·)).Pairwise (· < ·) := by
  have hone := h.one_le
  constructor
  · intro x hx
    rcases List.mem_append.mp hx with hx | hx
    · exact (h.given x hx).imp_right fun hx => ⟨hx.1, by omega⟩
    · rw [List.mem_singleton.mp hx]
      exact Or.inr ⟨by omega, by omega⟩
  · rw [List.filter_append, List.pairwise_append]
    refine ⟨h.sorted, (List.pairwise_singleton _ _).filter _, fun x hx y hy => ?_⟩
    obtain ⟨hx, hx0⟩ := List.mem_filter.mp hx
    have hx0 : 0 ≤ x := of_decide_eq_true hx0
    rw [List.mem_singleton.mp (List.mem_filter.mp hy).1]
    rcases h.given x hx with rfl | hx
    · omega
    · omega

theorem ahead_step {a : Action} (h : Ahead s n) (hs : step s a = some s') :
    ∃ n', Ahead s' n' := by
  have hone := h.one_le
  cases moves_of_step hs with
  | @start memory nextId hm hid =>
      rw [h.starts] at hid
      cases hid
      refine ⟨n, hone, h.limit, h.counts, h.given, h.sorted, ?_, fun _ _ h => (nomatch h)⟩
      rintro m ⟨⟩
      dsimp only
      rw [toNat_counted h.limit]
      exact ⟨Nat.le_refl n, h.limit⟩
  | die hm =>
      exact ⟨n, hone, h.limit, h.counts, h.given, h.sorted, fun _ h => (nomatch h),
        fun _ _ h => (nomatch h)⟩
  | @grant nextId hm hlt =>
      have hle := (h.running _ hm).1
      have hnext := toNat_next hlt
      dsimp only at hle
      refine ⟨n, hone, h.limit, h.counts, h.given, h.sorted, ?_, ?_⟩
      · rintro m ⟨⟩
        dsimp only
        exact ⟨by omega, by omega⟩
      · rintro _ _ ⟨⟩
        exact ⟨hle, hnext.symm⟩
  | @persist nextId id hm =>
      obtain ⟨hid, hsucc⟩ := h.granting _ _ hm
      have hmax := (h.running _ hm).2
      dsimp only at hmax
      obtain ⟨hgiven, hsorted⟩ := h.replies hid
      rw [hsucc] at hgiven
      refine ⟨nextId.toNat, by omega, hmax, h.counts.persisted _ (by omega), hgiven, hsorted, ?_,
        fun _ _ h => (nomatch h)⟩
      rintro m ⟨⟩
      exact ⟨Nat.le_refl _, hmax⟩
  | fail hm =>
      have hle := h.running _ hm
      refine ⟨n, hone, h.limit, h.counts, h.given, h.sorted, ?_, fun _ _ h => (nomatch h)⟩
      rintro m ⟨⟩
      exact hle
  | refuse hm hle =>
      refine ⟨n, hone, h.limit, h.counts, ?_, by simpa using h.sorted, h.running, h.granting⟩
      intro x hx
      rcases List.mem_append.mp hx with hx | hx
      · exact h.given x hx
      · exact Or.inl (List.mem_singleton.mp hx)
  | other hne =>
      exact ⟨n, hone, h.limit, h.counts.other hne, h.given, h.sorted, h.running, h.granting⟩

/-- Whatever happens to the managers and to the rest of the pool, a manager can be started, no id is
    given away twice, and each is at least 1 and has `CLIENT_BITS` bits. -/
theorem client_ids_unique (acts : List Action) (s : System) (hrun : run step init acts = some s) :
    (∀ memory, ∃ nextId, start s.pool memory = .ok nextId) ∧
      (∀ id ∈ s.replies, id = -1 ∨ (1 ≤ id ∧ id < 2 ^ CLIENT_BITS)) ∧
      (s.replies.filter (0 ≤ ·)).Pairwise (· < ·) := by
  obtain ⟨n, h⟩ : ∃ n, Ahead s n :=
    run_invariant (I := fun s => ∃ n, Ahead s n) (fun _ _ _ ⟨_, h⟩ => ahead_step h)
      ⟨1, ahead_init⟩ hrun
  refine ⟨fun memory => ⟨_, h.starts memory⟩, fun id hid => ?_, h.sorted⟩
  have hlimit := h.limit
  rw [limit_eq] at hlimit
  refine (h.given id hid).imp_right fun h => ⟨h.1, ?_⟩
  show id < 16777216
  omega

/-- One mount, another manager, another mount. -/
def restarted : List Action := [.start 0, .grant, .persist, .die, .start 7, .grant, .persist]

theorem restarted_run :
    run step init restarted =
      some ⟨persisted (persisted ∅ 2) 3, some ⟨3, none⟩, [1, 2]⟩ := by
  have hfirst : start ∅ 0 = .ok 1 := counts_empty.start (by decide) 0
  have hsecond : start (persisted ∅ 2) 7 = .ok 2 :=
    (counts_empty.persisted 2 (by decide)).start (by decide) 7
  simp [run, restarted, step, init, hfirst, hsecond, CLIENT_BITS]

theorem client_ids_unique_restarted :
    ∃ s, run step init restarted = some s ∧ s.replies = [1, 2] ∧
      ((∀ memory, ∃ nextId, start s.pool memory = .ok nextId) ∧
        (∀ id ∈ s.replies, id = -1 ∨ (1 ≤ id ∧ id < 2 ^ CLIENT_BITS)) ∧
        (s.replies.filter (0 ≤ ·)).Pairwise (· < ·)) :=
  ⟨_, restarted_run, rfl, client_ids_unique restarted _ restarted_run⟩

/-! ## Runs that lose no `mount` -/

/-- No write fails, and no manager dies between counting up and writing. -/
def NoneLost (s : System) : Action → Prop
  | .fail => False
  | .die => ∀ nextId id, s.manager ≠ some ⟨nextId, some id⟩
  | _ => True

def given (n k : Nat) : List Int := (List.range' 1 n).map Nat.cast ++ List.replicate k (-1)

/-- `n` ids are given away, the first ones, and `k` refusals came after them. -/
structure InTurn (s : System) (n k : Nat) : Prop where
  counts : Counts s.pool (n + 1)
  limit : n + 1 ≤ 1 <<< CLIENT_BITS
  replies : s.replies = given n k
  last : 0 < k → n + 1 = 1 <<< CLIENT_BITS
  idle : ∀ nextId, s.manager = some ⟨nextId, none⟩ → nextId.toNat = n + 1
  granting : ∀ nextId id, s.manager = some ⟨nextId, some id⟩ →
    k = 0 ∧ id.toNat = n + 1 ∧ nextId.toNat = n + 2 ∧ n + 2 ≤ 1 <<< CLIENT_BITS

theorem inTurn_init : InTurn init 0 0 where
  counts := counts_empty
  limit := by decide
  replies := rfl
  last := fun h => absurd h (Nat.lt_irrefl 0)
  idle := fun _ h => (nomatch h)
  granting := fun _ _ h => (nomatch h)

theorem given_succ (n : Nat) : given n 0 ++ [((n + 1 : Nat) : Int)] = given (n + 1) 0 := by
  simp [given, List.range'_concat, Nat.add_comm]

theorem given_refused (n k : Nat) : given n k ++ [-1] = given n (k + 1) := by
  simp [given, List.replicate_succ']

theorem inTurn_step {a : Action} {k : Nat} (h : InTurn s n k) (hnone : NoneLost s a)
    (hs : step s a = some s') : ∃ n' k', InTurn s' n' k' := by
  have hlim := h.limit
  cases moves_of_step hs with
  | @start memory nextId hm hid =>
      rw [h.counts.start (by rw [limit_eq] at hlim; omega)] at hid
      cases hid
      refine ⟨n, k, h.counts, hlim, h.replies, h.last, ?_, fun _ _ h => (nomatch h)⟩
      rintro nextId ⟨⟩
      exact toNat_counted hlim
  | die hm =>
      exact ⟨n, k, h.counts, hlim, h.replies, h.last, fun _ h => (nomatch h),
        fun _ _ h => (nomatch h)⟩
  | @grant nextId hm hlt =>
      have hidle := h.idle _ hm
      have hnext := toNat_next hlt
      refine ⟨n, k, h.counts, hlim, h.replies, h.last, fun _ h => (nomatch h), ?_⟩
      rintro _ _ ⟨⟩
      refine ⟨?_, hidle, by omega, by omega⟩
      by_contra hk
      have := h.last (Nat.pos_of_ne_zero hk)
      omega
  | @persist nextId id hm =>
      obtain ⟨rfl, hid, hnext, hmax⟩ := h.granting _ _ hm
      have hcounts := h.counts.persisted nextId (by omega)
      rw [hnext] at hcounts
      refine ⟨n + 1, 0, hcounts, hmax, ?_, fun h => absurd h (Nat.lt_irrefl 0), ?_,
        fun _ _ h => (nomatch h)⟩
      · show s.replies ++ _ = _
        rw [h.replies, hid, given_succ]
      · rintro _ ⟨⟩
        exact hnext
  | fail hm => exact absurd hnone id
  | @refuse nextId hm hle =>
      have hidle := h.idle _ hm
      refine ⟨n, k + 1, h.counts, hlim, ?_, fun _ => by omega, h.idle, ?_⟩
      · show s.replies ++ _ = _
        rw [h.replies, given_refused]
      · intro nextId' id h'
        rw [hm] at h'
        cases h'
  | other hne =>
      exact ⟨n, k, h.counts.other hne, hlim, h.replies, h.last, h.idle, h.granting⟩

/-- Where no `mount` is lost, the clients of all the managers together are numbered 1, 2, 3 and on,
    and the first refusal comes when all numbers are given away. -/
theorem client_ids_in_turn (acts : List Action) (s : System)
    (hnone : StepsMeet step NoneLost init acts) (hrun : run step init acts = some s) :
    ∃ n k, s.replies = (List.range' 1 n).map Nat.cast ++ List.replicate k (-1) ∧
      n < 2 ^ CLIENT_BITS ∧ (0 < k → n + 1 = 2 ^ CLIENT_BITS) := by
  obtain ⟨n, k, h⟩ : ∃ n k, InTurn s n k :=
    run_invariant_of_stepsMeet (I := fun s => ∃ n k, InTurn s n k)
      (fun _ _ _ ⟨_, _, h⟩ => inTurn_step h) ⟨0, 0, inTurn_init⟩ hnone hrun
  exact ⟨n, k, h.replies, h.limit, h.last⟩

theorem client_ids_in_turn_restarted :
    ∃ s, run step init restarted = some s ∧
      ∃ n k, s.replies = (List.range' 1 n).map Nat.cast ++ List.replicate k (-1) ∧
        n < 2 ^ CLIENT_BITS ∧ (0 < k → n + 1 = 2 ^ CLIENT_BITS) := by
  refine ⟨_, restarted_run, client_ids_in_turn restarted _ ?_ restarted_run⟩
  have hfirst : start ∅ 0 = .ok 1 := counts_empty.start (by decide) 0
  simp [StepsMeet, restarted, step, init, NoneLost, hfirst, CLIENT_BITS]

end Nmfs.Session
