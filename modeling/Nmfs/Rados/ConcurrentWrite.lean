import Nmfs.Rados.FlatFile
import Nmfs.Lib.Run

/-
  `rpc_client::write` on one file, by many clients at once. The leader's `rpc_write` assigns the
  offset and the size; the client then runs `rados_io::write` on its own. An action is the number
  of the writer that takes its next step: its RPC, one `stat` of the backward search, one object
  write of `zerofill`, or one object write of the data.

  The `stat` and the `zerofill` are not one step. A writer that found the end of the file before
  another one stored its data there fills that data with zeros. `concurrent_writes_iff`: this is
  the only way to lose a byte. Calls that do not overlap are `rados_io::write` as a whole.
-/

namespace Nmfs.RpcClient

open Lib RadosIo

/-- One call of `rpc_client::write`; `size` is the length of the buffer. -/
structure WriteRequest where
  buffer : Bytes
  offset : Nat
  /-- `flags & O_APPEND` -/
  append : Bool
  deriving DecidableEq, Repr

/-- What the call does next. -/
inductive Phase where
  | rpc
  | search (offset prevObjNum : Nat)
  | zerofill (offset : Nat) (rest : List Segment)
  | data (offset : Nat) (rest : List Segment) (sum : Nat)
  deriving DecidableEq, Repr

structure Writer where
  request : WriteRequest
  phase : Phase
  deriving DecidableEq, Repr

structure SharedFile where
  /-- the size of the leader's inode -/
  size : Nat
  pool : Pool
  writers : List Writer
  deriving DecidableEq

def start (size : Nat) (pool : Pool) (requests : List WriteRequest) : SharedFile :=
  ⟨size, pool, requests.map fun r => ⟨r, .rpc⟩⟩

/-- `rpc_server::rpc_write`: the offset it answers, and the size it leaves. -/
def rpcWrite (size : Nat) (request : WriteRequest) : Nat × Nat :=
  let offset := if request.append then size else request.offset
  let stop := offset + request.buffer.length
  (offset, if size < stop then stop else size)

/-- After the search of `rados_io::write`. -/
def startWrite (request : WriteRequest) (offset lbFileSize : Nat) : Phase :=
  if lbFileSize < offset then .zerofill offset (segments objSize lbFileSize (offset - lbFileSize))
  else .data offset (segments objSize offset request.buffer.length) 0

/-- One object call of `rados_io::write`. -/
def radosStep (key : Str) (pool : Pool) (request : WriteRequest) : Phase → Option (Pool × Phase)
  | .rpc => none
  | .search offset num =>
    match Ioctx.stat pool (objKey .data key num), num with
    | some size, _ => some (pool, startWrite request offset (num * objSize + size))
    | none, 0 => some (pool, startWrite request offset 0)
    | none, num + 1 => some (pool, .search offset num)
  | .zerofill offset [] =>
    some (pool, .data offset (segments objSize offset request.buffer.length) 0)
  | .zerofill offset (s :: rest) =>
    some (Ioctx.write pool (objKey .data key s.num) (List.replicate s.len 0) s.off,
      .zerofill offset rest)
  | .data _ [] _ => none
  | .data offset (s :: rest) sum =>
    some (Ioctx.write pool (objKey .data key s.num) ((request.buffer.drop sum).take s.len) s.off,
      .data offset rest (sum + s.len))

/-- Writer `n` takes its next step. -/
def step (key : Str) (file : SharedFile) (n : Nat) : Option SharedFile :=
  match file.writers[n]? with
  | none => none
  | some w =>
    if w.phase = .rpc then
      let (offset, size) := rpcWrite file.size w.request
      some ⟨size, file.pool, file.writers.set n ⟨w.request, .search offset (offset / objSize)⟩⟩
    else
      (radosStep key file.pool w.request w.phase).map fun (pool, phase) =>
        ⟨file.size, pool, file.writers.set n ⟨w.request, phase⟩⟩

/-! ## A writer alone -/

/-- The object calls of one writer, with nobody in between. -/
def aloneStep (key : Str) (request : WriteRequest) (s : Pool × Phase) (_ : Unit) :
    Option (Pool × Phase) :=
  radosStep key s.1 request s.2

theorem alone_search (key : Str) (request : WriteRequest) (pool : Pool) (offset num : Nat) :
    ∃ us, run (aloneStep key request) (pool, .search offset num) us =
      some (pool, startWrite request offset ((lbFileSize pool .data key num).getD 0)) := by
  induction num with
  | zero =>
      refine ⟨[()], run_cons.mpr ⟨_, ?_, rfl⟩⟩
      simp only [aloneStep, radosStep, lbFileSize]
      cases Ioctx.stat pool (objKey .data key 0) <;> simp
  | succ num ih =>
      cases hs : Ioctx.stat pool (objKey .data key (num + 1)) with
      | some size =>
          refine ⟨[()], run_cons.mpr ⟨_, ?_, rfl⟩⟩
          simp only [aloneStep, radosStep, lbFileSize, hs, Option.getD_some]
      | none =>
          obtain ⟨us, hus⟩ := ih
          refine ⟨() :: us, run_cons.mpr ⟨(pool, .search offset num), ?_, ?_⟩⟩
          · simp only [aloneStep, radosStep, hs]
          · simp only [lbFileSize, hs]
            exact hus

theorem alone_data (key : Str) (request : WriteRequest) (offset : Nat) (segs : List Segment)
    (pool : Pool) (sum : Nat) :
    ∃ us, run (aloneStep key request) (pool, .data offset segs sum) us =
      some ((writeLoop pool .data key request.buffer segs sum).2,
        .data offset [] (writeLoop pool .data key request.buffer segs sum).1) := by
  induction segs generalizing pool sum with
  | nil => exact ⟨[], rfl⟩
  | cons s rest ih =>
      obtain ⟨us, hus⟩ := ih _ _
      exact ⟨() :: us, run_cons.mpr ⟨_, rfl, hus⟩⟩

theorem alone_zerofill (key : Str) (request : WriteRequest) (offset : Nat) (segs : List Segment)
    (pool : Pool) :
    ∃ us, run (aloneStep key request) (pool, .zerofill offset segs) us =
      some (zerofillLoop pool .data key segs,
        .data offset (segments objSize offset request.buffer.length) 0) := by
  induction segs generalizing pool with
  | nil => exact ⟨[()], rfl⟩
  | cons s rest ih =>
      obtain ⟨us, hus⟩ := ih _
      exact ⟨() :: us, run_cons.mpr ⟨_, rfl, hus⟩⟩

/-- Without interleaving, the object calls add up to `rados_io::write`. -/
theorem alone_write (key : Str) (request : WriteRequest) (pool : Pool) (offset : Nat) :
    ∃ us, run (aloneStep key request) (pool, .search offset (offset / objSize)) us =
      some ((RadosIo.write pool .data key request.buffer offset).2,
        .data offset [] (RadosIo.write pool .data key request.buffer offset).1) := by
  obtain ⟨us, hus⟩ := alone_search key request pool offset (offset / objSize)
  simp only [RadosIo.write]
  generalize (lbFileSize pool .data key (offset / objSize)).getD 0 = lb at *
  unfold startWrite at hus
  by_cases h : lb < offset
  · rw [if_pos h] at hus ⊢
    obtain ⟨vs, hvs⟩ := alone_zerofill key request offset (segments objSize lb (offset - lb)) pool
    obtain ⟨ws, hws⟩ := alone_data key request offset
      (segments objSize offset request.buffer.length) (zerofill pool .data key (offset - lb) lb) 0
    exact ⟨us ++ (vs ++ ws), run_append.mpr ⟨_, hus, run_append.mpr ⟨_, hvs, hws⟩⟩⟩
  · rw [if_neg h] at hus ⊢
    obtain ⟨ws, hws⟩ := alone_data key request offset
      (segments objSize offset request.buffer.length) pool 0
    exact ⟨us ++ ws, run_append.mpr ⟨_, hus, hws⟩⟩

/-! ## What has been assigned and stored -/

/-- The offset the leader assigned. -/
def Phase.offset? : Phase → Option Nat
  | .rpc => none
  | .search offset _ => some offset
  | .zerofill offset _ => some offset
  | .data offset _ _ => some offset

/-- How many bytes of the buffer are stored. -/
def Phase.stored : Phase → Nat
  | .data _ _ sum => sum
  | _ => 0

def Phase.finished : Phase → Bool
  | .data _ [] _ => true
  | _ => false

/-- All calls have returned. -/
def Finished (file : SharedFile) : Prop := ∀ w ∈ file.writers, w.phase.finished = true

/-- No position lies in the assigned ranges of two writers. -/
def DisjointRanges (file : SharedFile) : Prop :=
  ∀ (m n : Nat) (w v : Writer) (o q : Nat), m ≠ n → file.writers[m]? = some w → file.writers[n]? = some v →
    w.phase.offset? = some o → v.phase.offset? = some q →
    ∀ p, ¬ (o ≤ p ∧ p < o + w.request.buffer.length ∧ q ≤ p ∧ p < q + v.request.buffer.length)

/-- The byte at position `p` of the file. -/
def byteAt (key : Str) (pool : Pool) (p : Nat) : Option UInt8 :=
  blockAt objSize (blocks pool .data key) p

/-- Writer `w` has its first `k` bytes in the file. -/
def HasBytes (key : Str) (pool : Pool) (w : Writer) (k : Nat) : Prop :=
  ∀ o, w.phase.offset? = some o → ∀ j, j < k → byteAt key pool (o + j) = w.request.buffer[j]?

/-- Every range holds the bytes its writer sent. -/
def AllStored (key : Str) (file : SharedFile) : Prop :=
  ∀ w ∈ file.writers, HasBytes key file.pool w w.request.buffer.length

/-- The next step of writer `n` fills with zeros a byte that some writer has stored, and that is
    not zero. -/
def ZeroesStored (file : SharedFile) (n : Nat) : Prop :=
  ∃ v o s rest, file.writers[n]? = some v ∧ v.phase = .zerofill o (s :: rest) ∧
    ∃ w ∈ file.writers, ∃ q j b, w.phase.offset? = some q ∧ j < w.phase.stored ∧
      w.request.buffer[j]? = some b ∧ b ≠ 0 ∧
      s.num * objSize + s.off ≤ q + j ∧ q + j < s.num * objSize + s.off + s.len

/-! ## One writer after the other -/

/-- `rpc_client::write` as a whole: the size at the leader and the data. -/
def writeWhole (key : Str) (s : Nat × Pool) (request : WriteRequest) : Nat × Pool :=
  ((rpcWrite s.1 request).2,
    (RadosIo.write s.2 .data key request.buffer (rpcWrite s.1 request).1).2)

/-- Writer `n` takes the steps that it takes alone. -/
theorem run_alone {key : Str} {request : WriteRequest} {pool pool' : Pool} {phase phase' : Phase}
    {ws : List Writer} {n : Nat} (size : Nat) (hn : n < ws.length) {us : List Unit}
    (hr : run (aloneStep key request) (pool, phase) us = some (pool', phase')) :
    run (step key) ⟨size, pool, ws.set n ⟨request, phase⟩⟩ (us.map fun _ => n) =
      some ⟨size, pool', ws.set n ⟨request, phase'⟩⟩ := by
  induction us generalizing pool phase with
  | nil =>
      cases hr
      rfl
  | cons u us ih =>
      obtain ⟨⟨pool₁, phase₁⟩, hs, hrest⟩ := run_cons.mp hr
      have hrados : radosStep key pool request phase = some (pool₁, phase₁) := hs
      have hrpc : phase ≠ .rpc := by
        rintro rfl
        cases hrados
      refine run_cons.mpr ⟨⟨size, pool₁, ws.set n ⟨request, phase₁⟩⟩, ?_, ih hrest⟩
      unfold step
      rw [List.getElem?_set_self hn]
      dsimp only
      rw [if_neg hrpc, hrados, Option.map_some, List.set_set]

theorem serve_alone (key : Str) {request : WriteRequest} {ws : List Writer} {n : Nat} (size : Nat)
    (pool : Pool) (hn : ws[n]? = some ⟨request, .rpc⟩) :
    ∃ as phase, phase.finished = true ∧ run (step key) ⟨size, pool, ws⟩ as =
      some ⟨(writeWhole key (size, pool) request).1, (writeWhole key (size, pool) request).2,
        ws.set n ⟨request, phase⟩⟩ := by
  obtain ⟨us, hus⟩ := alone_write key request pool (rpcWrite size request).1
  refine ⟨n :: us.map fun _ => n, _, rfl, run_cons.mpr ⟨_, ?_, run_alone _
    (List.getElem?_eq_some_iff.mp hn).1 hus⟩⟩
  unfold step
  rw [hn]
  rfl

/-- Calls that do not overlap do what they do as a whole, one after the other. -/
theorem one_after_the_other (key : Str) (size : Nat) (pool : Pool) (requests : List WriteRequest) :
    ∃ as file, run (step key) (start size pool requests) as = some file ∧ Finished file ∧
      (file.size, file.pool) = requests.foldl (writeWhole key) (size, pool) := by
  suffices h : ∀ done : List Writer, (∀ w ∈ done, w.phase.finished = true) →
      ∃ as file, run (step key) ⟨size, pool, done ++ requests.map fun r => ⟨r, .rpc⟩⟩ as =
        some file ∧ Finished file ∧
        (file.size, file.pool) = requests.foldl (writeWhole key) (size, pool) from
    h [] fun w hw => nomatch hw
  induction requests generalizing size pool with
  | nil =>
      intro done hdone
      refine ⟨[], _, rfl, fun w hw => hdone w ?_, rfl⟩
      simpa using hw
  | cons r requests ih =>
      intro done hdone
      have hnext : (done ++ (r :: requests).map fun r => (⟨r, .rpc⟩ : Writer))[done.length]? =
          some ⟨r, .rpc⟩ := by
        simp
      obtain ⟨as, phase, hfinished, hr⟩ := serve_alone key size pool hnext
      have hset : (done ++ (r :: requests).map fun r => (⟨r, .rpc⟩ : Writer)).set done.length
          ⟨r, phase⟩ = (done ++ [⟨r, phase⟩]) ++ requests.map fun r => ⟨r, .rpc⟩ := by
        simp
      rw [hset] at hr
      obtain ⟨bs, file, hrest, hall, heq⟩ := ih (writeWhole key (size, pool) r).1
        (writeWhole key (size, pool) r).2 (done ++ [⟨r, phase⟩]) (by
          intro w hw
          rcases List.mem_append.mp hw with hw | hw
          · exact hdone w hw
          · rw [List.mem_singleton.mp hw]
            exact hfinished)
      exact ⟨as ++ bs, file, run_append.mpr ⟨_, hr, hrest⟩, hall, heq⟩

/-! ## What a step does -/

/-- The pieces still to write cover the rest of the hole, or the rest of the range. -/
def Writer.WellPhased (w : Writer) : Prop :=
  match w.phase with
  | .rpc => True
  | .search _ _ => True
  | .zerofill offset rest => ∃ cursor, Tiles objSize cursor offset rest
  | .data offset rest sum =>
    sum ≤ w.request.buffer.length ∧
      Tiles objSize (offset + sum) (offset + w.request.buffer.length) rest

theorem wellPhased_data (request : WriteRequest) (offset : Nat) :
    (Writer.mk request
      (.data offset (segments objSize offset request.buffer.length) 0)).WellPhased :=
  ⟨Nat.zero_le _, segments_tiles objSize_pos _ _⟩

theorem wellPhased_startWrite (request : WriteRequest) (offset lb : Nat) :
    (Writer.mk request (startWrite request offset lb)).WellPhased := by
  unfold startWrite
  split
  · have h := segments_tiles objSize_pos lb (offset - lb)
    rw [Nat.add_sub_cancel' (by omega)] at h
    exact ⟨lb, h⟩
  · exact wellPhased_data request offset

theorem offset_startWrite (request : WriteRequest) (offset lb : Nat) :
    (startWrite request offset lb).offset? = some offset := by
  unfold startWrite
  split <;> rfl

theorem stored_startWrite (request : WriteRequest) (offset lb : Nat) :
    (startWrite request offset lb).stored = 0 := by
  unfold startWrite
  split <;> rfl

/-- How a step changes the pool, and how much is stored after it. -/
inductive Effect (key : Str) (pool : Pool) (w : Writer) : Pool → Phase → Prop
  | quiet {phase : Phase} (hw : ∀ o s rest, w.phase ≠ .zerofill o (s :: rest))
      (hs : phase.stored = w.phase.stored) : Effect key pool w pool phase
  | zero {o : Nat} {s : Segment} {rest : List Segment} {phase : Phase}
      (hw : w.phase = .zerofill o (s :: rest)) (hb : s.off + s.len ≤ objSize)
      (hs : phase.stored = 0) :
      Effect key pool w
        (Ioctx.write pool (objKey .data key s.num) (List.replicate s.len 0) s.off) phase
  | data {o sum : Nat} {s : Segment} {rest : List Segment} {phase : Phase}
      (hw : w.phase = .data o (s :: rest) sum) (hb : s.off + s.len ≤ objSize)
      (hpos : s.num * objSize + s.off = o + sum) (hlen : sum + s.len ≤ w.request.buffer.length)
      (hs : phase.stored = sum + s.len) :
      Effect key pool w
        (Ioctx.write pool (objKey .data key s.num) ((w.request.buffer.drop sum).take s.len) s.off)
        phase

variable {key : Str} {file file' : SharedFile} {pool pool' : Pool} {w : Writer} {phase : Phase}
  {n : Nat}

theorem radosStep_effect (hw : w.WellPhased)
    (h : radosStep key pool w.request w.phase = some (pool', phase)) :
    (Writer.mk w.request phase).WellPhased ∧ phase.offset? = w.phase.offset? ∧
      Effect key pool w pool' phase := by
  obtain ⟨request, ph⟩ := w
  cases ph with
  | rpc => simp [radosStep] at h
  | search offset num =>
      cases hs : Ioctx.stat pool (objKey .data key num) with
      | some size =>
          simp only [radosStep, hs, Option.some.injEq, Prod.mk.injEq] at h
          obtain ⟨rfl, rfl⟩ := h
          exact ⟨wellPhased_startWrite _ _ _, offset_startWrite _ _ _,
            .quiet (by simp) (stored_startWrite _ _ _)⟩
      | none =>
          cases num with
          | zero =>
              simp only [radosStep, hs, Option.some.injEq, Prod.mk.injEq] at h
              obtain ⟨rfl, rfl⟩ := h
              exact ⟨wellPhased_startWrite _ _ _, offset_startWrite _ _ _,
                .quiet (by simp) (stored_startWrite _ _ _)⟩
          | succ num =>
              simp only [radosStep, hs, Option.some.injEq, Prod.mk.injEq] at h
              obtain ⟨rfl, rfl⟩ := h
              exact ⟨trivial, rfl, .quiet (by simp) rfl⟩
  | zerofill offset rest =>
      cases rest with
      | nil =>
          simp only [radosStep, Option.some.injEq, Prod.mk.injEq] at h
          obtain ⟨rfl, rfl⟩ := h
          exact ⟨wellPhased_data _ _, rfl, .quiet (by simp) rfl⟩
      | cons s rest =>
          simp only [radosStep, Option.some.injEq, Prod.mk.injEq] at h
          obtain ⟨rfl, rfl⟩ := h
          obtain ⟨cursor, -, hb, -, hrest⟩ := hw
          exact ⟨⟨_, hrest⟩, rfl, .zero rfl hb rfl⟩
  | data offset rest sum =>
      cases rest with
      | nil => simp [radosStep] at h
      | cons s rest =>
          simp only [radosStep, Option.some.injEq, Prod.mk.injEq] at h
          obtain ⟨rfl, rfl⟩ := h
          obtain ⟨hsum, hpos, hb, hstop, hrest⟩ := hw
          dsimp only at hstop hrest
          have hlen : sum + s.len ≤ request.buffer.length := by omega
          rw [Nat.add_assoc] at hrest
          exact ⟨⟨hlen, hrest⟩, rfl, .data rfl hb hpos hlen rfl⟩

def WellPhasedAll (file : SharedFile) : Prop := ∀ w ∈ file.writers, w.WellPhased

/-- One step moves one writer on, which keeps its offset once it has one. -/
theorem step_effect (hw : WellPhasedAll file) (h : step key file n = some file') :
    ∃ w phase, file.writers[n]? = some w ∧
      file'.writers = file.writers.set n ⟨w.request, phase⟩ ∧
      (Writer.mk w.request phase).WellPhased ∧
      (∀ o, w.phase.offset? = some o → phase.offset? = some o) ∧
      Effect key file.pool w file'.pool phase := by
  unfold step at h
  split at h
  · cases h
  · rename_i w hn
    split at h
    · rename_i hrpc
      cases h
      refine ⟨w, _, hn, rfl, trivial, ?_, .quiet ?_ ?_⟩
      · rw [hrpc]
        intro o ho
        cases ho
      · simp [hrpc]
      · rw [hrpc]
        rfl
    · rw [Option.map_eq_some_iff] at h
      obtain ⟨⟨pool', phase⟩, hr, rfl⟩ := h
      obtain ⟨hwp, hoff, heff⟩ := radosStep_effect (hw w (List.mem_of_getElem? hn)) hr
      exact ⟨w, phase, hn, rfl, hwp, fun o ho => hoff.trans ho, heff⟩

theorem wellPhased_step (hw : WellPhasedAll file) (h : step key file n = some file') :
    WellPhasedAll file' := by
  obtain ⟨w, phase, hn, hws, hwp, -, -⟩ := step_effect hw h
  intro v hv
  rw [hws] at hv
  rcases List.mem_or_eq_of_mem_set hv with hv | rfl
  · exact hw v hv
  · exact hwp

/-- A step changes no request, takes no offset back and unstores no byte. -/
theorem step_writer (hw : WellPhasedAll file) (h : step key file n = some file') {m : Nat}
    {v : Writer} (hm : file.writers[m]? = some v) :
    ∃ v', file'.writers[m]? = some v' ∧ v'.request = v.request ∧
      (∀ o, v.phase.offset? = some o → v'.phase.offset? = some o) ∧
      v.phase.stored ≤ v'.phase.stored := by
  obtain ⟨w, phase, hn, hws, -, hoff, heff⟩ := step_effect hw h
  rw [hws]
  by_cases hmn : n = m
  · subst hmn
    rw [hn] at hm
    cases hm
    refine ⟨⟨v.request, phase⟩, by rw [List.getElem?_set_self', hn]; rfl, rfl, hoff, ?_⟩
    generalize file'.pool = pool' at heff
    cases heff with
    | quiet _ hs => simp only [hs, Nat.le_refl]
    | zero hw' _ _ => simp [hw', Phase.stored]
    | data hw' _ _ _ hs =>
        simp only [hs]
        rw [hw', Phase.stored]
        omega
  · exact ⟨v, by rw [List.getElem?_set_ne hmn, hm], rfl, fun o ho => ho, Nat.le_refl _⟩

/-- Ranges that are disjoint at the end were so all along. -/
theorem disjointRanges_back (hw : WellPhasedAll file) (h : step key file n = some file')
    (hd : DisjointRanges file') : DisjointRanges file := by
  intro m k w v o q hne hm hk ho hq
  obtain ⟨w', hm', hrw, how, -⟩ := step_writer hw h hm
  obtain ⟨v', hk', hrv, hov, -⟩ := step_writer hw h hk
  have := hd m k w' v' o q hne hm' hk' (how o ho) (hov q hq)
  rwa [hrw, hrv] at this

/-! ## What a step does to a stored byte -/

theorem byteAt_write (key : Str) (pool : Pool) (num : Nat) {off : Nat} {piece : Bytes}
    (hb : off + piece.length ≤ objSize) (p : Nat) :
    (∀ j, j < piece.length → p = num * objSize + off + j →
        byteAt key (Ioctx.write pool (objKey .data key num) piece off) p = piece[j]?) ∧
      (p < num * objSize + off ∨ num * objSize + off + piece.length ≤ p →
        ∀ a, byteAt key pool p = some a →
          byteAt key (Ioctx.write pool (objKey .data key num) piece off) p = some a) := by
  unfold byteAt
  rw [blocks_write]
  exact blockAt_update (blocks pool .data key) 0 hb p

/-- Byte `j` of writer `m` is stored, and the file holds `a` there. -/
def StoredByte (key : Str) (file : SharedFile) (m j : Nat) (b a : UInt8) : Prop :=
  ∃ w o, file.writers[m]? = some w ∧ w.phase.offset? = some o ∧ j < w.phase.stored ∧
    w.request.buffer[j]? = some b ∧ byteAt key file.pool (o + j) = some a

/-- The next step of writer `n` fills byte `j` of writer `m` with zeros. -/
def ZeroesByte (file : SharedFile) (n m j : Nat) : Prop :=
  ∃ v o s rest w q, file.writers[n]? = some v ∧ v.phase = .zerofill o (s :: rest) ∧
    file.writers[m]? = some w ∧ w.phase.offset? = some q ∧
    s.num * objSize + s.off ≤ q + j ∧ q + j < s.num * objSize + s.off + s.len

/-- A stored byte is kept by every step except a `zerofill` over it, which makes it zero. -/
theorem step_storedByte (hw : WellPhasedAll file) (hd : DisjointRanges file)
    (h : step key file n = some file') {m j : Nat} {b a : UInt8}
    (hb : StoredByte key file m j b a) :
    (¬ ZeroesByte file n m j → StoredByte key file' m j b a) ∧
      (ZeroesByte file n m j → StoredByte key file' m j b 0) := by
  obtain ⟨v, o, hm, ho, hj, hbuf, hat⟩ := hb
  obtain ⟨v', hm', hreq, hoff, hst⟩ := step_writer hw h hm
  -- the rest is about the byte at `o + j` in the new pool
  have moved : ∀ a', byteAt key file'.pool (o + j) = some a' → StoredByte key file' m j b a' :=
    fun a' ha => ⟨v', o, hm', hoff o ho, Nat.lt_of_lt_of_le hj hst, by rwa [hreq], ha⟩
  have hjlen : j < v.request.buffer.length := (List.getElem?_eq_some_iff.mp hbuf).1
  obtain ⟨w, phase, hn, -, -, -, heff⟩ := step_effect hw h
  generalize file'.pool = pool' at heff moved
  cases heff with
  | quiet hq hs =>
      refine ⟨fun _ => moved a hat, ?_⟩
      rintro ⟨w', q, s, rest, v'', q', hn', hz, -⟩
      rw [hn] at hn'
      cases hn'
      exact absurd hz (hq _ _ _)
  | zero hw' hseg hs =>
      rename_i q s rest
      have hlen : (List.replicate s.len (0 : UInt8)).length = s.len := List.length_replicate
      obtain ⟨hin, hout⟩ := byteAt_write key file.pool s.num
        (by rw [hlen]; exact hseg : s.off + (List.replicate s.len (0 : UInt8)).length ≤ objSize)
        (o + j)
      rw [hlen] at hin hout
      constructor
      · intro hz
        apply moved
        apply hout _ a hat
        by_contra hcov
        exact hz ⟨w, q, s, rest, v, o, hn, hw', hm, ho, by omega, by omega⟩
      · rintro ⟨w', q', s', rest', v'', o', hn', hz, hm', ho', hlo, hhi⟩
        rw [hn] at hn'
        cases hn'
        rw [hw'] at hz
        cases hz
        rw [hm] at hm'
        cases hm'
        rw [ho] at ho'
        cases ho'
        apply moved
        rw [hin (o + j - (s.num * objSize + s.off)) (by omega) (by omega),
          List.getElem?_replicate_of_lt (by omega)]
  | data hw' hseg hpos hlen hs =>
      rename_i q sum s rest
      have hpiece : ((w.request.buffer.drop sum).take s.len).length = s.len := by
        rw [List.length_take, List.length_drop]
        omega
      have hq : w.phase.offset? = some q := by
        rw [hw']
        rfl
      obtain ⟨-, hout⟩ := byteAt_write key file.pool s.num
        (by rw [hpiece]; exact hseg :
          s.off + ((w.request.buffer.drop sum).take s.len).length ≤ objSize) (o + j)
      rw [hpiece] at hout
      constructor
      · intro _
        apply moved
        apply hout _ a hat
        by_cases hmn : m = n
        · -- a writer stores its own bytes upwards
          subst hmn
          rw [hn] at hm
          cases hm
          rw [hw'] at ho hj
          cases ho
          simp only [Phase.stored] at hj
          omega
        · have := hd m n v w o q hmn hm hn ho hq (o + j)
          omega
      · rintro ⟨w', q', s', rest', v'', o', hn', hz, -⟩
        rw [hn] at hn'
        cases hn'
        rw [hw'] at hz
        cases hz

/-! ## Runs -/

/-- The stored part of every range is in the file. -/
def StoredPart (key : Str) (file : SharedFile) : Prop :=
  ∀ w ∈ file.writers, HasBytes key file.pool w w.phase.stored

theorem zeroesStored_of_byte {m j : Nat} {b a : UInt8} (hb : StoredByte key file m j b a)
    (h0 : b ≠ 0) (hz : ZeroesByte file n m j) : ZeroesStored file n := by
  obtain ⟨w, o, hm, ho, hj, hbuf, -⟩ := hb
  obtain ⟨v, q, s, rest, w', o', hn, hv, hm', ho', hlo, hhi⟩ := hz
  rw [hm] at hm'
  cases hm'
  rw [ho] at ho'
  cases ho'
  exact ⟨v, q, s, rest, hn, hv, w, List.mem_of_getElem? hm, o, j, b, ho, hj, hbuf, h0, hlo, hhi⟩

theorem offset_of_stored_pos (h : 0 < phase.stored) : ∃ o, phase.offset? = some o := by
  cases phase with
  | data o rest sum => exact ⟨o, rfl⟩
  | _ => simp [Phase.stored] at h

theorem stored_le_length (hw : w.WellPhased) : w.phase.stored ≤ w.request.buffer.length := by
  obtain ⟨request, ph⟩ := w
  cases ph with
  | data o rest sum => exact hw.1
  | _ => exact Nat.zero_le _

/-- The bytes a data write adds. -/
theorem data_newBytes {o sum j : Nat} {s : Segment} (hb : s.off + s.len ≤ objSize)
    (hpos : s.num * objSize + s.off = o + sum) (hlen : sum + s.len ≤ w.request.buffer.length)
    (hlo : sum ≤ j) (hhi : j < sum + s.len) :
    byteAt key (Ioctx.write pool (objKey .data key s.num)
      ((w.request.buffer.drop sum).take s.len) s.off) (o + j) = w.request.buffer[j]? := by
  have hpiece : ((w.request.buffer.drop sum).take s.len).length = s.len := by
    rw [List.length_take, List.length_drop]
    omega
  have hin := (byteAt_write key pool s.num
    (by rw [hpiece]; exact hb :
      s.off + ((w.request.buffer.drop sum).take s.len).length ≤ objSize) (o + j)).1 (j - sum)
    (by omega) (by omega)
  rw [hin, List.getElem?_take, if_pos (by omega), List.getElem?_drop]
  congr 1
  omega

/-- Unless it zeroes a stored byte, a step keeps what is stored and adds what it writes. -/
theorem storedPart_step (hw : WellPhasedAll file) (hd : DisjointRanges file)
    (hz : ¬ ZeroesStored file n) (hs : StoredPart key file) (h : step key file n = some file') :
    StoredPart key file' := by
  intro v' hv' o' ho' j hj
  obtain ⟨m, hm'⟩ := List.mem_iff_getElem?.mp hv'
  obtain ⟨w, phase, hn, hws, -, hoff, heff⟩ := step_effect hw h
  -- a byte that was stored before the step
  have old : ∀ v, file.writers[m]? = some v → j < v.phase.stored →
      byteAt key file'.pool (o' + j) = v'.request.buffer[j]? := by
    intro v hm hjv
    have hvmem := List.mem_of_getElem? hm
    have hjlen := Nat.lt_of_lt_of_le hjv (stored_le_length (hw v hvmem))
    obtain ⟨o, ho⟩ := offset_of_stored_pos (Nat.zero_lt_of_lt hjv)
    have hbuf := List.getElem?_eq_getElem hjlen
    have hb : StoredByte key file m j v.request.buffer[j] v.request.buffer[j] :=
      ⟨v, o, hm, ho, hjv, hbuf, by rw [hs v hvmem o ho j hjv, hbuf]⟩
    have hb' : StoredByte key file' m j v.request.buffer[j] v.request.buffer[j] := by
      obtain ⟨hkeep, hzero⟩ := step_storedByte hw hd h hb
      by_cases hzb : ZeroesByte file n m j
      · have h0 : v.request.buffer[j] = 0 := by
          by_contra h0
          exact hz (zeroesStored_of_byte hb h0 hzb)
        have := hzero hzb
        rw [h0] at this ⊢
        exact this
      · exact hkeep hzb
    obtain ⟨u, p, hu, hp, -, hbu, hat⟩ := hb'
    rw [hm'] at hu
    cases hu
    rw [ho'] at hp
    cases hp
    rw [hat, hbu]
  rw [hws] at hm'
  by_cases hmn : n = m
  · subst hmn
    have hset : (file.writers.set n ⟨w.request, phase⟩)[n]? = some ⟨w.request, phase⟩ := by
      rw [List.getElem?_set_self', hn]
      rfl
    rw [hset] at hm'
    cases hm'
    generalize file'.pool = pool' at heff old ⊢
    cases heff with
    | quiet _ hst => exact old w hn (hst ▸ hj)
    | zero _ _ hst =>
        simp only [hst] at hj
        omega
    | data hph hseg hpos hlen hst =>
        rename_i o sum s rest
        have ho := hoff o (by rw [hph]; rfl)
        rw [ho'] at ho
        cases ho
        simp only [hst] at hj
        by_cases hlo : sum ≤ j
        · exact data_newBytes hseg hpos hlen hlo hj
        · exact old w hn (by rw [hph, Phase.stored]; omega)
  · rw [List.getElem?_set_ne hmn] at hm'
    exact old v' hm' hj

/-- Some stored byte that is not zero reads zero. -/
def LostByte (key : Str) (file : SharedFile) : Prop :=
  ∃ m j b, b ≠ 0 ∧ StoredByte key file m j b 0

theorem lostByte_of_zeroesStored (hw : WellPhasedAll file) (hd : DisjointRanges file)
    (hs : StoredPart key file) (hz : ZeroesStored file n) (h : step key file n = some file') :
    LostByte key file' := by
  obtain ⟨v, o, s, rest, hn, hv, w, hmem, q, j, b, hq, hj, hbuf, h0, hlo, hhi⟩ := hz
  obtain ⟨m, hm⟩ := List.mem_iff_getElem?.mp hmem
  have hb : StoredByte key file m j b b :=
    ⟨w, q, hm, hq, hj, hbuf, by rw [hs w hmem q hq j hj, hbuf]⟩
  exact ⟨m, j, b, h0, (step_storedByte hw hd h hb).2 ⟨v, o, s, rest, w, q, hn, hv, hm, hq, hlo, hhi⟩⟩

/-- No step brings a lost byte back: its writer is past it, and nobody else writes there. -/
theorem lostByte_step (hw : WellPhasedAll file) (hd : DisjointRanges file)
    (hl : LostByte key file) (h : step key file n = some file') : LostByte key file' := by
  obtain ⟨m, j, b, h0, hb⟩ := hl
  refine ⟨m, j, b, h0, ?_⟩
  by_cases hzb : ZeroesByte file n m j
  · exact (step_storedByte hw hd h hb).2 hzb
  · exact (step_storedByte hw hd h hb).1 hzb

theorem stored_of_finished (hw : w.WellPhased) (hf : w.phase.finished = true) :
    w.phase.stored = w.request.buffer.length := by
  obtain ⟨request, ph⟩ := w
  cases ph with
  | data o rest sum =>
      cases rest with
      | nil =>
          have := hw.2
          simp only [Tiles] at this
          simp only [Phase.stored]
          omega
      | cons s rest => simp [Phase.finished] at hf
  | _ => simp [Phase.finished] at hf

theorem wellPhased_start (size : Nat) (pool : Pool) (requests : List WriteRequest) :
    WellPhasedAll (start size pool requests) := by
  intro w hw
  obtain ⟨r, -, rfl⟩ := List.mem_map.mp hw
  trivial

theorem storedPart_start (size : Nat) (pool : Pool) (requests : List WriteRequest) :
    StoredPart key (start size pool requests) := by
  intro w hw o ho
  obtain ⟨r, -, rfl⟩ := List.mem_map.mp hw
  cases ho

/-- Ranges that are disjoint at the end of a run are disjoint before each of its steps. -/
theorem disjointRanges_along {schedule : List Nat} (hr : run (step key) file schedule = some file')
    (hd : WellPhasedAll file' → DisjointRanges file') :
    StepsMeet (step key) (fun f _ => WellPhasedAll f → DisjointRanges f) file schedule ∧
      (WellPhasedAll file → DisjointRanges file) := by
  refine stepsMeet_of_end (fun f a f' hstep hq hw => ?_) hr hd
  exact disjointRanges_back hw hstep (hq (wellPhased_step hw hstep))

/-- A run without a bad `zerofill` keeps the stored part of every range. -/
theorem storedPart_run {schedule : List Nat} (hw : WellPhasedAll file) (hs : StoredPart key file)
    (hr : run (step key) file schedule = some file')
    (hd : WellPhasedAll file' → DisjointRanges file')
    (hclean : StepsMeet (step key) (fun f n => ¬ ZeroesStored f n) file schedule) :
    WellPhasedAll file' ∧ StoredPart key file' := by
  refine run_invariant_of_stepsMeet (I := fun f => WellPhasedAll f ∧ StoredPart key f) ?_
    ⟨hw, hs⟩ (hclean.and (disjointRanges_along hr hd).1) hr
  rintro f n f' ⟨hw, hs⟩ ⟨hz, hd⟩ hstep
  exact ⟨wellPhased_step hw hstep, storedPart_step hw (hd hw) hz hs hstep⟩

/-- When all calls have returned and their ranges are disjoint, every range holds the bytes its
    writer sent exactly if no `zerofill` went over a stored byte that is not zero. -/
theorem concurrent_writes_iff (key : Str) (size : Nat) (pool : Pool)
    (requests : List WriteRequest) (schedule : List Nat) (file : SharedFile)
    (hrun : run (step key) (start size pool requests) schedule = some file)
    (hfin : Finished file) (hdis : DisjointRanges file) :
    AllStored key file ↔
      StepsMeet (step key) (fun file n => ¬ ZeroesStored file n) (start size pool requests)
        schedule := by
  have hwstart := wellPhased_start size pool requests
  have hwell : WellPhasedAll file := run_invariant (fun _ _ _ => wellPhased_step) hwstart hrun
  constructor
  · intro hall
    by_contra hbad
    obtain ⟨pre, n, post, t, u, hclean, hpre, hz, hstep, hpost⟩ :=
      exists_step_of_not_stepsMeet hrun hbad
    obtain ⟨hpostd, hdu⟩ := disjointRanges_along hpost fun _ => hdis
    have hdt : WellPhasedAll t → DisjointRanges t :=
      fun hw => disjointRanges_back hw hstep (hdu (wellPhased_step hw hstep))
    obtain ⟨hwt, hst⟩ := storedPart_run hwstart (storedPart_start _ _ _) hpre hdt hclean
    have hlost := lostByte_of_zeroesStored hwt (hdt hwt) hst (not_not.mp hz) hstep
    -- the byte is still lost at the end
    have hend : WellPhasedAll file ∧ LostByte key file := by
      refine run_invariant_of_stepsMeet (I := fun f => WellPhasedAll f ∧ LostByte key f) ?_
        ⟨wellPhased_step hwt hstep, hlost⟩ hpostd hpost
      rintro f n f' ⟨hw, hl⟩ hd hstep
      exact ⟨wellPhased_step hw hstep, lostByte_step hw (hd hw) hl hstep⟩
    obtain ⟨m, j, b, h0, w, o, hm, ho, -, hbuf, hat⟩ := hend.2
    have hjlen := (List.getElem?_eq_some_iff.mp hbuf).1
    have := hall w (List.mem_of_getElem? hm) o ho j hjlen
    rw [hat, hbuf] at this
    cases this
    exact h0 rfl
  · intro hclean
    have hpart := (storedPart_run hwstart (storedPart_start _ _ _) hrun (fun _ => hdis) hclean).2
    intro w hw
    have := hpart w hw
    rwa [stored_of_finished (hwell w hw) (hfin w hw)] at this

/-! ## Two writers of an empty file -/

def fileKey : Str := ['f']

/-- Writer 0 leaves a hole of one byte, writer 1 writes that byte. -/
def holeRequests : List WriteRequest := [⟨[1], 1, false⟩, ⟨[2], 0, false⟩]

def holeFile (o : Bytes) : SharedFile :=
  ⟨2, AList.insert (objKey .data fileKey 0) o ∅,
    [⟨⟨[1], 1, false⟩, .data 1 [] 1⟩, ⟨⟨[2], 0, false⟩, .data 0 [] 1⟩]⟩

theorem holeFile_finished (o : Bytes) : Finished (holeFile o) := by
  intro w hw
  simp only [holeFile, List.mem_cons, List.not_mem_nil, or_false] at hw
  rcases hw with rfl | rfl <;> rfl

theorem holeFile_disjoint (o : Bytes) : DisjointRanges (holeFile o) := by
  intro m n w v p q hne hm hn hp hq x
  have hm2 : m < 2 := (List.getElem?_eq_some_iff.mp hm).1
  have hn2 : n < 2 := (List.getElem?_eq_some_iff.mp hn).1
  have hmn : m = 0 ∧ n = 1 ∨ m = 1 ∧ n = 0 := by omega
  rcases hmn with ⟨rfl, rfl⟩ | ⟨rfl, rfl⟩
  all_goals
    cases hm
    cases hn
    cases hp
    cases hq
    simp only [List.length_cons, List.length_nil]
    omega

/-- Writer 1 writes its byte between the `stat` and the `zerofill` of writer 0. -/
theorem late_zerofill_loses_byte :
    ∃ file, run (step fileKey) (start 0 ∅ holeRequests) [0, 1, 0, 1, 1, 0, 0, 0] = some file ∧
      Finished file ∧ DisjointRanges file ∧ ¬ AllStored fileKey file := by
  refine ⟨holeFile [0, 1], by decide +kernel, holeFile_finished _, holeFile_disjoint _, ?_⟩
  intro h
  have hmem : Writer.mk ⟨[2], 0, false⟩ (.data 0 [] 1) ∈ (holeFile [0, 1]).writers := by
    simp [holeFile]
  have hlost := h _ hmem 0 rfl 0 (by decide)
  exact absurd hlost (by decide +kernel)

/-- The same calls, with the `zerofill` of writer 0 before the data of writer 1. -/
theorem concurrent_writes_iff_kept :
    AllStored fileKey (holeFile [2, 1]) ↔
      StepsMeet (step fileKey) (fun file n => ¬ ZeroesStored file n) (start 0 ∅ holeRequests)
        [0, 1, 0, 1, 0, 0, 1, 0] :=
  concurrent_writes_iff fileKey 0 ∅ holeRequests [0, 1, 0, 1, 0, 0, 1, 0] (holeFile [2, 1])
    (by decide +kernel) (holeFile_finished _) (holeFile_disjoint _)

end Nmfs.RpcClient
