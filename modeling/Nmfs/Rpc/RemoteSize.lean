import Nmfs.Rados.ConcurrentWrite

/-
  `rpc_client::write` and `rpc_client::truncate` on one file, by many clients at once. The leader's
  handler sets the size of the inode, and the client then does the same to the data pool, each in
  one step. The leader sees the requests in one order, the pool in another.

  The size is always what the requests in flight, done in the order of the leader, would make of
  the length of the data. A request that overtakes only those it commutes with keeps it so.
-/

namespace Nmfs.RpcClient

open Lib RadosIo

inductive SizeRequest where
  | write (request : WriteRequest)
  | truncate (offset : Nat)
  deriving DecidableEq, Repr

/-- What a client does to the data pool once the leader has answered. -/
inductive DataStep where
  | write (buffer : Bytes) (offset : Nat)
  | truncate (offset : Nat)
  deriving DecidableEq, Repr

structure RemoteFile where
  /-- the size of the leader's inode -/
  size : Nat
  pool : Pool
  /-- answered, in the order of the leader, and not done -/
  inFlight : List DataStep
  deriving DecidableEq

inductive SizeAction where
  | serve (request : SizeRequest)
  | data (n : Nat)
  deriving DecidableEq, Repr

/-- `rpc_server::rpc_truncate` on a file: the size it leaves. -/
def rpcTruncate (offset : Nat) : Nat := offset

def DataStep.perform (key : Str) (pool : Pool) : DataStep → Pool
  | .write buffer offset => (RadosIo.write pool .data key buffer offset).2
  | .truncate offset => (RadosIo.truncate pool .data key offset).2

def sizeStep (key : Str) (file : RemoteFile) : SizeAction → Option RemoteFile
  | .serve (.write request) =>
    let (offset, size) := rpcWrite file.size request
    some ⟨size, file.pool, file.inFlight ++ [.write request.buffer offset]⟩
  | .serve (.truncate offset) =>
    some ⟨rpcTruncate offset, file.pool, file.inFlight ++ [.truncate offset]⟩
  | .data n =>
    match file.inFlight[n]? with
    | none => none
    | some d => some ⟨file.size, d.perform key file.pool, file.inFlight.eraseIdx n⟩

/-! ## Lengths -/

namespace DataStep

/-- The length of the data afterwards. -/
def resized (length : Nat) : DataStep → Nat
  | write buffer offset => max length (offset + buffer.length)
  | truncate offset => offset

/-- The order of the two does not matter to the length. -/
def Commutes : DataStep → DataStep → Prop
  | write _ _, write _ _ => True
  | write buffer offset, truncate offset' => offset + buffer.length ≤ offset'
  | truncate offset, write buffer offset' => offset' + buffer.length ≤ offset
  | truncate offset, truncate offset' => offset = offset'

instance : DecidableRel Commutes := fun d d' => by
  cases d <;> cases d' <;> unfold Commutes <;> infer_instance

theorem Commutes.resized {d d' : DataStep} (h : Commutes d d') (n : Nat) :
    d'.resized (d.resized n) = d.resized (d'.resized n) := by
  cases d <;> cases d' <;> simp only [Commutes, DataStep.resized] at * <;> omega

/-- They commute only if the length is the same both ways. -/
theorem commutes_of_resized {d d' : DataStep} {n : Nat}
    (h : d'.resized (d.resized n) = d.resized (d'.resized n)) : Commutes d d' := by
  cases d <;> cases d' <;> simp only [Commutes, DataStep.resized] at * <;> omega

theorem foldl_commutes {ds : List DataStep} {d : DataStep} (h : ∀ e ∈ ds, Commutes e d) (n : Nat) :
    ds.foldl DataStep.resized (d.resized n) = d.resized (ds.foldl DataStep.resized n) := by
  induction ds generalizing n with
  | nil => rfl
  | cons e ds ih =>
      rw [List.foldl_cons, List.foldl_cons, ← (h e List.mem_cons_self).resized n]
      exact ih (fun e he => h e (List.mem_cons_of_mem _ he)) _

theorem perform_holds {key : Str} {pool : Pool} {f : Bytes} (h : Holds pool .data key f)
    (d : DataStep) :
    ∃ g, Holds (d.perform key pool) .data key g ∧ g.length = d.resized f.length := by
  cases d with
  | write buffer offset =>
      exact ⟨_, (write_holds h buffer offset).2, overwrite_length 0 f offset buffer⟩
  | truncate offset => exact ⟨_, (truncate_holds h offset).2, resize_length 0 f offset⟩

end DataStep

/-- The requests in flight, done in order, make the data as long as the inode says. -/
def CatchesUp (key : Str) (file : RemoteFile) : Prop :=
  ∃ f, Holds file.pool .data key f ∧
    file.size = file.inFlight.foldl DataStep.resized f.length

/-- No client does its data step before one that the leader has answered earlier, unless the two
    commute. -/
def InOrder (file : RemoteFile) : SizeAction → Prop
  | .serve _ => True
  | .data n => ∀ d, file.inFlight[n]? = some d → ∀ e ∈ file.inFlight.take n, e.Commutes d

theorem rpcWrite_size (size : Nat) (request : WriteRequest) :
    (rpcWrite size request).2 =
      (DataStep.write request.buffer (rpcWrite size request).1).resized size := by
  unfold rpcWrite DataStep.resized
  dsimp only
  generalize (if request.append = true then size else request.offset) = start
  split <;> omega

theorem step_catchesUp {key : Str} {file file' : RemoteFile} {a : SizeAction}
    (h : CatchesUp key file) (ho : InOrder file a) (hs : sizeStep key file a = some file') :
    CatchesUp key file' := by
  obtain ⟨f, hf, hsize⟩ := h
  cases a with
  | serve request =>
      cases request with
      | write request =>
          cases hs
          refine ⟨f, hf, ?_⟩
          show (rpcWrite file.size request).2 = _
          rw [rpcWrite_size, List.foldl_append, ← hsize]
          rfl
      | truncate offset =>
          cases hs
          refine ⟨f, hf, ?_⟩
          rw [List.foldl_append]
          rfl
  | data n =>
      simp only [sizeStep] at hs
      split at hs
      · cases hs
      · rename_i d hd
        cases hs
        obtain ⟨g, hg, hlen⟩ := d.perform_holds hf
        refine ⟨g, hg, ?_⟩
        -- `d` goes to the front, past those it commutes with
        have hlt := (List.getElem?_eq_some_iff.mp hd).1
        have hget : file.inFlight.drop n = d :: file.inFlight.drop (n + 1) := by
          rw [List.drop_eq_getElem_cons hlt, (List.getElem?_eq_some_iff.mp hd).2]
        show file.size = _
        rw [hsize, hlen, List.eraseIdx_eq_take_drop_succ, List.foldl_append,
          DataStep.foldl_commutes (ho d hd)]
        conv_lhs => rw [← List.take_append_drop n file.inFlight, hget, List.foldl_append,
          List.foldl_cons]

/-- In every run without such an overtaking, the size and the data agree whenever nothing is in
    flight. -/
theorem remote_size_converges (key : Str) (f : Bytes) (pool : Pool) (file : RemoteFile)
    (as : List SizeAction) (hf : Holds pool .data key f)
    (ho : StepsMeet (sizeStep key) InOrder ⟨f.length, pool, []⟩ as)
    (hr : run (sizeStep key) ⟨f.length, pool, []⟩ as = some file) (hq : file.inFlight = []) :
    file.size = (RadosIo.stat file.pool .data key).2 := by
  obtain ⟨g, ⟨n, hn⟩, hsize⟩ := run_invariant_of_stepsMeet
    (fun _ _ _ => step_catchesUp) ⟨f, hf, rfl⟩ ho hr
  rw [hsize, hq, stat_eq hn]
  rfl

/-- A write of two bytes and one that appends a byte are answered, and the second client is done
    first. -/
def twoWrites : List SizeAction :=
  [.serve (.write ⟨[1, 2], 0, false⟩), .serve (.write ⟨[3], 0, true⟩), .data 1, .data 0]

theorem remote_size_converges_twoWrites : ∃ file,
    run (sizeStep []) ⟨0, ∅, []⟩ twoWrites = some file ∧ file.inFlight = [] ∧
      file.size = (RadosIo.stat file.pool .data []).2 := by
  have hfirst : ∀ file : RemoteFile, InOrder file (.data 0) := fun file d _ e he => (nomatch he)
  have hsecond : InOrder ⟨3, ∅, [.write [1, 2] 0, .write [3] 2]⟩ (.data 1) := by
    intro d hd e he
    cases hd
    rw [List.mem_singleton.mp he]
    trivial
  refine ⟨_, rfl, rfl, ?_⟩
  refine remote_size_converges [] [] ∅ _ twoWrites (Holds.of_absent fun _ => AList.lookup_empty _)
    ?_ rfl rfl
  refine ⟨trivial, fun _ h => ?_⟩
  cases h
  refine ⟨trivial, fun _ h => ?_⟩
  cases h
  exact ⟨hsecond, fun _ _ => ⟨hfirst _, fun _ _ => trivial⟩⟩

/-- Two requests that do not commute, the later of which is done first: the data does not get the
    length of the inode. -/
theorem overtaken_diverges {key : Str} {file : RemoteFile} {e d : DataStep}
    (h : CatchesUp key file) (hin : file.inFlight = [e, d]) (hc : ¬ e.Commutes d) :
    ∃ file', run (sizeStep key) file [.data 1, .data 0] = some file' ∧ file'.inFlight = [] ∧
      file'.size ≠ (RadosIo.stat file'.pool .data key).2 := by
  obtain ⟨f, hf, hsize⟩ := h
  obtain ⟨g, hg, hglen⟩ := d.perform_holds hf
  obtain ⟨k, hk, hklen⟩ := e.perform_holds hg
  refine ⟨⟨file.size, e.perform key (d.perform key file.pool), []⟩, ?_, rfl, ?_⟩
  · simp only [run, sizeStep, hin]
    rfl
  · obtain ⟨n, hn⟩ := hk
    show file.size ≠ (RadosIo.stat (e.perform key (d.perform key file.pool)) .data key).2
    rw [stat_eq hn, hsize, hin, hklen, hglen]
    exact fun heq => hc (DataStep.commutes_of_resized heq)

/-- A write of one byte is answered, then a truncate to nothing, whose data step comes first. -/
theorem truncate_overtakes_write : ¬ ∀ (key : Str) (as : List SizeAction) (file : RemoteFile),
    run (sizeStep key) ⟨0, ∅, []⟩ as = some file → file.inFlight = [] →
      file.size = (RadosIo.stat file.pool .data key).2 := by
  intro hall
  have hstart : CatchesUp [] ⟨0, ∅, [.write [1] 0, .truncate 0]⟩ :=
    ⟨[], Holds.of_absent fun _ => AList.lookup_empty _, by decide⟩
  obtain ⟨file, hr, hq, hne⟩ := overtaken_diverges hstart rfl (by decide)
  apply hne
  exact hall [] ([.serve (.write ⟨[1], 0, false⟩), .serve (.truncate 0)] ++ [.data 1, .data 0]) file
    (run_append.mpr ⟨_, rfl, hr⟩) hq

end Nmfs.RpcClient
