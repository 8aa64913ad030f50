import Nmfs.Util.Path
import Nmfs.Lib.Loop

/-
  `util/path.cpp` with its loops as they are written: the index is a `size_t`, which wraps below
  zero, and a position outside of the string is undefined to read. Both functions come to what
  `Nmfs.Path` has for them. The loop of `get_parent_dir_path` stops at the first byte; the other one
  has no end of its own, and leaves a string without a delimiter at the front.
-/

namespace Nmfs.PathLoops

open Lib Nmfs.Path

/-- A `std::string_view`, whose length is a `size_t`. -/
structure StringView where
  bytes : Bytes
  fits : bytes.length < 2 ^ 64

namespace StringView

def length (path : StringView) : UInt64 := UInt64.ofNat path.bytes.length

/-- `path[i]`. -/
def byte (path : StringView) (i : UInt64) : Except Err UInt8 :=
  match path.bytes[i.toNat]? with
  | none => .error .undefined
  | some b => .ok b

end StringView

def emptyPath : Err := .runtimeError "Invalid path: path is empty string"

def noDelimiter : Err := .runtimeError "Invalid path: No delimiter on path"

/-! ## The loops -/

/-- A round of `for (...; cond; i--) if (path[i] == path_delimiter) return found;`. What is left
    with is the `return`, or nothing where the condition is false. -/
def round (path : StringView) (cond : UInt64 → Bool) (found : UInt64 → Bytes) (i : UInt64) :
    UInt64 ⊕ Except Err (Option Bytes) :=
  if cond i then
    match path.byte i with
    | .error e => .inr (.error e)
    | .ok b => if b = delimiter then .inr (.ok (some (found i))) else .inl (i - 1)
  else .inr (.ok none)

def parentRound (path : StringView) : UInt64 → UInt64 ⊕ Except Err (Option Bytes) :=
  round path (0 < ·) fun i => path.bytes.take i.toNat

/-- The condition is true of every index. -/
def filenameRound (path : StringView) : UInt64 → UInt64 ⊕ Except Err (Option Bytes) :=
  round path (0 ≤ ·) fun i => path.bytes.drop (i + 1).toNat

/-- What follows the loop of `get_parent_dir_path`. -/
def parentRest (path : StringView) : Except Err (Option Bytes) → Except Err Bytes
  | .error e => .error e
  | .ok (some parent) => .ok parent
  | .ok none => do
    let first ← path.byte 0
    if first = delimiter then .ok (path.bytes.take 1) else .error noDelimiter

def filenameRest : Except Err (Option Bytes) → Except Err Bytes
  | .error e => .error e
  | .ok (some filename) => .ok filename
  | .ok none => .error noDelimiter

/-- `none` where the rounds are not enough. -/
def getParentDirPath (path : StringView) (rounds : Nat) : Option (Except Err Bytes) :=
  if path.bytes = [] then some (.error emptyPath)
  else (loop (parentRound path) rounds (path.length - 1)).map (parentRest path)

def getFilenameFromPath (path : StringView) (rounds : Nat) : Option (Except Err Bytes) :=
  if path.bytes = [] then some (.error emptyPath)
  else if path.length = 1 ∧ path.byte 0 = .ok delimiter then some (.ok (path.bytes.take 1))
  else (loop (filenameRound path) rounds (path.length - 1)).map filenameRest

/-! ## What a loop comes to -/

section

variable {path : StringView} {cond : UInt64 → Bool} {found : UInt64 → Bytes} {i : UInt64} {k : Nat}

theorem toNat_of_succ (h : (i + 1).toNat = k + 1) : i.toNat = k := by
  have hlt := i.toNat_lt
  have hone : (1 : UInt64).toNat = 1 := rfl
  rw [UInt64.toNat_add] at h
  omega

/-- The index that wraps is outside of every string. -/
theorem byte_wrapped (h : (i + 1).toNat = 0) : path.byte i = .error .undefined := by
  have hfits := path.fits
  have hlt := i.toNat_lt
  have hone : (1 : UInt64).toNat = 1 := rfl
  rw [UInt64.toNat_add] at h
  unfold StringView.byte
  rw [List.getElem?_eq_none (by omega)]

theorem byte_inside (h : k < path.bytes.length) (hi : i.toNat = k) :
    path.byte i = .ok path.bytes[k] := by
  unfold StringView.byte
  rw [hi, List.getElem?_eq_getElem h]

/-- None of the bytes behind `i` is a delimiter. The bytes that are left are `i + 1`, also where `i`
    has wrapped, which the condition must have let it do. -/
structure Searched (path : StringView) (cond : UInt64 → Bool) (i : UInt64) : Prop where
  le : (i + 1).toNat ≤ path.bytes.length
  last : lastDelimiter path.bytes path.bytes.length = lastDelimiter path.bytes (i + 1).toNat
  wrapped : (i + 1).toNat = 0 → cond 0 = true

theorem searched_start (hne : path.bytes ≠ []) : Searched path cond (path.length - 1) := by
  have hlen : (path.length - 1 + 1).toNat = path.bytes.length := by
    rw [UInt64.sub_add_cancel]
    exact UInt64.toNat_ofNat_of_lt' path.fits
  refine ⟨Nat.le_of_eq hlen, by rw [hlen], fun h => ?_⟩
  rw [hlen] at h
  exact absurd (List.eq_nil_of_length_eq_zero h) hne

/-- What a round can do: the condition is false, the index has wrapped, a delimiter is found, or the
    search goes on. -/
theorem round_cases (found : UInt64 → Bytes) (h : Searched path cond i) :
    (cond i = false ∧ round path cond found i = .inr (.ok none)) ∨
    (cond 0 = true ∧ lastDelimiter path.bytes path.bytes.length = none ∧
      round path cond found i = .inr (.error .undefined)) ∨
    (cond i = true ∧ lastDelimiter path.bytes path.bytes.length = some i.toNat ∧
      round path cond found i = .inr (.ok (some (found i)))) ∨
    (i.toNat < (i + 1).toNat ∧ Searched path cond (i - 1) ∧
      round path cond found i = .inl (i - 1)) := by
  obtain ⟨hle, hlast, hwrapped⟩ := h
  unfold round
  by_cases hcond : cond i = true
  · rw [if_pos hcond]
    match hk : (i + 1).toNat with
    | 0 =>
        rw [hk] at hlast
        rw [byte_wrapped hk]
        exact Or.inr (Or.inl ⟨hwrapped hk, hlast, rfl⟩)
    | k + 1 =>
        have hi := toNat_of_succ hk
        rw [hk] at hle hlast
        have hat : path.bytes[k]? = some path.bytes[k] := List.getElem?_eq_getElem (by omega)
        rw [byte_inside (by omega) hi]
        dsimp only
        by_cases hb : path.bytes[k] = delimiter
        · rw [lastDelimiter_here (by rw [hat, hb])] at hlast
          rw [if_pos hb, hi]
          exact Or.inr (Or.inr (Or.inl ⟨hcond, hlast, rfl⟩))
        · rw [lastDelimiter_before (by rw [hat]; exact fun h => hb (Option.some.inj h))] at hlast
          have hnext : Searched path cond (i - 1) := by
            constructor
            · rw [UInt64.sub_add_cancel]
              omega
            · rw [UInt64.sub_add_cancel, hi]
              exact hlast
            · rw [UInt64.sub_add_cancel]
              intro hzero
              have hi0 : i = 0 := UInt64.toNat_inj.mp hzero
              rw [← hi0]
              exact hcond
          rw [if_neg hb]
          exact Or.inr (Or.inr (Or.inr ⟨by omega, hnext, rfl⟩))
  · rw [if_neg hcond]
    exact Or.inl ⟨by simpa using hcond, rfl⟩

/-- The loop ends, and what it is left with has what each way out of it gives. -/
theorem round_ends (path : StringView) (cond : UInt64 → Bool) (found : UInt64 → Bytes)
    (hne : path.bytes ≠ []) {Q : Except Err (Option Bytes) → Prop}
    (hcond : ∀ i, Searched path cond i → cond i = false → Q (.ok none))
    (hwrap : cond 0 = true → lastDelimiter path.bytes path.bytes.length = none →
      Q (.error .undefined))
    (hfound : ∀ i : UInt64, cond i = true →
      lastDelimiter path.bytes path.bytes.length = some i.toNat → Q (.ok (some (found i)))) :
    ∃ r, Ends (fun n => loop (round path cond found) n (path.length - 1)) r ∧ Q r := by
  refine ends_of_variant (fun i => (i + 1).toNat) (I := Searched path cond) ?_ (searched_start hne)
  intro i h
  obtain ⟨hc, hr⟩ | ⟨h0, hlast, hr⟩ | ⟨hc, hlast, hr⟩ | ⟨hlt, hnext, hr⟩ := round_cases found h
  · exact Or.inr ⟨_, hr, hcond i h hc⟩
  · exact Or.inr ⟨_, hr, hwrap h0 hlast⟩
  · exact Or.inr ⟨_, hr, hfound i hc hlast⟩
  · refine Or.inl ⟨i - 1, hr, hnext, ?_⟩
    rw [UInt64.sub_add_cancel]
    exact hlt

end

/-! ## What the functions come to -/

section

variable {path : StringView}

/-- The byte that `get_parent_dir_path` looks at behind its loop. -/
theorem parentRest_none (h : Searched path (0 < ·) 0) :
    parentRest path (.ok none) = Path.getParentDirPath path.bytes := by
  have hlen : 0 < path.bytes.length := h.le
  have hne : path.bytes ≠ [] := List.length_pos_iff.mp hlen
  have hat : path.bytes[0]? = some path.bytes[0] := List.getElem?_eq_getElem hlen
  have hlast : lastDelimiter path.bytes path.bytes.length = lastDelimiter path.bytes 1 := h.last
  unfold parentRest Path.getParentDirPath
  rw [byte_inside hlen rfl, if_neg hne, hlast]
  dsimp only [bind, Except.bind]
  by_cases hb : path.bytes[0] = delimiter
  · rw [if_pos hb, lastDelimiter_here (by rw [hat, hb])]
  · rw [if_neg hb, lastDelimiter_before (by rw [hat]; exact fun h => hb (Option.some.inj h))]
    rfl

theorem getParentDirPath_ends (path : StringView) :
    Ends (getParentDirPath path) (Path.getParentDirPath path.bytes) := by
  unfold getParentDirPath
  by_cases hne : path.bytes = []
  · simp only [if_pos hne]
    unfold Path.getParentDirPath
    rw [if_pos hne]
    exact ⟨0, rfl⟩
  · simp only [if_neg hne]
    have hstop : ∀ i, Searched path (0 < ·) i → decide (0 < i) = false →
        parentRest path (.ok none) = Path.getParentDirPath path.bytes := by
      intro i h hc
      obtain rfl : i = 0 := UInt64.le_zero_iff.mp (UInt64.not_lt.mp (of_decide_eq_false hc))
      exact parentRest_none h
    have hfound : ∀ i : UInt64, decide (0 < i) = true →
        lastDelimiter path.bytes path.bytes.length = some i.toNat →
        parentRest path (.ok (some (path.bytes.take i.toNat))) =
          Path.getParentDirPath path.bytes := by
      intro i hc hlast
      have hpos : 0 < i.toNat := UInt64.lt_iff_toNat_lt.mp (of_decide_eq_true hc)
      obtain ⟨k, hk⟩ : ∃ k, i.toNat = k + 1 := ⟨i.toNat - 1, by omega⟩
      unfold parentRest Path.getParentDirPath
      rw [if_neg hne, hlast, hk]
    obtain ⟨r, hends, hr⟩ := round_ends path (0 < ·) (fun i => path.bytes.take i.toNat) hne
      (Q := fun r => parentRest path r = Path.getParentDirPath path.bytes) hstop
      (fun h => nomatch h) hfound
    rw [← hr]
    exact hends.map (parentRest path)

/-- The test for the root directory. -/
theorem isRoot_iff : path.length = 1 ∧ path.byte 0 = .ok delimiter ↔ path.bytes = [delimiter] := by
  obtain ⟨bytes, hfits⟩ := path
  have hlen : (UInt64.ofNat bytes.length).toNat = bytes.length := UInt64.toNat_ofNat_of_lt' hfits
  constructor
  · rintro ⟨hone, hbyte⟩
    have hsingle : bytes.length = 1 := by
      rw [← hlen]
      exact congrArg UInt64.toNat hone
    obtain ⟨b, rfl⟩ := List.length_eq_one_iff.mp hsingle
    exact congrArg (fun b => [b]) (Except.ok.inj hbyte)
  · rintro rfl
    exact ⟨rfl, rfl⟩

theorem getFilenameFromPath_ends (path : StringView) :
    Ends (getFilenameFromPath path) (Path.getFilenameFromPath path.bytes) := by
  unfold getFilenameFromPath
  simp only [isRoot_iff]
  by_cases hne : path.bytes = []
  · simp only [if_pos hne]
    unfold Path.getFilenameFromPath
    rw [if_pos hne]
    exact ⟨0, rfl⟩
  · by_cases hroot : path.bytes = [delimiter]
    · simp only [if_neg hne, if_pos hroot]
      unfold Path.getFilenameFromPath
      rw [if_neg hne, if_pos hroot, hroot]
      exact ⟨0, rfl⟩
    · simp only [if_neg hne, if_neg hroot]
      have hwrap : lastDelimiter path.bytes path.bytes.length = none →
          filenameRest (.error .undefined) = Path.getFilenameFromPath path.bytes := by
        intro hlast
        unfold Path.getFilenameFromPath
        rw [if_neg hne, if_neg hroot, hlast]
        rfl
      have hfound : ∀ i : UInt64, lastDelimiter path.bytes path.bytes.length = some i.toNat →
          filenameRest (.ok (some (path.bytes.drop (i + 1).toNat))) =
            Path.getFilenameFromPath path.bytes := by
        intro i hlast
        have hlt := lastDelimiter_lt hlast
        have hfits := path.fits
        have hone : (1 : UInt64).toNat = 1 := rfl
        have hnext : (i + 1).toNat = i.toNat + 1 := by
          rw [UInt64.toNat_add]
          omega
        unfold Path.getFilenameFromPath
        rw [if_neg hne, if_neg hroot, hlast, hnext]
        rfl
      obtain ⟨r, hends, hr⟩ := round_ends path (0 ≤ ·) (fun i => path.bytes.drop (i + 1).toNat) hne
        (Q := fun r => filenameRest r = Path.getFilenameFromPath path.bytes)
        (fun i _ hc => absurd UInt64.zero_le (of_decide_eq_false hc)) (fun _ => hwrap)
        (fun i _ => hfound i)
      rw [← hr]
      exact hends.map filenameRest

theorem getFilenameFromPath_stable (path : StringView) : Stable (getFilenameFromPath path) := by
  unfold getFilenameFromPath
  by_cases hne : path.bytes = []
  · simp only [if_pos hne]
    exact Stable.some _
  · simp only [if_neg hne]
    by_cases hroot : path.length = 1 ∧ path.byte 0 = .ok delimiter
    · simp only [if_pos hroot]
      exact Stable.some _
    · simp only [if_neg hroot]
      exact (loop_stable _ _).map _

end

/-! ## Every string -/

def IsInvalidPath (r : Except Err Bytes) : Prop := r = .error emptyPath ∨ r = .error noDelimiter

/-- The function ends without having read outside of the string, and it calls the string invalid
    exactly if it has no delimiter. -/
def Splits (f : StringView → Nat → Option (Except Err Bytes)) (path : StringView) : Prop :=
  ∃ r, Ends (f path) r ∧ r ≠ .error .undefined ∧
    (IsInvalidPath r ↔ path.bytes = [] ∨ delimiter ∉ path.bytes)

section

variable {f : StringView → Nat → Option (Except Err Bytes)} {path : StringView}

theorem splits_of_ok {name : Bytes} (h : Ends (f path) (.ok name)) (hne : path.bytes ≠ [])
    (hmem : delimiter ∈ path.bytes) : Splits f path := by
  refine ⟨.ok name, h, fun heq => (nomatch heq), iff_of_false ?_ ?_⟩
  · rintro (heq | heq)
    · cases heq
    · cases heq
  · rintro (heq | hnot)
    · exact hne heq
    · exact hnot hmem

theorem splits_of_invalid {r : Except Err Bytes} (h : Ends (f path) r) (hr : IsInvalidPath r)
    (hpath : path.bytes = [] ∨ delimiter ∉ path.bytes) : Splits f path := by
  refine ⟨r, h, ?_, iff_of_true hr hpath⟩
  rintro rfl
  rcases hr with heq | heq
  · cases heq
  · cases heq

end

theorem getParentDirPath_splits (path : StringView) : Splits getParentDirPath path := by
  have hends := getParentDirPath_ends path
  unfold Path.getParentDirPath at hends
  by_cases hne : path.bytes = []
  · rw [if_pos hne] at hends
    exact splits_of_invalid hends (Or.inl rfl) (Or.inl hne)
  · rw [if_neg hne] at hends
    by_cases hmem : delimiter ∈ path.bytes
    · obtain ⟨i, hlast⟩ := exists_lastDelimiter hmem
      rw [hlast] at hends
      cases i with
      | zero => exact splits_of_ok hends hne hmem
      | succ i => exact splits_of_ok hends hne hmem
    · rw [lastDelimiter_length_eq_none_iff.mpr hmem] at hends
      exact splits_of_invalid hends (Or.inr rfl) (Or.inr hmem)

/-- Without a delimiter the loop of `get_filename_from_path` reads before the front. -/
theorem getFilenameFromPath_no_delimiter {path : StringView} (hne : path.bytes ≠ [])
    (h : delimiter ∉ path.bytes) : Ends (getFilenameFromPath path) (.error .undefined) := by
  have hroot : path.bytes ≠ [delimiter] := fun heq => h (heq ▸ List.mem_singleton_self _)
  have hends := getFilenameFromPath_ends path
  unfold Path.getFilenameFromPath at hends
  rw [if_neg hne, if_neg hroot, lastDelimiter_length_eq_none_iff.mpr h] at hends
  exact hends

theorem getFilenameFromPath_splits_iff (path : StringView) :
    Splits getFilenameFromPath path ↔ path.bytes = [] ∨ delimiter ∈ path.bytes := by
  constructor
  · intro ⟨r, hends, hdefined, _⟩
    by_contra hnot
    rw [not_or] at hnot
    have hwrapped := getFilenameFromPath_no_delimiter hnot.1 hnot.2
    exact hdefined (hends.unique (getFilenameFromPath_stable path) hwrapped)
  · intro h
    have hends := getFilenameFromPath_ends path
    unfold Path.getFilenameFromPath at hends
    by_cases hne : path.bytes = []
    · rw [if_pos hne] at hends
      exact splits_of_invalid hends (Or.inl rfl) (Or.inl hne)
    · have hmem := h.resolve_left hne
      rw [if_neg hne] at hends
      by_cases hroot : path.bytes = [delimiter]
      · rw [if_pos hroot] at hends
        exact splits_of_ok hends hne hmem
      · obtain ⟨i, hlast⟩ := exists_lastDelimiter hmem
        rw [if_neg hroot, hlast] at hends
        exact splits_of_ok hends hne hmem

/-- Both functions split a string as they should if and only if it is empty or has a delimiter. -/
theorem splits_iff (path : StringView) :
    (Splits getParentDirPath path ∧ Splits getFilenameFromPath path) ↔
      path.bytes = [] ∨ delimiter ∈ path.bytes := by
  rw [getFilenameFromPath_splits_iff]
  exact and_iff_right (getParentDirPath_splits path)

/-- The string `a`. -/
def bareName : StringView := ⟨[97], by decide⟩

/-- The loop is at the wrapped index after its first round. -/
theorem bareName_runs_past :
    getFilenameFromPath bareName 2 = some (.error .undefined) ∧
    ¬ (Splits getParentDirPath bareName ∧ Splits getFilenameFromPath bareName) := by
  refine ⟨rfl, fun h => ?_⟩
  obtain ⟨r, hends, hdefined, _⟩ := h.2
  exact hdefined (hends.unique (getFilenameFromPath_stable bareName) ⟨2, rfl⟩)

end Nmfs.PathLoops
