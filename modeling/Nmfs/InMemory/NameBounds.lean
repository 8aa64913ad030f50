import Nmfs.Util.Path
import Nmfs.Lib.Loop

/-
  `set_name_bound`, and the names that the loop of `path_traversal` takes a path apart into. The
  bounds are `int`s, and so is the length of the path. The functions of `util/path.cpp` keep theirs
  in a `size_t`, and as long as the `int`s are wide enough the two agree about every path.
-/

namespace Nmfs

open Lib

namespace PathTraversal

open Nmfs.Path

/-- `path_len`: the length as an `int` of 32 bits. -/
def intLength (path : Bytes) : Int := Int.bmod path.length (2 ^ 32)

/-- The `for` of `set_name_bound`: where it stops, `n` bytes before the end at most. -/
def scan (path : Bytes) : Nat → Nat → Nat
  | 0, i => i
  | n + 1, i => if path[i]? = some delimiter then i else scan path n (i + 1)

/-- `start_name` and `end_name`, or -1. A sum that is no `int` is undefined. -/
def setNameBound (endName : Int) (path : Bytes) (pathLen : Int) : Except Err (Option (Int × Int)) :=
  let startName := endName + 2
  if 2 ^ 31 ≤ startName then .error .undefined
  else if pathLen ≤ startName then .ok none
  else .ok (some (startName, scan path (pathLen - startName).toNat startName.toNat - 1))

/-- `target_name`. -/
def nameAt (path : Bytes) (startName endName : Int) : Bytes :=
  slice path startName.toNat (endName - startName + 1).toNat

/-- A round of the loop, as far as the names go: `end_name`, and what has been taken. -/
def nameRound (path : Bytes) (pathLen : Int) :
    Int × List Bytes → (Int × List Bytes) ⊕ Except Err (List Bytes)
  | (endName, taken) =>
    match setNameBound endName path pathLen with
    | .error e => .inr (.error e)
    | .ok none => .inr (.ok taken)
    | .ok (some (startName, endName)) => .inl (endName, taken ++ [nameAt path startName endName])

section

variable {path : Bytes} {pathLen endName startName endName' : Int} {taken : List Bytes}

theorem nameRound_error {e : Err} (h : setNameBound endName path pathLen = .error e) :
    nameRound path pathLen (endName, taken) = .inr (.error e) := by
  simp only [nameRound, h]

theorem nameRound_stop (h : setNameBound endName path pathLen = .ok none) :
    nameRound path pathLen (endName, taken) = .inr (.ok taken) := by
  simp only [nameRound, h]

theorem nameRound_next (h : setNameBound endName path pathLen = .ok (some (startName, endName'))) :
    nameRound path pathLen (endName, taken) =
      .inl (endName', taken ++ [nameAt path startName endName']) := by
  simp only [nameRound, h]

end

/-- The loop takes these names and stops. -/
def Takes (path : Bytes) (names : List Bytes) : Prop :=
  Ends (fun n => Lib.loop (nameRound path (intLength path)) n (-1, [])) (.ok names)

/-! ## The next name -/

theorem scan_eq {name rest : Bytes} (hname : delimiter ∉ name)
    (hrest : rest = [] ∨ rest.head? = some delimiter) (front : Bytes) (n : Nat)
    (hn : n = name.length + rest.length) :
    scan (front ++ (name ++ rest)) n front.length = front.length + name.length := by
  induction name generalizing front n with
  | nil =>
      match rest with
      | [] =>
          subst hn
          rfl
      | b :: rest =>
          obtain h | h := hrest
          · cases h
          · obtain rfl := Option.some.inj h
            subst hn
            have hat : (front ++ ([] ++ delimiter :: rest))[front.length]? = some delimiter := by
              simp
            exact if_pos hat
  | cons b name ih =>
      obtain ⟨m, rfl⟩ : ∃ m, n = m + 1 := ⟨name.length + rest.length, by simp at hn; omega⟩
      have hb : b ≠ delimiter := fun h => hname (h ▸ List.mem_cons_self)
      have hat : (front ++ (b :: name ++ rest))[front.length]? = some b := by simp
      have hmove : front ++ (b :: name ++ rest) = (front ++ [b]) ++ (name ++ rest) := by simp
      have hlen : (front ++ [b]).length = front.length + 1 := by simp
      have hrec := ih (fun h => hname (List.mem_cons_of_mem b h)) (front ++ [b]) m
        (by simp at hn; omega)
      unfold scan
      rw [hat, if_neg fun h => hb (Option.some.inj h), hmove, ← hlen, hrec, hlen, List.length_cons]
      omega

/-- The bound of the next name, behind what has been taken. -/
theorem setNameBound_eq {front name rest : Bytes} (hname : IsComponent name)
    (hrest : rest = [] ∨ rest.head? = some delimiter) (hlen : front.length + 1 < 2 ^ 31) :
    let path := front ++ (delimiter :: name ++ rest)
    setNameBound (front.length - 1) path path.length =
      .ok (some ((front.length : Int) + 1, (front.length : Int) + name.length)) ∧
    nameAt path ((front.length : Int) + 1) ((front.length : Int) + name.length) = name := by
  intro path
  have hpos := List.length_pos_iff.mpr hname.1
  have hmove : path = (front ++ [delimiter]) ++ (name ++ rest) := by simp [path]
  have hpath : path.length = front.length + 1 + name.length + rest.length := by
    rw [hmove]
    simp
    omega
  have hfront : (front ++ [delimiter]).length = front.length + 1 := by simp
  have hnat : ((front.length : Int) + 1).toNat = (front ++ [delimiter]).length := by omega
  constructor
  · unfold setNameBound
    have hstart : (front.length : Int) - 1 + 2 = front.length + 1 := by omega
    have htake : ((path.length : Int) - ((front.length : Int) + 1)).toNat =
        name.length + rest.length := by omega
    have hscan := scan_eq hname.2 hrest (front ++ [delimiter]) _ rfl
    dsimp only
    rw [hstart, if_neg (by omega), if_neg (by omega), htake, hnat, hmove, hscan, hfront]
    congr 3
    omega
  · have hcount : ((front.length : Int) + name.length - (front.length + 1) + 1).toNat =
        name.length := by omega
    unfold nameAt
    rw [hnat, hcount, hmove, ← List.append_assoc]
    exact slice_mid _ _ _

theorem setNameBound_end {path : Bytes} (hlen : path.length + 1 < 2 ^ 31) :
    setNameBound (path.length - 1) path path.length = .ok none := by
  unfold setNameBound
  dsimp only
  rw [if_neg (by omega), if_pos (by omega)]

theorem le_scan (path : Bytes) (n i : Nat) : i ≤ scan path n i := by
  induction n generalizing i with
  | zero => exact Nat.le_refl i
  | succ n ih =>
      unfold scan
      split
      · exact Nat.le_refl i
      · exact Nat.le_of_succ_le (ih (i + 1))

theorem scan_le (path : Bytes) (n i : Nat) : scan path n i ≤ i + n := by
  induction n generalizing i with
  | zero => exact Nat.le_refl i
  | succ n ih =>
      have hrec := ih (i + 1)
      unfold scan
      split
      · omega
      · omega

/-- What a bound is like, whatever the path. -/
theorem setNameBound_bounds {endName startName endName' pathLen : Int} {path : Bytes}
    (hend : -1 ≤ endName)
    (h : setNameBound endName path pathLen = .ok (some (startName, endName'))) :
    startName = endName + 2 ∧ endName < endName' ∧ endName' < pathLen := by
  unfold setNameBound at h
  dsimp only at h
  split at h
  · cases h
  · split at h
    · cases h
    · cases h
      have hle := le_scan path (pathLen - (endName + 2)).toNat (endName + 2).toNat
      have hge := scan_le path (pathLen - (endName + 2)).toNat (endName + 2).toNat
      exact ⟨rfl, by omega, by omega⟩

/-- The last bound was still an `int` when two were added. -/
theorem setNameBound_none {endName pathLen : Int} {path : Bytes}
    (h : setNameBound endName path pathLen = .ok none) : endName + 2 < 2 ^ 31 := by
  unfold setNameBound at h
  dsimp only at h
  split at h
  · cases h
  · omega

/-! ## All the names -/

/-- The bytes that the names take up, each with the delimiter before it. -/
def width (names : List Bytes) : Nat := (names.flatMap fun name => delimiter :: name).length

theorem width_snoc (names : List Bytes) (name : Bytes) :
    width (names ++ [name]) = width names + name.length + 1 := by
  unfold width
  rw [List.flatMap_append, List.length_append]
  simp
  omega

theorem length_text_snoc (front : List Bytes) (last : Bytes) :
    (text (front ++ [last])).length = width (front ++ [last]) := by
  rw [width_snoc, text_snoc, List.length_append, List.length_cons]
  rfl

theorem width_replicate (n : Nat) (name : Bytes) :
    width (List.replicate n name) = n * (name.length + 1) := by
  induction n with
  | zero => simp [width]
  | succ n ih => rw [List.replicate_succ', width_snoc, ih, Nat.add_mul, Nat.one_mul, Nat.add_assoc]

theorem length_text_le (front : List Bytes) (last : Bytes) :
    (text front).length ≤ (text (front ++ [last])).length := by
  rw [text_snoc, List.length_append, List.length_cons]
  cases front with
  | nil =>
      show 1 ≤ _
      omega
  | cons name front =>
      rw [text_cons]
      exact Nat.le_add_right _ _

/-- The loop ends on every path, and it has not taken more than an `int` can count. -/
theorem nameRound_ends (path : Bytes) (pathLen : Int) :
    ∃ r, Ends (fun n => Lib.loop (nameRound path pathLen) n (-1, [])) r ∧
      ∀ names, r = .ok names → width names ≤ 2 ^ 31 - 2 := by
  refine ends_of_variant (fun s => (pathLen - s.1).toNat)
    (I := fun s => -1 ≤ s.1 ∧ (width s.2 : Int) ≤ s.1 + 1) ?_ ⟨by decide, by decide⟩
  rintro ⟨endName, taken⟩ ⟨hend, hwidth⟩
  dsimp only at hend hwidth
  match hb : setNameBound endName path pathLen with
  | .error e => exact Or.inr ⟨.error e, nameRound_error hb, fun _ h => (nomatch h)⟩
  | .ok none =>
      have hint := setNameBound_none hb
      refine Or.inr ⟨.ok taken, nameRound_stop hb, fun names h => ?_⟩
      cases h
      omega
  | .ok (some (startName, endName')) =>
      obtain ⟨hstart, hlt, hle⟩ := setNameBound_bounds hend hb
      have hname : (nameAt path startName endName').length ≤ (endName' - startName + 1).toNat := by
        unfold nameAt
        rw [slice_length]
        exact Nat.min_le_left _ _
      refine Or.inl ⟨_, nameRound_next hb, ⟨?_, ?_⟩, ?_⟩
      · dsimp only
        omega
      · dsimp only
        rw [width_snoc]
        omega
      · dsimp only
        omega

/-- Behind `front` the loop takes one name after the other, and stops behind the last. -/
theorem nameRound_names (names : List Bytes) (hnames : ∀ name ∈ names, IsComponent name)
    (front : Bytes) (taken : List Bytes) :
    let path := front ++ names.flatMap fun name => delimiter :: name
    path.length + 1 < 2 ^ 31 →
    Lib.loop (nameRound path path.length) (names.length + 1) (front.length - 1, taken) =
      some (.ok (taken ++ names)) := by
  intro path hlen
  induction names generalizing front taken with
  | nil =>
      have hpath : path = front := by simp [path]
      rw [hpath] at hlen ⊢
      rw [List.append_nil]
      exact loop_leave (nameRound_stop (setNameBound_end hlen)) 0
  | cons name names ih =>
      have hname := hnames name List.mem_cons_self
      have hrest : (names.flatMap fun name => delimiter :: name) = [] ∨
          (names.flatMap fun name => delimiter :: name).head? = some delimiter := by
        match names with
        | [] => exact Or.inl rfl
        | _ :: _ => exact Or.inr rfl
      have hpath : path = front ++ (delimiter :: name ++ names.flatMap fun name => delimiter :: name) :=
        rfl
      have hnext : path = (front ++ delimiter :: name) ++
          names.flatMap fun name => delimiter :: name := by
        rw [hpath]
        simp
      have hfront : front.length + 1 < 2 ^ 31 := by
        have hle : front.length ≤ path.length := by
          rw [hpath, List.length_append]
          exact Nat.le_add_right _ _
        omega
      obtain ⟨hbound, hslice⟩ := setNameBound_eq hname hrest hfront
      rw [← hpath] at hbound hslice
      have hround : nameRound path path.length (front.length - 1, taken) =
          .inl ((front.length : Int) + name.length, taken ++ [name]) := by
        rw [nameRound_next hbound, hslice]
      have hend : ((front ++ delimiter :: name).length : Int) - 1 = front.length + name.length := by
        simp
        omega
      have hrec := ih (fun n hn => hnames n (List.mem_cons_of_mem _ hn)) (front ++ delimiter :: name)
        (taken ++ [name])
      dsimp only at hrec
      rw [← hnext, hend] at hrec
      rw [List.length_cons, loop_round hround, hrec hlen]
      simp

/-- The names of a path whose length leaves room for the last sum. -/
theorem nameRound_text {path : List Bytes} (hpath : ∀ name ∈ path, IsComponent name)
    (hlen : (text path).length ≤ 2 ^ 31 - 2) :
    Lib.loop (nameRound (text path) (intLength (text path))) (path.length + 1) (-1, []) =
      some (.ok path) := by
  cases path with
  | nil => rfl
  | cons name path =>
      have hint : intLength (text (name :: path)) = (text (name :: path)).length :=
        Int.bmod_eq_of_le (by omega) (by omega)
      have hrec := nameRound_names (name :: path) hpath [] []
      rw [hint]
      exact hrec (by rw [text_cons] at hlen; rw [List.nil_append]; omega)

/-- With a length that is no more than 1, the path is taken for the root. -/
theorem takes_nothing {path : Bytes} (h : intLength path ≤ 1) : Takes path [] := by
  have hbound : setNameBound (-1) path (intLength path) = .ok none := by
    unfold setNameBound
    dsimp only
    rw [if_neg (by omega), if_pos (by omega)]
  exact ⟨1, loop_leave (nameRound_stop hbound) 0⟩

/-! ## The two parsers -/

/-- The loop takes the names of the path, the functions of `util/path.cpp` split off the last one,
    and the loop takes the others from what is left. -/
structure ParsersAgree (front : List Bytes) (last : Bytes) : Prop where
  all : Takes (text (front ++ [last])) (front ++ [last])
  parent : ∃ parent, getParentDirPath (text (front ++ [last])) = .ok parent ∧ Takes parent front ∧
    (front = [] → parent = [delimiter])
  filename : getFilenameFromPath (text (front ++ [last])) = .ok last

theorem ParsersAgree.length_le {front : List Bytes} {last : Bytes} (h : ParsersAgree front last) :
    (text (front ++ [last])).length ≤ 2 ^ 31 - 2 := by
  obtain ⟨r, hends, hwidth⟩ := nameRound_ends (text (front ++ [last]))
    (intLength (text (front ++ [last])))
  have hr := h.all.unique (loop_stable _ _) hends
  rw [length_text_snoc]
  exact hwidth _ hr.symm

/-- The parsers agree about a path if and only if two can be added to the index of its last byte. -/
theorem parsersAgree_iff (front : List Bytes) (last : Bytes)
    (hfront : ∀ name ∈ front, IsComponent name) (hlast : IsComponent last) :
    ParsersAgree front last ↔ (text (front ++ [last])).length ≤ 2 ^ 31 - 2 := by
  constructor
  · exact ParsersAgree.length_le
  · intro hlen
    have hall : ∀ name ∈ front ++ [last], IsComponent name := by
      intro name hmem
      obtain h | h := List.mem_append.mp hmem
      · exact hfront name h
      · exact List.mem_singleton.mp h ▸ hlast
    have hparent := Nat.le_trans (length_text_le front last) hlen
    constructor
    · exact ⟨_, nameRound_text hall hlen⟩
    · exact ⟨text front, getParentDirPath_text hlast, ⟨_, nameRound_text hfront hparent⟩,
        fun h => h ▸ rfl⟩
    · exact getFilenameFromPath_text hlast

theorem parsersAgree_iff_two : ParsersAgree [[97]] [98] :=
  (parsersAgree_iff [[97]] [98] (by decide) (by decide)).mpr (by decide)

/-- The longest name that a directory entry of Linux has. -/
def longName : Bytes := List.replicate 255 97

theorem isComponent_longName : IsComponent longName := by
  refine ⟨List.cons_ne_nil _ _, fun h => ?_⟩
  exact absurd (List.eq_of_mem_replicate h) (by decide)

/-- `path_len` is negative for a path of 2^31 bytes, and no name is taken. -/
theorem deep_path_has_no_names :
    (∀ name ∈ List.replicate (2 ^ 23 - 1) longName, IsComponent name) ∧
    Takes (text (List.replicate (2 ^ 23 - 1) longName ++ [longName])) [] ∧
    ¬ ParsersAgree (List.replicate (2 ^ 23 - 1) longName) longName := by
  have hlength : (text (List.replicate (2 ^ 23 - 1) longName ++ [longName])).length = 2 ^ 31 := by
    have hname : longName.length = 255 := List.length_replicate
    rw [length_text_snoc, width_snoc, width_replicate, hname]
    omega
  refine ⟨fun name hmem => ?_, takes_nothing ?_, fun h => ?_⟩
  · rw [List.eq_of_mem_replicate hmem]
    exact isComponent_longName
  · unfold intLength
    rw [hlength]
    decide
  · have hle := h.length_le
    omega

end PathTraversal

end Nmfs
