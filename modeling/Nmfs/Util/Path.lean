import Nmfs.Meta.Inode

/-
  `util/path.cpp`, and the names that `path_traversal` takes a path apart into. Paths come from
  FUSE: absolute, and no name in them is empty. On these the three agree about where a name ends.
-/

namespace Nmfs.Path

def delimiter : UInt8 := 47

/-- Where the last delimiter before position `n` is. -/
def lastDelimiter (path : Bytes) : Nat → Option Nat
  | 0 => none
  | n + 1 => if path[n]? = some delimiter then some n else lastDelimiter path n

theorem lastDelimiter_here {path : Bytes} {n : Nat} (h : path[n]? = some delimiter) :
    lastDelimiter path (n + 1) = some n := if_pos h

theorem lastDelimiter_before {path : Bytes} {n : Nat} (h : path[n]? ≠ some delimiter) :
    lastDelimiter path (n + 1) = lastDelimiter path n := if_neg h

theorem lastDelimiter_lt {path : Bytes} {n i : Nat} (h : lastDelimiter path n = some i) : i < n := by
  induction n with
  | zero => exact nomatch h
  | succ n ih =>
      by_cases hat : path[n]? = some delimiter
      · rw [lastDelimiter_here hat] at h
        cases h
        exact Nat.lt_succ_self _
      · rw [lastDelimiter_before hat] at h
        exact Nat.lt_succ_of_lt (ih h)

theorem lastDelimiter_eq_none_iff {path : Bytes} {n : Nat} :
    lastDelimiter path n = none ↔ ∀ i < n, path[i]? ≠ some delimiter := by
  induction n with
  | zero => simp [lastDelimiter]
  | succ n ih =>
      by_cases hat : path[n]? = some delimiter
      · rw [lastDelimiter_here hat]
        exact iff_of_false (fun h => nomatch h) fun h => h n (Nat.lt_succ_self n) hat
      · rw [lastDelimiter_before hat, ih]
        constructor
        · intro h i hi
          obtain hlt | rfl := Nat.lt_succ_iff_lt_or_eq.mp hi
          · exact h i hlt
          · exact hat
        · exact fun h i hi => h i (Nat.lt_succ_of_lt hi)

/-- No delimiter is found exactly if there is none. -/
theorem lastDelimiter_length_eq_none_iff {path : Bytes} :
    lastDelimiter path path.length = none ↔ delimiter ∉ path := by
  rw [lastDelimiter_eq_none_iff]
  constructor
  · intro h hmem
    obtain ⟨i, hi⟩ := List.mem_iff_getElem?.mp hmem
    exact h i (List.getElem?_eq_some_iff.mp hi).1 hi
  · exact fun h i _ hat => h (List.mem_of_getElem? hat)

theorem exists_lastDelimiter {path : Bytes} (h : delimiter ∈ path) :
    ∃ i, lastDelimiter path path.length = some i := by
  apply Option.ne_none_iff_exists'.mp
  rw [ne_eq, lastDelimiter_length_eq_none_iff]
  exact not_not_intro h

def getParentDirPath (path : Bytes) : Except Err Bytes :=
  if path = [] then .error (.runtimeError "Invalid path: path is empty string")
  else
    match lastDelimiter path path.length with
    | some (i + 1) => .ok (path.take (i + 1))
    | some 0 => .ok (path.take 1)
    | none => .error (.runtimeError "Invalid path: No delimiter on path")

/-- Without a delimiter the loop runs past the front. -/
def getFilenameFromPath (path : Bytes) : Except Err Bytes :=
  if path = [] then .error (.runtimeError "Invalid path: path is empty string")
  else if path = [delimiter] then .ok path
  else
    match lastDelimiter path path.length with
    | some i => .ok (path.drop (i + 1))
    | none => .error .undefined

/-- The rounds of `set_name_bound`; `rest` begins where a name does. -/
def namesFrom : Nat → Bytes → List Bytes
  | 0, _ => []
  | n + 1, rest =>
    if rest = [] then []
    else
      let name := rest.takeWhile (· ≠ delimiter)
      name :: namesFrom n (rest.drop (name.length + 1))

/-- The first byte is not looked at. -/
def names (path : Bytes) : List Bytes := namesFrom path.length (path.drop 1)

/-! ## Paths of names -/

def IsComponent (name : Bytes) : Prop := name ≠ [] ∧ delimiter ∉ name

instance (name : Bytes) : Decidable (IsComponent name) := inferInstanceAs (Decidable (_ ∧ _))

def text : List Bytes → Bytes
  | [] => [delimiter]
  | name :: path => (name :: path).flatMap fun name => delimiter :: name

theorem text_cons (name : Bytes) (path : List Bytes) :
    text (name :: path) = (name :: path).flatMap fun name => delimiter :: name := rfl

theorem text_snoc (path : List Bytes) (name : Bytes) :
    text (path ++ [name]) =
      (path.flatMap fun name => delimiter :: name) ++ delimiter :: name := by
  have hne : ∃ a l, path ++ [name] = a :: l := by
    cases path with
    | nil => exact ⟨name, [], rfl⟩
    | cons a l => exact ⟨a, l ++ [name], rfl⟩
  obtain ⟨a, l, hal⟩ := hne
  rw [hal, text_cons, ← hal, List.flatMap_append]
  simp

theorem lastDelimiter_append {front name : Bytes} (h : delimiter ∉ name) (n : Nat)
    (hn : n ≤ name.length) :
    lastDelimiter (front ++ delimiter :: name) (front.length + 1 + n) = some front.length := by
  induction n with
  | zero =>
      apply lastDelimiter_here
      simp
  | succ n ih =>
      have hat : (front ++ delimiter :: name)[front.length + 1 + n]? = name[n]? := by
        rw [List.getElem?_append_right (by omega)]
        have : front.length + 1 + n - front.length = n + 1 := by omega
        rw [this]
        rfl
      have hne : (front ++ delimiter :: name)[front.length + 1 + n]? ≠ some delimiter := by
        rw [hat]
        exact fun heq => h (List.mem_of_getElem? heq)
      exact (lastDelimiter_before hne).trans (ih (by omega))

theorem lastDelimiter_text {path : List Bytes} {name : Bytes} (h : IsComponent name) :
    lastDelimiter (text (path ++ [name])) (text (path ++ [name])).length =
      some (path.flatMap fun name => delimiter :: name).length := by
  rw [text_snoc]
  have hlen : ((path.flatMap fun name => delimiter :: name) ++ delimiter :: name).length =
      (path.flatMap fun name => delimiter :: name).length + 1 + name.length := by
    rw [List.length_append, List.length_cons]
    omega
  rw [hlen]
  exact lastDelimiter_append h.2 name.length (Nat.le_refl _)

theorem text_ne_nil (path : List Bytes) : text path ≠ [] := by
  cases path with
  | nil => exact List.cons_ne_nil _ _
  | cons name path =>
      rw [text_cons, List.flatMap_cons]
      exact List.cons_ne_nil _ _

theorem getParentDirPath_text {path : List Bytes} {name : Bytes} (h : IsComponent name) :
    getParentDirPath (text (path ++ [name])) = .ok (text path) := by
  unfold getParentDirPath
  rw [if_neg (text_ne_nil _), lastDelimiter_text h]
  cases path with
  | nil => rfl
  | cons first path =>
      rw [text_snoc, text_cons]
      have hpos : ∃ i, ((first :: path).flatMap fun name => delimiter :: name).length = i + 1 :=
        ⟨_, rfl⟩
      obtain ⟨i, hi⟩ := hpos
      rw [hi]
      dsimp only
      rw [← hi, List.take_left]

theorem getFilenameFromPath_text {path : List Bytes} {name : Bytes} (h : IsComponent name) :
    getFilenameFromPath (text (path ++ [name])) = .ok name := by
  unfold getFilenameFromPath
  have hroot : text (path ++ [name]) ≠ [delimiter] := by
    intro heq
    have hlen := congrArg List.length heq
    rw [text_snoc, List.length_append, List.length_cons, List.length_singleton] at hlen
    exact h.1 (List.eq_nil_of_length_eq_zero (by omega))
  rw [if_neg (text_ne_nil _), if_neg hroot, lastDelimiter_text h]
  dsimp only
  rw [text_snoc, List.drop_append]
  simp

/-- A file name is found where there is a delimiter. -/
theorem getFilenameFromPath_ok_iff {path : Bytes} :
    (∃ name, getFilenameFromPath path = .ok name) ↔ delimiter ∈ path := by
  unfold getFilenameFromPath
  by_cases hnil : path = []
  · rw [if_pos hnil, hnil]
    exact iff_of_false nofun (List.not_mem_nil)
  rw [if_neg hnil]
  by_cases hroot : path = [delimiter]
  · rw [if_pos hroot, hroot]
    exact iff_of_true ⟨_, rfl⟩ (List.mem_singleton.mpr rfl)
  rw [if_neg hroot]
  cases hlast : lastDelimiter path path.length with
  | none => exact iff_of_false nofun (lastDelimiter_length_eq_none_iff.mp hlast)
  | some i =>
      refine iff_of_true ⟨_, rfl⟩ ?_
      by_contra hno
      rw [lastDelimiter_length_eq_none_iff.mpr hno] at hlast
      cases hlast

theorem namesFrom_flatMap {path : List Bytes} (h : ∀ name ∈ path, IsComponent name) (n : Nat)
    (hn : (path.flatMap fun name => delimiter :: name).length ≤ n) :
    namesFrom n ((path.flatMap fun name => delimiter :: name).drop 1) = path := by
  induction path generalizing n with
  | nil => cases n <;> rfl
  | cons name path ih =>
      have hname := h name List.mem_cons_self
      have hrest : ((name :: path).flatMap fun name => delimiter :: name).drop 1 =
          name ++ path.flatMap fun name => delimiter :: name := by
        rw [List.flatMap_cons]
        rfl
      rw [List.flatMap_cons, List.length_append, List.length_cons] at hn
      obtain ⟨n, rfl⟩ : ∃ k, n = k + 1 := ⟨n - 1, by omega⟩
      have htake : (name ++ path.flatMap fun name => delimiter :: name).takeWhile
          (· ≠ delimiter) = name := by
        rw [List.takeWhile_append_of_pos]
        · cases path with
          | nil => simp
          | cons first path => simp [List.flatMap_cons]
        · intro b hb
          exact decide_eq_true fun hd => hname.2 (hd ▸ hb)
      rw [hrest]
      unfold namesFrom
      have hne : name ++ (path.flatMap fun name => delimiter :: name) ≠ [] := by
        intro heq
        exact hname.1 (List.append_eq_nil_iff.mp heq).1
      rw [if_neg hne]
      dsimp only
      rw [htake]
      congr 1
      have hdrop : (name ++ path.flatMap fun name => delimiter :: name).drop (name.length + 1) =
          (path.flatMap fun name => delimiter :: name).drop 1 := by
        rw [List.drop_append]
        simp
      rw [hdrop]
      exact ih (fun c hc => h c (List.mem_cons_of_mem _ hc)) n (by omega)

theorem names_text {path : List Bytes} (h : ∀ name ∈ path, IsComponent name) :
    names (text path) = path := by
  cases path with
  | nil => rfl
  | cons name path => exact namesFrom_flatMap h _ (Nat.le_refl _)

theorem text_inj {path path' : List Bytes} (h : ∀ name ∈ path, IsComponent name)
    (h' : ∀ name ∈ path', IsComponent name) (heq : text path = text path') : path = path' := by
  rw [← names_text h, heq, names_text h']

end Nmfs.Path
