import Nmfs.Lib.Namespace
import Nmfs.Lib.Op

/-
  A file tree: nodes with named entries, some of them directories. A change names a node by a path
  from the root to the directory that it is in, and by its name there.
-/

namespace Nmfs.Lib

@[ext]
structure FileTree (α β : Type) where
  entries : α → β → Option α
  isDir : α → Bool

namespace FileTree

open Namespace Relation

/-- Why a change is refused. -/
inductive Refusal where
  /-- the path does not lead to a directory, or nothing has the name there -/
  | absent
  | taken
  | isDir
  | notDir
  | full
  /-- a directory would be below itself -/
  | below
  deriving DecidableEq

inductive Change (α β : Type) where
  /-- `x` is the new node -/
  | make (path : List β) (name : β) (x : α) (isDir : Bool)
  | remove (path : List β) (name : β)
  | removeDir (path : List β) (name : β)
  | move (oldPath : List β) (oldName : β) (newPath : List β) (newName : β)

/-- To the directory of the node that is changed. -/
def Change.path {α β : Type} : Change α β → List β
  | make path _ _ _ | remove path _ | removeDir path _ | move path _ _ _ => path

variable {α β : Type} {t t' : FileTree α β} {a b d u x root : α} {n m k : β} {p q : List β}

def entry (t : FileTree α β) (d : α) (n : β) : Except Refusal α :=
  match t.entries d n with
  | some x => .ok x
  | none => .error .absent

/-- The directory that a path leads to. -/
def find (t : FileTree α β) : α → List β → Except Refusal α
  | d, [] => if t.isDir d then .ok d else .error .absent
  | d, n :: path => do
    let x ← t.entry d n
    t.find x path

theorem entry_some (h : t.entries d n = some x) : t.entry d n = .ok x := by
  unfold entry
  rw [h]

theorem entry_none (h : t.entries d n = none) : t.entry d n = .error .absent := by
  unfold entry
  rw [h]

theorem entry_eq_ok : t.entry d n = .ok x ↔ t.entries d n = some x := by
  cases h : t.entries d n with
  | none =>
      rw [entry_none h]
      exact ⟨nofun, nofun⟩
  | some y =>
      rw [entry_some h]
      exact ⟨fun hx => congrArg some (Except.ok.inj hx), fun hx => congrArg _ (Option.some.inj hx)⟩

theorem find_nil (h : t.isDir d = true) : t.find d [] = .ok d := if_pos h

theorem find_cons : t.find d (n :: p) = t.entry d n >>= fun x => t.find x p := rfl

theorem find_cons_some (h : t.entries d n = some x) : t.find d (n :: p) = t.find x p := by
  rw [find_cons, entry_some h]
  rfl

theorem find_cons_none (h : t.entries d n = none) : t.find d (n :: p) = .error .absent := by
  rw [find_cons, entry_none h]
  rfl

theorem find_error {e : Refusal} (h : t.find d p = .error e) : e = .absent := by
  induction p generalizing d with
  | nil =>
      unfold find at h
      split at h
      · cases h
      · exact (Except.error.inj h).symm
  | cons n p ih =>
      cases hd : t.entries d n with
      | none =>
          rw [find_cons_none hd] at h
          exact (Except.error.inj h).symm
      | some x =>
          rw [find_cons_some hd] at h
          exact ih h

theorem find_eq_ok : t.find d p = .ok a ↔ walk t.entries d p = some a ∧ t.isDir a = true := by
  induction p generalizing d with
  | nil =>
      unfold find
      constructor
      · intro h
        split at h
        · rename_i hd
          cases h
          exact ⟨rfl, hd⟩
        · cases h
      · rintro ⟨h, ha⟩
        cases h
        rw [if_pos ha]
  | cons n p ih =>
      rw [walk_cons]
      cases hd : t.entries d n with
      | none =>
          rw [find_cons_none hd]
          exact ⟨nofun, fun ⟨⟨_, hx, _⟩, _⟩ => nomatch hx⟩
      | some x =>
          rw [find_cons_some hd, ih]
          constructor
          · rintro ⟨hw, ha⟩
            exact ⟨⟨x, rfl, hw⟩, ha⟩
          · rintro ⟨⟨y, hy, hw⟩, ha⟩
            cases hy
            exact ⟨hw, ha⟩

theorem find_bind {γ : Type} (h : t.find d p = .ok a) (f : α → Except Refusal γ) :
    t.find d p >>= f = f a := by
  rw [h]
  rfl

theorem reach_of_find (h : t.find d p = .ok a) : Reach t.entries d a :=
  Reach.of_walk (find_eq_ok.mp h).1

theorem isDir_of_find (h : t.find d p = .ok a) : t.isDir a = true := (find_eq_ok.mp h).2

section

variable [DecidableEq α] [DecidableEq β]

def made (t : FileTree α β) (d : α) (n : β) (x : α) (isDir : Bool) : FileTree α β where
  entries := set t.entries d n (some x)
  isDir := Function.update t.isDir x isDir

def removed (t : FileTree α β) (d : α) (n : β) : FileTree α β :=
  { t with entries := set t.entries d n none }

def removedDir (t : FileTree α β) (d : α) (n : β) (x : α) : FileTree α β where
  entries := set t.entries d n none
  isDir := Function.update t.isDir x false

def moved (t : FileTree α β) (a : α) (n : β) (b : α) (m : β) : FileTree α β :=
  { t with entries := move t.entries a n b m }

/-- What has the new name goes first, then the old name. -/
theorem moved_within (hx : t.entries a n = some x) (hne : m ≠ n) :
    { (t.removed a m).removed a n with
      entries := set ((t.removed a m).removed a n).entries a m (some x) } = t.moved a n a m := by
  have he : set (set (set t.entries a m none) a n none) a m (some x) = move t.entries a n a m := by
    rw [set_comm fun h => hne h.2, set_set, ← hx]
    rfl
  exact FileTree.ext he rfl

theorem moved_across (hx : t.entries a n = some x) :
    { (t.removed a n).removed b m with
      entries := set ((t.removed a n).removed b m).entries b m (some x) } = t.moved a n b m := by
  have he : set (set (set t.entries a n none) b m none) b m (some x) = move t.entries a n b m := by
    rw [set_set, ← hx]
    rfl
  exact FileTree.ext he rfl

open Classical in
/-- A file may be replaced by a file when a node is moved, and nothing else. -/
noncomputable def perform (t : FileTree α β) (root : α) :
    Change α β → Except Refusal (FileTree α β)
  | .make path name x isDir => do
    let d ← t.find root path
    if (t.entries d name).isSome then .error .taken else .ok (t.made d name x isDir)
  | .remove path name => do
    let d ← t.find root path
    let x ← t.entry d name
    if t.isDir x then .error .isDir else .ok (t.removed d name)
  | .removeDir path name => do
    let d ← t.find root path
    let x ← t.entry d name
    if t.isDir x = false then .error .notDir
    else if ∃ k, t.entries x k ≠ none then .error .full
    else .ok (t.removedDir d name x)
  | .move oldPath oldName newPath newName => do
    let a ← t.find root oldPath
    let b ← t.find root newPath
    let x ← t.entry a oldName
    if Reach t.entries x b then .error .below
    else
      match t.entries b newName with
      | none => .ok (t.moved a oldName b newName)
      | some y =>
        if t.isDir y then .error .isDir
        else if t.isDir x then .error .notDir
        else .ok (t.moved a oldName b newName)

theorem removed_absent (h : t.entries d n = none) : t.removed d n = t := by
  have he : set t.entries d n none = t.entries := by
    funext c k
    by_cases hc : c = d ∧ k = n
    · obtain ⟨rfl, rfl⟩ := hc
      rw [set_self, h]
    · exact set_of_ne hc
  unfold removed
  rw [he]

/-- A change that is refused changes nothing. -/
noncomputable def after (root : α) (t : FileTree α β) (c : Change α β) : FileTree α β :=
  match t.perform root c with
  | .ok t' => t'
  | .error _ => t

theorem after_ok {c : Change α β} (h : t.perform root c = .ok t') : after root t c = t' := by
  unfold after
  rw [h]

theorem after_error {c : Change α β} {e : Refusal} (h : t.perform root c = .error e) :
    after root t c = t := by
  unfold after
  rw [h]

/-! ## What a change comes to -/

theorem perform_lost {c : Change α β} {e : Refusal} (h : t.find root c.path = .error e) :
    t.perform root c = .error .absent := by
  have hlost : ∀ f : α → Except Refusal (FileTree α β),
      (t.find root c.path >>= f) = .error .absent := by
    intro f
    rw [h, find_error h]
    rfl
  cases c with
  | make path name x isDir => exact hlost _
  | remove path name => exact hlost _
  | removeDir path name => exact hlost _
  | move oldPath oldName newPath newName => exact hlost _

theorem perform_make {isDir : Bool} (h : t.find root p = .ok d) :
    t.perform root (.make p n x isDir) =
      if (t.entries d n).isSome then .error .taken else .ok (t.made d n x isDir) :=
  find_bind h _

theorem perform_remove (h : t.find root p = .ok d) :
    t.perform root (.remove p n) =
      t.entry d n >>= fun x => if t.isDir x then .error .isDir else .ok (t.removed d n) :=
  find_bind h _

open Classical in
theorem perform_removeDir (h : t.find root p = .ok d) :
    t.perform root (.removeDir p n) =
      t.entry d n >>= fun x =>
        if t.isDir x = false then .error .notDir
        else if ∃ k, t.entries x k ≠ none then .error .full
        else .ok (t.removedDir d n x) :=
  find_bind h _

open Classical in
theorem perform_move (ha : t.find root p = .ok a) (hb : t.find root q = .ok b) :
    t.perform root (.move p n q m) =
      t.entry a n >>= fun x =>
        if Reach t.entries x b then .error .below
        else
          match t.entries b m with
          | none => .ok (t.moved a n b m)
          | some y =>
            if t.isDir y then .error .isDir
            else if t.isDir x then .error .notDir
            else .ok (t.moved a n b m) :=
  (find_bind ha _).trans (find_bind hb _)

theorem perform_move_lost {e : Refusal} (ha : t.find root p = .ok a)
    (hb : t.find root q = .error e) : t.perform root (.move p n q m) = .error .absent := by
  refine (find_bind ha _).trans ?_
  rw [hb, find_error hb]
  rfl

theorem perform_move_absent (ha : t.find root p = .ok a) (hb : t.find root q = .ok b)
    (hn : t.entries a n = none) : t.perform root (.move p n q m) = .error .absent := by
  rw [perform_move ha hb, entry_none hn]
  rfl

theorem made_of_perform {isDir : Bool} (h : t.perform root (.make p n x isDir) = .ok t') :
    ∃ d, t.find root p = .ok d ∧ t.entries d n = none ∧ t' = t.made d n x isDir := by
  obtain ⟨d, hd, h⟩ := bind_eq_ok.mp h
  split at h
  · cases h
  · rename_i hn
    exact ⟨d, hd, Option.not_isSome_iff_eq_none.mp hn, (Except.ok.inj h).symm⟩

theorem removed_of_perform (h : t.perform root (.remove p n) = .ok t') :
    ∃ d x, t.find root p = .ok d ∧ t.entries d n = some x ∧ t.isDir x = false ∧
      t' = t.removed d n := by
  obtain ⟨d, hd, h⟩ := bind_eq_ok.mp h
  obtain ⟨x, hx, h⟩ := bind_eq_ok.mp h
  split at h
  · cases h
  · rename_i hdir
    exact ⟨d, x, hd, entry_eq_ok.mp hx, Bool.not_eq_true _ ▸ hdir, (Except.ok.inj h).symm⟩

theorem removedDir_of_perform (h : t.perform root (.removeDir p n) = .ok t') :
    ∃ d x, t.find root p = .ok d ∧ t.entries d n = some x ∧ (∀ k, t.entries x k = none) ∧
      t' = t.removedDir d n x := by
  obtain ⟨d, hd, h⟩ := bind_eq_ok.mp h
  obtain ⟨x, hx, h⟩ := bind_eq_ok.mp h
  split at h
  · cases h
  split at h
  · cases h
  · rename_i hempty
    exact ⟨d, x, hd, entry_eq_ok.mp hx, fun k => not_not.mp (not_exists.mp hempty k),
      (Except.ok.inj h).symm⟩

theorem moved_of_perform (h : t.perform root (.move p n q m) = .ok t') :
    ∃ a b x, t.find root p = .ok a ∧ t.find root q = .ok b ∧ t.entries a n = some x ∧
      ¬ Reach t.entries x b ∧ (∀ y, t.entries b m = some y → t.isDir y = false) ∧
      t' = t.moved a n b m := by
  obtain ⟨a, ha, h⟩ := bind_eq_ok.mp h
  obtain ⟨b, hb, h⟩ := bind_eq_ok.mp h
  obtain ⟨x, hx, h⟩ := bind_eq_ok.mp h
  refine ⟨a, b, x, ha, hb, entry_eq_ok.mp hx, ?_⟩
  split at h
  · cases h
  rename_i hbelow
  split at h
  · rename_i hm
    refine ⟨hbelow, fun y hy => ?_, (Except.ok.inj h).symm⟩
    rw [hm] at hy
    cases hy
  · rename_i y hm
    split at h
    · cases h
    rename_i hdir
    split at h
    · cases h
    · refine ⟨hbelow, fun z hz => ?_, (Except.ok.inj h).symm⟩
      obtain rfl : y = z := Option.some.inj (hm.symm.trans hz)
      exact Bool.not_eq_true _ ▸ hdir

open Classical in
theorem refusal_removeDir {e : Refusal} (h : t.perform root (.removeDir p n) = .error e) :
    e ∈ [Refusal.absent, .notDir, .full] := by
  cases hd : t.find root p with
  | error e' =>
      rw [perform_lost (c := .removeDir p n) hd] at h
      cases h
      decide
  | ok d =>
      rw [perform_removeDir hd] at h
      cases hx : t.entries d n with
      | none =>
          rw [entry_none hx] at h
          cases h
          decide
      | some x =>
          rw [entry_some hx] at h
          have hif : (if t.isDir x = false then .error .notDir
              else if ∃ k, t.entries x k ≠ none then .error .full
              else .ok (t.removedDir d n x) : Except Refusal (FileTree α β)) = .error e := h
          split at hif
          · cases hif
            decide
          split at hif
          · cases hif
            decide
          · cases hif

open Classical in
/-- A move of what is there, where nothing but an absence would be refused. -/
theorem perform_move_done (ha : t.find root p = .ok a) (hb : t.find root q = .ok b)
    (hx : t.entries a n = some x)
    (honly : ∀ e, t.perform root (.move p n q m) = .error e → e = .absent) :
    t.perform root (.move p n q m) = .ok (t.moved a n b m) := by
  cases hc : t.perform root (.move p n q m) with
  | ok t' =>
      obtain ⟨a', b', -, ha', hb', -, -, -, rfl⟩ := moved_of_perform hc
      rw [ha] at ha'
      rw [hb] at hb'
      cases ha'
      cases hb'
      rfl
  | error e =>
      obtain rfl := honly e hc
      rw [perform_move ha hb, entry_some hx] at hc
      have hif : (if Reach t.entries x b then .error .below
          else match t.entries b m with
            | none => .ok (t.moved a n b m)
            | some y => if t.isDir y then .error .isDir
              else if t.isDir x then .error .notDir else .ok (t.moved a n b m) :
            Except Refusal (FileTree α β)) = .error .absent := hc
      split at hif
      · cases hif
      split at hif
      · cases hif
      split at hif
      · cases hif
      split at hif
      · cases hif
      · cases hif

/-! ## A tree stays a tree -/

/-- Only directories have entries, and every directory is below the root. -/
structure IsTree (t : FileTree α β) (root : α) : Prop where
  forest : Forest t.entries root
  rootDir : t.isDir root = true
  parent : ∀ d n x, t.entries d n = some x → t.isDir d = true
  reached : ∀ d, t.isDir d = true → Reach t.entries root d

omit [DecidableEq α] [DecidableEq β] in
theorem IsTree.leaf (h : t.IsTree root) (hx : t.isDir x = false) (k : β) : t.entries x k = none := by
  by_contra hne
  obtain ⟨c, hc⟩ := Option.ne_none_iff_exists'.mp hne
  rw [h.parent x k c hc] at hx
  cases hx

/-- Without an entry of a node that has none itself, the others are where they were. -/
theorem reach_removed (hx : t.entries d n = some x)
    (hleaf : ∀ k, t.entries x k = none) (hu : Reach t.entries root u) (hne : u ≠ x) :
    Reach (set t.entries d n none) root u := by
  induction hu with
  | refl => exact .refl
  | @tail c u _ he ih =>
      obtain ⟨k, hk⟩ := he
      have hc : c ≠ x := by
        rintro rfl
        rw [hleaf k] at hk
        cases hk
      have hother : ¬ (c = d ∧ k = n) := by
        rintro ⟨rfl, rfl⟩
        exact hne (Option.some.inj (hk.symm.trans hx))
      exact (ih hc).tail ⟨k, (set_of_ne hother).trans hk⟩

/-- A node that is nowhere yet. -/
structure New (t : FileTree α β) (root x : α) : Prop where
  notRoot : x ≠ root
  notDir : t.isDir x = false
  noEntry : ∀ d n, t.entries d n ≠ some x

theorem IsTree.made (h : t.IsTree root) (hx : t.New root x) (hd : t.isDir d = true)
    (hn : t.entries d n = none) (isDir : Bool) : (t.made d n x isDir).IsTree root := by
  have hold : ∀ {u}, t.isDir u = true → u ≠ x := by
    rintro u hu rfl
    rw [hx.notDir] at hu
    cases hu
  have hkept : ∀ {u}, t.isDir u = true → (t.made d n x isDir).isDir u = true :=
    fun hu => (Function.update_of_ne (hold hu) _ _).trans hu
  have hreach : ∀ {u}, Reach t.entries root u → Reach (t.made d n x isDir).entries root u := by
    intro u hu
    refine ReflTransGen.mono (p := Edge (t.made d n x isDir).entries) ?_ _ _ hu
    rintro c e ⟨k, hk⟩
    refine ⟨k, (set_of_ne ?_).trans hk⟩
    rintro ⟨rfl, rfl⟩
    rw [hn] at hk
    cases hk
  refine ⟨h.forest.add hx.noEntry hx.notRoot, hkept h.rootDir, ?_, ?_⟩
  · intro c k u hu
    rcases set_some_eq_some hu with ⟨⟨rfl, -⟩, -⟩ | hu
    · exact hkept hd
    · exact hkept (h.parent c k u hu)
  · intro u hu
    by_cases hux : u = x
    · subst hux
      exact (hreach (h.reached d hd)).tail ⟨n, set_self⟩
    · exact hreach (h.reached u ((Function.update_of_ne hux _ _).symm.trans hu))

theorem IsTree.removed (h : t.IsTree root) (hx : t.entries d n = some x)
    (hfile : t.isDir x = false) : (t.removed d n).IsTree root := by
  refine ⟨h.forest.subset fun _ _ _ => set_none_subset, h.rootDir, ?_, fun u hu => ?_⟩
  · exact fun c k u hu => h.parent c k u (set_none_subset hu)
  · refine reach_removed hx (h.leaf hfile) (h.reached u hu) ?_
    rintro rfl
    rw [show t.isDir u = true from hu] at hfile
    cases hfile

theorem IsTree.removedDir (h : t.IsTree root) (hx : t.entries d n = some x)
    (hempty : ∀ k, t.entries x k = none) : (t.removedDir d n x).IsTree root := by
  have hkept : ∀ {u}, t.isDir u = true → u ≠ x → (t.removedDir d n x).isDir u = true :=
    fun hu hne => (Function.update_of_ne hne _ _).trans hu
  refine ⟨h.forest.subset fun _ _ _ => set_none_subset, hkept h.rootDir ?_, ?_, fun u hu => ?_⟩
  · exact fun heq => h.forest.rooted d n (heq ▸ hx)
  · intro c k u hu
    have hold := set_none_subset hu
    refine hkept (h.parent c k u hold) ?_
    rintro rfl
    rw [hempty k] at hold
    cases hold
  · have hne : u ≠ x := by
      rintro rfl
      have hu' : Function.update t.isDir u false u = true := hu
      rw [Function.update_self] at hu'
      cases hu'
    exact reach_removed hx hempty
      (h.reached u ((Function.update_of_ne hne _ _).symm.trans hu)) hne

theorem IsTree.moved (h : t.IsTree root) (hx : t.entries a n = some x) (hb : t.isDir b = true)
    (hnot : ¬ Reach t.entries x b) (hfile : ∀ y, t.entries b m = some y → t.isDir y = false) :
    (t.moved a n b m).IsTree root := by
  refine ⟨h.forest.move, h.rootDir, fun c k u hu => ?_, fun u hu => ?_⟩
  · rcases move_eq_some hu with ⟨⟨rfl, -⟩, -⟩ | ⟨-, -, hu⟩
    · exact hb
    · exact h.parent c k u hu
  · refine h.forest.reach_move hx (h.reached b hb) hnot (fun y hy k c hc => ?_) (h.reached u hu) ?_
    · rw [h.leaf (hfile y hy) k] at hc
      cases hc
    · intro hm
      have hfile := hfile u hm
      rw [show t.isDir u = true from hu] at hfile
      cases hfile

/-- The condition on what a change brings along. -/
def Fits (t : FileTree α β) (root : α) : Change α β → Prop
  | .make _ _ x _ => t.New root x
  | _ => True

theorem IsTree.perform (h : t.IsTree root) {c : Change α β} (hfits : t.Fits root c)
    (hc : t.perform root c = .ok t') : t'.IsTree root := by
  cases c with
  | make path name x isDir =>
      obtain ⟨d, hd, hn, rfl⟩ := made_of_perform hc
      exact h.made hfits (isDir_of_find hd) hn isDir
  | remove path name =>
      obtain ⟨d, x, -, hx, hfile, rfl⟩ := removed_of_perform hc
      exact h.removed hx hfile
  | removeDir path name =>
      obtain ⟨d, x, -, hx, hempty, rfl⟩ := removedDir_of_perform hc
      exact h.removedDir hx hempty
  | move oldPath oldName newPath newName =>
      obtain ⟨a, b, x, -, hb, hx, hnot, hfile, rfl⟩ := moved_of_perform hc
      exact h.moved hx (isDir_of_find hb) hnot hfile

theorem IsTree.after (h : t.IsTree root) {c : Change α β} (hfits : t.Fits root c) :
    (after root t c).IsTree root := by
  cases hc : t.perform root c with
  | ok t' =>
      rw [after_ok hc]
      exact h.perform hfits hc
  | error e =>
      rw [after_error hc]
      exact h

end

end FileTree

end Nmfs.Lib
