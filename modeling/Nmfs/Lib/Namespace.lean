import Mathlib.Data.List.Induction
import Mathlib.Logic.Relation

/-
  Nodes with named entries: `f a n` is the node that `a` has under the name `n`. Below a root that no
  entry leads to, where every node has one entry at most, the entries are a tree.

  `move` gives an entry another place. What it keeps, and what is lost by it, are
  `reach_move_iff` for the nodes and `walk_move` for the paths.
-/

namespace Nmfs.Lib.Namespace

open Relation

variable {α β : Type}

def Edge (f : α → β → Option α) (a b : α) : Prop := ∃ n, f a n = some b

abbrev Reach (f : α → β → Option α) : α → α → Prop := ReflTransGen (Edge f)

/-- Every node has one entry at most, and the root has none. -/
structure Forest (f : α → β → Option α) (root : α) : Prop where
  unique : ∀ a n a' n' b, f a n = some b → f a' n' = some b → a = a' ∧ n = n'
  rooted : ∀ a n, f a n ≠ some root

def Acyclic (f : α → β → Option α) : Prop := ∀ a, ¬ TransGen (Edge f) a a

/-- The node at the end of a path. -/
def walk (f : α → β → Option α) : α → List β → Option α
  | a, [] => some a
  | a, n :: path => (f a n).bind fun b => walk f b path

/-! ## Paths -/

section

variable {f g : α → β → Option α} {a b c x root : α} {n m : β} {p q : List β}

theorem walk_cons : walk f a (n :: p) = some c ↔ ∃ b, f a n = some b ∧ walk f b p = some c :=
  Option.bind_eq_some_iff

theorem walk_append :
    walk f a (p ++ q) = some c ↔ ∃ b, walk f a p = some b ∧ walk f b q = some c := by
  induction p generalizing a with
  | nil => exact ⟨fun h => ⟨a, rfl, h⟩, fun ⟨b, hb, h⟩ => Option.some.inj hb ▸ h⟩
  | cons n p ih =>
      rw [List.cons_append, walk_cons]
      constructor
      · intro ⟨d, hd, h⟩
        obtain ⟨b, hb, h⟩ := ih.mp h
        exact ⟨b, walk_cons.mpr ⟨d, hd, hb⟩, h⟩
      · intro ⟨b, hb, h⟩
        obtain ⟨d, hd, hb⟩ := walk_cons.mp hb
        exact ⟨d, hd, ih.mpr ⟨b, hb, h⟩⟩

theorem walk_snoc :
    walk f a (p ++ [n]) = some c ↔ ∃ b, walk f a p = some b ∧ f b n = some c := by
  rw [walk_append]
  constructor
  · intro ⟨b, hb, h⟩
    obtain ⟨d, hd, h⟩ := walk_cons.mp h
    cases h
    exact ⟨b, hb, hd⟩
  · intro ⟨b, hb, h⟩
    exact ⟨b, hb, walk_cons.mpr ⟨c, h, rfl⟩⟩

theorem reach_iff_walk : Reach f a b ↔ ∃ p, walk f a p = some b := by
  constructor
  · intro h
    induction h with
    | refl => exact ⟨[], rfl⟩
    | tail _ he ih =>
        obtain ⟨p, hp⟩ := ih
        obtain ⟨n, hn⟩ := he
        exact ⟨p ++ [n], walk_snoc.mpr ⟨_, hp, hn⟩⟩
  · intro ⟨p, hp⟩
    induction p generalizing a with
    | nil =>
        cases hp
        exact .refl
    | cons n p ih =>
        obtain ⟨d, hd, hp⟩ := walk_cons.mp hp
        exact .head ⟨n, hd⟩ (ih hp)

theorem Reach.of_walk (h : walk f a p = some b) : Reach f a b := reach_iff_walk.mpr ⟨p, h⟩

theorem Forest.subset (h : Forest f root) (hsub : ∀ d k u, g d k = some u → f d k = some u) :
    Forest g root where
  unique := fun d k d' k' u hd hd' => h.unique d k d' k' u (hsub d k u hd) (hsub d' k' u hd')
  rooted := fun d k hd => h.rooted d k (hsub d k root hd)

theorem Acyclic.subset (h : Acyclic f) (hsub : ∀ d k u, g d k = some u → f d k = some u) :
    Acyclic g := by
  have hedge : ∀ d u, Edge g d u → Edge f d u := fun d u ⟨k, hk⟩ => ⟨k, hsub d k u hk⟩
  exact fun d hd => h d (TransGen.mono hedge d d hd)

/-- A node below the root is on no cycle. -/
theorem Forest.acyclic_of_reach (h : Forest f root) (ha : Reach f root a) :
    ¬ TransGen (Edge f) a a := by
  induction ha with
  | refl =>
      intro hc
      obtain ⟨b, -, n, hb⟩ := TransGen.tail'_iff.mp hc
      exact h.rooted b n hb
  | tail hd he ih =>
      intro hc
      -- the last step of the cycle comes from the only parent
      obtain ⟨n, hn⟩ := he
      obtain ⟨b, hb, k, hk⟩ := TransGen.tail'_iff.mp hc
      obtain ⟨rfl, -⟩ := h.unique _ _ _ _ _ hk hn
      exact ih (.head' ⟨n, hn⟩ hb)

theorem Forest.eq_root_of_reach (h : Forest f root) (ha : Reach f a root) : a = root := by
  cases ha with
  | refl => rfl
  | tail _ he =>
      obtain ⟨n, hn⟩ := he
      exact absurd hn (h.rooted _ n)

/-- There is one path from the root to a node. -/
theorem Forest.walk_inj (h : Forest f root) (hp : walk f root p = some c)
    (hq : walk f root q = some c) : p = q := by
  induction p using List.reverseRecOn generalizing c q with
  | nil =>
      cases hp
      cases q using List.reverseRecOn with
      | nil => rfl
      | append_singleton q n =>
          obtain ⟨b, -, hb⟩ := walk_snoc.mp hq
          exact absurd hb (h.rooted b n)
  | append_singleton p n ih =>
      obtain ⟨b, hb, hn⟩ := walk_snoc.mp hp
      cases q using List.reverseRecOn with
      | nil =>
          cases hq
          exact absurd hn (h.rooted b n)
      | append_singleton q k =>
          obtain ⟨d, hd, hk⟩ := walk_snoc.mp hq
          obtain ⟨rfl, rfl⟩ := h.unique _ _ _ _ _ hn hk
          rw [ih hb hd]

end

/-! ## Setting one entry -/

section

variable [DecidableEq α] [DecidableEq β] {f : α → β → Option α} {a b c d t u x root : α}
  {n m k : β}

/-- `n` in `a` becomes `y`. -/
def set (f : α → β → Option α) (a : α) (n : β) (y : Option α) : α → β → Option α :=
  fun d k => if d = a ∧ k = n then y else f d k

/-- The entry `n` of `a` becomes the entry `m` of `b`. -/
def move (f : α → β → Option α) (a : α) (n : β) (b : α) (m : β) : α → β → Option α :=
  set (set f a n none) b m (f a n)

theorem set_self {y : Option α} : set f a n y a n = y := if_pos ⟨rfl, rfl⟩

theorem set_of_ne {y : Option α} (h : ¬ (d = a ∧ k = n)) : set f a n y d k = f d k := if_neg h

theorem set_set {y z : Option α} : set (set f a n y) a n z = set f a n z := by
  funext d k
  by_cases ha : d = a ∧ k = n
  · obtain ⟨rfl, rfl⟩ := ha
    rw [set_self, set_self]
  · rw [set_of_ne ha, set_of_ne ha, set_of_ne ha]

theorem set_comm {y z : Option α} (h : ¬ (a = b ∧ n = m)) :
    set (set f a n y) b m z = set (set f b m z) a n y := by
  funext d k
  by_cases ha : d = a ∧ k = n
  · obtain ⟨rfl, rfl⟩ := ha
    rw [set_of_ne h, set_self, set_self]
  · rw [set_of_ne ha]
    by_cases hb : d = b ∧ k = m
    · obtain ⟨rfl, rfl⟩ := hb
      rw [set_self, set_self]
    · rw [set_of_ne hb, set_of_ne hb, set_of_ne ha]

theorem move_of_ne (hb : ¬ (d = b ∧ k = m)) (ha : ¬ (d = a ∧ k = n)) :
    move f a n b m d k = f d k := (set_of_ne hb).trans (set_of_ne ha)

theorem move_self : move f a n a n = f := by
  funext d k
  by_cases ha : d = a ∧ k = n
  · obtain ⟨rfl, rfl⟩ := ha
    exact set_self
  · exact move_of_ne ha ha

/-- An entry afterwards is the moved one, or one that was there before. -/
theorem move_eq_some (h : move f a n b m d k = some u) :
    ((d = b ∧ k = m) ∧ f a n = some u) ∨ (¬ (d = b ∧ k = m) ∧ ¬ (d = a ∧ k = n) ∧
      f d k = some u) := by
  by_cases hb : d = b ∧ k = m
  · obtain ⟨rfl, rfl⟩ := hb
    exact .inl ⟨⟨rfl, rfl⟩, set_self.symm.trans h⟩
  · by_cases ha : d = a ∧ k = n
    · obtain ⟨rfl, rfl⟩ := ha
      have hnone : move f d k b m d k = none := (set_of_ne hb).trans set_self
      rw [hnone] at h
      cases h
    · exact .inr ⟨hb, ha, (move_of_ne hb ha).symm.trans h⟩

theorem Forest.move (h : Forest f root) : Forest (move f a n b m) root where
  unique := by
    intro d k d' k' u hd hd'
    rcases move_eq_some hd with ⟨⟨rfl, rfl⟩, hu⟩ | ⟨-, hna, hu⟩ <;>
      rcases move_eq_some hd' with ⟨⟨rfl, rfl⟩, hu'⟩ | ⟨-, hna', hu'⟩
    · exact ⟨rfl, rfl⟩
    · exact absurd (h.unique _ _ _ _ _ hu' hu) hna'
    · exact absurd (h.unique _ _ _ _ _ hu hu') hna
    · exact h.unique _ _ _ _ _ hu hu'
  rooted := by
    intro d k hd
    rcases move_eq_some hd with ⟨-, hu⟩ | ⟨-, -, hu⟩
    · exact h.rooted a n hu
    · exact h.rooted d k hu

theorem set_none_subset {d : α} {k : β} {u : α} (h : set f a n none d k = some u) :
    f d k = some u := by
  by_cases ha : d = a ∧ k = n
  · obtain ⟨rfl, rfl⟩ := ha
    rw [set_self] at h
    cases h
  · exact (set_of_ne ha).symm.trans h

/-- Without its entry a node is nowhere. -/
theorem Forest.set_none_ne (h : Forest f root) (hx : f a n = some x) :
    set f a n none d k ≠ some x := by
  intro hd
  obtain ⟨rfl, rfl⟩ := h.unique _ _ _ _ _ (set_none_subset hd) hx
  exact nomatch set_self.symm.trans hd

/-- An entry afterwards is the added one, or one that was there before. -/
theorem set_some_eq_some (h : set f a n (some x) d k = some u) :
    ((d = a ∧ k = n) ∧ u = x) ∨ f d k = some u := by
  by_cases ha : d = a ∧ k = n
  · obtain ⟨rfl, rfl⟩ := ha
    rw [set_self] at h
    exact .inl ⟨⟨rfl, rfl⟩, (Option.some.inj h).symm⟩
  · exact .inr ((set_of_ne ha).symm.trans h)

theorem Forest.add (h : Forest f root) (hfresh : ∀ d k, f d k ≠ some x) (hx : x ≠ root) :
    Forest (set f a n (some x)) root where
  unique := by
    intro d k d' k' u hd hd'
    rcases set_some_eq_some hd with ⟨⟨rfl, rfl⟩, rfl⟩ | hu <;>
      rcases set_some_eq_some hd' with ⟨⟨rfl, rfl⟩, hux⟩ | hu'
    · exact ⟨rfl, rfl⟩
    · exact absurd hu' (hfresh _ _)
    · rw [hux] at hu
      exact absurd hu (hfresh _ _)
    · exact h.unique _ _ _ _ _ hu hu'
  rooted := by
    intro d k hd
    rcases set_some_eq_some hd with ⟨-, hu⟩ | hu
    · exact hx hu.symm
    · exact h.rooted d k hu

/-- A new node has nothing below it. -/
theorem Acyclic.add (h : Acyclic f) (hleaf : ∀ k, f x k = none) (hxa : x ≠ a) :
    Acyclic (set f a n (some x)) := by
  have hway : ∀ c d, TransGen (Edge (set f a n (some x))) c d → TransGen (Edge f) c d ∨ d = x := by
    intro c d hcd
    induction hcd with
    | single he =>
        obtain ⟨k, hk⟩ := he
        rcases set_some_eq_some hk with ⟨-, hu⟩ | hu
        · exact .inr hu
        · exact .inl (.single ⟨k, hu⟩)
    | tail _ he ih =>
        obtain ⟨k, hk⟩ := he
        rcases set_some_eq_some hk with ⟨-, hu⟩ | hu
        · exact .inr hu
        · rcases ih with ih | rfl
          · exact .inl (ih.tail ⟨k, hu⟩)
          · rw [hleaf k] at hu
            cases hu
  intro d hd
  rcases hway d d hd with hd' | rfl
  · exact h d hd'
  · obtain ⟨b, ⟨k, hk⟩, -⟩ := TransGen.head'_iff.mp hd
    rcases set_some_eq_some hk with ⟨⟨hda, -⟩, -⟩ | hu
    · exact hxa hda
    · rw [hleaf k] at hu
      cases hu

/-- A way afterwards is one of before, or it goes on from the moved node. -/
theorem transGen_move (hx : f a n = some x) (hnot : ¬ Reach f x b)
    (h : TransGen (Edge (move f a n b m)) c d) :
    TransGen (Edge f) c d ∨ (Reach f c b ∧ Reach f x d) := by
  induction h with
  | single he =>
      obtain ⟨k, hk⟩ := he
      rcases move_eq_some hk with ⟨⟨rfl, rfl⟩, hu⟩ | ⟨-, -, hu⟩
      · rw [hx] at hu
        cases hu
        exact .inr ⟨.refl, .refl⟩
      · exact .inl (.single ⟨k, hu⟩)
  | tail _ he ih =>
      obtain ⟨k, hk⟩ := he
      rcases move_eq_some hk with ⟨⟨rfl, rfl⟩, hu⟩ | ⟨-, -, hu⟩
      · rw [hx] at hu
        cases hu
        rcases ih with ih | ⟨-, ih⟩
        · exact .inr ⟨ih.to_reflTransGen, .refl⟩
        · exact absurd ih hnot
      · rcases ih with ih | ⟨hc, ih⟩
        · exact .inl (ih.tail ⟨k, hu⟩)
        · exact .inr ⟨hc, ih.tail ⟨k, hu⟩⟩

theorem Acyclic.move (h : Acyclic f) (hx : f a n = some x) (hnot : ¬ Reach f x b) :
    Acyclic (move f a n b m) := by
  intro d hd
  rcases transGen_move hx hnot hd with hd | ⟨hb, hd⟩
  · exact h d hd
  · exact hnot (hd.trans hb)

/-- Below the moved node nothing changes, unless it is moved below itself. -/
theorem reach_move_below (hx : f a n = some x) (hnot : ¬ Reach f x b) (h : Reach f x u) :
    Reach (move f a n b m) x u := by
  induction h with
  | refl => exact .refl
  | tail hd he ih =>
      rename_i d u
      obtain ⟨k, hk⟩ := he
      by_cases ha : d = a ∧ k = n
      · obtain ⟨rfl, rfl⟩ := ha
        rw [hx] at hk
        cases hk
        exact .refl
      · have hb : ¬ (d = b ∧ k = m) := fun hb => hnot (hb.1 ▸ hd)
        exact ih.tail ⟨k, (move_of_ne hb ha).trans hk⟩

/-- What is not below the moved node and not replaced is still there. `t` is the replaced node. -/
theorem reach_move_beside (hx : f a n = some x)
    (ht : ∀ t, f b m = some t → ∀ k c, f t k = some c → t = a ∧ k = n) (h : Reach f root u)
    (hbelow : ¬ Reach f x u) (hu : f b m ≠ some u) : Reach (move f a n b m) root u := by
  induction h with
  | refl => exact .refl
  | tail hd he ih =>
      rename_i d u
      obtain ⟨k, hk⟩ := he
      have ha : ¬ (d = a ∧ k = n) := by
        intro ⟨hda, hkn⟩
        rw [hda, hkn, hx] at hk
        cases hk
        exact hbelow .refl
      have hb : ¬ (d = b ∧ k = m) := by
        intro ⟨hdb, hkm⟩
        rw [hdb, hkm] at hk
        exact hu hk
      have hd' := ih (fun hxd => hbelow (hxd.tail ⟨k, hk⟩)) fun hdt => ha (ht d hdt k u hk)
      exact hd'.tail ⟨k, (move_of_ne hb ha).trans hk⟩

theorem Forest.reach_move (h : Forest f root) (hx : f a n = some x) (hb : Reach f root b)
    (hnot : ¬ Reach f x b)
    (ht : ∀ t, f b m = some t → ∀ k c, f t k = some c → t = a ∧ k = n)
    (hu : Reach f root u) (hne : f b m ≠ some u) : Reach (Namespace.move f a n b m) root u := by
  by_cases hxu : Reach f x u
  · have hself : f b m ≠ some b := fun hm => h.acyclic_of_reach hb (.single ⟨m, hm⟩)
    have hb' := reach_move_beside hx ht hb hnot hself
    have hnew : Edge (Namespace.move f a n b m) b x := ⟨m, set_self.trans hx⟩
    exact (hb'.tail hnew).trans (reach_move_below hx hnot hxu)
  · exact reach_move_beside hx ht hu hxu hne

/-- A node that is moved below itself is cut off. -/
theorem Forest.not_reach_moved (h : Forest f root) (hx : f a n = some x) (hinto : Reach f x b) :
    ¬ Reach (Namespace.move f a n b m) root x := by
  have hall : ∀ u, Reach (Namespace.move f a n b m) root u → ¬ Reach f x u := by
    intro u hu
    induction hu with
    | refl =>
        intro hr
        rcases ReflTransGen.cases_tail hr with rfl | ⟨d, -, k, hd⟩
        · exact h.rooted a n hx
        · exact h.rooted d k hd
    | tail _ he ih =>
        rename_i d u
        intro hr
        obtain ⟨k, hk⟩ := he
        rcases move_eq_some hk with ⟨⟨rfl, rfl⟩, -⟩ | ⟨-, hna, hf⟩
        · exact ih hinto
        · rcases ReflTransGen.cases_tail hr with rfl | ⟨d', hd', k', hk'⟩
          · exact hna (h.unique _ _ _ _ _ hf hx)
          · obtain ⟨rfl, -⟩ := h.unique _ _ _ _ _ hk' hf
            exact ih hd'
  exact fun hr => hall x hr .refl

/-- What the replaced node had is cut off. -/
theorem Forest.not_reach_replaced (h : Forest f root) (hne : ¬ (a = b ∧ n = m))
    (ht : f b m = some t) (hc : f t k = some c) (hother : ¬ (t = a ∧ k = n)) :
    ¬ Reach (Namespace.move f a n b m) root c := by
  have hparent : ∀ u d k, f d k = some u → Reach (Namespace.move f a n b m) root u →
      f a n ≠ some u → Reach (Namespace.move f a n b m) root d ∧
        Namespace.move f a n b m d k = some u := by
    intro u d k hd hr hnx
    rcases ReflTransGen.cases_tail hr with rfl | ⟨d', hd', k', hk'⟩
    · exact absurd hd (h.rooted d k)
    · rcases move_eq_some hk' with ⟨-, hf⟩ | ⟨-, -, hf⟩
      · exact absurd hf hnx
      · obtain ⟨rfl, rfl⟩ := h.unique _ _ _ _ _ hf hd
        exact ⟨hd', hk'⟩
  intro hr
  have hcx : f a n ≠ some c := fun hac => hother (h.unique _ _ _ _ _ hc hac)
  obtain ⟨hrt, -⟩ := hparent c t k hc hr hcx
  have htx : f a n ≠ some t := fun hat => hne (h.unique _ _ _ _ _ hat ht)
  obtain ⟨-, hm⟩ := hparent t b m ht hrt htx
  exact htx (set_self.symm.trans hm)

/-- Exactly when a move cuts nothing off but the node that it replaces. -/
theorem Forest.reach_move_iff (h : Forest f root) (hx : f a n = some x) (ha : Reach f root a)
    (hb : Reach f root b) (hne : ¬ (a = b ∧ n = m)) :
    (∀ u, Reach f root u → f b m ≠ some u → Reach (Namespace.move f a n b m) root u) ↔
      ¬ Reach f x b ∧ ∀ t, f b m = some t → ∀ k c, f t k = some c → t = a ∧ k = n := by
  constructor
  · intro hall
    have hnot : ¬ Reach f x b := by
      intro hinto
      apply h.not_reach_moved hx hinto
      exact hall x (ha.tail ⟨n, hx⟩) fun hbx => hne (h.unique _ _ _ _ _ hx hbx)
    refine ⟨hnot, fun t ht k c hc => ?_⟩
    by_contra hother
    apply h.not_reach_replaced hne ht hc hother
    refine hall c ((hb.tail ⟨m, ht⟩).tail ⟨k, hc⟩) fun hbc => ?_
    rw [ht] at hbc
    cases hbc
    exact h.acyclic_of_reach (hb.tail ⟨m, ht⟩) (.single ⟨k, hc⟩)
  · intro ⟨hnot, ht⟩ u hu hut
    exact h.reach_move hx hb hnot ht hu hut

/-! ## Paths after a move -/

/-- A path that uses neither entry is the same. -/
theorem walk_move_unused {p : List β} (h : ∀ q k r e, p = q ++ k :: r → walk f d q = some e →
    ¬ (e = a ∧ k = n) ∧ ¬ (e = b ∧ k = m)) : walk (move f a n b m) d p = walk f d p := by
  induction p generalizing d with
  | nil => rfl
  | cons k p ih =>
      obtain ⟨hna, hnb⟩ := h [] k p d rfl rfl
      unfold walk
      rw [move_of_ne hnb hna]
      cases hd : f d k with
      | none => rfl
      | some e =>
          refine ih fun q k' r e' hp hq => h (k :: q) k' r e' (by rw [hp]; rfl) ?_
          exact walk_cons.mpr ⟨e, hd, hq⟩

/-- The paths of the moved node and of what is below it begin differently, all others stay. -/
theorem Forest.walk_move (h : Forest f root) {pa pb : List β} (hpa : walk f root pa = some a)
    (hpb : walk f root pb = some b) (hx : f a n = some x) (hnot : ¬ Reach f x b) :
    (∀ q u, walk f x q = some u → walk (Namespace.move f a n b m) root (pb ++ m :: q) = some u) ∧
    ∀ p u, walk f root p = some u → ¬ (pa ++ [n]) <+: p → ¬ (pb ++ [m]) <+: p →
      walk (Namespace.move f a n b m) root p = some u := by
  have hrx : Reach f root x := (Reach.of_walk hpa).tail ⟨n, hx⟩
  constructor
  · intro q u hq
    have hfront : walk (Namespace.move f a n b m) root pb = some b := by
      rw [walk_move_unused]
      · exact hpb
      · intro q' k r e hp hq'
        rw [hp] at hpb
        obtain ⟨e', he', hrest⟩ := walk_append.mp hpb
        rw [hq'] at he'
        cases he'
        obtain ⟨d, hd, hr⟩ := walk_cons.mp hrest
        constructor
        · intro ⟨hea, hkn⟩
          rw [hea, hkn, hx] at hd
          cases hd
          exact hnot (Reach.of_walk hr)
        · intro ⟨heb, _⟩
          rw [heb] at hq' hd
          exact h.acyclic_of_reach (Reach.of_walk hq') (.head' ⟨k, hd⟩ (Reach.of_walk hr))
    have hback : walk (Namespace.move f a n b m) x q = some u := by
      rw [walk_move_unused]
      · exact hq
      · intro q' k r e _ hq'
        constructor
        · intro ⟨hea, _⟩
          rw [hea] at hq'
          exact h.acyclic_of_reach hrx (TransGen.tail' (Reach.of_walk hq') ⟨n, hx⟩)
        · intro ⟨heb, _⟩
          rw [heb] at hq'
          exact hnot (Reach.of_walk hq')
    exact walk_append.mpr ⟨b, hfront, walk_cons.mpr ⟨x, set_self.trans hx, hback⟩⟩
  · intro p u hp hold hnew
    rw [walk_move_unused]
    · exact hp
    · intro q k r e hpq hq
      constructor
      · intro ⟨hea, hkn⟩
        rw [hea] at hq
        rw [h.walk_inj hq hpa, hkn] at hpq
        exact hold ⟨r, by rw [hpq, List.append_assoc]; rfl⟩
      · intro ⟨heb, hkm⟩
        rw [heb] at hq
        rw [h.walk_inj hq hpb, hkm] at hpq
        exact hnew ⟨r, by rw [hpq, List.append_assoc]; rfl⟩

/-- The path with `old` at its front replaced. -/
def rewritten (old new p : List β) : List β :=
  if old <+: p then new ++ p.drop old.length else p

theorem rewritten_append {old new q : List β} : rewritten old new (old ++ q) = new ++ q := by
  unfold rewritten
  rw [if_pos (List.prefix_append old q), List.drop_left]

theorem rewritten_of_not_led {old new p : List β} (h : ¬ old <+: p) :
    rewritten old new p = p := if_neg h

/-- Exactly when a move leaves everything at its path, rewritten, but a replaced node without
    entries. -/
theorem Forest.walk_rewritten_iff (h : Forest f root) {pa pb : List β}
    (hpa : walk f root pa = some a) (hpb : walk f root pb = some b) (hx : f a n = some x)
    (hne : ¬ (a = b ∧ n = m)) :
    (∀ p u, walk f root p = some u → (p = pb ++ [m] → ∃ k c, f u k = some c) →
        walk (Namespace.move f a n b m) root (rewritten (pa ++ [n]) (pb ++ [m]) p) = some u) ↔
      ¬ Reach f x b ∧ ∀ t, f b m = some t → ∀ k, f t k = none := by
  have hold : walk f root (pa ++ [n]) = some x := walk_snoc.mpr ⟨a, hpa, hx⟩
  have hpaths : pa ++ [n] ≠ pb ++ [m] := by
    intro heq
    obtain ⟨rfl, hnm⟩ := List.append_inj' heq rfl
    rw [hpa] at hpb
    exact hne ⟨Option.some.inj hpb, List.singleton_inj.mp hnm⟩
  have hbelow : ∀ q, pb = pa ++ [n] ++ q → Reach f x b := by
    intro q hq
    rw [hq, walk_append] at hpb
    obtain ⟨e, he, hrest⟩ := hpb
    rw [hold] at he
    cases he
    exact Reach.of_walk hrest
  constructor
  · intro hall
    have hnot : ¬ Reach f x b := by
      intro hinto
      have hmoved := hall (pa ++ [n]) x hold fun heq => absurd heq hpaths
      exact h.not_reach_moved hx hinto (Reach.of_walk hmoved)
    refine ⟨hnot, fun t ht k => ?_⟩
    by_contra hk
    obtain ⟨c, hc⟩ := Option.ne_none_iff_exists'.mp hk
    have hnew := hall (pb ++ [m]) t (walk_snoc.mpr ⟨b, hpb, ht⟩) fun _ => ⟨k, c, hc⟩
    rw [rewritten_of_not_led, (h.walk_move hpa hpb hx hnot).1 [] x rfl] at hnew
    · cases hnew
      exact hne (h.unique _ _ _ _ _ hx ht)
    · intro ⟨q, hq⟩
      rcases List.eq_nil_or_concat q with rfl | ⟨q', k', rfl⟩
      · rw [List.append_nil] at hq
        exact hpaths hq
      · rw [List.concat_eq_append, ← List.append_assoc] at hq
        exact hnot (hbelow q' (List.append_inj_left' hq rfl).symm)
  · intro ⟨hnot, ht⟩ p u hp hfull
    obtain ⟨hmoved, hrest⟩ := h.walk_move hpa hpb hx hnot
    by_cases hpre : (pa ++ [n]) <+: p
    · obtain ⟨q, rfl⟩ := hpre
      obtain ⟨e, he, hq⟩ := walk_append.mp hp
      rw [hold] at he
      cases he
      rw [rewritten_append, List.append_assoc]
      exact hmoved q u hq
    · rw [rewritten_of_not_led hpre]
      refine hrest p u hp hpre fun ⟨q, hq⟩ => ?_
      rw [← hq, walk_append] at hp
      obtain ⟨t, ht', hrest'⟩ := hp
      obtain ⟨d, hd, ht'⟩ := walk_snoc.mp ht'
      rw [hpb] at hd
      cases hd
      cases q with
      | nil =>
          cases hrest'
          obtain ⟨k, c, hc⟩ := hfull (by rw [← hq, List.append_nil])
          rw [ht u ht' k] at hc
          cases hc
      | cons k q =>
          obtain ⟨c, hc, -⟩ := walk_cons.mp hrest'
          rw [ht t ht' k] at hc
          cases hc

end

end Nmfs.Lib.Namespace
