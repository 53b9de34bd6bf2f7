import Mathlib.Data.List.Nodup
import Mathlib.Logic.Function.Basic

/-!
# Rings of pointers

A ring of nodes, each with a pointer to the next one, as a circular singly linked list is kept in
memory. `Follows next xs stop` states that the pointers lead through the nodes of a list in order and
from the last one to `stop`; a ring follows its list back to the head.

The operations on a ring are those of a circular list with a distinguished head: moving the head on
(`IsRing.rotate`), inserting behind the head (`IsRing.insert`), and taking the head out, which needs
its predecessor (`IsRing.remove`). Any node can be taken for the head (`IsRing.from_node`). `seek` is
the search for that predecessor, and `IsRing.seek_eq` says that it finds it.
-/

set_option autoImplicit false
set_option relaxedAutoImplicit false

namespace MegKer.Foundation

variable {α : Type}

/-- The pointers lead through the list in order, and from its last node to `stop`. -/
def Follows (next : α → α) : List α → α → Prop
  | [], _ => True
  | x :: xs, stop => next x = xs.headD stop ∧ Follows next xs stop

theorem Follows.congr {next next' : α → α} {xs : List α} {stop : α} (h : Follows next xs stop)
    (hsame : ∀ x ∈ xs, next' x = next x) : Follows next' xs stop := by
  induction xs with
  | nil => trivial
  | cons x xs ih =>
    obtain ⟨hhead, htail⟩ := List.forall_mem_cons.mp hsame
    exact ⟨hhead.trans h.1, ih h.2 htail⟩

theorem follows_append {next : α → α} {xs ys : List α} {stop : α} :
    Follows next (xs ++ ys) stop ↔ Follows next xs (ys.headD stop) ∧ Follows next ys stop := by
  induction xs with
  | nil => simp [Follows]
  | cons x xs ih =>
    have hhead : (xs ++ ys).headD stop = xs.headD (ys.headD stop) := by cases xs <;> rfl
    rw [List.cons_append, Follows, Follows, ih, hhead, and_assoc]

/-- A ring with the given head: its nodes are different, and the pointers lead around it. -/
structure IsRing (next : α → α) (head : α) (rest : List α) : Prop where
  nodup : (head :: rest).Nodup
  follows : Follows next (head :: rest) head

theorem IsRing.next_head {next : α → α} {head : α} {rest : List α} (h : IsRing next head rest) :
    next head = rest.headD head :=
  h.follows.1

/-- The head points to itself exactly when it is alone. -/
theorem IsRing.next_head_eq_iff {next : α → α} {head : α} {rest : List α}
    (h : IsRing next head rest) : next head = head ↔ rest = [] := by
  rw [h.next_head]
  cases rest with
  | nil => simp
  | cons x rest =>
    have hne : x ≠ head := fun heq ↦ (List.nodup_cons.mp h.nodup).1 (heq ▸ List.mem_cons_self)
    simp [hne]

/-- Moving the head on by one node. -/
theorem IsRing.rotate {next : α → α} {head x : α} {rest : List α}
    (h : IsRing next head (x :: rest)) : IsRing next x (rest ++ [head]) where
  nodup := by
    have hperm : (x :: (rest ++ [head])).Perm (head :: x :: rest) :=
      List.perm_append_singleton head (x :: rest)
    exact hperm.nodup_iff.mpr h.nodup
  follows := by
    have hhead : next head = x := h.next_head
    have happend : Follows next ((x :: rest) ++ [head]) x :=
      follows_append.mpr ⟨h.follows.2, hhead, trivial⟩
    exact happend

theorem Follows.map_next {next : α → α} {xs : List α} {stop : α} (h : Follows next xs stop) :
    xs.map next = xs.tail ++ if xs = [] then [] else [stop] := by
  induction xs with
  | nil => rfl
  | cons x xs ih =>
    rw [List.map_cons, ih h.2, h.1]
    cases xs <;> rfl

section Nodes

variable {next : α → α} {head x y : α} {rest : List α}

/-- The pointers of a ring are the ring, rotated. -/
theorem IsRing.map_next (h : IsRing next head rest) : (head :: rest).map next = rest ++ [head] :=
  h.follows.map_next

theorem IsRing.next_mem (h : IsRing next head rest) (hx : x ∈ head :: rest) :
    next x ∈ head :: rest := by
  have hmem : next x ∈ (head :: rest).map next := List.mem_map_of_mem hx
  rw [h.map_next] at hmem
  exact (List.perm_append_singleton head rest).mem_iff.mp hmem

/-- Every node has one predecessor. -/
theorem IsRing.next_inj (h : IsRing next head rest) (hx : x ∈ head :: rest)
    (hy : y ∈ head :: rest) (heq : next x = next y) : x = y := by
  have hnodup : ((head :: rest).map next).Nodup := by
    rw [h.map_next]
    exact (List.perm_append_singleton head rest).nodup_iff.mpr h.nodup
  exact List.inj_on_of_nodup_map hnodup hx hy heq

/-- A ring can be read from any of its nodes. -/
theorem IsRing.from_node (h : IsRing next head rest) (hx : x ∈ head :: rest) :
    ∃ others, IsRing next x others ∧ ∀ y, y ∈ x :: others ↔ y ∈ head :: rest := by
  obtain ⟨front, back, hsplit⟩ := List.append_of_mem hx
  induction front generalizing head rest back with
  | nil =>
    obtain ⟨rfl, rfl⟩ := List.cons.inj hsplit
    exact ⟨rest, h, fun _ ↦ Iff.rfl⟩
  | cons first front ih =>
    obtain ⟨rfl, rfl⟩ := List.cons.inj hsplit
    cases front with
    | nil =>
      refine ⟨back ++ [head], h.rotate, fun y ↦ ?_⟩
      exact (List.perm_append_singleton head (x :: back)).mem_iff
    | cons second front =>
      have hperm := List.perm_append_singleton head (second :: (front ++ x :: back))
      obtain ⟨others, hring, hmem⟩ := ih h.rotate (hperm.mem_iff.mpr hx) (back ++ [head])
        (by simp)
      exact ⟨others, hring, fun y ↦ (hmem y).trans hperm.mem_iff⟩

end Nodes

section Edit

variable [DecidableEq α]

/-- Inserting a node behind the head. -/
theorem IsRing.insert {next : α → α} {head x : α} {rest : List α} (h : IsRing next head rest)
    (hx : x ∉ head :: rest) :
    IsRing (Function.update (Function.update next x (next head)) head x) head (x :: rest) where
  nodup := by
    obtain ⟨hne, hrest⟩ := not_or.mp (mt List.mem_cons.mpr hx)
    obtain ⟨hhead, hnodup⟩ := List.nodup_cons.mp h.nodup
    refine List.nodup_cons.mpr ⟨?_, List.nodup_cons.mpr ⟨hrest, hnodup⟩⟩
    exact mt List.mem_cons.mp (not_or.mpr ⟨Ne.symm hne, hhead⟩)
  follows := by
    obtain ⟨hne, hrest⟩ := not_or.mp (mt List.mem_cons.mpr hx)
    obtain ⟨hhead, -⟩ := List.nodup_cons.mp h.nodup
    refine ⟨Function.update_self _ _ _, ?_, h.follows.2.congr fun y hy ↦ ?_⟩
    · rw [Function.update_of_ne hne, Function.update_self]
      exact h.next_head
    · rw [Function.update_of_ne (ne_of_mem_of_not_mem hy hhead),
        Function.update_of_ne (ne_of_mem_of_not_mem hy hrest)]

/-- Taking the head out: its predecessor points to its successor. -/
theorem IsRing.remove {next : α → α} {head x : α} {rest : List α}
    (h : IsRing next head (x :: rest)) :
    IsRing (Function.update next ((x :: rest).getLast (List.cons_ne_nil x rest)) (next head)) x
      rest where
  nodup := (List.nodup_cons.mp h.nodup).2
  follows := by
    have hhead : next head = x := h.next_head
    have hnodup := (List.nodup_cons.mp h.nodup).2
    have hfollows := h.follows.2
    generalize hlast : (x :: rest).getLast (List.cons_ne_nil x rest) = last
    have hsplit : x :: rest = (x :: rest).dropLast ++ [last] := by
      rw [← hlast]
      exact (List.dropLast_append_getLast _).symm
    rw [hsplit] at hfollows hnodup ⊢
    obtain ⟨hfront, -⟩ := follows_append.mp hfollows
    rw [hhead]
    refine follows_append.mpr ⟨hfront.congr fun y hy ↦ ?_, Function.update_self _ _ _, trivial⟩
    refine Function.update_of_ne (fun heq ↦ ?_) _ _
    exact (List.nodup_append'.mp hnodup).2.2 hy (heq ▸ List.mem_singleton_self last)

/-- Taking the head out, by its predecessor. -/
theorem IsRing.remove_of_next {next : α → α} {head p : α} {rest : List α}
    (h : IsRing next head rest) (hp : p ∈ head :: rest) (hnext : next p = head)
    (hne : next head ≠ head) :
    ∃ x others, IsRing (Function.update next p (next head)) x others ∧
      ∀ y, y ∈ x :: others ↔ y ∈ head :: rest ∧ y ≠ head := by
  cases rest with
  | nil => exact absurd h.next_head hne
  | cons x rest =>
    have hlast : next ((x :: rest).getLast (List.cons_ne_nil x rest)) = head := by
      have hmap := congrArg List.getLast? h.map_next
      rw [List.getLast?_map, List.getLast?_concat, List.getLast?_cons_cons,
        List.getLast?_eq_some_getLast (List.cons_ne_nil x rest)] at hmap
      exact Option.some.inj hmap
    have hmem := List.mem_cons_of_mem head (List.getLast_mem (List.cons_ne_nil x rest))
    have hremoved := h.remove
    rw [h.next_inj hmem hp (hlast.trans hnext.symm)] at hremoved
    obtain ⟨hhead, -⟩ := List.nodup_cons.mp h.nodup
    refine ⟨x, rest, hremoved, fun y ↦ ?_⟩
    rw [List.mem_cons (a := y) (b := head)]
    constructor
    · exact fun hy ↦ ⟨Or.inr hy, fun heq ↦ hhead (heq ▸ hy)⟩
    · exact fun hy ↦ hy.1.resolve_left hy.2

/-! ### The search for the predecessor -/

/-- Follow the pointers from a node until the next one is `stop`. Without fuel there is no
answer. -/
def seek (next : α → α) (stop : α) : (fuel : ℕ) → α → Option α
  | 0, _ => none
  | fuel + 1, p => if next p = stop then some p else seek next stop fuel (next p)

/-- The search along a list that leads to `stop` ends at its last node. -/
theorem seek_of_follows {next : α → α} {stop : α} (xs : List α) :
    ∀ {x : α} {fuel : ℕ}, Follows next (x :: xs) stop → stop ∉ xs → xs.length < fuel →
      seek next stop fuel x = some ((x :: xs).getLast (List.cons_ne_nil x xs)) := by
  induction xs with
  | nil =>
    intro x fuel hfollows _ hfuel
    obtain ⟨fuel, rfl⟩ := Nat.exists_eq_add_of_lt hfuel
    have hnext : next x = stop := hfollows.1
    rw [seek, if_pos hnext]
    rfl
  | cons y ys ih =>
    intro x fuel hfollows hstop hfuel
    obtain ⟨hne, hrest⟩ := not_or.mp (mt List.mem_cons.mpr hstop)
    obtain ⟨fuel, rfl⟩ := Nat.exists_eq_add_of_lt (Nat.zero_lt_of_lt hfuel)
    have hnext : next x = y := hfollows.1
    rw [Nat.zero_add, seek, hnext, if_neg (Ne.symm hne), List.getLast_cons (List.cons_ne_nil y ys)]
    refine ih hfollows.2 hrest ?_
    rw [List.length_cons] at hfuel
    omega

/-- The predecessor of the head is the last node. -/
theorem IsRing.seek_eq {next : α → α} {head : α} {rest : List α} (h : IsRing next head rest)
    {fuel : ℕ} (hfuel : rest.length < fuel) :
    seek next head fuel head = some ((head :: rest).getLast (List.cons_ne_nil head rest)) :=
  seek_of_follows rest h.follows (List.nodup_cons.mp h.nodup).1 hfuel

end Edit

end MegKer.Foundation
