/-!
# Sorting

A stable sort by insertion: elements that count as equal keep their order.  The result is a
permutation of the list (`sort_perm`), and it is sorted if the order is total and transitive
(`pairwise_sort`).
-/

namespace SamlSeal.Sorting

variable {α : Type}

/-- Puts an element in front of the first one that it does not exceed. -/
def insert (le : α → α → Bool) (a : α) : List α → List α
  | [] => [a]
  | b :: bs => if le a b then a :: b :: bs else b :: insert le a bs

/-- The list in order. -/
def sort (le : α → α → Bool) : List α → List α
  | [] => []
  | a :: as => insert le a (sort le as)

theorem insert_perm (le : α → α → Bool) (a : α) (bs : List α) :
    (insert le a bs).Perm (a :: bs) := by
  induction bs with
  | nil => exact .refl _
  | cons b bs ih =>
    rw [insert]
    split
    · exact .refl _
    · exact (ih.cons b).trans (.swap a b bs)

theorem sort_perm (le : α → α → Bool) (as : List α) : (sort le as).Perm as := by
  induction as with
  | nil => exact .refl _
  | cons a as ih => exact (insert_perm le a _).trans (ih.cons a)

theorem mem_sort {le : α → α → Bool} {a : α} {as : List α} : a ∈ sort le as ↔ a ∈ as :=
  (sort_perm le as).mem_iff

/-- Sorting by what elements are changed to, and sorting after the change. -/
theorem map_sort {β : Type} (g : α → β) (le : β → β → Bool) (as : List α) :
    (sort (fun a b => le (g a) (g b)) as).map g = sort le (as.map g) := by
  have map_insert (a : α) (bs : List α) : (insert (fun a b => le (g a) (g b)) a bs).map g =
      insert le (g a) (bs.map g) := by
    induction bs with
    | nil => rfl
    | cons b bs ih =>
      rw [insert, List.map_cons, insert]
      split
      · rfl
      · rw [List.map_cons, ih]
  induction as with
  | nil => rfl
  | cons a as ih => rw [sort, map_insert, ih, List.map_cons, sort]

section Order

variable {le : α → α → Bool} (trans : ∀ a b c, le a b → le b c → le a c)
  (total : ∀ a b, le a b ∨ le b a)

include trans total in
theorem pairwise_insert {a : α} {bs : List α} (h : bs.Pairwise (le · ·)) :
    (insert le a bs).Pairwise (le · ·) := by
  induction bs with
  | nil => simp [insert]
  | cons b bs ih =>
    obtain ⟨hb, hbs⟩ := List.pairwise_cons.1 h
    rw [insert]
    split
    · next hab =>
      refine List.pairwise_cons.2 ⟨fun c hc => ?_, h⟩
      obtain rfl | hc := List.mem_cons.1 hc
      · exact hab
      · exact trans _ _ _ hab (hb c hc)
    · next hab =>
      refine List.pairwise_cons.2 ⟨fun c hc => ?_, ih hbs⟩
      obtain rfl | hc := List.mem_cons.1 ((insert_perm le a bs).mem_iff.1 hc)
      · exact (total c b).resolve_left hab
      · exact hb c hc

include trans total in
theorem pairwise_sort (as : List α) : (sort le as).Pairwise (le · ·) := by
  induction as with
  | nil => exact .nil
  | cons a as ih => exact pairwise_insert trans total ih

end Order

/-- A list that is in order already stays as it is. -/
theorem sort_eq_self {le : α → α → Bool} {as : List α} (h : as.Pairwise (le · ·)) :
    sort le as = as := by
  induction as with
  | nil => rfl
  | cons a as ih =>
    obtain ⟨ha, has⟩ := List.pairwise_cons.1 h
    rw [sort, ih has]
    cases as with
    | nil => rfl
    | cons b bs => rw [insert, if_pos (ha b List.mem_cons_self)]

end SamlSeal.Sorting
