import Mathlib

/-!
# The lifetime of an address

A program that owns an address uses it and deletes it. The accesses are listed in the order of time. They
respect the lifetime of an address if it is deleted at most once and not used afterwards.
-/

namespace MetaEditor.Lib

inductive Access (α : Type*)
  | use (a : α)
  | delete (a : α)
  deriving DecidableEq, Repr

variable {α : Type*} {a b : α} {accesses : List (Access α)}

/-- No use of the address comes after a deletion. -/
def UsedBefore (a : α) (accesses : List (Access α)) : Prop :=
  accesses.Pairwise fun earlier later => earlier = .delete a → later ≠ .use a

theorem UsedBefore.nil : UsedBefore a [] := List.Pairwise.nil

/-- A deletion is no use. -/
theorem UsedBefore.delete (h : UsedBefore a accesses) : UsedBefore a (accesses ++ [.delete b]) := by
  refine List.pairwise_append.mpr ⟨h, List.pairwise_singleton _ _, fun x _ y hy _ => ?_⟩
  rw [List.mem_singleton.mp hy]
  exact nofun

section Decidable

variable [DecidableEq α]

instance (a : α) (accesses : List (Access α)) : Decidable (UsedBefore a accesses) :=
  inferInstanceAs (Decidable (List.Pairwise _ _))

/-- How often the address has been deleted. -/
def deletions (a : α) (accesses : List (Access α)) : Nat := accesses.count (.delete a)

@[simp] theorem deletions_use : deletions a (accesses ++ [.use b]) = deletions a accesses := by
  simp [deletions]

@[simp] theorem deletions_delete : deletions a (accesses ++ [.delete a]) = deletions a accesses + 1 := by
  simp [deletions]

/-- What has not been deleted can be used. -/
theorem UsedBefore.use (h : UsedBefore a accesses) (halive : deletions a accesses = 0) :
    UsedBefore a (accesses ++ [.use b]) := by
  refine List.pairwise_append.mpr ⟨h, List.pairwise_singleton _ _, fun x hx y _ hdelete => ?_⟩
  rw [hdelete] at hx
  exact absurd hx (List.count_eq_zero.mp halive)

/-- Deleted at most once, and not used afterwards. -/
structure Lifetime (a : α) (accesses : List (Access α)) : Prop where
  once : deletions a accesses ≤ 1
  usedBefore : UsedBefore a accesses

end Decidable

end MetaEditor.Lib
