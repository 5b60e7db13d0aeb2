import Mathlib

/-!
# Lists of closed intervals

Objects with a lowest and a highest point, kept in a list. `Ascending lo hi l`: no interval is empty
and each ends below the next ones. Then a point is in at most one of them, and the order of the list
is the order of the intervals.
-/

namespace MetaEditor.Lib

variable {α β : Type*} [LinearOrder α] {lo hi : β → α} {l : List β}

/-- The intervals `lo b .. hi b` from left to right, none empty, no two with a common point. -/
structure Ascending (lo hi : β → α) (l : List β) : Prop where
  nonempty : ∀ b ∈ l, lo b ≤ hi b
  apart : l.Pairwise fun a b => hi a < lo b

namespace Ascending

theorem nil : Ascending lo hi [] := ⟨by simp, .nil⟩

theorem apart_of_lt (h : Ascending lo hi l) {i j : Nat} {a b : β} (hij : i < j) (ha : l[i]? = some a)
    (hb : l[j]? = some b) : hi a < lo b := by
  obtain ⟨hi', rfl⟩ := List.getElem?_eq_some_iff.mp ha
  obtain ⟨hj', rfl⟩ := List.getElem?_eq_some_iff.mp hb
  exact List.pairwise_iff_getElem.mp h.apart i j hi' hj' hij

/-- It is enough to compare each interval with the next one. -/
theorem of_isChain (hne : ∀ b ∈ l, lo b ≤ hi b) (h : l.IsChain fun a b => hi a < lo b) : Ascending lo hi l := by
  refine ⟨hne, ?_⟩
  induction l with
  | nil => exact .nil
  | cons a l ih =>
    have htail := ih (fun b hb => hne b (List.mem_cons_of_mem a hb)) h.tail
    refine List.pairwise_cons.mpr ⟨fun c hc => ?_, htail⟩
    cases l with
    | nil => cases hc
    | cons b l =>
      have hab := (List.isChain_cons_cons.mp h).1
      rcases List.mem_cons.mp hc with rfl | hc
      · exact hab
      · have hb := hne b (List.mem_cons_of_mem a List.mem_cons_self)
        exact hab.trans (hb.trans_lt ((List.pairwise_cons.mp htail).1 c hc))

/-- A point is in at most one interval. -/
theorem index_unique (h : Ascending lo hi l) {i j : Nat} {a b : β} {x : α} (ha : l[i]? = some a)
    (hb : l[j]? = some b) (hxa : lo a ≤ x ∧ x ≤ hi a) (hxb : lo b ≤ x ∧ x ≤ hi b) : i = j := by
  rcases lt_trichotomy i j with hlt | heq | hlt
  · have := h.apart_of_lt hlt ha hb
    exact absurd (lt_of_le_of_lt hxa.2 this) (not_lt.mpr hxb.1)
  · exact heq
  · have := h.apart_of_lt hlt hb ha
    exact absurd (lt_of_le_of_lt hxb.2 this) (not_lt.mpr hxa.1)

/-- The later intervals are exactly the ones to the right. -/
theorem index_lt_iff (h : Ascending lo hi l) {i j : Nat} {a b : β} (ha : l[i]? = some a)
    (hb : l[j]? = some b) : i < j ↔ hi a < lo b := by
  refine ⟨fun hij => h.apart_of_lt hij ha hb, fun hab => ?_⟩
  have hane := h.nonempty a (List.mem_of_getElem? ha)
  have hbne := h.nonempty b (List.mem_of_getElem? hb)
  by_contra hge
  rcases lt_or_eq_of_le (not_lt.mp hge) with hlt | heq
  · have hba := h.apart_of_lt hlt hb ha
    exact absurd (hbne.trans_lt (hba.trans_le hane)) (not_lt.mpr hab.le)
  · obtain rfl : a = b := Option.some.inj (ha.symm.trans (heq ▸ hb))
    exact absurd hab (not_lt.mpr hane)

theorem concat (h : Ascending lo hi l) {b : β} (hb : lo b ≤ hi b) (hright : ∀ a ∈ l, hi a < lo b) :
    Ascending lo hi (l ++ [b]) := by
  refine ⟨fun a ha => ?_, ?_⟩
  · rcases List.mem_append.mp ha with ha | ha
    · exact h.nonempty a ha
    · rw [List.mem_singleton.mp ha]
      exact hb
  · refine List.pairwise_append.mpr ⟨h.apart, List.pairwise_singleton _ _, fun a ha c hc => ?_⟩
    rw [List.mem_singleton.mp hc]
    exact hright a ha

/-- An interval whose end is changed, when those behind it move and keep their distances. -/
theorem edit {before after : List β} {b b' : β} {shift : β → β} (h : Ascending lo hi (before ++ b :: after))
    (hlow : lo b' = lo b) (hne : lo b' ≤ hi b') (hnext : ∀ c ∈ after, hi b' < lo (shift c))
    (hmoved : ∀ c ∈ after, lo (shift c) ≤ hi (shift c))
    (hapart : ∀ a ∈ after, ∀ c ∈ after, hi a < lo c → hi (shift a) < lo (shift c)) :
    Ascending lo hi (before ++ b' :: after.map shift) := by
  obtain ⟨hbefore, hrest, hleft⟩ := List.pairwise_append.mp h.apart
  obtain ⟨hright, hafter⟩ := List.pairwise_cons.mp hrest
  have hbelow : ∀ a ∈ before, hi a < lo b' := fun a ha => hlow ▸ hleft a ha b List.mem_cons_self
  refine ⟨?_, List.pairwise_append.mpr ⟨hbefore, List.pairwise_cons.mpr ⟨List.forall_mem_map.mpr hnext, ?_⟩, ?_⟩⟩
  · rw [List.forall_mem_append, List.forall_mem_cons, List.forall_mem_map]
    exact ⟨fun a ha => h.nonempty a (List.mem_append_left _ ha), hne, hmoved⟩
  · exact List.pairwise_map.mpr (hafter.imp_of_mem fun {a c} ha hc hac => hapart a ha c hc hac)
  · intro a ha
    rw [List.forall_mem_cons, List.forall_mem_map]
    exact ⟨hbelow a ha, fun c hc => (hbelow a ha).trans (hne.trans_lt (hnext c hc))⟩

end Ascending

end MetaEditor.Lib
