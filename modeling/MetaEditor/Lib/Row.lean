import Mathlib
import MetaEditor.Lib.Middle

/-!
# Endless rows

A row has an element in every column `0, 1, 2, …`. Pieces of text, each with its first column, make a
row when they are written on a blank one: `Shows` says that a row is the one the pieces make, and
`rowOf` computes it. An insertion moves everything from its column on to the right, a deletion moves it
back.
-/

namespace MetaEditor.Lib

variable {α β : Type*}

def insertColumn (r : Nat → α) (p : Nat) (a : α) : Nat → α :=
  fun k => if k < p then r k else if k = p then a else r (k - 1)

def deleteColumn (r : Nat → α) (p : Nat) : Nat → α := fun k => if k < p then r k else r (k + 1)

variable {r : Nat → α} {p k : Nat} {a : α}

theorem insertColumn_of_lt (h : k < p) : insertColumn r p a k = r k := if_pos h

@[simp] theorem insertColumn_self : insertColumn r p a p = a := by simp [insertColumn]

theorem insertColumn_succ (h : p ≤ k) : insertColumn r p a (k + 1) = r k := by
  rw [insertColumn, if_neg (by omega), if_neg (by omega), Nat.add_sub_cancel]

theorem deleteColumn_of_lt (h : k < p) : deleteColumn r p k = r k := if_pos h

theorem deleteColumn_of_le (h : p ≤ k) : deleteColumn r p k = r (k + 1) := if_neg (by omega)

/-! ### Pieces of text -/

variable (start : β → Nat) (text : β → List α) (blank : α)

/-- The row that the pieces make, the first one on top. -/
def rowOf (l : List β) (k : Nat) : α :=
  (l.findSome? fun b => if start b ≤ k then (text b)[k - start b]? else none).getD blank

/-- Every piece can be read in the row, and all other columns are blank. -/
structure Shows (l : List β) (r : Nat → α) : Prop where
  inside : ∀ b ∈ l, ∀ n x, (text b)[n]? = some x → r (start b + n) = x
  outside : ∀ k, (∀ b ∈ l, k < start b ∨ start b + (text b).length ≤ k) → r k = blank

variable {start text blank} {l : List β}

theorem Shows.unique {r' : Nat → α} (h : Shows start text blank l r) (h' : Shows start text blank l r') : r = r' := by
  funext k
  by_cases hout : ∀ b ∈ l, k < start b ∨ start b + (text b).length ≤ k
  · rw [h.outside k hout, h'.outside k hout]
  · push Not at hout
    obtain ⟨b, hb, hlow, hhigh⟩ := hout
    obtain ⟨n, rfl⟩ := Nat.exists_eq_add_of_le hlow
    have hx := List.getElem?_eq_getElem (l := text b) (i := n) (by omega)
    rw [h.inside b hb n _ hx, h'.inside b hb n _ hx]

/-- Pieces that lie one after the other make the row. -/
theorem shows_rowOf (h : l.Pairwise fun b c => start b + (text b).length ≤ start c) :
    Shows start text blank l (rowOf start text blank l) := by
  induction l with
  | nil => exact ⟨nofun, fun _ _ => rfl⟩
  | cons b l ih =>
    obtain ⟨hhead, htail⟩ := List.pairwise_cons.mp h
    have hself : ∀ n x, (text b)[n]? = some x → rowOf start text blank (b :: l) (start b + n) = x := by
      intro n x hx
      rw [rowOf, List.findSome?_cons, if_pos (Nat.le_add_right _ _), Nat.add_sub_cancel_left, hx]
      rfl
    have hother : ∀ k, k < start b ∨ start b + (text b).length ≤ k →
        rowOf start text blank (b :: l) k = rowOf start text blank l k := by
      intro k hk
      rw [rowOf, List.findSome?_cons]
      split_ifs with hlow
      · rw [List.getElem?_eq_none (by omega)]
        rfl
      · rfl
    refine ⟨fun c hc n x hx => ?_, fun k hout => ?_⟩
    · rcases List.mem_cons.mp hc with rfl | hc
      · exact hself n x hx
      · have hright := hhead c hc
        rw [hother _ (by omega)]
        exact (ih htail).inside c hc n x hx
    · obtain ⟨hb, hl⟩ := List.forall_mem_cons.mp hout
      rw [hother k hb]
      exact (ih htail).outside k hl

/-! ### Edits inside a piece -/

/-- A text that can be read at column `i` can be read there with the new element. -/
theorem insertColumn_insertIdx {t : List α} {i : Nat} (h : ∀ n x, t[n]? = some x → r (i + n) = x) (hlow : i ≤ p)
    (hhigh : p ≤ i + t.length) (n : Nat) (x : α) (hx : (t.insertIdx (p - i) a)[n]? = some x) :
    insertColumn r p a (i + n) = x := by
  rcases Nat.lt_trichotomy n (p - i) with hlt | rfl | hgt
  · rw [List.getElem?_insertIdx_of_lt hlt] at hx
    rw [insertColumn_of_lt (by omega)]
    exact h n x hx
  · rw [List.getElem?_insertIdx_self, if_pos (by omega), Option.some.injEq] at hx
    rw [Nat.add_sub_cancel' hlow, insertColumn_self]
    exact hx
  · rw [List.getElem?_insertIdx_of_gt hgt] at hx
    obtain ⟨m, rfl⟩ := Nat.exists_eq_add_of_lt hgt
    rw [← Nat.add_assoc, insertColumn_succ (by omega)]
    exact h _ x hx

/-- And without the element that is taken out. -/
theorem deleteColumn_eraseIdx {t : List α} {i : Nat} (h : ∀ n x, t[n]? = some x → r (i + n) = x) (hlow : i ≤ p)
    (n : Nat) (x : α) (hx : (t.eraseIdx (p - i))[n]? = some x) : deleteColumn r p (i + n) = x := by
  by_cases hlt : n < p - i
  · rw [List.getElem?_eraseIdx_of_lt hlt] at hx
    rw [deleteColumn_of_lt (by omega)]
    exact h n x hx
  · rw [List.getElem?_eraseIdx_of_ge (by omega)] at hx
    rw [deleteColumn_of_le (by omega), Nat.add_assoc]
    exact h (n + 1) x hx

variable {before after : List β} {b b' : β} {shift : β → β}

/-- An element goes into a piece, or to its end, and the pieces behind move one column to the right. -/
theorem Shows.insert (h : Shows start text blank (before ++ b :: after) r)
    (hbefore : ∀ c ∈ before, start c + (text c).length ≤ p) (hlow : start b ≤ p)
    (hhigh : p ≤ start b + (text b).length) (hafter : ∀ c ∈ after, p ≤ start c) (hstart : start b' = start b)
    (htext : text b' = (text b).insertIdx (p - start b) a)
    (hshift : ∀ c ∈ after, start (shift c) = start c + 1 ∧ text (shift c) = text c) :
    Shows start text blank (before ++ b' :: after.map shift) (insertColumn r p a) := by
  obtain ⟨hinBefore, hinb, hinAfter⟩ := forall_mem_middle.mp h.inside
  have hlen : (text b').length = (text b).length + 1 := by
    rw [htext, List.length_insertIdx_of_le_length (by omega)]
  refine ⟨forall_mem_middle.mpr ⟨fun c hc n x hx => ?_, fun n x hx => ?_, ?_⟩, fun k hout => ?_⟩
  · have hn := (List.getElem?_eq_some_iff.mp hx).1
    have hleft := hbefore c hc
    rw [insertColumn_of_lt (by omega)]
    exact hinBefore c hc n x hx
  · rw [htext] at hx
    rw [hstart]
    exact insertColumn_insertIdx hinb hlow hhigh n x hx
  · rintro _ hmem n x hx
    obtain ⟨c, hc, rfl⟩ := List.mem_map.mp hmem
    obtain ⟨hs, ht⟩ := hshift c hc
    rw [ht] at hx
    rw [hs, Nat.add_right_comm, insertColumn_succ ((hafter c hc).trans (Nat.le_add_right _ _))]
    exact hinAfter c hc n x hx
  · obtain ⟨houtBefore, houtb, houtAfter⟩ := forall_mem_middle.mp hout
    rw [hstart, hlen] at houtb
    have hmoved : ∀ c ∈ after, k < start c + 1 ∨ start c + 1 + (text c).length ≤ k := by
      intro c hc
      have hc' := houtAfter _ (List.mem_map_of_mem hc)
      rwa [(hshift c hc).1, (hshift c hc).2] at hc'
    by_cases hk : k < p
    · rw [insertColumn_of_lt hk]
      refine h.outside k (forall_mem_middle.mpr ⟨houtBefore, by omega, fun c hc => ?_⟩)
      exact .inl (hk.trans_le (hafter c hc))
    · obtain ⟨m, rfl⟩ : ∃ m, k = m + 1 := ⟨k - 1, by omega⟩
      rw [insertColumn_succ (by omega)]
      refine h.outside m (forall_mem_middle.mpr ⟨fun c hc => ?_, by omega, fun c hc => ?_⟩)
      · have hleft := hbefore c hc
        omega
      · have hc' := hmoved c hc
        omega

/-- An element goes out of a piece, and the pieces behind move back by one column. -/
theorem Shows.delete (h : Shows start text blank (before ++ b :: after) r)
    (hbefore : ∀ c ∈ before, start c + (text c).length ≤ p) (hlow : start b ≤ p)
    (hhigh : p < start b + (text b).length) (hafter : ∀ c ∈ after, p < start c) (hstart : start b' = start b)
    (htext : text b' = (text b).eraseIdx (p - start b))
    (hshift : ∀ c ∈ after, start (shift c) + 1 = start c ∧ text (shift c) = text c) :
    Shows start text blank (before ++ b' :: after.map shift) (deleteColumn r p) := by
  obtain ⟨hinBefore, hinb, hinAfter⟩ := forall_mem_middle.mp h.inside
  have hlen : (text b').length + 1 = (text b).length := by
    rw [htext, List.length_eraseIdx_of_lt (by omega)]
    omega
  refine ⟨forall_mem_middle.mpr ⟨fun c hc n x hx => ?_, fun n x hx => ?_, ?_⟩, fun k hout => ?_⟩
  · have hn := (List.getElem?_eq_some_iff.mp hx).1
    have hleft := hbefore c hc
    rw [deleteColumn_of_lt (by omega)]
    exact hinBefore c hc n x hx
  · rw [htext] at hx
    rw [hstart]
    exact deleteColumn_eraseIdx hinb hlow n x hx
  · rintro _ hmem n x hx
    obtain ⟨c, hc, rfl⟩ := List.mem_map.mp hmem
    obtain ⟨hs, ht⟩ := hshift c hc
    have hright := hafter c hc
    rw [ht] at hx
    rw [deleteColumn_of_le (by omega), Nat.add_right_comm, hs]
    exact hinAfter c hc n x hx
  · obtain ⟨houtBefore, houtb, houtAfter⟩ := forall_mem_middle.mp hout
    rw [hstart] at houtb
    have hmoved : ∀ c ∈ after, k + 1 < start c ∨ start c + (text c).length ≤ k + 1 := by
      intro c hc
      have hc' := houtAfter _ (List.mem_map_of_mem hc)
      rw [(hshift c hc).2] at hc'
      have hs := (hshift c hc).1
      omega
    by_cases hk : k < p
    · rw [deleteColumn_of_lt hk]
      refine h.outside k (forall_mem_middle.mpr ⟨houtBefore, by omega, fun c hc => ?_⟩)
      exact .inl (hk.trans (hafter c hc))
    · rw [deleteColumn_of_le (by omega)]
      refine h.outside (k + 1) (forall_mem_middle.mpr ⟨fun c hc => ?_, by omega, hmoved⟩)
      have hleft := hbefore c hc
      omega

end MetaEditor.Lib
