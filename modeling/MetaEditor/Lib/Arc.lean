import Mathlib

/-!
# Arcs of the 32-bit circle

An arc is the points `start, start + 1, …, start + width`, modulo `2 ^ 32`. It is never empty. Two arcs
without a common point stay so when both turn, when one turns by a point and was not next to the other,
and when one gives up its last point and the other moves up to it.
-/

namespace MetaEditor.Lib

/-! ### One step -/

theorem one_toNat : (1 : UInt32).toNat = 1 := rfl

theorem toNat_pos {c : UInt32} (hne : c ≠ 0) : 0 < c.toNat :=
  Nat.pos_of_ne_zero fun hzero => hne (UInt32.toNat_inj.mp hzero)

theorem toNat_add_one (c : UInt32) : (c + 1).toNat = (c.toNat + 1) % 2 ^ 32 := by
  rw [UInt32.toNat_add, one_toNat]

theorem toNat_add_one_of_lt {c : UInt32} (hroom : c.toNat + 1 < 2 ^ 32) : (c + 1).toNat = c.toNat + 1 := by
  rw [toNat_add_one, Nat.mod_eq_of_lt hroom]

theorem toNat_sub_one_mod (c : UInt32) : (c - 1).toNat = (c.toNat + (2 ^ 32 - 1)) % 2 ^ 32 := by
  rw [UInt32.toNat_sub, one_toNat]
  omega

theorem toNat_sub_one {c : UInt32} (hpos : 0 < c.toNat) : (c - 1).toNat = c.toNat - 1 := by
  have hmax := c.toNat_lt
  rw [toNat_sub_one_mod]
  omega

/-! ### Arcs -/

structure Arc where
  start : UInt32
  width : UInt32
  deriving DecidableEq, Repr

namespace Arc

variable {a b : Arc} {x d : UInt32}

def Mem (a : Arc) (x : UInt32) : Prop := x - a.start ≤ a.width

instance (a : Arc) (x : UInt32) : Decidable (a.Mem x) := inferInstanceAs (Decidable (_ ≤ _))

/-- The last point. -/
def last (a : Arc) : UInt32 := a.start + a.width

def turn (a : Arc) (d : UInt32) : Arc := { a with start := a.start + d }

/-- A point more at the end. -/
def grow (a : Arc) : Arc := { a with width := a.width + 1 }

/-- The last point less. -/
def shrink (a : Arc) : Arc := { a with width := a.width - 1 }

theorem mem_start (a : Arc) : a.Mem a.start := by
  rw [Mem, UInt32.sub_self]
  exact UInt32.zero_le

theorem mem_last (a : Arc) : a.Mem a.last := by
  rw [Mem, last, show a.start + a.width - a.start = a.width by grind]
  exact UInt32.le_refl _

theorem mem_turn : (a.turn d).Mem x ↔ a.Mem (x - d) := by
  rw [Mem, Mem, turn, show x - (a.start + d) = x - d - a.start by grind]

theorem mem_iff : a.Mem x ↔ (2 ^ 32 - a.start.toNat + x.toNat) % 2 ^ 32 ≤ a.width.toNat := by
  rw [Mem, UInt32.le_iff_toNat_le, UInt32.toNat_sub]

/-- The only point with none before it is the first. -/
theorem eq_start_of_mem (h : a.Mem x) (hbefore : ¬a.Mem (x - 1)) : x = a.start := by
  rw [mem_iff, toNat_sub_one_mod] at hbefore
  rw [mem_iff] at h
  have hx := x.toNat_lt
  have hs := a.start.toNat_lt
  refine UInt32.toNat_inj.mp ?_
  omega

/-- The only point with none behind it is the last. -/
theorem eq_last_of_mem (h : a.Mem x) (hbehind : ¬a.Mem (x + 1)) : x = a.last := by
  rw [mem_iff, toNat_add_one] at hbehind
  rw [mem_iff] at h
  have hx := x.toNat_lt
  have hs := a.start.toNat_lt
  have hw := a.width.toNat_lt
  refine UInt32.toNat_inj.mp ?_
  rw [last, UInt32.toNat_add]
  omega

theorem mem_grow (h : a.grow.Mem x) : a.Mem x ∨ x = a.last + 1 := by
  by_cases hx : a.Mem x
  · exact .inl hx
  · right
    rw [mem_iff] at hx h
    have hgrow : a.grow.width.toNat = (a.width.toNat + 1) % 2 ^ 32 := toNat_add_one _
    have hlast : (a.last + 1).toNat = ((a.start.toNat + a.width.toNat) % 2 ^ 32 + 1) % 2 ^ 32 := by
      rw [toNat_add_one, last, UInt32.toNat_add]
    have hlt := x.toNat_lt
    have hs := a.start.toNat_lt
    have hw := a.width.toNat_lt
    rw [hgrow] at h
    refine UInt32.toNat_inj.mp ?_
    rw [hlast]
    simp only [grow] at h
    omega

theorem mem_shrink (hwidth : a.width ≠ 0) (h : a.shrink.Mem x) : a.Mem x ∧ x ≠ a.last := by
  have hw := toNat_pos hwidth
  have hshrink : a.shrink.width.toNat = a.width.toNat - 1 := toNat_sub_one hw
  rw [Mem, UInt32.le_iff_toNat_le, hshrink] at h
  refine ⟨?_, ?_⟩
  · rw [Mem, UInt32.le_iff_toNat_le]
    exact h.trans (Nat.sub_le _ _)
  · rintro rfl
    have hoff : a.last - a.shrink.start = a.width := by
      simp only [last, shrink]
      grind
    rw [hoff] at h
    omega

/-! ### Arcs without a common point -/

def Apart (a b : Arc) : Prop := ∀ x, a.Mem x → ¬b.Mem x

/-- Of two arcs that meet one begins in the other. -/
theorem apart_iff : a.Apart b ↔ ¬b.Mem a.start ∧ ¬a.Mem b.start := by
  refine ⟨fun h => ⟨h a.start a.mem_start, fun hb => h b.start hb b.mem_start⟩, ?_⟩
  rintro ⟨ha, hb⟩ x hxa hxb
  rw [mem_iff] at ha hb hxa hxb
  have hx := x.toNat_lt
  have hs := a.start.toNat_lt
  have ht := b.start.toNat_lt
  omega

instance (a b : Arc) : Decidable (a.Apart b) := decidable_of_iff _ apart_iff.symm

namespace Apart

/-- Both turn. -/
theorem turn (h : a.Apart b) (d : UInt32) : (a.turn d).Apart (b.turn d) := by
  intro x ha hb
  rw [mem_turn] at ha hb
  exact h _ ha hb

/-- The second arc moves on by a point. -/
theorem turn_right (h : a.Apart b) (hnext : b.last + 1 ≠ a.start) : a.Apart (b.turn 1) := by
  intro x ha hb
  rw [mem_turn] at hb
  have hstart : x = a.start := eq_start_of_mem ha fun hbefore => h _ hbefore hb
  have hlast : x - 1 = b.last := by
    refine eq_last_of_mem hb ?_
    rw [show x - 1 + 1 = x by grind]
    exact h x ha
  exact hnext (by rw [← hlast, ← hstart]; grind)

/-- The first arc grows to where the second one began. -/
theorem grow_turn_right (h : a.Apart b) (hnext : b.last + 1 ≠ a.start) : a.grow.Apart (b.turn 1) := by
  intro x ha hb
  rcases mem_grow ha with ha | rfl
  · exact h.turn_right hnext x ha hb
  · rw [mem_turn, show a.last + 1 - 1 = a.last by grind] at hb
    exact h a.last a.mem_last hb

/-- The second arc moves back by a point. -/
theorem turn_left (h : a.Apart b) (hnext : a.last + 1 ≠ b.start) : a.Apart (b.turn (-1)) := by
  intro x ha hb
  rw [mem_turn, show x - -1 = x + 1 by grind] at hb
  have hlast : x = a.last := eq_last_of_mem ha fun hbehind => h _ hbehind hb
  have hstart : x + 1 = b.start := by
    refine eq_start_of_mem hb ?_
    rw [show x + 1 - 1 = x by grind]
    exact h x ha
  exact hnext (by rw [← hlast, hstart])

/-- The second arc moves back to where the first one ended. -/
theorem shrink_turn_left (h : a.Apart b) (hwidth : a.width ≠ 0) : a.shrink.Apart (b.turn (-1)) := by
  intro x ha hb
  obtain ⟨ha, hne⟩ := mem_shrink hwidth ha
  rw [mem_turn, show x - -1 = x + 1 by grind] at hb
  exact hne (eq_last_of_mem ha fun hbehind => h _ hbehind hb)

/-- The second arc gives up a point. -/
theorem shrink_right (h : a.Apart b) (hwidth : b.width ≠ 0) : a.Apart b.shrink :=
  fun x ha hb => h x ha (mem_shrink hwidth hb).1

end Apart

end Arc

end MetaEditor.Lib
