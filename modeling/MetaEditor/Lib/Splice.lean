import MetaEditor.Lib.Run

/-!
# Splices of a list

An edit of a text takes out the elements `start .. stop - 1` and puts `text` in their place: a typed
character, an erasure and a paste are all of this kind. A run of elements is `Intact` when the very
same elements still stand next to each other after the edit, wherever they moved. To say so the
elements are given their position as a name (`origins`); what the edit inserts has no name. Equal
elements elsewhere in the text do not count.
-/

namespace MetaEditor.Lib

variable {α : Type*}

/-- The elements `a .. b - 1`. -/
def slice (l : List α) (a b : Nat) : List α := (l.drop a).take (b - a)

/-- Replace the elements `start .. stop - 1` by `text`. -/
structure Splice (α : Type*) where
  start : Nat
  stop : Nat
  text : List α
  deriving DecidableEq, Repr

/-- Every element with its position. -/
def origins (l : List α) : List (Option Nat × α) := l.mapIdx fun i x => (some i, x)

namespace Splice

def apply (s : Splice α) (l : List α) : List α := l.take s.start ++ s.text ++ l.drop s.stop

/-- The same edit where elements have names: what it inserts has none. -/
def named (s : Splice α) : Splice (Option Nat × α) :=
  { start := s.start, stop := s.stop, text := s.text.map fun x => (none, x) }

/-- The elements `a .. b - 1` are still one run after the edit. -/
def Intact (s : Splice α) (l : List α) (a b : Nat) : Prop :=
  slice (origins l) a b <:+: s.named.apply (origins l)

/-- The edit is on one side of the elements `a .. b - 1`, or there is nothing to do or to cut. -/
def Avoids (s : Splice α) (a b : Nat) : Prop :=
  a = b ∨ b ≤ s.start ∨ s.stop ≤ a ∨ (s.start = s.stop ∧ s.text = [])

instance [DecidableEq α] (s : Splice α) (a b : Nat) : Decidable (s.Avoids a b) :=
  inferInstanceAs (Decidable (_ ∨ _))

instance [DecidableEq α] (s : Splice α) (l : List α) (a b : Nat) : Decidable (s.Intact l a b) :=
  inferInstanceAs (Decidable (_ <:+: _))

end Splice

theorem slice_isInfix_take (l : List α) (a : Nat) {b n : Nat} (h : b ≤ n) : slice l a b <:+: l.take n := by
  have hslice : slice l a b = (l.take b).drop a := by rw [slice, List.drop_take]
  rw [hslice]
  exact (List.drop_suffix a _).isInfix.trans (List.take_prefix_take_left h).isInfix

theorem slice_isInfix_drop (l : List α) {a n : Nat} (b : Nat) (h : n ≤ a) : slice l a b <:+: l.drop n := by
  have hdrop : l.drop a = (l.drop n).drop (a - n) := by
    rw [List.drop_drop]
    congr 1
    omega
  rw [slice, hdrop]
  exact (List.take_prefix _ _).isInfix.trans (List.drop_suffix _ _).isInfix

theorem map_snd_origins (l : List α) : (origins l).map Prod.snd = l := by
  apply List.ext_getElem?
  intro i
  rw [origins, List.getElem?_map, List.getElem?_mapIdx, Option.map_map]
  exact Option.map_id'

@[simp] theorem length_origins (l : List α) : (origins l).length = l.length := by simp [origins]

theorem fst_of_getElem?_origins {l : List α} {i : Nat} {o : Option Nat} {x : α}
    (h : (origins l)[i]? = some (o, x)) : o = some i := by
  rw [origins, List.getElem?_mapIdx, Option.map_eq_some_iff] at h
  obtain ⟨y, -, hy⟩ := h
  exact (congrArg Prod.fst hy).symm

theorem getElem?_slice_origins {l : List α} {a b k : Nat} (hak : a ≤ k) (hkb : k < b) (hb : b ≤ l.length) :
    ∃ x, (slice (origins l) a b)[k - a]? = some (some k, x) := by
  have hk : k < l.length := by omega
  refine ⟨l[k], ?_⟩
  rw [slice, List.getElem?_take_of_lt (by omega), List.getElem?_drop, show a + (k - a) = k by omega, origins,
    List.getElem?_mapIdx, List.getElem?_eq_getElem hk]
  rfl

namespace Splice

/-- An intact run is in particular still readable as text. -/
theorem Intact.slice_isInfix {s : Splice α} {l : List α} {a b : Nat} (h : s.Intact l a b) :
    slice l a b <:+: s.apply l := by
  have hmap := List.IsInfix.map Prod.snd h
  have hrun : (slice (origins l) a b).map Prod.snd = slice l a b := by
    rw [slice, List.map_take, List.map_drop, map_snd_origins, slice]
  have htext : (s.named.apply (origins l)).map Prod.snd = s.apply l := by
    simp only [apply, named, List.map_append, List.map_take, List.map_drop, map_snd_origins, List.map_map]
    congr 2
    exact List.map_id' _
  rwa [hrun, htext] at hmap

/-- Where an element of the text is found after the edit. -/
theorem position_of_named {s : Splice α} {l : List α} {j k : Nat} {x : α} (hstart : s.start ≤ l.length)
    (h : (s.named.apply (origins l))[j]? = some (some k, x)) :
    (j < s.start ∧ k = j) ∨ (s.start + s.text.length ≤ j ∧ k = s.stop + (j - (s.start + s.text.length))) := by
  have htake : ((origins l).take s.start).length = s.start := by
    rw [List.length_take, length_origins]
    omega
  simp only [apply, named] at h
  by_cases hj : j < s.start
  · rw [List.append_assoc, List.getElem?_append_left (by omega), List.getElem?_take_of_lt hj] at h
    exact .inl ⟨hj, Option.some.inj (fst_of_getElem?_origins h)⟩
  · by_cases hins : j < s.start + s.text.length
    · rw [List.getElem?_append_left (by simp; omega), List.getElem?_append_right (by omega),
        List.getElem?_map, Option.map_eq_some_iff] at h
      obtain ⟨y, -, hy⟩ := h
      cases congrArg Prod.fst hy
    · have hlen : ((origins l).take s.start ++ s.text.map fun x => ((none : Option Nat), x)).length =
          s.start + s.text.length := by rw [List.length_append, htake, List.length_map]
      rw [List.getElem?_append_right (by omega), hlen, List.getElem?_drop] at h
      exact .inr ⟨by omega, Option.some.inj (fst_of_getElem?_origins h)⟩

/-- A run stays intact exactly when the edit avoids it. -/
theorem intact_iff {s : Splice α} {l : List α} {a b : Nat} (hab : a ≤ b) (hb : b ≤ l.length)
    (hs : s.start ≤ s.stop) (hstop : s.stop ≤ l.length) : s.Intact l a b ↔ s.Avoids a b := by
  constructor
  · rintro ⟨before, after, hsplit⟩
    by_contra havoid
    simp only [Avoids, not_or] at havoid
    obtain ⟨hne, hbs, hsa, hedit⟩ := havoid
    -- the element `k` of the run is found at `before.length + (k - a)`
    have hrun : ∀ k, a ≤ k → k < b →
        ∃ x, (s.named.apply (origins l))[before.length + (k - a)]? = some (some k, x) := by
      intro k hak hkb
      obtain ⟨x, hx⟩ := getElem?_slice_origins hak hkb hb
      have hlt := (List.getElem?_eq_some_iff.mp hx).1
      refine ⟨x, ?_⟩
      rw [← hsplit, List.append_assoc, List.getElem?_append_right (by omega), Nat.add_sub_cancel_left,
        List.getElem?_append_left hlt, hx]
    have hplace : ∀ k, a ≤ k → k < b → _ := fun k hak hkb =>
      let ⟨_, hx⟩ := hrun k hak hkb
      position_of_named (by omega) hx
    by_cases hcut : s.start < s.stop
    · -- an element that was taken out
      have := hplace (max a s.start) (by omega) (by omega)
      omega
    · -- the two elements around the place of the insertion
      have htext : s.text ≠ [] := fun hnil => hedit ⟨by omega, hnil⟩
      have hpos := List.length_pos_iff.mpr htext
      have hleft := hplace (s.start - 1) (by omega) (by omega)
      have hright := hplace s.start (by omega) (by omega)
      omega
  · rintro (rfl | hleft | hright | ⟨heq, hnil⟩)
    · rw [Intact, slice, Nat.sub_self, List.take_zero]
      exact List.nil_infix
    · rw [Intact, apply, List.append_assoc]
      exact (slice_isInfix_take _ a hleft).trans (List.prefix_append _ _).isInfix
    · exact (slice_isInfix_drop _ b hright).trans (List.suffix_append _ _).isInfix
    · have hid : s.named.apply (origins l) = origins l := by
        simp only [apply, named, hnil, List.map_nil, List.append_nil, heq, List.take_append_drop]
      rw [Intact, hid, slice]
      exact (List.take_prefix _ _).isInfix.trans (List.drop_suffix _ _).isInfix

end Splice

end MetaEditor.Lib
