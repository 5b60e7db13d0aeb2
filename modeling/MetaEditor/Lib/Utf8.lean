import MetaEditor.Lib.Unicode

/-!
# Valid UTF-8

A string is valid when it is the bytes of some characters. It can be cut in front of a byte that begins a
character, so that a 7-bit byte can be put in and taken out between characters; and it has as many
continuation bytes as its first bytes ask for, so that no other byte can be taken out alone.
-/

namespace MetaEditor.Lib

def ValidUtf8 (s : Bytes) : Prop := ∃ chars, s = utf8 chars

@[simp] theorem utf8_nil : utf8 [] = [] := rfl

@[simp] theorem utf8_cons (c : Char) (chars : List Char) : utf8 (c :: chars) = String.utf8EncodeChar c ++ utf8 chars :=
  List.flatMap_cons

@[simp] theorem utf8_append (chars chars' : List Char) : utf8 (chars ++ chars') = utf8 chars ++ utf8 chars' :=
  List.flatMap_append

theorem validUtf8_char (c : Char) : ValidUtf8 (String.utf8EncodeChar c) := ⟨[c], by simp⟩

theorem validUtf8_nil : ValidUtf8 [] := ⟨[], rfl⟩

variable {s before after : Bytes} {b c : UInt8}

theorem ValidUtf8.append (h : ValidUtf8 before) (h' : ValidUtf8 after) : ValidUtf8 (before ++ after) := by
  obtain ⟨chars, rfl⟩ := h
  obtain ⟨chars', rfl⟩ := h'
  exact ⟨chars ++ chars', (utf8_append chars chars').symm⟩

/-- What comes behind valid text in a valid text begins with a character. -/
theorem ValidUtf8.head (h : ValidUtf8 s) : ∀ b ∈ s.head?, BeginsChar b := by
  obtain ⟨chars, rfl⟩ := h
  exact beginsChar_head_utf8 chars

/-- A valid text is valid on both sides of a place where a character begins. -/
theorem ValidUtf8.split (h : ValidUtf8 (before ++ after)) (hhead : ∀ b ∈ after.head?, BeginsChar b) :
    ValidUtf8 before ∧ ValidUtf8 after := by
  obtain ⟨chars, h⟩ := h
  induction chars generalizing before with
  | nil =>
    obtain ⟨rfl, rfl⟩ := List.append_eq_nil_iff.mp h
    exact ⟨validUtf8_nil, validUtf8_nil⟩
  | cons c chars ih =>
    rw [utf8_cons] at h
    rcases List.append_eq_append_iff.mp h with ⟨rest, hchar, rfl⟩ | ⟨rest, rfl, hchars⟩
    · -- the place is in the character, so in front of it or behind it
      obtain ⟨b, tail, heq, -, htail⟩ := utf8EncodeChar_eq_cons c
      cases before with
      | nil =>
        exact ⟨validUtf8_nil, c :: chars, by simp [hchar]⟩
      | cons a before =>
        cases rest with
        | nil =>
          rw [List.append_nil] at hchar
          exact ⟨hchar ▸ validUtf8_char c, chars, rfl⟩
        | cons x rest =>
          rw [heq, List.cons_append, List.cons.injEq] at hchar
          exact absurd (hhead x rfl) (htail x (hchar.2 ▸ List.mem_append_right _ List.mem_cons_self))
    · obtain ⟨hbefore, hafter⟩ := ih hchars.symm
      exact ⟨(validUtf8_char c).append hbefore, hafter⟩

/-! ### 7-bit bytes -/

/-- A 7-bit byte is a character. -/
theorem validUtf8_of_ascii (hb : b < 128) : ValidUtf8 [b] := by
  have hall : ∀ n < 128, String.utf8EncodeChar (Char.ofNat n) = [UInt8.ofNat n] := by decide +kernel
  have hchar := hall b.toNat (UInt8.lt_iff_toNat_lt.mp hb)
  rw [UInt8.ofNat_toNat] at hchar
  exact hchar ▸ validUtf8_char _

/-- Behind a 7-bit byte a character begins. -/
theorem ValidUtf8.tail_of_ascii (hb : b < 128) (h : ValidUtf8 (b :: after)) : ValidUtf8 after := by
  obtain ⟨chars, h⟩ := h
  cases chars with
  | nil => cases h
  | cons c chars =>
    obtain ⟨b', rest, heq, -, hlength, -⟩ := utf8EncodeChar_cases c
    rw [utf8_cons, heq, List.cons_append, List.cons.injEq] at h
    obtain ⟨rfl, h⟩ := h
    have hrest : rest = [] := List.length_eq_zero_iff.mp (hlength.trans (if_pos (UInt8.lt_iff_toNat_lt.mp hb)))
    rw [hrest, List.nil_append] at h
    exact ⟨chars, h⟩

/-- A 7-bit byte stands between characters. -/
theorem validUtf8_around_ascii (hb : b < 128) :
    ValidUtf8 (before ++ b :: after) ↔ ValidUtf8 before ∧ ValidUtf8 after := by
  have hbegins : BeginsChar b := (beginsChar_iff b).mpr (.inl (UInt8.lt_iff_toNat_lt.mp hb))
  constructor
  · intro h
    obtain ⟨hbefore, hafter⟩ := h.split fun x hx => by cases hx; exact hbegins
    exact ⟨hbefore, hafter.tail_of_ascii hb⟩
  · rintro ⟨hbefore, hafter⟩
    exact hbefore.append ((validUtf8_of_ascii hb).append hafter)

theorem ValidUtf8.cString (h : ValidUtf8 s) : ValidUtf8 (cString s) := by
  by_cases hnul : (0 : UInt8) ∈ s
  · obtain ⟨rest, hs⟩ := exists_eq_cString_append hnul
    rw [hs] at h
    exact ((validUtf8_around_ascii (by decide)).mp h).1
  · rwa [cString_eq_self hnul]

/-! ### Bytes that are missing -/

/-- The continuation bytes that a byte asks for; one that continues a character settles one. -/
def balance (b : UInt8) : Int := if BeginsChar b then owed b else -1

theorem balance_ne_zero (hb : ¬b < 128) : balance b ≠ 0 := by
  have hb' : ¬b.toNat < 0x80 := fun h => hb (UInt8.lt_iff_toNat_lt.mpr h)
  unfold balance owed
  split_ifs <;> omega

/-- In valid text nothing is missing. -/
theorem ValidUtf8.sum_balance (h : ValidUtf8 s) : (s.map balance).sum = 0 := by
  obtain ⟨chars, rfl⟩ := h
  induction chars with
  | nil => rfl
  | cons c chars ih =>
    obtain ⟨b, rest, heq, hb, hlength, hrest⟩ := utf8EncodeChar_cases c
    have hfirst : balance b = rest.length := by
      rw [balance, if_pos ((beginsChar_iff b).mpr (hb.imp_left And.right)), hlength]
    have hothers : rest.map balance = List.replicate rest.length (-1) :=
      List.eq_replicate_iff.mpr ⟨List.length_map _, List.forall_mem_map.mpr fun x hx => if_neg (hrest x hx)⟩
    simp [ih, heq, hfirst, hothers]

/-- Without one of its other bytes a valid text is not valid. -/
theorem ValidUtf8.not_without (h : ValidUtf8 (before ++ b :: after)) (hb : ¬b < 128) : ¬ValidUtf8 (before ++ after) := by
  intro hwithout
  have hsum := h.sum_balance
  have hsum' := hwithout.sum_balance
  rw [List.map_append, List.sum_append, List.map_cons, List.sum_cons] at hsum
  rw [List.map_append, List.sum_append] at hsum'
  exact balance_ne_zero hb (by omega)

end MetaEditor.Lib
