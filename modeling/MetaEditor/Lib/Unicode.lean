import MetaEditor.Lib.StdString

/-!
# UTF-8 and UTF-16

A character is one to four bytes of UTF-8, of which only the first begins a character, and one or two
code units of UTF-16. A `std::string` has the former, a text widget counts the latter.
-/

namespace MetaEditor.Lib

/-- The byte is not `10xxxxxx`. -/
def BeginsChar (b : UInt8) : Prop := b &&& 0x80 = 0 ∨ b &&& 0xC0 = 0xC0

instance (b : UInt8) : Decidable (BeginsChar b) := inferInstanceAs (Decidable (_ ∨ _))

theorem beginsChar_iff (b : UInt8) : BeginsChar b ↔ b.toNat < 0x80 ∨ 0xC0 ≤ b.toNat := by
  have hall : ∀ n < 256, BeginsChar (UInt8.ofNat n) ↔ n < 0x80 ∨ 0xC0 ≤ n := by decide +kernel
  have hb := hall b.toNat b.toNat_lt
  rwa [UInt8.ofNat_toNat] at hb

def utf8 (chars : List Char) : Bytes := chars.flatMap String.utf8EncodeChar

/-- The continuation bytes that the first byte of a character asks for. -/
def owed (b : UInt8) : Nat :=
  if b.toNat < 0x80 then 0 else if b.toNat < 0xE0 then 1 else if b.toNat < 0xF0 then 2 else 3

/-- A character is its own byte, or a byte from `0xC0` on and the continuation bytes it asks for. -/
theorem utf8EncodeChar_cases (c : Char) :
    ∃ b rest, String.utf8EncodeChar c = b :: rest ∧ (b.toNat = c.toNat ∧ b.toNat < 0x80 ∨ 0xC0 ≤ b.toNat) ∧
      rest.length = owed b ∧ ∀ x ∈ rest, ¬BeginsChar x := by
  have htail : ∀ n, ¬BeginsChar (UInt8.ofNat (n % 64 + 128)) := by
    intro n
    rw [beginsChar_iff, UInt8.toNat_ofNat']
    omega
  have hval : c.val.toNat = c.toNat := rfl
  unfold String.utf8EncodeChar owed
  simp only [hval]
  split_ifs with h1 h2 h3
  · refine ⟨_, _, rfl, .inl ?_, ?_, List.forall_mem_nil _⟩
    · rw [UInt8.toNat_ofNat']
      omega
    · rw [UInt8.toNat_ofNat', if_pos (by omega), List.length_nil]
  · refine ⟨_, _, rfl, .inr ?_, ?_, List.forall_mem_cons.mpr ⟨htail _, List.forall_mem_nil _⟩⟩
    · rw [UInt8.toNat_ofNat']
      omega
    · rw [UInt8.toNat_ofNat', if_neg (by omega), if_pos (by omega), List.length_singleton]
  · refine ⟨_, _, rfl, .inr ?_, ?_, List.forall_mem_cons.mpr ⟨htail _, List.forall_mem_cons.mpr ⟨htail _,
      List.forall_mem_nil _⟩⟩⟩
    · rw [UInt8.toNat_ofNat']
      omega
    · rw [UInt8.toNat_ofNat', if_neg (by omega), if_neg (by omega), if_pos (by omega)]
      rfl
  · refine ⟨_, _, rfl, .inr ?_, ?_, List.forall_mem_cons.mpr ⟨htail _, List.forall_mem_cons.mpr ⟨htail _,
      List.forall_mem_cons.mpr ⟨htail _, List.forall_mem_nil _⟩⟩⟩⟩
    · rw [UInt8.toNat_ofNat']
      omega
    · rw [UInt8.toNat_ofNat', if_neg (by omega), if_neg (by omega), if_neg (by omega)]
      rfl

/-- The first byte of a character begins it, the others do not. -/
theorem utf8EncodeChar_eq_cons (c : Char) :
    ∃ b rest, String.utf8EncodeChar c = b :: rest ∧ BeginsChar b ∧ ∀ x ∈ rest, ¬BeginsChar x := by
  obtain ⟨b, rest, heq, hb, -, hrest⟩ := utf8EncodeChar_cases c
  exact ⟨b, rest, heq, (beginsChar_iff b).mpr (hb.imp_left And.right), hrest⟩

/-- There is one byte for each character that begins it. -/
theorem countP_utf8 (chars : List Char) : (utf8 chars).countP (BeginsChar ·) = chars.length := by
  induction chars with
  | nil => rfl
  | cons c chars ih =>
    obtain ⟨b, rest, heq, hb, hrest⟩ := utf8EncodeChar_eq_cons c
    have hnone : rest.countP (BeginsChar ·) = 0 := List.countP_eq_zero.mpr fun x hx => by simpa using hrest x hx
    rw [utf8, List.flatMap_cons, ← utf8, heq, List.countP_append, List.countP_cons_of_pos (by simpa using hb), hnone, ih,
      List.length_cons]
    omega

/-- The first byte of a text begins a character. -/
theorem beginsChar_head_utf8 (chars : List Char) : ∀ b ∈ (utf8 chars).head?, BeginsChar b := by
  cases chars with
  | nil => exact nofun
  | cons c chars =>
    obtain ⟨b, rest, heq, hb, -⟩ := utf8EncodeChar_eq_cons c
    intro x hx
    rw [utf8, List.flatMap_cons, heq] at hx
    cases hx
    exact hb

/-- Only the NUL character has a NUL byte. -/
theorem zero_mem_utf8EncodeChar {c : Char} (h : (0 : UInt8) ∈ String.utf8EncodeChar c) : c.toNat = 0 := by
  obtain ⟨b, rest, heq, hb, -, hrest⟩ := utf8EncodeChar_cases c
  rw [heq] at h
  rcases List.mem_cons.mp h with rfl | hmem
  · rcases hb with ⟨hc, -⟩ | hhigh
    · exact hc.symm
    · exact absurd hhigh (by decide)
  · exact absurd (.inl rfl) (hrest 0 hmem)

theorem zero_notMem_utf8 {chars : List Char} (h : ∀ c ∈ chars, c.toNat ≠ 0) : (0 : UInt8) ∉ utf8 chars := by
  intro hmem
  obtain ⟨c, hc, hzero⟩ := List.mem_flatMap.mp hmem
  exact h c hc (zero_mem_utf8EncodeChar hzero)

/-- The code units of a character: itself, or a surrogate pair. -/
def utf16EncodeChar (c : Char) : List UInt16 :=
  if c.toNat < 0x10000 then [UInt16.ofNat c.toNat]
  else [UInt16.ofNat (0xD800 + (c.toNat - 0x10000) / 0x400), UInt16.ofNat (0xDC00 + (c.toNat - 0x10000) % 0x400)]

def utf16 (chars : List Char) : List UInt16 := chars.flatMap utf16EncodeChar

theorem length_utf16_cons (c : Char) (chars : List Char) :
    (utf16 (c :: chars)).length = (if c.toNat < 0x10000 then 1 else 2) + (utf16 chars).length := by
  rw [utf16, List.flatMap_cons, List.length_append, utf16EncodeChar]
  split_ifs <;> rfl

theorem length_le_length_utf16 (chars : List Char) : chars.length ≤ (utf16 chars).length := by
  induction chars with
  | nil => exact le_rfl
  | cons c chars ih =>
    rw [length_utf16_cons, List.length_cons]
    split_ifs <;> omega

/-- There are as many code units as characters exactly when no character needs a pair. -/
theorem length_utf16_eq_iff (chars : List Char) :
    (utf16 chars).length = chars.length ↔ ∀ c ∈ chars, c.toNat < 0x10000 := by
  induction chars with
  | nil => simp [utf16]
  | cons c chars ih =>
    have hle := length_le_length_utf16 chars
    rw [length_utf16_cons, List.length_cons, List.forall_mem_cons, ← ih]
    split_ifs with hc
    · exact ⟨fun h => ⟨hc, by omega⟩, fun h => by omega⟩
    · exact ⟨fun h => by omega, fun h => absurd h.1 hc⟩

end MetaEditor.Lib
