import MetaEditor.Data.Keystroke
import MetaEditor.Editor.PlainEditor

/-!
# The text of a key

A key that the filter does not name comes to the default case, which hands the first code unit of `text()`
to the structure, as the one byte that `toLatin1` makes of it. The widget inserts `text()` itself, which is
empty for a modifier and several code units long for a character beyond the first plane or for a composed
text.
-/

namespace MetaEditor

open Lib

namespace LineManager

/-- The bytes `s` are put in one place of one text of the line, or are the text of a new field, and nothing
else changes. To receive no bytes the line may also stay as it is. -/
structure Receives (lm lm' : LineManager) (line : UInt32) (s : Bytes) : Prop where
  others : ∀ line', line' ≠ line → lm'.get? line' = lm.get? line'
  typed : (∃ i old k, (lm.texts line)[i]? = some old ∧ k ≤ old.length ∧
      lm'.texts line = (lm.texts line).set i (old.take k ++ s ++ old.drop k)) ∨
    lm'.texts line = lm.texts line ++ [s] ∨ s = [] ∧ lm'.texts line = lm.texts line

section

variable {lm lm' : LineManager} {line : UInt32} {c : UInt8} {s : Bytes}

theorem OneByteMore.receives (h : OneByteMore lm lm' line c) : Receives lm lm' line [c] :=
  ⟨h.others, h.typed.imp_right .inl⟩

theorem Receives.length (h : Receives lm lm' line s) :
    (lm'.texts line).flatten.length = (lm.texts line).flatten.length + s.length := by
  rcases h.typed with ⟨i, old, k, hold, hk, hnew⟩ | hnew | ⟨hs, hsame⟩
  · have hset := length_flatten_set hold (old.take k ++ s ++ old.drop k)
    rw [hnew]
    simp only [List.length_append, List.length_take, List.length_drop] at hset
    omega
  · rw [hnew, List.flatten_append, List.length_append, List.flatten_singleton]
  · rw [hsame, hs, List.length_nil, Nat.add_zero]

end

end LineManager

namespace PlainEditor

variable {b : Build} {v : View} {lm : LineManager} {keyEvent : KeyEvent}

/-- The key press comes to the default case of the switch. -/
def DefaultCase (b : Build) (keyEvent : KeyEvent) : Prop :=
  keyEvent.controlModifier = false ∧
    match keyEvent.key with
    | .escape | .f1 | .f2 | .f3 => b.logTest = false
    | .other _ => True
    | _ => False

theorem keyFilter_of_defaultCase (h : DefaultCase b keyEvent) : keyFilter b v lm keyEvent = characterKey b v lm keyEvent := by
  obtain ⟨hcontrol, hkey⟩ := h
  rw [keyFilter, if_neg (by rw [hcontrol]; exact Bool.false_ne_true)]
  cases hk : keyEvent.key <;> simp only [hk] at hkey
  case other code => rfl
  all_goals rw [hkey]

/-- The index of `text().at(0)` is in range, and if the key is let through, what the structure receives are
the characters of `text()`. -/
def ReceivesText (b : Build) (v : View) (lm : LineManager) (keyEvent : KeyEvent) : Prop :=
  0 < keyEvent.text.length ∧ ∀ r, keyFilter b v lm keyEvent = .ok r → r.answer = false →
    ∃ s : Bytes, s.map UInt8.toUInt16 = keyEvent.text ∧ lm.Receives r.dataman (currentLine v) s

/-- At an editable column the key is let through, with the first code unit in the structure. -/
theorem characterKey_of_isEditable {c : QChar} (hat : textAt0 b keyEvent = .ok c)
    (hedit : lm.isEditable (column v) (currentLine v) = true) :
    ∃ lm', characterKey b v lm keyEvent = .ok (letThrough lm') ∧
      (lm.OffsetInText (column v) (currentLine v) ∧ lm.OneByteMore lm' (currentLine v) c.toLatin1 ∨
        ¬lm.OffsetInText (column v) (currentLine v) ∧ lm' = lm) := by
  obtain ⟨lm', hcall, hlm'⟩ := LineManager.eventFilter_of_isEditable hedit c.toLatin1
  refine ⟨lm', ?_, hlm'⟩
  rw [characterKey, hat]
  simp [hcall, bind, Except.bind, pure, Except.pure]

/-- A text that the structure receives is one code unit of Latin-1. -/
theorem latin1_of_receivesText (hcase : DefaultCase b keyEvent) (hedit : lm.isEditable (column v) (currentLine v) = true)
    (h : ReceivesText b v lm keyEvent) :
    (∃ c, keyEvent.text = [c] ∧ c ≤ 0xff) ∧ lm.OffsetInText (column v) (currentLine v) := by
  obtain ⟨hrange, hreceives⟩ := h
  obtain ⟨c, rest, htext⟩ := List.exists_cons_of_length_pos hrange
  have hat : textAt0 b keyEvent = .ok c := by rw [textAt0, htext]
  obtain ⟨lm', hcall, hlm'⟩ := characterKey_of_isEditable hat hedit
  obtain ⟨s, hs, hadd⟩ := hreceives _ ((keyFilter_of_defaultCase hcase).trans hcall) rfl
  have hlength : (lm'.texts (currentLine v)).flatten.length = _ := hadd.length
  rcases hlm' with ⟨hin, hone⟩ | ⟨-, rfl⟩
  · have hbytes := hone.bytes
    obtain ⟨x, rfl⟩ : ∃ x, s = [x] := List.length_eq_one_iff.mp (by omega)
    refine ⟨⟨x.toUInt16, hs.symm, ?_⟩, hin⟩
    rw [UInt16.le_iff_toNat_le, UInt8.toNat_toUInt16]
    exact Nat.le_of_lt_succ x.toNat_lt
  · -- nothing was added, and the text is not empty
    obtain rfl : s = [] := List.length_eq_zero_iff.mp (by omega)
    rw [htext] at hs
    cases hs

theorem receivesText_of_latin1 (hcase : DefaultCase b keyEvent) (hedit : lm.isEditable (column v) (currentLine v) = true)
    (hin : lm.OffsetInText (column v) (currentLine v)) {c : QChar} (htext : keyEvent.text = [c]) (hc : c ≤ 0xff) :
    ReceivesText b v lm keyEvent := by
  refine ⟨by rw [htext]; exact Nat.one_pos, fun r hr _ => ⟨[c.toLatin1], ?_, ?_⟩⟩
  · rw [htext, List.map_singleton, c.toUInt16_toLatin1.mpr hc]
  · have hat : textAt0 b keyEvent = .ok c := by rw [textAt0, htext]
    obtain ⟨lm', hcall, hlm'⟩ := characterKey_of_isEditable hat hedit
    rw [keyFilter_of_defaultCase hcase, hcall] at hr
    cases hr
    rcases hlm' with ⟨-, hone⟩ | ⟨hout, -⟩
    · exact hone.receives
    · exact absurd hin hout

/-- The structure receives the text exactly when that is one code unit of Latin-1, typed at a column that is in
the text of its field. In a structure that the editor reaches the text alone decides. -/
theorem structure_receives_text_iff (hcase : DefaultCase b keyEvent)
    (hedit : lm.isEditable (column v) (currentLine v) = true) :
    (ReceivesText b v lm keyEvent ↔
      (∃ c, keyEvent.text = [c] ∧ c ≤ 0xff) ∧ lm.OffsetInText (column v) (currentLine v)) ∧
    (lm.Reachable → (ReceivesText b v lm keyEvent ↔ ∃ c, keyEvent.text = [c] ∧ c ≤ 0xff)) := by
  have hiff : ReceivesText b v lm keyEvent ↔
      (∃ c, keyEvent.text = [c] ∧ c ≤ 0xff) ∧ lm.OffsetInText (column v) (currentLine v) := by
    refine ⟨latin1_of_receivesText hcase hedit, ?_⟩
    rintro ⟨⟨c, htext, hc⟩, hin⟩
    exact receivesText_of_latin1 hcase hedit hin htext hc
  refine ⟨hiff, fun hreach => ?_⟩
  rw [hiff, and_iff_left (hreach.offsetInText _ _)]

/-- A build without assertions: `at(0)` of an empty text reads the NUL behind it. -/
def releaseBuild : Build := { logTest := false, emptyAt := some 0 }

/-- The cursor of an empty editor. -/
def atStart : View := { visible := true, cursorColumn := 0, blockNumber := 0, selectionStart := 0, selectionEnd := 0 }

/-- A key that the filter does not name. -/
def otherKey (code : Nat) (text : List QChar) : KeyEvent := { key := .other code, controlModifier := false, text := text }

theorem defaultCase_otherKey (b : Build) (code : Nat) (text : List QChar) : DefaultCase b (otherKey code text) :=
  ⟨rfl, trivial⟩

theorem structure_receives_text_letter : ReceivesText releaseBuild atStart .empty (otherKey 0x41 [0x61]) :=
  ((structure_receives_text_iff (defaultCase_otherKey _ _ _)
    (LineManager.isEditable_of_outside (by simp))).2 .empty).mpr ⟨0x61, rfl, by decide⟩

/-- Shift alone has no text, a character beyond the first plane has two code units, and a Cyrillic letter is
outside Latin-1. The first and the last put a NUL into the structure. -/
theorem key_text_differs :
    ¬(∀ b v lm keyEvent, DefaultCase b keyEvent → lm.isEditable (column v) (currentLine v) = true →
      ReceivesText b v lm keyEvent) ∧
    (∀ text ∈ [[], [0xD83D, 0xDE00], [0x416]], ¬ReceivesText releaseBuild atStart .empty (otherKey 0x1000020 text)) ∧
    ∀ text ∈ [[], [0x416]], ∃ lm, keyFilter releaseBuild atStart .empty (otherKey 0x1000020 text) = .ok (letThrough lm) ∧
      LineManager.empty.OneByteMore lm (currentLine atStart) 0 := by
  have hedit : LineManager.empty.isEditable (column atStart) (currentLine atStart) = true :=
    LineManager.isEditable_of_outside (by simp)
  have hnot : ∀ text ∈ [[], [0xD83D, 0xDE00], [0x416]],
      ¬ReceivesText releaseBuild atStart .empty (otherKey 0x1000020 text) := by
    intro text htext hreceives
    obtain ⟨⟨c, hc, hlatin⟩, -⟩ := latin1_of_receivesText (defaultCase_otherKey _ _ _) hedit hreceives
    obtain rfl : text = [c] := hc
    obtain rfl : c = 0x416 := by simpa using htext
    exact absurd hlatin (by decide)
  refine ⟨fun h => hnot [] List.mem_cons_self (h _ _ _ _ (defaultCase_otherKey _ _ _) hedit), hnot, fun text htext => ?_⟩
  have hat : textAt0 releaseBuild (otherKey 0x1000020 text) = .ok (text.headD 0) := by
    rcases List.mem_pair.mp htext with rfl | rfl <;> rfl
  have hnul : (text.headD 0).toLatin1 = 0 := by
    rcases List.mem_pair.mp htext with rfl | rfl <;> decide
  obtain ⟨lm, hcall, ⟨-, hone⟩ | ⟨hout, -⟩⟩ := characterKey_of_isEditable hat hedit
  · rw [hnul] at hone
    exact ⟨lm, (keyFilter_of_defaultCase (defaultCase_otherKey _ _ _)).trans hcall, hone⟩
  · exact absurd (LineManager.Reachable.empty.offsetInText _ _) hout

end PlainEditor

end MetaEditor
