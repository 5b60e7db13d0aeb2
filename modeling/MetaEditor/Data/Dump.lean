import MetaEditor.Data.Row

/-!
# Dumping the structure

A dump has the text of every field with a blank behind it, line by line. A line is made by the first
operation on it that could put text there, and stays: the lines that are counted and dumped are those that
were worked on, whatever is left in them.
-/

namespace MetaEditor

open Lib

/-- `"\n"`. -/
def newline : UInt8 := 0x0A

/-- The text of every field, and a blank behind it. -/
def Line.dump (l : Line) : Bytes := l.mFields.foldl (fun ret f => ret ++ f.mInfo ++ [blank]) []

namespace LineManager

def lineCount (lm : LineManager) : UInt32 := UInt32.ofNat lm.mLines.size

def dumpLine (lm : LineManager) (line : UInt32) : Except Failure Bytes := do
  let ptr ← lm.lineAt line
  return ptr.dump

/-- From the smallest key on. -/
def dumpLines (lm : LineManager) : Bytes :=
  lm.mLines.toList.foldl (fun ret line => ret ++ (line.2.dump ++ [newline])) []

/-- What `dump` writes to the log, by `"\t>>>Line[%d] Text[ %s]"`. -/
def dump (lm : LineManager) : List (UInt32 × Bytes) :=
  lm.mLines.toList.map fun line => (line.2.mNumber + 1, cString line.2.dump)

/-! ### Which lines there are -/

/-- The line that an operation makes when it is not there. -/
def Op.makes : Op → Option UInt32
  | .eventFilter _ line _ | .addTitle _ _ line | .addName _ _ line => some line
  | .removeCharacter _ _ => none

/-- A string that is added on an occupied column is dropped, and makes a field elsewhere. -/
theorem step_of_adds (lm : LineManager) {op : Op} {type : FieldType} {str : Bytes} {col : UInt32}
    (hop : op.adds = some (type, str, col)) :
    (∃ i f, FirstAt (lm.fields op.line) col i f ∧ lm.step op = lm) ∨
      (∀ g ∈ lm.fields op.line, g.atRange col = false) ∧ lm.step op = lm.write op.line
        ((lm.lineFor op.line).push (.newString type (lm.fields op.line).length col (cString str))) := by
  have happly : lm.apply op = addField type lm str col op.line := by
    cases op <;> cases hop <;> rfl
  by_cases hnone : ∀ g ∈ lm.fields op.line, g.atRange col = false
  · exact .inr ⟨hnone, step_of_apply (happly.trans (addField_of_outside hnone))⟩
  · obtain ⟨i, f, hfirst⟩ := exists_firstAt hnone
    exact .inl ⟨i, f, hfirst, step_of_apply (happly.trans (addField_of_firstAt hfirst))⟩

/-- An operation changes nothing, or the fields of its line as `FieldsStep` says: the line keeps its number. -/
theorem step_writes (lm : LineManager) (op : Op) :
    lm.step op = lm ∨ ∃ after, lm.step op = lm.write op.line ((lm.lineFor op.line).setFields after) ∧
      FieldsStep op (lm.fields op.line) after := by
  have hadd : ∀ {type : FieldType} {str : Bytes} {col : UInt32}, op.adds = some (type, str, col) →
      lm.step op = lm ∨ ∃ after, lm.step op = lm.write op.line ((lm.lineFor op.line).setFields after) ∧
        FieldsStep op (lm.fields op.line) after := by
    intro type str col hop
    rcases step_of_adds lm hop with ⟨_, _, _, hsame⟩ | ⟨hnone, hpush⟩
    · exact .inl hsame
    · refine .inr ⟨_, hpush, ?_⟩
      rw [mFields_lineFor]
      exact .added hop hnone
  cases op with
  | eventFilter col line c =>
    rcases lm.eventFilter_cases col line c with ⟨_, _, _, _, h⟩ | ⟨i, f, hfirst, htype, hle, h⟩ |
      ⟨_, _, _, _, _, h⟩ | ⟨hnone, h⟩
    · exact .inl (step_of_eventFilter h)
    · exact .inr ⟨_, step_of_eventFilter h, .typed hfirst htype hle⟩
    · exact .inl (step_of_eventFilter h)
    · refine .inr ⟨_, step_of_eventFilter h, ?_⟩
      rw [mFields_lineFor]
      exact .created hnone
  | addTitle str col line | addName str col line => exact hadd rfl
  | removeCharacter col line =>
    rcases lm.removeCharacter_cases col line with ⟨h, _⟩ | ⟨i, f, hfirst, hle, h⟩
    · exact .inl (step_of_apply h)
    · exact .inr ⟨_, step_of_apply h, .removed hfirst hle⟩

/-- An operation that can put text in a line writes it, or has found a field there. -/
theorem get?_of_makes {lm : LineManager} {op : Op} {line : UInt32} (hmakes : op.makes = some line) :
    (lm.step op).get? line ≠ none := by
  have hwrite : ∀ ptr, (lm.write line ptr).get? line ≠ none := by
    intro ptr
    rw [get?_write, if_pos rfl]
    exact Option.some_ne_none ptr
  have hadd : ∀ {type : FieldType} {str : Bytes} {col : UInt32}, op.line = line → op.adds = some (type, str, col) →
      (lm.step op).get? line ≠ none := by
    intro type str col hline hop
    rcases step_of_adds lm hop with ⟨i, f, hfirst, hsame⟩ | ⟨-, hpush⟩
    · rw [hsame, ← hline]
      exact get?_ne_none_of_mem hfirst.mem
    · rw [hpush, hline]
      exact hwrite _
  cases op with
  | eventFilter col line' c =>
    obtain rfl : line' = line := Option.some.inj hmakes
    rcases lm.eventFilter_cases col line' c with ⟨_, _, hfirst, _, h⟩ | ⟨_, _, _, _, _, h⟩ | ⟨_, _, hfirst, _, _, h⟩ | ⟨_, h⟩ <;>
      rw [step_of_eventFilter h]
    · exact get?_ne_none_of_mem hfirst.mem
    · exact hwrite _
    · exact get?_ne_none_of_mem hfirst.mem
    · exact hwrite _
  | addTitle str col line' | addName str col line' => exact hadd (Option.some.inj hmakes) rfl
  | removeCharacter col line' => cases hmakes

theorem get?_step_ne_none {lm : LineManager} {op : Op} {line : UInt32} :
    (lm.step op).get? line ≠ none ↔ lm.get? line ≠ none ∨ op.makes = some line := by
  constructor
  · intro h
    by_cases hmakes : op.makes = some line
    · exact .inr hmakes
    · refine .inl fun hnone => h ?_
      rcases lm.step_writes op with hsame | ⟨after, hwrite, hstep⟩
      · rw [hsame]
        exact hnone
      · by_cases hline : op.line = line
        · -- only a removal is left, and it does not find a field in a line that is not there
          have hnil : lm.fields op.line = [] := by rw [fields, hline, hnone]; rfl
          cases hstep with
          | removed hfirst _ =>
            rw [hnil] at hfirst
            exact absurd hfirst.mem List.not_mem_nil
          | typed | created => exact absurd (congrArg some hline) hmakes
          | added hop _ => cases op with
            | addTitle | addName => exact absurd (congrArg some hline) hmakes
            | eventFilter | removeCharacter => cases hop
        · rw [hwrite, get?_write, if_neg hline]
          exact hnone
  · rintro (hget | hmakes)
    · rcases lm.step_writes op with hsame | ⟨after, hwrite, -⟩
      · rw [hsame]
        exact hget
      · rw [hwrite, get?_write]
        split_ifs
        · exact Option.some_ne_none _
        · exact hget
    · exact get?_of_makes hmakes

theorem get?_run_ne_none {ops : List Op} {lm : LineManager} {line : UInt32} :
    (run step lm ops).get? line ≠ none ↔ lm.get? line ≠ none ∨ line ∈ ops.filterMap Op.makes := by
  induction ops generalizing lm with
  | nil => simp
  | cons op ops ih =>
    rw [run_cons, ih, get?_step_ne_none, or_assoc]
    refine or_congr_right ?_
    rw [List.filterMap_cons]
    cases hmakes : op.makes with
    | none => simp
    | some line' => simp [eq_comm]

/-- A line has the number under which it is kept. -/
def Numbered (lm : LineManager) : Prop := ∀ line ptr, lm.get? line = some ptr → ptr.mNumber = line

theorem Numbered.lineFor {lm : LineManager} (h : Numbered lm) (line : UInt32) : (lm.lineFor line).mNumber = line := by
  cases hget : lm.get? line with
  | none => rw [LineManager.lineFor, hget]; rfl
  | some ptr =>
    rw [lineFor_of_get? hget]
    exact h line ptr hget

theorem Numbered.step {lm : LineManager} (h : Numbered lm) (op : Op) : Numbered (lm.step op) := by
  rcases lm.step_writes op with hsame | ⟨after, hwrite, -⟩
  · rw [hsame]
    exact h
  · intro line ptr hptr
    rw [hwrite, get?_write] at hptr
    split_ifs at hptr with hline
    · cases hptr
      exact (h.lineFor op.line).trans hline
    · exact h line ptr hptr

theorem numbered_run (ops : List Op) : Numbered (run step empty ops) := by
  refine run_inv Numbered (fun _ op h => h.step op) ops fun line ptr hptr => ?_
  rw [get?_empty] at hptr
  cases hptr

/-! ### The lines in order -/

/-- The numbers of the lines, in the order of the map. -/
def lineNumbers (lm : LineManager) : List UInt32 := lm.mLines.keys.map Int32.toUInt32

theorem mem_lineNumbers {lm : LineManager} {line : UInt32} : line ∈ lm.lineNumbers ↔ lm.get? line ≠ none := by
  have hthere : lm.get? line ≠ none ↔ line.toInt32 ∈ lm.mLines := by
    rw [Std.ExtTreeMap.mem_iff_isSome_getElem?, Option.isSome_iff_ne_none]
    rfl
  rw [hthere, lineNumbers, List.mem_map]
  constructor
  · rintro ⟨key, hkey, rfl⟩
    exact Std.ExtTreeMap.mem_keys.mp hkey
  · exact fun hmem => ⟨line.toInt32, Std.ExtTreeMap.mem_keys.mpr hmem, rfl⟩

theorem map_toInt32_lineNumbers (lm : LineManager) : lm.lineNumbers.map UInt32.toInt32 = lm.mLines.keys := by
  rw [lineNumbers, List.map_map]
  exact List.map_id' _

theorem pairwise_lineNumbers (lm : LineManager) : lm.lineNumbers.Pairwise fun m n => m.toInt32 < n.toInt32 := by
  have hordered := lm.mLines.ordered_keys
  rw [← map_toInt32_lineNumbers, List.pairwise_map] at hordered
  exact hordered.imp fun h => Std.compare_eq_lt.mp h

theorem nodup_lineNumbers (lm : LineManager) : lm.lineNumbers.Nodup :=
  lm.pairwise_lineNumbers.imp fun {m n} hlt heq => by
    rw [heq] at hlt
    exact Int32.lt_irrefl hlt

theorem length_lineNumbers (lm : LineManager) : lm.lineNumbers.length = lm.mLines.size := by
  rw [lineNumbers, List.length_map, Std.ExtTreeMap.length_keys]

/-- What the map lists, by the numbers of the lines. -/
theorem toList_mLines (lm : LineManager) :
    lm.mLines.toList = lm.lineNumbers.map fun line => (line.toInt32, lm.lineFor line) := by
  have hkeys : lm.mLines.toList.map Prod.fst = lm.lineNumbers.map UInt32.toInt32 := by
    rw [map_toInt32_lineNumbers, Std.ExtTreeMap.map_fst_toList_eq_keys]
  have hpair : ∀ entry ∈ lm.mLines.toList, entry = (entry.1, lm.lineFor entry.1.toUInt32) := by
    intro entry hentry
    have hget : lm.get? entry.1.toUInt32 = some entry.2 := Std.ExtTreeMap.mem_toList_iff_getElem?_eq_some.mp hentry
    rw [lineFor_of_get? hget]
  calc lm.mLines.toList
      = lm.mLines.toList.map fun entry => (entry.1, lm.lineFor entry.1.toUInt32) :=
        (List.map_id _).symm.trans (List.map_congr_left hpair)
    _ = (lm.mLines.toList.map Prod.fst).map fun key => (key, lm.lineFor key.toUInt32) := by rw [List.map_map]; rfl
    _ = lm.lineNumbers.map fun line => (line.toInt32, lm.lineFor line) := by rw [hkeys, List.map_map]; rfl

/-! ### What a dump shows -/

theorem foldl_append {α : Type*} (f : α → Bytes) (as : List α) (ret : Bytes) :
    as.foldl (fun ret a => ret ++ f a) ret = ret ++ as.flatMap f := by
  induction as generalizing ret with
  | nil => simp
  | cons a as ih => rw [List.foldl_cons, ih, List.flatMap_cons, List.append_assoc]

/-- The texts of a line, each with a blank behind it. -/
def dumped (lm : LineManager) (line : UInt32) : Bytes := (lm.texts line).flatMap fun info => info ++ [blank]

theorem dump_eq (l : Line) : l.dump = (l.mFields.map Field.mInfo).flatMap fun info => info ++ [blank] := by
  simp only [Line.dump, List.append_assoc]
  rw [foldl_append, List.nil_append, List.flatMap_map]

theorem dump_lineFor (lm : LineManager) (line : UInt32) : (lm.lineFor line).dump = lm.dumped line := by
  rw [dump_eq, mFields_lineFor]
  rfl

theorem dumpLine_of_get? {lm : LineManager} {line : UInt32} (h : lm.get? line ≠ none) :
    lm.dumpLine line = .ok (lm.dumped line) := by
  obtain ⟨ptr, hget⟩ := Option.ne_none_iff_exists'.mp h
  rw [← dump_lineFor, lineFor_of_get? hget, dumpLine, lineAt, hget]
  rfl

theorem dumpLine_of_none {lm : LineManager} {line : UInt32} (h : lm.get? line = none) :
    lm.dumpLine line = .error .outOfRange := by
  rw [dumpLine, lineAt, h]
  rfl

theorem dumpLines_eq (lm : LineManager) : lm.dumpLines = lm.lineNumbers.flatMap fun line => lm.dumped line ++ [newline] := by
  rw [dumpLines, foldl_append fun entry : Int32 × Line => entry.2.dump ++ [newline], List.nil_append, toList_mLines,
    List.flatMap_map]
  exact List.flatMap_congr fun line _ => congrArg (· ++ [newline]) (dump_lineFor lm line)

/-! ### Over whole runs -/

/-- The number of lines is that of the lines that were worked on: no line goes away, and a removal makes none. -/
theorem lineCount_run (ops : List Op) :
    (run step empty ops).lineCount = UInt32.ofNat (ops.filterMap Op.makes).toFinset.card := by
  have hsame : ∀ line, line ∈ (run step empty ops).lineNumbers ↔ line ∈ ops.filterMap Op.makes := by
    intro line
    rw [mem_lineNumbers, get?_run_ne_none, get?_empty]
    exact or_iff_right fun h => h rfl
  have hfinset : (run step empty ops).lineNumbers.toFinset = (ops.filterMap Op.makes).toFinset := by
    ext line
    rw [List.mem_toFinset, List.mem_toFinset, hsame]
  rw [lineCount, ← length_lineNumbers, ← List.toFinset_card_of_nodup (nodup_lineNumbers _), hfinset]

/-- After any run the dump has the lines that were worked on, once each and from the smallest number on, by
what each shows; the log gives each the number of its line, counted from one. -/
theorem dumpLines_run (ops : List Op) :
    let lm := run step empty ops
    ∃ numbers : List UInt32, numbers.Pairwise (fun m n => m.toInt32 < n.toInt32) ∧
      (∀ line, line ∈ numbers ↔ line ∈ ops.filterMap Op.makes) ∧
      lm.dumpLines = numbers.flatMap (fun line => lm.dumped line ++ [newline]) ∧
      lm.dump = numbers.map (fun line => (line + 1, cString (lm.dumped line))) ∧
      ∀ line, lm.dumpLine line = if line ∈ numbers then .ok (lm.dumped line) else .error .outOfRange := by
  intro lm
  have hthere : ∀ line, line ∈ lm.lineNumbers ↔ line ∈ ops.filterMap Op.makes := by
    intro line
    rw [mem_lineNumbers, get?_run_ne_none, get?_empty]
    exact or_iff_right fun h => h rfl
  refine ⟨lm.lineNumbers, lm.pairwise_lineNumbers, hthere, lm.dumpLines_eq, ?_, fun line => ?_⟩
  · rw [dump, toList_mLines, List.map_map]
    refine List.map_congr_left fun line _ => ?_
    show ((lm.lineFor line).mNumber + 1, cString (lm.lineFor line).dump) = _
    rw [(numbered_run ops).lineFor line, dump_lineFor]
  · split_ifs with hline
    · exact dumpLine_of_get? (mem_lineNumbers.mp hline)
    · exact dumpLine_of_none (not_not.mp fun h => hline (mem_lineNumbers.mpr h))

end LineManager

end MetaEditor
