import MetaEditor.Editor.Script
import MetaEditor.Lib.Local

/-!
# Several editors

The window opens an editor when it is made, and another one at each click with Ctrl. `setupEditor` registers the new
one with the proxy, so scripts write in the editor that was opened last, whichever tab is in front. The tab area deletes
an editor whose tab is closed, and neither the proxy nor `m_editor` of the window is told: `m_editor` of the proxy
then points to an editor that is gone, and that of the window, which is never set, is still null.

`setupEditor` also makes the window the filter of the events of each editor. The window's `eventFilter` does not ask the
editor's: the keys go to the widget alone, and no structure hears of them.
-/

namespace MetaEditor

open Lib Document

/-- The editors in the order of their opening, none where the tab was closed, and the pointers to them. -/
structure Desk where
  editors : List (Option Sheet)
  /-- `EditorProxy::m_editor`. -/
  proxyEditor : Nat
  /-- `MainWindow::m_editor`. -/
  mEditor : Option Nat

namespace Desk

/-- What happens next. A tab that is not in front is not visible. -/
inductive Event
  | openNewEditor (visible : Bool) (layout : TextLayout)
  | input (k : Nat) (input : Sheet.Input)
  | setVisible (k : Nat) (visible : Bool)
  | close (k : Nat)
  | script (call : Sheet.Call)
  | goToLine (line : Nat)

variable (fromUtf8 : Sheet.FromUtf8)

/-- `MainWindow::eventFilter` takes no event away from the widget. -/
def pass (sheet : Sheet) : Sheet.Input → Sheet
  | .select anchor position => sheet.select anchor position
  | .resize layout => { sheet with layout }
  | .event event clipboard => sheet.widget event clipboard

/-- `setupEditor`, and the tab for the editor. -/
def setupEditor (visible : Bool) (layout : TextLayout) (s : Desk) : Desk :=
  { s with editors := s.editors ++ [some (.fresh visible layout)], proxyEditor := s.editors.length }

/-- The window when it has been made. -/
def start (visible : Bool) (layout : TextLayout) : Desk :=
  setupEditor visible layout { editors := [], proxyEditor := 0, mEditor := none }

def update (k : Nat) (f : Sheet → Sheet) (s : Desk) : Desk := { s with editors := s.editors.modify k (·.map f) }

def goToLine (line : Nat) (s : Desk) : Desk :=
  match s.mEditor with
  | some k => s.update k fun sheet => (sheet.moveToLine line).getD sheet
  | none => s

/-- One event. What follows an access to no editor is undefined (`Defined`). -/
def step (s : Desk) : Event → Desk
  | .openNewEditor visible layout => s.setupEditor visible layout
  | .input k input => s.update k (pass · input)
  | .setVisible k visible => s.update k ({ · with visible })
  | .close k => { s with editors := s.editors.set k none }
  | .script call => s.update s.proxyEditor fun sheet => (sheet.call fromUtf8 call).getD sheet
  | .goToLine line => s.goToLine line

/-- An editor that is open. -/
def editor (s : Desk) (k : Nat) : Option Sheet := s.editors[k]?.join

/-- The event uses no pointer to an editor that is not there; an event of an editor shows `m_editor` in the status bar. -/
def Defined (s : Desk) : Event → Prop
  | .input _ _ => ∀ k, s.mEditor = some k → (s.editor k).isSome
  | .script _ => (s.editor s.proxyEditor).isSome
  | .goToLine _ => ∃ k, s.mEditor = some k ∧ (s.editor k).isSome
  | _ => True

/-! ### One editor -/

/-- The editor that an event is for. -/
def key (s : Desk) : Event → Nat
  | .openNewEditor _ _ => s.editors.length
  | .input k _ | .setVisible k _ | .close k => k
  | .script _ => s.proxyEditor
  | .goToLine _ => s.mEditor.getD s.editors.length

/-- What an event makes of the editor that it is for. -/
def part (sheet : Option Sheet) : Event → Option Sheet
  | .openNewEditor visible layout => some (.fresh visible layout)
  | .input _ input => sheet.map (pass · input)
  | .setVisible _ visible => sheet.map ({ · with visible })
  | .close _ => none
  | .script call => sheet.map fun sheet => (sheet.call fromUtf8 call).getD sheet
  | .goToLine line => sheet.map fun sheet => (sheet.moveToLine line).getD sheet

variable {fromUtf8 : Sheet.FromUtf8} {s : Desk}

theorem editor_update (k k' : Nat) (f : Sheet → Sheet) :
    (s.update k f).editor k' = if k = k' then (s.editor k').map f else s.editor k' := by
  rw [editor, update, List.getElem?_modify, editor]
  split_ifs with hk
  · cases s.editors[k']? <;> rfl
  · cases s.editors[k']? <;> rfl

theorem editor_setupEditor (visible : Bool) (layout : TextLayout) (k : Nat) :
    (s.setupEditor visible layout).editor k =
      if s.editors.length = k then some (.fresh visible layout) else s.editor k := by
  rw [editor, setupEditor, editor]
  split_ifs with hk
  · rw [← hk, List.getElem?_concat_length]
    rfl
  · rcases Nat.lt_or_gt_of_ne hk with hlt | hlt
    · rw [List.getElem?_eq_none (by simpa using hlt), List.getElem?_eq_none hlt.le]
    · rw [List.getElem?_append_left hlt]

theorem editor_close (k k' : Nat) :
    ({ s with editors := s.editors.set k none } : Desk).editor k' = if k = k' then none else s.editor k' := by
  rw [editor, editor, List.getElem?_set]
  split_ifs <;> rfl

theorem editor_length (s : Desk) : s.editor s.editors.length = none := by
  rw [editor, List.getElem?_eq_none le_rfl]
  rfl

theorem editor_goToLine (line k : Nat) : (s.goToLine line).editor k =
    if s.mEditor.getD s.editors.length = k then (s.editor k).map fun sheet => (sheet.moveToLine line).getD sheet
    else s.editor k := by
  unfold goToLine
  cases s.mEditor with
  | some k' => exact editor_update k' k _
  | none =>
    split_ifs with hk
    · obtain rfl : s.editors.length = k := hk
      rw [editor_length]
      rfl
    · rfl

/-- An event is for one editor, and leaves the others alone. -/
theorem local_step : Local (step fromUtf8) key editor (part fromUtf8) where
  others s e k hne := by
    cases e with
    | openNewEditor visible layout => exact (editor_setupEditor visible layout k).trans (if_neg hne)
    | input k' input => exact (editor_update k' k _).trans (if_neg hne)
    | setVisible k' visible => exact (editor_update k' k _).trans (if_neg hne)
    | close k' => exact (editor_close k' k).trans (if_neg hne)
    | script call => exact (editor_update s.proxyEditor k _).trans (if_neg hne)
    | goToLine line => exact (editor_goToLine line k).trans (if_neg hne)
  own s e := by
    cases e with
    | openNewEditor visible layout => exact (editor_setupEditor visible layout _).trans (if_pos rfl)
    | input k' input => exact (editor_update k' _ _).trans (if_pos rfl)
    | setVisible k' visible => exact (editor_update k' _ _).trans (if_pos rfl)
    | close k' => exact (editor_close k' _).trans (if_pos rfl)
    | script call => exact (editor_update s.proxyEditor _ _).trans (if_pos rfl)
    | goToLine line => exact (editor_goToLine line _).trans (if_pos rfl)

/-- Counting the lines of the structure changes nothing. -/
theorem step_lineCount (s : Desk) : s.step fromUtf8 (.script .lineCount) = s := by
  show { s with editors := s.editors.modify s.proxyEditor (Option.map id) } = s
  rw [Option.map_id, List.modify_id]

/-! ### The pointers -/

/-- The proxy has the last editor of the list, and the window none. -/
structure Registered (s : Desk) : Prop where
  proxyEditor : s.proxyEditor + 1 = s.editors.length
  mEditor : s.mEditor = none

theorem registered_start (visible : Bool) (layout : TextLayout) : Registered (start visible layout) := ⟨rfl, rfl⟩

theorem Registered.step (h : Registered s) (e : Event) : Registered (s.step fromUtf8 e) := by
  obtain ⟨hproxy, hwindow⟩ := h
  have hupdate : ∀ k f, Registered (s.update k f) := fun k f => ⟨hproxy.trans (List.length_modify ..).symm, hwindow⟩
  cases e with
  | openNewEditor visible layout =>
    refine ⟨?_, hwindow⟩
    show s.editors.length + 1 = (s.editors ++ [_]).length
    rw [List.length_append, List.length_singleton]
  | input k input | setVisible k visible | script call => exact hupdate _ _
  | close k => exact ⟨hproxy.trans List.length_set.symm, hwindow⟩
  | goToLine line =>
    rw [Desk.step, goToLine, hwindow]
    exact ⟨hproxy, hwindow⟩

/-- An event that the user sends to an editor. -/
def Event.isFor (k : Nat) : Event → Bool
  | .input k' _ | .setVisible k' _ | .close k' => k' = k
  | .openNewEditor _ _ | .script _ | .goToLine _ => false

theorem length_step_le (e : Event) : s.editors.length ≤ (s.step fromUtf8 e).editors.length := by
  have hupdate : ∀ k f, s.editors.length ≤ (s.update k f).editors.length := fun k f => (List.length_modify ..).ge
  cases e with
  | openNewEditor visible layout => exact (List.prefix_append _ _).length_le
  | input k input | setVisible k visible | script call => exact hupdate _ _
  | close k => exact List.length_set.ge
  | goToLine line =>
    rw [Desk.step, goToLine]
    cases s.mEditor with
    | none => exact le_rfl
    | some k => exact hupdate _ _

/-- Only the user has events for an editor behind which another one was opened. -/
theorem inputsAt_of_older {k : Nat} {events : List Event} (h : Registered s) (hold : k + 1 < s.editors.length) :
    inputsAt (step fromUtf8) key k s events = events.filter (·.isFor k) := by
  induction events generalizing s with
  | nil => rfl
  | cons e events ih =>
    have hkey : key s e = k ↔ e.isFor k = true := by
      have hproxy := h.proxyEditor
      cases e with
      | openNewEditor visible layout => exact iff_of_false (fun hk : s.editors.length = k => by omega) Bool.false_ne_true
      | script call => exact iff_of_false (fun hk : s.proxyEditor = k => by omega) Bool.false_ne_true
      | goToLine line =>
        refine iff_of_false (fun hk => ?_) Bool.false_ne_true
        rw [key, h.mEditor, Option.getD_none] at hk
        omega
      | input k' input | setVisible k' visible | close k' => exact decide_eq_true_iff.symm
    rw [inputsAt, ih (h.step e) (hold.trans_le (length_step_le e))]
    by_cases hfor : e.isFor k = true
    · rw [if_pos (hkey.mpr hfor), List.filter_cons_of_pos hfor]
    · rw [if_neg (hfor ∘ hkey.mp), List.filter_cons_of_neg hfor]

/-- Once another editor was opened, an editor is what its own user makes of it: no script reaches it, whatever is
opened, closed and run beside it. -/
theorem older_editor (visible : Bool) (layout : TextLayout) (before after : List Event) {k : Nat}
    (hold : k + 1 < (run (step fromUtf8) (start visible layout) before).editors.length) :
    let s := run (step fromUtf8) (start visible layout) before
    (run (step fromUtf8) s after).editor k = run (part fromUtf8) (s.editor k) (after.filter (·.isFor k)) := by
  intro s
  have hregistered : Registered s := run_inv Registered (fun _ e h => h.step e) before (registered_start visible layout)
  rw [local_step.view_run, inputsAt_of_older hregistered hold]

theorem older_editor_two :
    let s := run (step (List.map UInt8.toUInt16)) (start true .unwrapped) [.openNewEditor true .unwrapped]
    (run (step (List.map UInt8.toUInt16)) s [.script (.title [0x54]), .setVisible 0 false]).editor 0 =
      run (part (List.map UInt8.toUInt16)) (s.editor 0)
        ([.script (.title [0x54]), .setVisible 0 false].filter (·.isFor 0)) :=
  older_editor true .unwrapped [.openNewEditor true .unwrapped] [.script (.title [0x54]), .setVisible 0 false] (by decide)

/-! ### Which sessions are defined -/

/-- The number of the editor opened last, and whether its tab was closed. -/
structure Newest where
  number : Nat
  gone : Bool

namespace Newest

def step (n : Newest) : Event → Newest
  | .openNewEditor _ _ => { number := n.number + 1, gone := false }
  | .close k => if k = n.number then { n with gone := true } else n
  | _ => n

/-- No script calls the editor once the tab of the one opened last is closed, and no line is gone to. -/
def Allows (n : Newest) : Event → Prop
  | .script _ => n.gone = false
  | .goToLine _ => False
  | _ => True

/-- The automaton beside the desk. -/
structure Watches (n : Newest) (s : Desk) : Prop extends Registered s where
  number : s.proxyEditor = n.number
  gone : n.gone = false ↔ (s.editor s.proxyEditor).isSome

theorem Watches.allows_iff {n : Newest} {s : Desk} (h : Watches n s) (e : Event) : Defined s e ↔ n.Allows e := by
  cases e with
  | script call => exact h.gone.symm
  | goToLine line =>
    refine iff_of_false ?_ not_false
    rintro ⟨k, hk, -⟩
    rw [h.mEditor] at hk
    cases hk
  | input k input =>
    refine iff_of_true (fun k' hk' => ?_) trivial
    rw [h.mEditor] at hk'
    cases hk'
  | openNewEditor visible layout | setVisible k visible | close k => exact Iff.rfl

theorem Watches.step {n : Newest} {s : Desk} (h : Watches n s) (e : Event) :
    Watches (n.step e) (s.step fromUtf8 e) := by
  have hupdate : ∀ k f, Watches n (s.update k f) := by
    intro k f
    refine ⟨⟨h.proxyEditor.trans (List.length_modify ..).symm, h.mEditor⟩, h.number, ?_⟩
    show n.gone = false ↔ ((s.update k f).editor s.proxyEditor).isSome
    rw [editor_update, h.gone]
    split_ifs
    · rw [Option.isSome_map]
    · rfl
  cases e with
  | openNewEditor visible layout =>
    refine ⟨h.toRegistered.step (.openNewEditor visible layout), ?_, ?_⟩
    · show s.editors.length = n.number + 1
      rw [← h.number, h.proxyEditor]
    · show _ ↔ ((s.setupEditor visible layout).editor s.editors.length).isSome
      rw [editor_setupEditor, if_pos rfl]
      exact iff_of_true rfl rfl
  | input k input | setVisible k visible | script call => exact hupdate _ _
  | close k =>
    have hregistered : Registered (s.step fromUtf8 (.close k)) := h.toRegistered.step (.close k)
    rw [Newest.step]
    split_ifs with hk
    · refine ⟨hregistered, h.number, iff_of_false (fun h => Bool.noConfusion h) ?_⟩
      show ¬(({ s with editors := s.editors.set k none } : Desk).editor s.proxyEditor).isSome = true
      rw [editor_close, if_pos (hk.trans h.number.symm)]
      exact Bool.false_ne_true
    · refine ⟨hregistered, h.number, ?_⟩
      show n.gone = false ↔ (({ s with editors := s.editors.set k none } : Desk).editor s.proxyEditor).isSome = true
      rw [editor_close, if_neg fun hsame => hk (hsame.trans h.number), h.gone]
  | goToLine line =>
    rw [Desk.step, goToLine, h.mEditor]
    exact h

end Newest

/-- A session makes no access to an editor that is not there exactly when no script calls the editor after the tab of
the one opened last was closed, and "go to line" is never chosen. -/
theorem defined_iff (visible : Bool) (layout : TextLayout) (events : List Event) :
    StepsMeet (step fromUtf8) Defined (start visible layout) events ↔
      StepsMeet Newest.step Newest.Allows { number := 0, gone := false } events :=
  stepsMeet_iff_of_related (fun s n => Newest.Watches n s) (fun _ _ e h => ⟨h.allows_iff e, h.step e⟩)
    ⟨registered_start visible layout, rfl, iff_of_true rfl rfl⟩

/-! ### The structures -/

/-- What a call of a script does to the fields of a line. -/
theorem fields_call (sheet : Sheet) (call : Sheet.Call) (line : UInt32) :
    ((sheet.call fromUtf8 call).getD sheet).dataman.fields line = sheet.dataman.fields line ∨
    ∃ type str col, call.adds = some (type, str) ∧ ((sheet.call fromUtf8 call).getD sheet).dataman.fields line =
      sheet.dataman.fields line ++ [.newString type (sheet.dataman.fields line).length col (cString str)] := by
  obtain ⟨-, hsame | ⟨type, str, col, line', hadds, hcall⟩⟩ := Sheet.call_cases fromUtf8 sheet call
  · exact .inl (by rw [hsame])
  · rcases LineManager.addField_cases type sheet.dataman str col line' with ⟨i, f, -, hoccupied⟩ | ⟨-, ptr, hptr, hnew⟩
    · exact .inl (by rw [Except.ok.inj (hcall.symm.trans hoccupied)])
    · rw [Except.ok.inj (hcall.symm.trans hnew)]
      by_cases hline : line' = line
      · subst hline
        rw [LineManager.fields_write_self, hptr]
        exact .inr ⟨type, str, col, hadds, rfl⟩
      · exact .inl (LineManager.fields_write_of_ne hline ptr)

/-- An editor that is open after an event was opened by it or was there before. Then each line has the fields that it
had, with one more if a script has put it there. -/
theorem editor_step (e : Event) {k : Nat} {sheet' : Sheet} (h : (s.step fromUtf8 e).editor k = some sheet') :
    (k = s.editors.length ∧ ∃ visible layout, sheet' = .fresh visible layout) ∨
    ∃ sheet, s.editor k = some sheet ∧ ∀ line, sheet'.dataman.fields line = sheet.dataman.fields line ∨
      ∃ call type str col, e = .script call ∧ s.proxyEditor = k ∧ call.adds = some (type, str) ∧
        sheet'.dataman.fields line =
          sheet.dataman.fields line ++ [.newString type (sheet.dataman.fields line).length col (cString str)] := by
  by_cases hkey : key s e = k
  · subst hkey
    rw [local_step.own] at h
    cases e with
    | openNewEditor visible layout => exact .inl ⟨rfl, visible, layout, (Option.some.inj h).symm⟩
    | close k => exact absurd h nofun
    | input k input =>
      obtain ⟨sheet, hsheet, rfl⟩ := Option.map_eq_some_iff.mp h
      refine .inr ⟨sheet, hsheet, fun line => .inl ?_⟩
      cases input with
      | select anchor position => rfl
      | resize layout => rfl
      | event event clipboard => rw [pass, (sheet.widget_keeps event clipboard).2.1]
    | setVisible k visible =>
      obtain ⟨sheet, hsheet, rfl⟩ := Option.map_eq_some_iff.mp h
      exact .inr ⟨sheet, hsheet, fun _ => .inl rfl⟩
    | script call =>
      obtain ⟨sheet, hsheet, rfl⟩ := Option.map_eq_some_iff.mp h
      refine .inr ⟨sheet, hsheet, fun line => (fields_call sheet call line).imp_right ?_⟩
      rintro ⟨type, str, col, hadds, hfields⟩
      exact ⟨call, type, str, col, rfl, rfl, hadds, hfields⟩
    | goToLine line =>
      obtain ⟨sheet, hsheet, rfl⟩ := Option.map_eq_some_iff.mp h
      refine .inr ⟨sheet, hsheet, fun line' => .inl ?_⟩
      cases hmove : sheet.moveToLine line with
      | none => rfl
      | some sheet' =>
        obtain ⟨_, -, hat⟩ := (sheet.moveToLine_spec line).1 sheet' hmove
        rw [Option.getD_some, hat.dataman]
  · rw [local_step.others s e k hkey] at h
    exact .inr ⟨sheet', h, fun _ => .inl rfl⟩

/-- The fields that an editor has stay as they are until its tab is closed: none is changed, moved or removed. -/
theorem fields_kept (s : Desk) (events : List Event) {k : Nat} {sheet sheet' : Sheet} (h : s.editor k = some sheet)
    (h' : (run (step fromUtf8) s events).editor k = some sheet') (line : UInt32) :
    sheet.dataman.fields line <+: sheet'.dataman.fields line := by
  have hopen : k < s.editors.length := by
    by_contra hge
    rw [editor, List.getElem?_eq_none (not_lt.mp hge)] at h
    cases h
  let Inv (s : Desk) : Prop := k < s.editors.length ∧
    ∀ sheet', s.editor k = some sheet' → sheet.dataman.fields line <+: sheet'.dataman.fields line
  have hstep : ∀ s e, Inv s → Inv (s.step fromUtf8 e) := by
    rintro s e ⟨hlt, hkept⟩
    refine ⟨hlt.trans_le (length_step_le e), fun sheet' hsheet' => ?_⟩
    obtain ⟨hnew, -⟩ | ⟨old, hold, hgrown⟩ := editor_step e hsheet'
    · exact absurd hnew hlt.ne
    · rcases hgrown line with hsame | ⟨_, _, _, _, _, _, _, hone⟩
      · exact hsame ▸ hkept old hold
      · exact (hkept old hold).trans (hone ▸ List.prefix_append _ _)
  refine (run_inv Inv hstep events ⟨hopen, fun sheet' hsheet' => ?_⟩).2 sheet' h'
  rw [Option.some.inj (h.symm.trans hsheet')]

theorem fields_kept_title :
    let s := run (step (List.map UInt8.toUInt16)) (start true .unwrapped) [.script (.title [0x54])]
    ∃ sheet sheet', s.editor 0 = some sheet ∧
      (run (step (List.map UInt8.toUInt16)) s [.script .jumpLine, .script (.name [0x61])]).editor 0 = some sheet' ∧
      sheet.dataman.fields 0 <+: sheet'.dataman.fields 0 := by
  intro s
  have h : ∃ sheet, s.editor 0 = some sheet := ⟨_, rfl⟩
  have h' : ∃ sheet', (run (step (List.map UInt8.toUInt16)) s [.script .jumpLine, .script (.name [0x61])]).editor 0 =
      some sheet' := ⟨_, rfl⟩
  obtain ⟨sheet, hsheet⟩ := h
  obtain ⟨sheet', hsheet'⟩ := h'
  exact ⟨sheet, sheet', hsheet, hsheet', fields_kept s _ hsheet hsheet' 0⟩

/-- A field was put at its index by a script, while the editor was the one opened last. -/
def FromScript (fromUtf8 : Sheet.FromUtf8) (visible : Bool) (layout : TextLayout) (events : List Event) (k i : Nat)
    (f : Field) : Prop :=
  ∃ before call after type str col, events = before ++ .script call :: after ∧
    (run (step fromUtf8) (start visible layout) before).proxyEditor = k ∧ call.adds = some (type, str) ∧
    f = .newString type i col (cString str)

theorem FromScript.concat {visible : Bool} {layout : TextLayout} {events : List Event} {k i : Nat} {f : Field} (e : Event)
    (h : FromScript fromUtf8 visible layout events k i f) :
    FromScript fromUtf8 visible layout (events ++ [e]) k i f := by
  obtain ⟨before, call, after, type, str, col, rfl, hrest⟩ := h
  exact ⟨before, call, after ++ [e], type, str, col, by rw [List.append_assoc, List.cons_append], hrest⟩

/-- In every session the structures hold what scripts have put in them and nothing else: each field is a title or a
name as the script gave it. What the user types or erases changes no field and makes none. -/
theorem fields_from_scripts (visible : Bool) (layout : TextLayout) (events : List Event) (k : Nat) (line : UInt32)
    (i : Nat) :
    ∀ sheet ∈ (run (step fromUtf8) (start visible layout) events).editor k, ∀ f ∈ (sheet.dataman.fields line)[i]?,
      FromScript fromUtf8 visible layout events k i f := by
  have hfresh : ∀ {visible' : Bool} {layout' : TextLayout},
      ∀ f ∈ ((Sheet.fresh visible' layout').dataman.fields line)[i]?, False := by
    intro visible' layout' f hf
    rw [show (Sheet.fresh visible' layout').dataman.fields line = [] from LineManager.fields_empty line] at hf
    cases hf
  induction events using List.reverseRecOn with
  | nil =>
    intro sheet hsheet f hf
    have hstart := editor_setupEditor (s := { editors := [], proxyEditor := 0, mEditor := none }) visible layout k
    rw [show (run (step fromUtf8) (start visible layout) []).editor k = _ from hstart] at hsheet
    split_ifs at hsheet
    · cases hsheet
      exact (hfresh f hf).elim
    · exact absurd hsheet nofun
  | append_singleton events e ih =>
    intro sheet' hsheet' f hf
    rw [run_append] at hsheet'
    obtain ⟨-, visible', layout', rfl⟩ | ⟨sheet, hsheet, hgrown⟩ := editor_step e hsheet'
    · exact (hfresh f hf).elim
    · rcases hgrown line with hsame | ⟨call, type, str, col, rfl, hproxy, hadds, hone⟩
      · exact (ih sheet hsheet f (hsame ▸ hf)).concat e
      · rw [hone] at hf
        rcases Nat.lt_trichotomy i (sheet.dataman.fields line).length with hlt | rfl | hgt
        · rw [List.getElem?_append_left hlt] at hf
          exact (ih sheet hsheet f hf).concat _
        · rw [List.getElem?_concat_length] at hf
          exact ⟨events, call, [], type, str, col, rfl, hproxy, hadds, (Option.some.inj hf).symm⟩
        · rw [List.getElem?_eq_none (by rw [List.length_append]; exact hgt)] at hf
          cases hf

theorem fields_from_scripts_title :
    FromScript (List.map UInt8.toUInt16) true .unwrapped [.script (.title [0x54])] 0 0 (.newString .title 0 0 [0x54]) := by
  let sheet := ((Sheet.fresh true .unwrapped).call (List.map UInt8.toUInt16) (.title [0x54])).getD (.fresh true .unwrapped)
  have hsheet : (run (step (List.map UInt8.toUInt16)) (start true .unwrapped) [.script (.title [0x54])]).editor 0 =
      some sheet := rfl
  have hfields : sheet.dataman.fields 0 = [.newString .title 0 0 [0x54]] := by decide +kernel
  exact fields_from_scripts true .unwrapped _ 0 0 0 sheet hsheet _ (by rw [hfields]; rfl)

end Desk

end MetaEditor
