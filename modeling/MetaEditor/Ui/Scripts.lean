import MetaEditor.Lua.EditorProxy
import MetaEditor.Ui.Desk

/-!
# Scripts and the editors

The constructor of the scripts has one object, the proxy, as its upvalue. Each call of it makes a table: the object is
in slot 0, and under each name that is registered there is a closure of `thunk`, whose upvalue is the index of the
method. A script can keep such tables, in global variables also for later scripts, and call the functions of one on
another. Whichever it takes, the proxy passes the call to the editor that was opened last.

No userdata is finalised here, and no script changes its tables.
-/

namespace MetaEditor

open Lib

namespace EditorProxy

variable {σ : Type*} {logTest : Bool}

/-! ### The table of an object -/

/-- The keys of a table that `inject` makes, a number by its text. -/
inductive Key
  | number (text : Bytes)
  | string (s : Bytes)
  deriving DecidableEq, Repr

/-- What is stored there: a userdata with the name of its metatable, or a closure of `thunk`. -/
inductive Entry (σ : Type*) (logTest : Bool)
  | userdata (tname : String) (obj : EditorProxy σ)
  | thunk (upvalue : Fin (Register logTest).length)

abbrev Table (σ : Type*) (logTest : Bool) := Key → Option (Entry σ logTest)

/-- `lua_settable`. -/
def Table.set (table : Table σ logTest) (key : Key) (entry : Entry σ logTest) : Table σ logTest :=
  Function.update table key (some entry)

def slot0 : Key := .number (toString (0 : Int)).toUTF8.toList

/-- The key of a method. -/
def RegType.key (l : RegType) : Key := .string l.name.toUTF8.toList

/-- `Luna<EditorProxy>::inject`: slot 0, and then one turn of the loop for each method. -/
def inject (logTest : Bool) (obj : EditorProxy σ) : Table σ logTest :=
  (List.finRange (Register logTest).length).foldl
    (fun table i => table.set ((Register logTest).get i).key (.thunk i))
    (Table.set (fun _ => none) slot0 (.userdata className obj))

/-- Of several closures under one name the last would stay. -/
theorem foldl_set (is : List (Fin (Register logTest).length)) (table : Table σ logTest) (key : Key) :
    is.foldl (fun table i => table.set ((Register logTest).get i).key (.thunk i)) table key =
      ((is.reverse.find? fun i => ((Register logTest).get i).key = key).map Entry.thunk).or (table key) := by
  induction is generalizing table with
  | nil => rfl
  | cons i is ih =>
    rw [List.foldl_cons, ih, List.reverse_cons, List.find?_append]
    cases is.reverse.find? fun i => ((Register logTest).get i).key = key with
    | some j => rfl
    | none =>
      by_cases hkey : ((Register logTest).get i).key = key
      · rw [Table.set, hkey, Function.update_self, List.find?_cons_of_pos (by simpa using hkey)]
        rfl
      · rw [Table.set, Function.update_of_ne (Ne.symm hkey), List.find?_cons_of_neg (by simpa using hkey)]
        rfl

/-- No two methods have the same name. -/
theorem key_injective (logTest : Bool) : Function.Injective fun i => ((Register logTest).get i).key := by
  cases logTest <;> decide +kernel

theorem inject_slot0 (obj : EditorProxy σ) : inject logTest obj slot0 = some (.userdata className obj) := by
  have hnone : ((List.finRange (Register logTest).length).reverse.find? fun i =>
      ((Register logTest).get i).key = slot0) = none := by
    rw [List.find?_eq_none]
    intro i _
    rw [decide_eq_true_iff]
    exact Key.noConfusion
  rw [inject, foldl_set, hnone, Table.set, Function.update_self]
  rfl

/-- Under the name of a method is its closure. -/
theorem inject_key (obj : EditorProxy σ) (i : Fin (Register logTest).length) :
    inject logTest obj ((Register logTest).get i).key = some (.thunk i) := by
  have hfind : ((List.finRange (Register logTest).length).reverse.find? fun j =>
      ((Register logTest).get j).key = ((Register logTest).get i).key) = some i := by
    cases hj : (List.finRange (Register logTest).length).reverse.find? fun j =>
        ((Register logTest).get j).key = ((Register logTest).get i).key with
    | none =>
      rw [List.find?_eq_none] at hj
      exact absurd (decide_eq_true rfl) (hj i (List.mem_reverse.mpr (List.mem_finRange i)))
    | some j =>
      have hkey : ((Register logTest).get j).key = ((Register logTest).get i).key := by simpa using List.find?_some hj
      rw [key_injective logTest hkey]
  rw [inject, foldl_set, hfind]
  rfl

/-- Under any other name is nothing. -/
theorem inject_string (obj : EditorProxy σ) {name : Bytes} (h : ∀ l ∈ Register logTest, l.key ≠ .string name) :
    inject logTest obj (.string name) = none := by
  have hnone : ((List.finRange (Register logTest).length).reverse.find? fun i =>
      ((Register logTest).get i).key = .string name) = none := by
    rw [List.find?_eq_none]
    intro i _
    rw [decide_eq_true_iff]
    exact h _ (List.get_mem _ _)
  rw [inject, foldl_set, hnone, Table.set, Function.update_of_ne (by rintro ⟨⟩)]
  rfl

/-! ### A script -/

/-- A table and a closure on the stack, by tags of their own. -/
def Value.table (n : Nat) : Value σ := .other (2 * n)
def Value.closure (i : Nat) : Value σ := .other (2 * i + 1)

def Entry.value : Entry σ logTest → Value σ
  | .userdata tname obj => .userdata (some tname) obj
  | .thunk i => .closure i

def Value.toKey : Value σ → Option Key
  | .number text => some (.number text)
  | .string s => some (.string s)
  | _ => none

/-- `luaG_typeerror` from a C function. -/
def indexError (type : String) : LuaError := .raised ("attempt to index a " ++ type ++ " value").toUTF8.toList

/-- What `lua_gettable` finds under a number: a table of the script itself has nothing there, nor has the library that
strings share. -/
def index (tables : List (Table σ logTest)) : Index σ := fun value key s =>
  match value with
  | .other tag =>
    if tag % 2 = 0 then
      .ok (((tables[tag / 2]?).bind fun table => key.toKey.bind table).elim .nil Entry.value, s)
    else .error (indexError "function")
  | .string _ => .ok (.nil, s)
  | .nil => .error (indexError "nil")
  | .number _ => .error (indexError "number")
  | .userdata _ _ => .error (indexError "userdata")

inductive Statement (σ : Type*)
  /-- `t = editor()`. -/
  | construct
  /-- `t.name(args)`; with `t:name(args)` the table is the first argument. -/
  | call (n : Nat) (name : Bytes) (args : Frame σ)

/-- A script on its way: the tables that it has, the editor, and whether it has raised an error. -/
structure Running (σ : Type*) (logTest : Bool) where
  tables : List (Table σ logTest)
  editor : σ
  stopped : Bool

/-- What is no closure cannot be called. -/
def Running.call (n : Nat) (name : Bytes) (args : Frame σ) (m : Running σ logTest) : Running σ logTest :=
  match (m.tables[n]?).bind (· (.string name)) with
  | some (.thunk i) =>
    match thunk (index m.tables) logTest i args m.editor with
    | .ok r => { m with editor := r.editor }
    | .error _ => { m with stopped := true }
  | _ => { m with stopped := true }

def Running.step (obj : EditorProxy σ) (m : Running σ logTest) (statement : Statement σ) : Running σ logTest :=
  if m.stopped then m
  else
    match statement with
    | .construct => { m with tables := m.tables ++ [inject logTest obj] }
    | .call n name args => m.call n name args

/-! ### What a script asks for -/

def ask (p : EditorProxy σ) (s : σ) : Sheet.Call → σ
  | .title str => p.mEditor.addTitle str s
  | .name str => p.mEditor.addName str s
  | .jumpLine => p.mEditor.jumpLine s
  | .lineCount => s
  | .write str => p.mEditor.writeText str s

/-- What a method asks of the editor, if the arguments are right. -/
def Method.asks (m : Method) (args : Frame σ) : Option (List Sheet.Call) :=
  match m with
  | .title => (args.getD 1 .nil).toLString.map fun str => [.title (cString str)]
  | .name => (args.getD 1 .nil).toLString.map fun str => [.name (cString str)]
  | .jumpLine => some [.jumpLine]
  | .lineCount => some [.lineCount]
  | .write => (args.getD 1 .nil).toLString.map fun str => [.write (cString str)]

/-- The value is one of the tables that `inject` made. -/
def IsObject (count : Nat) : Value σ → Prop
  | .other tag => tag % 2 = 0 ∧ tag / 2 < count
  | _ => False

instance (count : Nat) : (value : Value σ) → Decidable (IsObject count value)
  | .other _ => inferInstanceAs (Decidable (_ ∧ _))
  | .nil | .number _ | .string _ | .userdata _ _ => instDecidableFalse

/-- What a call asks of the editor: the function is from one of the tables, and the first argument is one. -/
def asks (logTest : Bool) (count n : Nat) (name : Bytes) (args : Frame σ) : Option (List Sheet.Call) :=
  if n < count ∧ IsObject count (args.headD .nil) then
    ((Register logTest).find? (·.key = .string name)).bind (·.mfunc.asks args)
  else none

/-- What a script asks of the editor until it raises an error, and how many tables there are then. -/
def scriptAsks (logTest : Bool) : Nat → List (Statement σ) → List Sheet.Call × Nat
  | count, [] => ([], count)
  | count, .construct :: script => scriptAsks logTest (count + 1) script
  | count, .call n name args :: script =>
    match asks logTest count n name args with
    | none => ([], count)
    | some calls => (calls ++ (scriptAsks logTest count script).1, (scriptAsks logTest count script).2)

section

variable {p obj : EditorProxy σ} {s : σ} {args : Frame σ} {m : Method} {count : Nat}

/-- Titles, names and texts are passed on, or their argument is refused. -/
theorem passString_asks {f : Bytes → σ → σ} (toCall : Bytes → Sheet.Call) (hf : ∀ str, p.ask s (toCall str) = f str s) :
    match (args.getD 1 .nil).toLString.map fun str => [toCall (cString str)] with
    | some calls => ∃ r, passString f s args = .ok r ∧ r.editor = calls.foldl p.ask s
    | none => ∃ e, passString f s args = .error e := by
  unfold passString checkLString
  cases (args.getD 1 .nil).toLString with
  | none => exact ⟨_, rfl⟩
  | some str => exact ⟨_, rfl, (hf _).symm⟩

theorem call_asks (m : Method) (p : EditorProxy σ) (s : σ) (args : Frame σ) :
    match m.asks args with
    | some calls => ∃ r, m.call p s args = .ok r ∧ r.editor = calls.foldl p.ask s
    | none => ∃ e, m.call p s args = .error e := by
  cases m with
  | title => exact passString_asks .title fun _ => rfl
  | name => exact passString_asks .name fun _ => rfl
  | write => exact passString_asks .write fun _ => rfl
  | jumpLine => exact ⟨_, rfl, rfl⟩
  | lineCount => exact ⟨_, rfl, rfl⟩

/-- The key that `thunk` looks for. -/
def zero : Value σ := .number (toString (0 : Int)).toUTF8.toList

/-- What `thunk` makes of what it finds in slot 0. -/
theorem thunk_eq (find : Index σ) (i : Fin (Register logTest).length) (args : Frame σ) (s : σ) :
    thunk find logTest i args s =
      (find ((args ++ [zero]).getD 0 .nil) zero s).bind fun found =>
        (checkUdata className [found.1]).bind fun obj => ((Register logTest).get i).mfunc.call obj found.2 args := by
  have hlast : (args ++ [zero (σ := σ)]).getLastD .nil = zero := by rw [List.getLastD_concat]
  have hframe : pushInteger 0 args = args ++ [zero] := rfl
  unfold thunk getTable
  rw [hframe, hlast, List.dropLast_concat]
  cases find ((args ++ [zero]).getD (1 - 1) .nil) zero s with
  | error e => rfl
  | ok found =>
    have hcheck : checkUdata className (args ++ [found.1]) = checkUdata className [found.1] := by
      rw [checkUdata, checkUdata, List.getLastD_concat]
      rfl
    simp only [bind, Except.bind, pure, Except.pure, hcheck, removeTop, List.dropLast_concat]

/-- In slot 0 of a table that `inject` made is the object. -/
theorem index_object (tag : Nat) (htag : tag % 2 = 0 ∧ tag / 2 < count) (s : σ) :
    index (List.replicate count (inject logTest obj)) (.other tag) zero s = .ok (.userdata (some className) obj, s) := by
  have htable : (List.replicate count (inject logTest obj))[tag / 2]? = some (inject logTest obj) := by
    rw [List.getElem?_replicate, if_pos htag.2]
  have hslot : inject logTest obj slot0 = some (.userdata className obj) := inject_slot0 obj
  unfold index
  simp only [if_pos htag.1, htable, Option.bind_some]
  show Except.ok ((inject logTest obj slot0).elim .nil Entry.value, s) = _
  rw [hslot]
  rfl

theorem thunk_object (i : Fin (Register logTest).length) (hobject : IsObject count (args.headD .nil)) :
    thunk (index (List.replicate count (inject logTest obj))) logTest i args s =
      ((Register logTest).get i).mfunc.call obj s args := by
  rw [thunk_eq]
  match args, hobject with
  | .other tag :: args, htag =>
    show (index _ (.other tag) zero s).bind _ = _
    rw [index_object tag htag]
    rfl

/-- Anything else has no object there. -/
theorem thunk_not_object (obj : EditorProxy σ) (s : σ) (i : Fin (Register logTest).length)
    (hobject : ¬IsObject count (args.headD .nil)) :
    ∃ e, thunk (index (List.replicate count (inject logTest obj))) logTest i args s = .error e := by
  rw [thunk_eq]
  match args, hobject with
  | [], _ => exact ⟨_, rfl⟩
  | .nil :: _, _ => exact ⟨_, rfl⟩
  | .number _ :: _, _ => exact ⟨_, rfl⟩
  | .string _ :: _, _ => exact ⟨_, rfl⟩
  | .userdata _ _ :: _, _ => exact ⟨_, rfl⟩
  | .other tag :: args, htag =>
    show ∃ e, (index _ (.other tag) zero s).bind _ = _
    unfold index
    simp only
    by_cases heven : tag % 2 = 0
    · have hlt : ¬tag / 2 < count := fun hlt => htag ⟨heven, hlt⟩
      rw [if_pos heven, List.getElem?_replicate, if_neg hlt]
      exact ⟨_, rfl⟩
    · rw [if_neg heven]
      exact ⟨_, rfl⟩

/-- A call does to the editor what it asks for, or raises an error and does nothing. -/
theorem call_spec (n : Nat) (name : Bytes) (args : Frame σ) {m : Running σ logTest}
    (htables : m.tables = List.replicate count (inject logTest obj)) :
    m.call n name args =
      match asks logTest count n name args with
      | some calls => { m with editor := calls.foldl obj.ask m.editor }
      | none => { m with stopped := true } := by
  unfold Running.call asks
  rw [htables, List.getElem?_replicate]
  by_cases hn : n < count
  · rw [if_pos hn, Option.bind_some]
    cases hfind : (Register logTest).find? (·.key = .string name) with
    | none =>
      have hnone : inject logTest obj (.string name) = none := by
        refine inject_string obj fun l hl => ?_
        simpa using List.find?_eq_none.mp hfind l hl
      rw [hnone]
      split_ifs <;> rfl
    | some l =>
      obtain ⟨i, hi⟩ := List.get_of_mem (List.mem_of_find?_eq_some hfind)
      have hkey : ((Register logTest).get i).key = .string name := by
        rw [hi]
        simpa using List.find?_some hfind
      rw [← hkey, inject_key]
      by_cases hobject : IsObject count (args.headD .nil)
      · rw [if_pos ⟨hn, hobject⟩, Option.bind_some, ← hi]
        simp only [thunk_object i hobject]
        have hasks := call_asks ((Register logTest).get i).mfunc obj m.editor args
        cases hcalls : ((Register logTest).get i).mfunc.asks args with
        | some calls =>
          rw [hcalls] at hasks
          obtain ⟨r, hcall, heditor⟩ := hasks
          simp only [hcall, heditor]
        | none =>
          rw [hcalls] at hasks
          obtain ⟨e, hcall⟩ := hasks
          rw [hcall]
      · rw [if_neg fun h => hobject h.2]
        obtain ⟨e, hcall⟩ := thunk_not_object obj m.editor i hobject
        simp only [hcall]
  · rw [if_neg hn, if_neg fun h => hn h.1]
    rfl

/-- By induction on the statements. -/
theorem run_script (script : List (Statement σ)) {m : Running σ logTest} (hm : m.stopped = false)
    (htables : m.tables = List.replicate count (inject logTest obj)) :
    (run (Running.step obj) m script).editor = (scriptAsks logTest count script).1.foldl obj.ask m.editor ∧
      (run (Running.step obj) m script).tables = List.replicate (scriptAsks logTest count script).2 (inject logTest obj) := by
  induction script generalizing m count with
  | nil => exact ⟨rfl, htables⟩
  | cons statement script ih =>
    have hstopped : ∀ m' : Running σ logTest, m'.stopped = true → run (Running.step obj) m' script = m' := by
      intro m' hm'
      have hfixed : ∀ statement, Running.step obj m' statement = m' := fun _ => if_pos hm'
      exact List.foldl_fixed' hfixed script
    rw [run_cons, Running.step.eq_def, if_neg (by rw [hm]; exact Bool.false_ne_true)]
    cases statement with
    | construct =>
      have hmade : m.tables ++ [inject logTest obj] = List.replicate (count + 1) (inject logTest obj) := by
        rw [List.replicate_succ', htables]
      exact ih (m := { m with tables := m.tables ++ [inject logTest obj] }) hm hmade
    | call n name args =>
      rw [scriptAsks]
      simp only [call_spec n name args htables]
      cases asks logTest count n name args with
      | none =>
        simp only
        rw [hstopped _ rfl]
        exact ⟨rfl, htables⟩
      | some calls =>
        obtain ⟨heditor, htables'⟩ := ih (m := { m with editor := calls.foldl obj.ask m.editor }) hm htables
        refine ⟨?_, htables'⟩
        rw [heditor, List.foldl_append]

end

end EditorProxy

/-! ### The program -/

/-- The desk, and the tables that the scripts have. -/
structure Program (logTest : Bool) where
  desk : Desk
  tables : List (EditorProxy.Table Desk logTest)

namespace Program

/-- What happens at the desk, or a script. -/
inductive Event
  | desk (e : Desk.Event)
  | script (script : List (EditorProxy.Statement Desk))

variable (logTest : Bool) (fromUtf8 : Sheet.FromUtf8)

/-- The proxy: its methods go through the pointer that `registerEditor` has set. -/
def proxy : EditorProxy Desk where
  mEditor :=
    { jumpLine := fun s => s.step fromUtf8 (.script .jumpLine)
      addTitle := fun str s => s.step fromUtf8 (.script (.title str))
      addName := fun str s => s.step fromUtf8 (.script (.name str))
      structureLineCount := fun s => (s.editor s.proxyEditor).elim 0 Sheet.structureLineCount
      writeText := fun str s => s.step fromUtf8 (.script (.write str)) }

def start (visible : Bool) (layout : Document.TextLayout) : Program logTest :=
  { desk := .start visible layout, tables := [] }

def step (s : Program logTest) : Event → Program logTest
  | .desk e => { s with desk := s.desk.step fromUtf8 e }
  | .script script =>
    let m := run (EditorProxy.Running.step (proxy fromUtf8)) { tables := s.tables, editor := s.desk, stopped := false } script
    { desk := m.editor, tables := m.tables }

/-- What happens at the desk: a script is the calls that it asks for. -/
def deskEvents : Nat → List Event → List Desk.Event
  | _, [] => []
  | count, .desk e :: events => e :: deskEvents count events
  | count, .script script :: events =>
    let (calls, count) := EditorProxy.scriptAsks logTest count script
    calls.map .script ++ deskEvents count events

variable {logTest : Bool} {fromUtf8 : Sheet.FromUtf8}

theorem foldl_ask (calls : List Sheet.Call) (s : Desk) :
    calls.foldl (proxy fromUtf8).ask s = run (Desk.step fromUtf8) s (calls.map .script) := by
  have hask : (proxy fromUtf8).ask = fun s call => s.step fromUtf8 (.script call) := by
    funext s call
    cases call with
    | lineCount => exact s.step_lineCount.symm
    | title | name | jumpLine | write => rfl
  rw [hask, run, List.foldl_map]

theorem desk_run {s : Program logTest} {count : Nat} (events : List Event)
    (htables : s.tables = List.replicate count (EditorProxy.inject logTest (proxy fromUtf8))) :
    (run (step logTest fromUtf8) s events).desk = run (Desk.step fromUtf8) s.desk (deskEvents logTest count events) := by
  induction events generalizing s count with
  | nil => rfl
  | cons e events ih =>
    cases e with
    | desk e => exact ih (s := { s with desk := s.desk.step fromUtf8 e }) htables
    | script script =>
      obtain ⟨heditor, htables'⟩ := EditorProxy.run_script script
        (m := { tables := s.tables, editor := s.desk, stopped := false }) rfl htables
      rw [run_cons, ih htables', deskEvents, run_append, ← foldl_ask, ← heditor]
      rfl

/-- Scripts between other events, with any tables that they made, also in an earlier script or before another editor
was opened: what they do is what their calls do to the editor that was opened last, up to the first call in a script
that raises an error. -/
theorem scripts_reach_newest (visible : Bool) (layout : Document.TextLayout) (events : List Event) :
    (run (step logTest fromUtf8) (start logTest visible layout) events).desk =
      run (Desk.step fromUtf8) (Desk.start visible layout) (deskEvents logTest 0 events) :=
  desk_run events rfl

/-- `a = editor()`, `b = editor()`, `a.title(b, "T")`, `a.title("T")`, `a:jumpline()`: the second title has no object. -/
example : EditorProxy.scriptAsks (σ := Desk) false 0
    [.construct, .construct, .call 0 "title".toUTF8.toList [.table 1, .string [0x54]],
      .call 0 "title".toUTF8.toList [.string [0x54]], .call 0 "jumpline".toUTF8.toList [.table 0]] =
    ([.title [0x54]], 2) := by decide +kernel

end Program

end MetaEditor
