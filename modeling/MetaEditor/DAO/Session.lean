import MetaEditor.DAO.Unique

/-!
# Sessions of one client

A client makes objects, changes them, and creates, reads, updates and destroys them in one collection,
in any order. Its objects stay in memory, and each request names the object it is about by its index.
The names in the collection stay unique as long as no `update` writes a name that another document
already has.
-/

namespace MetaEditor

open Lib DatabaseManager

structure Session where
  manager : DatabaseManager
  objects : List AnyObject
  collection : Collection
  deriving DecidableEq

inductive Request
  | newObject (memory : Oid) (name : Bytes)
  | newScript (memory : Oid) (name data : Bytes)
  | setName (i : Nat) (name : Bytes)
  | setBinaryData (i : Nat) (data : Bytes)
  | create (d : Driver) (i : Nat)
  | destroy (d : Driver) (i : Nat)
  | update (d : Driver) (i : Nat)
  | readObject (d : Driver) (name : Bytes)
  | readScript (d : Driver) (name : Bytes)

/-- The driver calls of the request succeed. -/
def Request.Succeeds : Request → Prop
  | .create d _ | .destroy d _ | .update d _ | .readObject d _ | .readScript d _ => d.Succeeds
  | _ => True

instance (r : Request) : Decidable r.Succeeds := by
  cases r <;> unfold Request.Succeeds <;> infer_instance

namespace Session

/-- Before the first request the collection is empty. -/
def start (m : DatabaseManager) : Session := { manager := m, objects := [], collection := [] }

def setObject (s : Session) (i : Nat) (o : AnyObject) : Session := { s with objects := s.objects.set i o }

/-- What the session keeps of a call on object `i`. An exception leaves the object and the collection. -/
def afterCall (s : Session) (i : Nat)
    (result : Except DatabaseException (Bool × AnyObject × Collection) × DatabaseManager) : Session :=
  match result with
  | (.error _, m) => { s with manager := m }
  | (.ok (_, o, c), m) => { s with manager := m, objects := s.objects.set i o, collection := c }

/-- What the session keeps of a `read`. -/
def afterRead {T : Type} (s : Session) (toAny : T → AnyObject)
    (result : Except DatabaseException (Option T) × DatabaseManager) : Session :=
  match result with
  | (.ok (some obj), m) => { s with manager := m, objects := s.objects ++ [toAny obj] }
  | (_, m) => { s with manager := m }

def step (bcon : Bytes → Bson) (s : Session) : Request → Session
  | .newObject memory name => { s with objects := s.objects ++ [.object (.ofName memory name)] }
  | .newScript memory name data => { s with objects := s.objects ++ [.script (.ofData memory name data)] }
  | .setName i name => (s.objects[i]?).elim s fun o => s.setObject i (o.setName name)
  | .setBinaryData i data =>
    match s.objects[i]? with
    | some (.script o) => s.setObject i (.script (o.setBinaryData data))
    | _ => s
  | .create d i => (s.objects[i]?).elim s fun o => s.afterCall i (s.manager.create d o s.collection)
  | .destroy d i => (s.objects[i]?).elim s fun o => s.afterCall i (s.manager.destroy d o s.collection)
  | .update d i => (s.objects[i]?).elim s fun o => s.afterCall i (s.manager.update d o s.collection)
  | .readObject d name => s.afterRead .object (s.manager.read Object bcon d name s.collection)
  | .readScript d name => s.afterRead .script (s.manager.read Script bcon d name s.collection)

/-! ### One request -/

variable {bcon : Bytes → Bson} {s : Session}

def Allowed (s : Session) : Request → Prop
  | .update d i => ∀ o ∈ s.objects[i]?, NameFree s.collection o d.generated
  | _ => True

instance (s : Session) (r : Request) : Decidable (s.Allowed r) := by
  cases r <;> unfold Allowed <;> infer_instance

/-- A call that keeps ids and names unique does so behind its guard too. -/
theorem afterCall_unique {d : Driver} {rest : Bool × AnyObject × Collection} (h : Unique s.collection)
    (hrest : Unique rest.2.2) (i : Nat) : Unique (s.afterCall i (s.manager.withClient d rest)).collection := by
  unfold withClient
  split_ifs with hc
  · cases hping : (s.manager.tryReconnection d).1 with
    | error e => exact h
    | ok u => exact hrest
  · exact hrest

theorem afterRead_collection {T : Type} (s : Session) (toAny : T → AnyObject)
    (result : Except DatabaseException (Option T) × DatabaseManager) :
    (s.afterRead toAny result).collection = s.collection := by
  unfold afterRead
  split <;> rfl

/-- One request keeps ids and names unique, if it is allowed. -/
theorem step_unique {r : Request} (hr : r.Succeeds) (hallowed : s.Allowed r) (h : Unique s.collection) :
    Unique (step bcon s r).collection := by
  cases r with
  | newObject memory name => exact h
  | newScript memory name data => exact h
  | setName i name =>
    rw [step]
    cases s.objects[i]? <;> exact h
  | setBinaryData i data =>
    rw [step]
    split <;> exact h
  | create d i =>
    rw [step]
    cases s.objects[i]? with
    | none => exact h
    | some o => exact afterCall_unique h (h.createIn hr.2.1 o) i
  | destroy d i =>
    rw [step]
    cases s.objects[i]? with
    | none => exact h
    | some o => exact afterCall_unique h (h.destroyIn d o) i
  | update d i =>
    rw [step]
    cases hi : s.objects[i]? with
    | none => exact h
    | some o => exact afterCall_unique h (h.updateIn (hallowed o hi)) i
  | readObject d name =>
    rw [step, afterRead_collection]
    exact h
  | readScript d name =>
    rw [step, afterRead_collection]
    exact h

/-! ### Whole sessions -/

/-- In a session whose updates all write a name that is free, no two documents ever have the same name. -/
theorem run_names_unique {m : DatabaseManager} {requests : List Request} (hsucceed : ∀ r ∈ requests, r.Succeeds)
    (hallowed : StepsMeet (step bcon) Allowed (start m) requests) :
    UniqueIn "name" (run (step bcon) (start m) requests).collection := by
  have hunique : Unique (run (step bcon) (start m) requests).collection :=
    run_inv_of_stepsMeet (fun s => Unique s.collection) (fun s r h hr => step_unique hr.1 hr.2 h)
      ⟨uniqueIn_nil, uniqueIn_nil⟩ (hallowed.and hsucceed)
  exact hunique.names

/-- Two objects are created, the second one is read back and takes the name of the first. -/
def takeName (name : Bytes) : List Request :=
  [.newObject 0 [97], .newObject 0 [98], .create (Driver.working 1) 0, .create (Driver.working 2) 1,
    .readObject (Driver.working 3) [98], .setName 2 name, .update (Driver.working 4) 2]

theorem run_names_unique_takeName :
    UniqueIn "name" (run (step bareName) (start ⟨false, none, none⟩) (takeName [99])).collection :=
  run_names_unique (by decide) (by decide)

/-- The `update` writes the name although another document has it. -/
theorem names_not_unique :
    (∀ r ∈ takeName [97], r.Succeeds) ∧
      ¬ UniqueIn "name" (run (step bareName) (start ⟨true, none, none⟩) (takeName [97])).collection := by
  decide

end Session

end MetaEditor
