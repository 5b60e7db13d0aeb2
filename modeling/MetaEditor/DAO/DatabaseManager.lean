import MetaEditor.DAO.Object

/-!
# The database manager

`DatabaseManager` keeps a client of the server and creates, reads, updates and destroys the documents of
a collection. The server itself is the one of `Lib.Documents` with `_id` as its key; a `Driver` says what
becomes of the calls to it. `bcon` is the document that `BCON_NEW("name", s)` makes of a bare string.
-/

namespace MetaEditor

open Lib

/-- What the driver answers during one call, and what the call finds in fresh memory. -/
structure Driver where
  /-- `mongoc_client_new` gives a client, and not null. -/
  client : Bool
  ping : Bool
  query : Bool
  write : Bool
  /-- `error.message` of a failed call. -/
  message : String
  /-- The id that `bson_oid_init` generates. -/
  generated : Oid
  /-- What `new T` leaves in `m_id`. -/
  memory : Oid
  deriving DecidableEq, Repr

/-- A client is made, and the server answers its ping. -/
def Driver.Connects (d : Driver) : Prop := d.client = true ∧ d.ping = true

instance (d : Driver) : Decidable d.Connects := inferInstanceAs (Decidable (_ ∧ _))

/-- Every driver call succeeds. -/
def Driver.Succeeds (d : Driver) : Prop := d.Connects ∧ d.query = true ∧ d.write = true

instance (d : Driver) : Decidable d.Succeeds := inferInstanceAs (Decidable (_ ∧ _ ∧ _))

/-- A driver that is at work and generates the id `n`. -/
def Driver.working (n : Nat) : Driver :=
  { client := true, ping := true, query := true, write := true, message := "", generated := n, memory := 0 }

abbrev Collection := List Bson

structure DatabaseException where
  message : String
  deriving DecidableEq, Repr

structure DatabaseManager where
  /-- `m_client` is not null. -/
  mClient : Bool
  /-- The address, once `connect` has set it. -/
  mIp : Option Bytes
  mPort : Option UInt16
  deriving DecidableEq, Repr

namespace DatabaseManager

/-! ### Connection -/

/-- What `connect` throws when there is no client. -/
def noClient : DatabaseException := ⟨"Falha ao iniciar cliente para conexão ao banco de dados."⟩

/-- In a build without assertions: with them `BSON_ASSERT` ends the program before the throw. -/
def connect (d : Driver) (ip : Option Bytes) (port : Option UInt16) (m : DatabaseManager) :
    Except DatabaseException Unit × DatabaseManager :=
  let m := { m with mClient := d.client }
  if d.client = false then (.error noClient, m)
  else if d.ping = false then (.error ⟨d.message⟩, m)
  else (.ok (), { m with mIp := ip, mPort := port })

def tryReconnection (d : Driver) (m : DatabaseManager) : Except DatabaseException Unit × DatabaseManager :=
  m.connect d m.mIp m.mPort

/-- `if(m_client == nullptr) tryReconnection();` and then the rest of the function. -/
def withClient {α : Type} (d : Driver) (rest : α) (m : DatabaseManager) :
    Except DatabaseException α × DatabaseManager :=
  if m.mClient = false then ((m.tryReconnection d).1.map fun _ => rest, (m.tryReconnection d).2)
  else (.ok rest, m)

theorem withClient_of_connects {α : Type} {d : Driver} (h : d.Connects) (rest : α) (m : DatabaseManager) :
    (m.withClient d rest).1 = .ok rest := by
  unfold withClient tryReconnection connect
  simp only [h.1, h.2, Bool.true_eq_false, if_false]
  split_ifs <;> rfl

theorem connect_of_not_connects {d : Driver} (h : ¬d.Connects) (ip : Option Bytes) (port : Option UInt16)
    (m : DatabaseManager) : ∃ e, (m.connect d ip port).1 = .error e := by
  unfold connect
  by_cases hclient : d.client = false
  · exact ⟨noClient, congrArg Prod.fst (if_pos hclient)⟩
  · have hping : d.ping = false := by
      by_contra hping
      exact h ⟨by simpa using hclient, by simpa using hping⟩
    exact ⟨⟨d.message⟩, congrArg Prod.fst ((if_neg hclient).trans (if_pos hping))⟩

/-! ### Calls to the server -/

/-- The documents that `mongoc_cursor_next` gives after `mongoc_collection_find`. -/
def cursor (d : Driver) (query : Bson) (c : Collection) : List Bson :=
  if d.query = true then findDocuments query c else []

def collectionInsert (d : Driver) (b : Bson) (c : Collection) : Option Collection :=
  if d.write = true then insertDocument "_id" b c else none

def collectionRemove (d : Driver) (b : Bson) (c : Collection) : Option Collection :=
  if d.write = true then some (removeDocuments b c) else none

/-- `update` is the argument of `$set`. -/
def collectionUpdate (d : Driver) (query update : Bson) (c : Collection) : Option Collection :=
  if d.write = true then updateDocument "_id" query update c else none

def findQuery (d : Driver) (query : Bson) (c : Collection) : Bool :=
  match cursor d query c with
  | [] => false
  | _ :: _ => true

def nameQuery (name : Bytes) : Bson := [("name", .utf8 (cString name))]

def findName (d : Driver) (objectName : Bytes) (c : Collection) : Bool := findQuery d (nameQuery objectName) c

def idQuery (id : Oid) : Bson := [("_id", .oid id)]

def findOID (d : Driver) (id : Oid) (c : Collection) : Bool := findQuery d (idQuery id) c

/-! ### create, destroy, update

Each function is the part below its guard for `m_client`, and the guard with it. The result is the
answer, the object and the collection afterwards. -/

/-- From the name check of `create` on: `o` is wrapped and inserted. -/
def insertWrapped (d : Driver) (o : AnyObject) (c : Collection) : Bool × AnyObject × Collection :=
  let (o, b) := o.wrap d.generated []
  match collectionInsert d b c with
  | none => (false, o, c)
  | some c => (true, o, c)

def createIn (d : Driver) (o : AnyObject) (c : Collection) : Bool × AnyObject × Collection :=
  if findName d o.name c = true then (false, o, c) else insertWrapped d o c

def create (d : Driver) (o : AnyObject) (c : Collection) (m : DatabaseManager) :
    Except DatabaseException (Bool × AnyObject × Collection) × DatabaseManager :=
  m.withClient d (createIn d o c)

def destroyIn (d : Driver) (o : AnyObject) (c : Collection) : Bool × AnyObject × Collection :=
  if findName d o.name c = false then (false, o, c)
  else
    let (o, b) := o.wrap d.generated []
    match collectionRemove d b c with
    | none => (false, o, c)
    | some c => (true, o, c)

def destroy (d : Driver) (o : AnyObject) (c : Collection) (m : DatabaseManager) :
    Except DatabaseException (Bool × AnyObject × Collection) × DatabaseManager :=
  m.withClient d (destroyIn d o c)

/-- The query has the id from before `wrap`. -/
def updateIn (d : Driver) (o : AnyObject) (c : Collection) : Bool × AnyObject × Collection :=
  if findOID d o.id c = false then (false, o, c)
  else
    let query := idQuery o.id
    let (o, set) := o.wrap d.generated []
    match collectionUpdate d query set c with
    | none => (false, o, c)
    | some c => (true, o, c)

def update (d : Driver) (o : AnyObject) (c : Collection) (m : DatabaseManager) :
    Except DatabaseException (Bool × AnyObject × Collection) × DatabaseManager :=
  m.withClient d (updateIn d o c)

/-! ### read and findAll -/

/-- What `BCON_NEW("name", s)` makes of a string that is none of its tokens. -/
def bareName (s : Bytes) : Bson := [("name", .utf8 s)]

/-- What the templates ask of their parameter `T`. -/
class Stored (T : Type) where
  new : Oid → T
  unwrap : T → Bson → Bool × T
  name : T → Bytes

instance : Stored Object := ⟨Object.new, Object.unwrap, Object.mName⟩

instance : Stored Script := ⟨Script.new, Script.unwrap, fun s => s.mName⟩

/-- One round of the loop of `read`. -/
def readNext (T : Type) [Stored T] (d : Driver) (objectName : Bytes) (bson : Bson) : Option T :=
  let (unwrapped, obj) := Stored.unwrap (Stored.new d.memory : T) bson
  if unwrapped = true ∧ Stored.name obj = objectName then some obj else none

def readIn (T : Type) [Stored T] (bcon : Bytes → Bson) (d : Driver) (objectName : Bytes) (c : Collection) :
    Option T :=
  (cursor d (bcon (cString objectName)) c).findSome? (readNext T d objectName)

def read (T : Type) [Stored T] (bcon : Bytes → Bson) (d : Driver) (objectName : Bytes) (c : Collection)
    (m : DatabaseManager) : Except DatabaseException (Option T) × DatabaseManager :=
  m.withClient d (readIn T bcon d objectName c)

/-- One round of the loop of `findAll`. -/
def findAllNext (T : Type) [Stored T] (d : Driver) (bson : Bson) : Option T :=
  let (unwrapped, obj) := Stored.unwrap (Stored.new d.memory : T) bson
  if unwrapped = true then some obj else none

def findAllIn (T : Type) [Stored T] (d : Driver) (c : Collection) : List T :=
  (cursor d [] c).filterMap (findAllNext T d)

def findAll (T : Type) [Stored T] (d : Driver) (c : Collection) (m : DatabaseManager) :
    Except DatabaseException (List T) × DatabaseManager :=
  m.withClient d (findAllIn T d c)

/-! ### What a call can do -/

variable {d : Driver} {o : AnyObject} {c : Collection}

theorem cursor_of_query (h : d.query = true) (query : Bson) (c : Collection) :
    cursor d query c = findDocuments query c := if_pos h

theorem findQuery_iff (h : d.query = true) {query : Bson} :
    findQuery d query c = true ↔ ∃ e ∈ c, Agrees query e := by
  unfold findQuery
  rw [cursor_of_query h]
  cases hfind : findDocuments query c with
  | nil =>
    have hnone : ∀ e ∈ c, ¬ Agrees query e := by
      intro e he ha
      have hmem : e ∈ findDocuments query c := mem_findDocuments.mpr ⟨he, ha⟩
      rw [hfind] at hmem
      exact List.not_mem_nil hmem
    simpa using hnone
  | cons e rest =>
    have hmem : e ∈ findDocuments query c := by rw [hfind]; exact List.mem_cons_self
    exact ⟨fun _ => ⟨e, mem_findDocuments.mp hmem⟩, fun _ => rfl⟩

theorem findName_iff (h : d.query = true) {name : Bytes} :
    findName d name c = true ↔ ∃ e ∈ c, e.lookup "name" = some (.utf8 (cString name)) := by
  unfold findName nameQuery
  simp only [findQuery_iff h, agrees_singleton]

theorem findOID_iff (h : d.query = true) {id : Oid} :
    findOID d id c = true ↔ ∃ e ∈ c, e.lookup "_id" = some (.oid id) := by
  unfold findOID idQuery
  simp only [findQuery_iff h, agrees_singleton]

/-- An insertion that is answered `true` appends the wrapped object, under an id that was not there. -/
theorem insertWrapped_cases (d : Driver) (o : AnyObject) (c : Collection) :
    ((insertWrapped d o c).1 = false ∧ (insertWrapped d o c).2.2 = c) ∨
    ((insertWrapped d o c).1 = true ∧ (insertWrapped d o c).2.2 = c ++ [o.fields d.generated] ∧
      insertDocument "_id" (o.fields d.generated) c = some (c ++ [o.fields d.generated])) := by
  unfold insertWrapped collectionInsert
  rw [AnyObject.wrap_eq, List.nil_append]
  by_cases hw : d.write = true
  · simp only [if_pos hw]
    cases hins : insertDocument "_id" (o.fields d.generated) c with
    | none => exact .inl ⟨rfl, rfl⟩
    | some c' =>
      obtain ⟨-, rfl⟩ := insertDocument_eq_some hins
      exact .inr ⟨rfl, rfl, rfl⟩
  · left
    simp [hw]

/-- `create` answers `true` exactly when it appends the wrapped object, whose name was not there. -/
theorem createIn_cases (hq : d.query = true) (o : AnyObject) (c : Collection) :
    ((createIn d o c).1 = false ∧ (createIn d o c).2.2 = c) ∨
    ((createIn d o c).1 = true ∧ (createIn d o c).2.2 = c ++ [o.fields d.generated] ∧
      insertDocument "_id" (o.fields d.generated) c = some (c ++ [o.fields d.generated]) ∧
      ∀ e ∈ c, e.lookup "name" ≠ some (.utf8 (cString o.name))) := by
  unfold createIn
  split_ifs with hname
  · exact .inl ⟨rfl, rfl⟩
  · have hnew : ∀ e ∈ c, e.lookup "name" ≠ some (.utf8 (cString o.name)) := by
      intro e he hn
      exact hname ((findName_iff hq).mpr ⟨e, he, hn⟩)
    rcases insertWrapped_cases d o c with ⟨hret, hc⟩ | ⟨hret, hc, hins⟩
    · exact .inl ⟨hret, hc⟩
    · exact .inr ⟨hret, hc, hins, hnew⟩

/-- With the driver at work, `destroy` answers whether the name is there, and removes what agrees with
the wrapped object. -/
theorem destroyIn_eq (hq : d.query = true) (hw : d.write = true) (o : AnyObject) (c : Collection) :
    destroyIn d o c =
      if ∃ e ∈ c, e.lookup "name" = some (.utf8 (cString o.name)) then
        (true, o.stamped d.generated, removeDocuments (o.fields d.generated) c)
      else (false, o, c) := by
  unfold destroyIn collectionRemove
  by_cases hname : ∃ e ∈ c, e.lookup "name" = some (.utf8 (cString o.name))
  · rw [if_pos hname, if_neg (by rw [(findName_iff hq).mpr hname]; decide), AnyObject.wrap_eq, List.nil_append]
    simp only [if_pos hw]
  · have hfalse : findName d o.name c = false := by
      rw [← Bool.not_eq_true, findName_iff hq]
      exact hname
    rw [if_neg hname, if_pos hfalse]

/-- Whatever the driver does, `destroy` leaves the collection or removes documents from it. -/
theorem destroyIn_cases (d : Driver) (o : AnyObject) (c : Collection) :
    (destroyIn d o c).2.2 = c ∨ (destroyIn d o c).2.2 = removeDocuments (o.fields d.generated) c := by
  unfold destroyIn collectionRemove
  rw [AnyObject.wrap_eq, List.nil_append]
  split_ifs
  · exact .inl rfl
  · exact .inr rfl
  · exact .inl rfl

/-- An `update` that changes the collection found a document by the id of the object, which `wrap`
kept, and set the wrapped fields in it. -/
theorem updateIn_cases (d : Driver) (o : AnyObject) (c : Collection) :
    (updateIn d o c).2.2 = c ∨
    ∃ before e after, c = before ++ e :: after ∧ (∀ e' ∈ before, e'.lookup "_id" ≠ some (.oid o.id)) ∧
      e.lookup "_id" = some (.oid o.id) ∧ o.wrappedId d.generated = o.id ∧
      updateDocument "_id" (idQuery o.id) (o.fields d.generated) c = some (updateIn d o c).2.2 ∧
      (updateIn d o c).2.2 = before ++ setFields e (o.fields d.generated) :: after := by
  unfold updateIn collectionUpdate
  split_ifs with hfind hw
  · exact .inl rfl
  · rw [AnyObject.wrap_eq, List.nil_append]
    simp only
    cases hupd : updateDocument "_id" (idQuery o.id) (o.fields d.generated) c with
    | none => exact .inl rfl
    | some c' =>
      rcases updateDocument_eq_some hupd with ⟨-, rfl⟩ | ⟨before, e, after, rfl, hbefore, he, hkey, rfl⟩
      · exact .inl rfl
      · have hid : e.lookup "_id" = some (.oid o.id) := agrees_singleton.mp he
        rw [lookup_setFields_of_some (o.nodup_keys_fields _) (o.lookup_id_fields _), hid] at hkey
        have hkept : o.wrappedId d.generated = o.id := by simpa using hkey
        exact .inr ⟨before, e, after, rfl, fun e' he' hid' => hbefore e' he' (agrees_singleton.mpr hid'), hid, hkept, rfl, rfl⟩
  · exact .inl rfl

/-- `update` leaves the ids as they are. -/
theorem map_id_updateIn (d : Driver) (o : AnyObject) (c : Collection) :
    (updateIn d o c).2.2.map (·.lookup "_id") = c.map (·.lookup "_id") := by
  rcases updateIn_cases d o c with hc | ⟨_, _, _, -, -, -, -, hupd, -⟩
  · rw [hc]
  · exact map_key_updateDocument hupd

/-- An `update` that finds its document, by an id that `wrap` keeps, sets the wrapped fields in it. -/
theorem updateIn_of_split (hq : d.query = true) (hw : d.write = true) {before after : Collection} {e : Bson}
    (hbefore : ∀ e' ∈ before, e'.lookup "_id" ≠ some (.oid o.id)) (hid : e.lookup "_id" = some (.oid o.id))
    (hkept : o.wrappedId d.generated = o.id) :
    updateIn d o (before ++ e :: after) =
      (true, o.stamped d.generated, before ++ setFields e (o.fields d.generated) :: after) := by
  have hfound : findOID d o.id (before ++ e :: after) = true :=
    (findOID_iff hq).mpr ⟨e, List.mem_append_right _ List.mem_cons_self, hid⟩
  have hkey : (setFields e (o.fields d.generated)).lookup "_id" = e.lookup "_id" := by
    rw [lookup_setFields_of_some (o.nodup_keys_fields _) (o.lookup_id_fields _), hid, hkept]
  have hupd : updateDocument "_id" (idQuery o.id) (o.fields d.generated) (before ++ e :: after) =
      some (before ++ setFields e (o.fields d.generated) :: after) := by
    have hmiss : ∀ e' ∈ before, ¬ Agrees (idQuery o.id) e' := fun e' he' ha => hbefore e' he' (agrees_singleton.mp ha)
    have hhit : Agrees (idQuery o.id) e := agrees_singleton.mpr hid
    rw [updateDocument_of_split hmiss hhit, if_pos hkey]
  unfold updateIn collectionUpdate
  rw [if_neg (by simp [hfound]), AnyObject.wrap_eq, List.nil_append]
  simp only [if_pos hw, hupd]

end DatabaseManager

end MetaEditor
