import MetaEditor.Lib.Documents
import MetaEditor.Lib.StdString

/-!
# Objects of the database

An `Object` has an id, a name and the flag `m_update`, which says that the id is the one of a stored
document; a `Script` has binary data besides. `wrap` appends the fields of an object to a BSON document,
generating an id first when `m_update` is not set, and `unwrap` reads them back.
-/

namespace MetaEditor

open Lib

/-- `bson_oid_t`: twelve bytes. -/
abbrev Oid := BitVec 96

/-- `bson_value_t`. A value of a type that is not read here is its type and its bytes. -/
inductive BsonValue
  | utf8 (str : Bytes)
  | oid (id : Oid)
  | binary (subtype : UInt8) (data : Bytes)
  | other (valueType : UInt8) (data : Bytes)
  deriving DecidableEq, Repr

/-- `bson_t`. -/
abbrev Bson := List (String × BsonValue)

/-- `BSON_SUBTYPE_BINARY`. -/
def bsonSubtypeBinary : UInt8 := 0

namespace BSONUtils

def getField (bson : Bson) (fieldName : String) : Option BsonValue := bson.lookup fieldName

def getString (bson : Bson) (fieldName : String) : Bytes :=
  match getField bson fieldName with
  | some (.utf8 str) => cString str
  | _ => []

/-- The answer, and `data` with the bytes appended. -/
def getArray (bson : Bson) (fieldName : String) (data : Bytes) : Bool × Bytes :=
  match getField bson fieldName with
  | some (.binary _ buffer) => if 0 < buffer.length then (true, data ++ buffer) else (false, data)
  | _ => (false, data)

/-- The answer, and `oid` overwritten. -/
def getOID (bson : Bson) (oid : Oid) : Bool × Oid :=
  match getField bson "_id" with
  | some (.oid id) => (true, id)
  | _ => (false, oid)

/-- The bytes are appended when there are some. -/
theorem getArray_cases (bson : Bson) (fieldName : String) (data : Bytes) :
    (∃ subtype buffer, bson.lookup fieldName = some (.binary subtype buffer) ∧ buffer ≠ [] ∧
      getArray bson fieldName data = (true, data ++ buffer)) ∨
    ((∀ subtype buffer, bson.lookup fieldName = some (.binary subtype buffer) → buffer = []) ∧
      getArray bson fieldName data = (false, data)) := by
  unfold getArray getField
  split
  case h_1 subtype buffer hfield =>
    by_cases hbuffer : buffer = []
    · refine .inr ⟨fun subtype' buffer' h => ?_, by simp [hbuffer]⟩
      rw [hfield] at h
      cases h
      exact hbuffer
    · exact .inl ⟨subtype, buffer, hfield, hbuffer, if_pos (List.length_pos_of_ne_nil hbuffer)⟩
  case h_2 hother => exact .inr ⟨fun subtype buffer h => absurd h (hother subtype buffer), rfl⟩

theorem getOID_cases (bson : Bson) (oid : Oid) :
    (∃ id, bson.lookup "_id" = some (.oid id) ∧ getOID bson oid = (true, id)) ∨
    ((∀ id, bson.lookup "_id" ≠ some (.oid id)) ∧ getOID bson oid = (false, oid)) := by
  unfold getOID getField
  split
  case h_1 id hfield => exact .inl ⟨id, hfield, rfl⟩
  case h_2 hother => exact .inr ⟨hother, rfl⟩

end BSONUtils

open BSONUtils

structure Object where
  mId : Oid
  mName : Bytes
  mUpdate : Bool
  deriving DecidableEq, Repr

namespace Object

/-- The constructors do not set `m_id`: it is what the memory holds. -/
def new (memory : Oid) : Object := { mId := memory, mName := [], mUpdate := false }

def ofName (memory : Oid) (name : Bytes) : Object := { mId := memory, mName := name, mUpdate := false }

/-- `generated` is the id that `bson_oid_init` makes if it is called. -/
def wrap (o : Object) (generated : Oid) (data : Bson) : Object × Bson :=
  let o := if o.mUpdate = false then { o with mId := generated } else o
  (o, data ++ [("_id", .oid o.mId), ("name", .utf8 (cString o.mName))])

def unwrap (o : Object) (data : Bson) : Bool × Object :=
  let o := { o with mName := getString data "name" }
  if o.mName ≠ [] then
    let o := { o with mUpdate := true }
    ((getOID data o.mId).1, { o with mId := (getOID data o.mId).2 })
  else (false, o)

def setName (o : Object) (name : Bytes) : Object := { o with mName := name }

end Object

structure Script extends Object where
  mBinaryData : Bytes
  deriving DecidableEq, Repr

namespace Script

def new (memory : Oid) : Script := { Object.new memory with mBinaryData := [] }

/-- `Script(name, binaryData, dataSize)`. -/
def ofData (memory : Oid) (name data : Bytes) : Script := { Object.ofName memory name with mBinaryData := data }

def wrap (s : Script) (generated : Oid) (data : Bson) : Script × Bson :=
  let (o, data) := s.toObject.wrap generated data
  ({ s with toObject := o }, data ++ [("binaryData", .binary bsonSubtypeBinary s.mBinaryData)])

def unwrap (s : Script) (data : Bson) : Bool × Script :=
  let (unwrapped, o) := s.toObject.unwrap data
  let s := { s with toObject := o }
  if unwrapped = true then
    ((getArray data "binaryData" s.mBinaryData).1,
      { s with mBinaryData := (getArray data "binaryData" s.mBinaryData).2 })
  else (false, s)

def setBinaryData (s : Script) (data : Bytes) : Script := { s with mBinaryData := data }

def binaryData (s : Script) : Bytes := s.mBinaryData

def size (s : Script) : Nat := s.mBinaryData.length

end Script

/-! ### Calls through `Object&` -/

/-- What an `Object&` refers to. `wrap` and `unwrap` are virtual. -/
inductive AnyObject
  | object (o : Object)
  | script (s : Script)
  deriving DecidableEq, Repr

namespace AnyObject

def toObject : AnyObject → Object
  | object o => o
  | script s => s.toObject

def wrap : AnyObject → Oid → Bson → AnyObject × Bson
  | object o, generated, data => ((object (o.wrap generated data).1), (o.wrap generated data).2)
  | script s, generated, data => ((script (s.wrap generated data).1), (s.wrap generated data).2)

def unwrap : AnyObject → Bson → Bool × AnyObject
  | object o, data => ((o.unwrap data).1, object (o.unwrap data).2)
  | script s, data => ((s.unwrap data).1, script (s.unwrap data).2)

def name (o : AnyObject) : Bytes := o.toObject.mName

def id (o : AnyObject) : Oid := o.toObject.mId

def setName : AnyObject → Bytes → AnyObject
  | object o, name => object (o.setName name)
  | script s, name => script { s with toObject := s.toObject.setName name }

/-- The id that `wrap` writes. -/
def wrappedId (o : AnyObject) (generated : Oid) : Oid := if o.toObject.mUpdate then o.id else generated

/-- The object after `wrap`. -/
def stamped (o : AnyObject) (generated : Oid) : AnyObject :=
  match o with
  | object o => object { o with mId := if o.mUpdate then o.mId else generated }
  | script s => script { s with mId := if s.mUpdate then s.mId else generated }

/-- The fields that the class of the object adds to the id and the name. -/
def ownFields : AnyObject → Bson
  | object _ => []
  | script s => [("binaryData", .binary bsonSubtypeBinary s.mBinaryData)]

/-- The fields that `wrap` writes. -/
def fields (o : AnyObject) (generated : Oid) : Bson :=
  ("_id", .oid (o.wrappedId generated)) :: ("name", .utf8 (cString o.name)) :: o.ownFields

theorem wrap_eq (o : AnyObject) (generated : Oid) (data : Bson) :
    o.wrap generated data = (o.stamped generated, data ++ o.fields generated) := by
  cases o with
  | object o =>
    obtain ⟨mId, mName, mUpdate⟩ := o
    cases mUpdate <;> simp [wrap, stamped, fields, wrappedId, ownFields, name, id, toObject, Object.wrap]
  | script s =>
    obtain ⟨⟨mId, mName, mUpdate⟩, mBinaryData⟩ := s
    cases mUpdate <;> simp [wrap, stamped, fields, wrappedId, ownFields, name, id, toObject, Script.wrap, Object.wrap]

@[simp] theorem lookup_id_fields (o : AnyObject) (generated : Oid) :
    (o.fields generated).lookup "_id" = some (.oid (o.wrappedId generated)) := rfl

@[simp] theorem lookup_name_fields (o : AnyObject) (generated : Oid) :
    (o.fields generated).lookup "name" = some (.utf8 (cString o.name)) := rfl

/-- No field is written twice. -/
theorem nodup_keys_fields (o : AnyObject) (generated : Oid) : ((o.fields generated).map (·.1)).Nodup := by
  cases o with
  | object o =>
    show ["_id", "name"].Nodup
    decide
  | script s =>
    show ["_id", "name", "binaryData"].Nodup
    decide

end AnyObject

end MetaEditor
