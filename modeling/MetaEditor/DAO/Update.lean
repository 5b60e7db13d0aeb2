import MetaEditor.DAO.Identity
import MetaEditor.DAO.Unwrap

/-!
# Updating what was read

An object that was read carries the flag, so that `wrap` writes the id it has. An `update` of such an
object, however its owner has changed it, is about the document with that id: it sets the name and the
data there and nothing else.
-/

namespace MetaEditor

open Lib DatabaseManager BSONUtils

/-- An object that was read and then changed by its owner. -/
inductive Obtained : AnyObject → Prop
  | unwrap {o : AnyObject} {data : Bson} (h : (o.unwrap data).1 = true) : Obtained (o.unwrap data).2
  | setName {o : AnyObject} {name : Bytes} (h : Obtained o) (hnul : 0 ∉ name) : Obtained (o.setName name)
  | setBinaryData {s : Script} (h : Obtained (.script s)) (data : Bytes) : Obtained (.script (s.setBinaryData data))

/-- The document `e'` is `e` with the name of the object, and for a script with its data. -/
structure Rewritten (o : AnyObject) (e e' : Bson) : Prop where
  name : e'.lookup "name" = some (.utf8 o.name)
  data : ∀ s, o = .script s → e'.lookup "binaryData" = some (.binary bsonSubtypeBinary s.mBinaryData)
  rest : ∀ k, k ≠ "name" → (∀ s, o = .script s → k ≠ "binaryData") → e'.lookup k = e.lookup k

/-- What was read has the flag and the name of the document. -/
theorem toObject_of_unwrap {o : AnyObject} {data : Bson} (h : (o.unwrap data).1 = true) :
    (o.unwrap data).2.toObject.mUpdate = true ∧ (o.unwrap data).2.name = getString data "name" := by
  have hname : getString data "name" ≠ [] := ((o.unwrap_true_iff data).mp h).1
  have hobject : (o.unwrap data).2.toObject = (o.toObject.unwrap data).2 := by
    cases o with
    | object o => rfl
    | script s =>
      simp only [AnyObject.unwrap, Script.unwrap]
      split_ifs <;> rfl
  unfold AnyObject.name
  rw [hobject, Object.unwrap_of_name hname]
  exact ⟨rfl, rfl⟩

theorem zero_notMem_getString (data : Bson) (fieldName : String) : (0 : UInt8) ∉ getString data fieldName := by
  unfold getString
  split
  · exact zero_notMem_cString _
  · exact List.not_mem_nil

/-- The flag stays set and the name stays free of NUL. -/
theorem Obtained.flag {o : AnyObject} (h : Obtained o) : o.toObject.mUpdate = true ∧ 0 ∉ o.name := by
  induction h with
  | unwrap h =>
    obtain ⟨hflag, hname⟩ := toObject_of_unwrap h
    exact ⟨hflag, hname ▸ zero_notMem_getString _ _⟩
  | @setName o name _ hnul ih =>
    have hset : (o.setName name).name = name := by cases o <;> rfl
    exact ⟨(AnyObject.mUpdate_setName o name).trans ih.1, hset.symm ▸ hnul⟩
  | setBinaryData _ _ ih => exact ih

theorem AnyObject.stamped_of_mUpdate {o : AnyObject} (h : o.toObject.mUpdate = true) (generated : Oid) :
    o.stamped generated = o := by
  cases o with
  | object o =>
    have hid : (if o.mUpdate then o.mId else generated) = o.mId := if_pos h
    rw [AnyObject.stamped, hid]
  | script s =>
    have hid : (if s.mUpdate then s.mId else generated) = s.mId := if_pos h
    rw [AnyObject.stamped, hid]

/-- Setting the fields of an object in the document with its id. -/
theorem rewritten_setFields {o : AnyObject} {e : Bson} {generated : Oid} (hflag : o.toObject.mUpdate = true)
    (hnul : 0 ∉ o.name) (hid : e.lookup "_id" = some (.oid o.id)) : Rewritten o e (setFields e (o.fields generated)) := by
  have hset : ∀ {k v}, (o.fields generated).lookup k = some v → (setFields e (o.fields generated)).lookup k = some v :=
    fun h => lookup_setFields_of_some (o.nodup_keys_fields generated) h e
  refine ⟨?_, ?_, fun k hname hdata => ?_⟩
  · rw [hset (o.lookup_name_fields generated), cString_eq_self hnul]
  · rintro s rfl
    exact hset rfl
  · by_cases hk : k = "_id"
    · rw [hk, hid, hset (o.lookup_id_fields generated), AnyObject.wrappedId_of_mUpdate hflag]
    · refine lookup_setFields_of_none ?_ e
      unfold AnyObject.fields
      rw [lookup_cons_eq, if_neg (Ne.symm hk), lookup_cons_eq, if_neg (Ne.symm hname)]
      cases o with
      | object o => rfl
      | script s =>
        rw [AnyObject.ownFields, lookup_cons_eq, if_neg (Ne.symm (hdata s rfl))]
        rfl

/-- An `update` of an object that was read answers whether its document is there. If so, that document alone
is rewritten, if not, nothing changes, and the object is the same in any case. -/
theorem update_touches_one {d : Driver} {c : Collection} {o : AnyObject} (hd : d.Succeeds) (hids : UniqueIn "_id" c)
    (ho : Obtained o) (m : DatabaseManager) :
    ∃ b c', (m.update d o c).1 = .ok (b, o, c') ∧ (b = true ↔ ∃ e ∈ c, e.lookup "_id" = some (.oid o.id)) ∧
      (b = false → c' = c) ∧
      (b = true → ∃ before e after e', c = before ++ e :: after ∧ c' = before ++ e' :: after ∧
        e.lookup "_id" = some (.oid o.id) ∧ (∀ x ∈ before ++ after, x.lookup "_id" ≠ some (.oid o.id)) ∧
        Rewritten o e e') := by
  obtain ⟨hflag, hnul⟩ := ho.flag
  have hcall : (m.update d o c).1 = .ok (updateIn d o c) := withClient_of_connects hd.1 _ m
  by_cases hfound : ∃ e ∈ c, e.lookup "_id" = some (.oid o.id)
  · obtain ⟨before, e, after, rfl, hbefore, hid⟩ := exists_first hfound
    have hother := (uniqueIn_middle.mp hids).1 _ hid
    rw [updateIn_of_split hd.2.1 hd.2.2 hbefore hid (AnyObject.wrappedId_of_mUpdate hflag _),
      AnyObject.stamped_of_mUpdate hflag] at hcall
    refine ⟨true, _, hcall, iff_of_true rfl hfound, nofun, fun _ => ?_⟩
    exact ⟨before, e, after, _, rfl, rfl, hid, hother, rewritten_setFields hflag hnul hid⟩
  · have hmiss : findOID d o.id c = false := by
      rw [← Bool.not_eq_true, findOID_iff hd.2.1]
      exact hfound
    have hrefused : updateIn d o c = (false, o, c) := by
      unfold updateIn
      rw [if_pos hmiss]
    rw [hrefused] at hcall
    exact ⟨false, c, hcall, iff_of_false Bool.false_ne_true hfound, fun _ => rfl, nofun⟩

/-- A script that was read, renamed and given other data. -/
theorem update_touches_one_script :
    let c : Collection := [scriptDocument 7 [97] [1], scriptDocument 8 [98] [2]]
    let o : AnyObject := .script { mId := 7, mName := [99], mUpdate := true, mBinaryData := [3] }
    ∃ b c', ((⟨true, none, none⟩ : DatabaseManager).update (.working 1) o c).1 = .ok (b, o, c') ∧
      (b = true ↔ ∃ e ∈ c, e.lookup "_id" = some (.oid o.id)) ∧ (b = false → c' = c) ∧
      (b = true → ∃ before e after e', c = before ++ e :: after ∧ c' = before ++ e' :: after ∧
        e.lookup "_id" = some (.oid o.id) ∧ (∀ x ∈ before ++ after, x.lookup "_id" ≠ some (.oid o.id)) ∧
        Rewritten o e e') := by
  intro c o
  have hread : Obtained ((AnyObject.script (.new 3)).unwrap (scriptDocument 7 [97] [1])).2 := .unwrap rfl
  have hrenamed : Obtained (.script { mId := 7, mName := [99], mUpdate := true, mBinaryData := [1] }) :=
    Obtained.setName hread (by decide : (0 : UInt8) ∉ [99])
  have ho : Obtained o := hrenamed.setBinaryData [3]
  exact update_touches_one (by decide) (by decide) ho _

end MetaEditor
