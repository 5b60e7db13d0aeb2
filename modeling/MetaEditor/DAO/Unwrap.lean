import MetaEditor.DAO.Shelf

/-!
# Reading into an object

`unwrap` writes the name, the flag and the id one after the other and can fail in between; the binary data
is appended. So a failed `unwrap` leaves the receiver as it was only when what it had written by then was
there before, and a successful one gives the script that was wrapped only to a receiver without data: the
chunk of a second `unwrap` goes behind that of the first.
-/

namespace MetaEditor

open Lib BSONUtils

/-! ### What a call does -/

theorem Object.unwrap_of_name {data : Bson} (h : getString data "name" ≠ []) (o : Object) :
    o.unwrap data = ((getOID data o.mId).1,
      { mId := (getOID data o.mId).2, mName := getString data "name", mUpdate := true }) := by
  unfold Object.unwrap
  simp only [if_pos h]

theorem Object.unwrap_of_noName {data : Bson} (h : getString data "name" = []) (o : Object) :
    o.unwrap data = (false, { o with mName := [] }) := by
  unfold Object.unwrap
  simp only [h, ne_eq, not_true_eq_false, if_false]

/-- An object is read exactly when the document has a name and an id. -/
theorem Object.unwrap_true_iff (o : Object) (data : Bson) :
    (o.unwrap data).1 = true ↔ getString data "name" ≠ [] ∧ ∃ id, data.lookup "_id" = some (.oid id) := by
  by_cases hname : getString data "name" = []
  · rw [Object.unwrap_of_noName hname]
    exact iff_of_false Bool.false_ne_true fun h => h.1 hname
  · rw [Object.unwrap_of_name hname]
    rcases getOID_cases data o.mId with ⟨id, hid, hget⟩ | ⟨hnone, hget⟩
    · rw [hget]
      exact iff_of_true rfl ⟨hname, id, hid⟩
    · rw [hget]
      exact iff_of_false Bool.false_ne_true fun ⟨_, id, hid⟩ => hnone id hid

/-- What a call writes into an object is there already: the name, and under a name the flag and the id. -/
def Object.Holds (o : Object) (data : Bson) : Prop :=
  o.mName = getString data "name" ∧
    (o.mName ≠ [] → o.mUpdate = true ∧ ∀ id, data.lookup "_id" = some (.oid id) → o.mId = id)

theorem Object.unwrap_eq_self_iff (o : Object) (data : Bson) : (o.unwrap data).2 = o ↔ o.Holds data := by
  obtain ⟨mId, mName, mUpdate⟩ := o
  unfold Object.Holds
  by_cases hname : getString data "name" = []
  · rw [Object.unwrap_of_noName hname, hname]
    simp only [Object.mk.injEq, true_and, and_true]
    exact ⟨fun h => ⟨h.symm, fun hne => absurd h.symm hne⟩, fun h => h.1.symm⟩
  · rw [Object.unwrap_of_name hname]
    simp only [Object.mk.injEq]
    have hid : (getOID data mId).2 = mId ↔ ∀ id, data.lookup "_id" = some (.oid id) → mId = id := by
      rcases getOID_cases data mId with ⟨id, hlookup, hget⟩ | ⟨hnone, hget⟩
      · rw [hget, hlookup]
        exact ⟨fun h id' h' => by cases h'; exact h.symm, fun h => (h id rfl).symm⟩
      · rw [hget]
        exact iff_of_true rfl fun id hlookup => absurd hlookup (hnone id)
    rw [hid]
    constructor
    · rintro ⟨hread, rfl, hflag⟩
      exact ⟨rfl, fun _ => ⟨hflag.symm, hread⟩⟩
    · rintro ⟨rfl, hrest⟩
      obtain ⟨hflag, hread⟩ := hrest hname
      exact ⟨hread, rfl, hflag.symm⟩

namespace AnyObject

/-- The document has everything that the class of the object reads. -/
def Complete (o : AnyObject) (data : Bson) : Prop :=
  getString data "name" ≠ [] ∧ (∃ id, data.lookup "_id" = some (.oid id)) ∧
    match o with
    | object _ => True
    | script _ => ∃ subtype buffer, data.lookup "binaryData" = some (.binary subtype buffer) ∧ buffer ≠ []

theorem unwrap_true_iff (o : AnyObject) (data : Bson) : (o.unwrap data).1 = true ↔ o.Complete data := by
  unfold Complete
  rw [← and_assoc]
  cases o with
  | object o => exact (o.unwrap_true_iff data).trans (and_true _).to_iff.symm
  | script s =>
    rw [← s.toObject.unwrap_true_iff data]
    simp only [unwrap, Script.unwrap]
    by_cases hobject : (s.toObject.unwrap data).1 = true
    · simp only [hobject, if_true, true_and]
      rcases getArray_cases data "binaryData" s.mBinaryData with ⟨subtype, buffer, hlookup, hne, hget⟩ | ⟨hempty, hget⟩
      · rw [hget]
        exact iff_of_true rfl ⟨subtype, buffer, hlookup, hne⟩
      · rw [hget]
        exact iff_of_false Bool.false_ne_true fun ⟨subtype, buffer, hlookup, hne⟩ => hne (hempty subtype buffer hlookup)
    · simp only [if_neg hobject]
      exact iff_of_false Bool.false_ne_true fun h => hobject h.1

/-- A failed call leaves the binary data, so that the rest of the receiver decides. -/
theorem unwrap_eq_self_of_false {o : AnyObject} {data : Bson} (h : (o.unwrap data).1 = false) :
    (o.unwrap data).2 = o ↔ (o.toObject.unwrap data).2 = o.toObject := by
  cases o with
  | object o => exact ⟨AnyObject.object.inj, congrArg object⟩
  | script s =>
    obtain ⟨b, mBinaryData⟩ := s
    have hdata : (Script.unwrap ⟨b, mBinaryData⟩ data).2 = ⟨(b.unwrap data).2, mBinaryData⟩ := by
      simp only [unwrap, Script.unwrap] at h ⊢
      split_ifs with hobject
      · rw [if_pos hobject] at h
        rcases getArray_cases data "binaryData" mBinaryData with ⟨_, _, _, _, hget⟩ | ⟨-, hget⟩
        · rw [hget] at h
          cases h
        · rw [hget]
      · rfl
    simp only [unwrap, toObject, hdata, script.injEq, Script.mk.injEq, and_true]

/-- A call that fails leaves the receiver as it was, so that it is wrapped as before, exactly when the call
cannot fail or the receiver holds already what is read before the failure. -/
theorem unwrap_failed_iff (o : AnyObject) (data : Bson) :
    ((o.unwrap data).1 = false → (o.unwrap data).2 = o ∧
        ∀ generated b, (o.unwrap data).2.wrap generated b = o.wrap generated b) ↔
      o.Complete data ∨ o.toObject.Holds data := by
  by_cases hcomplete : o.Complete data
  · have hanswer := (o.unwrap_true_iff data).mpr hcomplete
    exact iff_of_true (fun h => absurd (hanswer.symm.trans h) (by decide)) (.inl hcomplete)
  · have hanswer : (o.unwrap data).1 = false := by rwa [← Bool.not_eq_true, o.unwrap_true_iff data]
    rw [or_iff_right hcomplete, ← o.toObject.unwrap_eq_self_iff, ← unwrap_eq_self_of_false hanswer]
    refine ⟨fun h => (h hanswer).1, fun h _ => ⟨h, fun generated b => ?_⟩⟩
    rw [h]

/-- A document without fields takes an object its name. -/
theorem unwrap_failed_changes :
    ¬∀ (o : AnyObject) (data : Bson), (o.unwrap data).1 = false → (o.unwrap data).2 = o ∧
      ∀ generated b, (o.unwrap data).2.wrap generated b = o.wrap generated b := by
  intro h
  exact absurd (h (.object { mId := 7, mName := [97], mUpdate := true }) [] rfl).1 (by decide)

end AnyObject

/-! ### Reading what was written -/

namespace Script

/-- The receiver of the document of a script is that script, and is wrapped into the document again. -/
structure Undone (s r : Script) (generated : Oid) : Prop where
  answer : (r.unwrap (s.wrap generated []).2).1 = true
  name : (r.unwrap (s.wrap generated []).2).2.mName = s.mName
  id : (r.unwrap (s.wrap generated []).2).2.mId = (s.wrap generated []).1.mId
  data : (r.unwrap (s.wrap generated []).2).2.mBinaryData = s.mBinaryData
  rewrap : ∀ generated', ((r.unwrap (s.wrap generated []).2).2.wrap generated' []).2 = (s.wrap generated []).2

theorem wrap_storable {s : Script} (h : Storable s.mName s.mBinaryData) (generated : Oid) :
    s.wrap generated [] = ({ s with mId := if s.mUpdate then s.mId else generated },
      scriptDocument (if s.mUpdate then s.mId else generated) s.mName s.mBinaryData) := by
  have hwrap := (AnyObject.script s).wrap_eq generated []
  rw [fields_script, cString_eq_self h.noNul] at hwrap
  simp only [AnyObject.wrap, AnyObject.stamped, Prod.mk.injEq, AnyObject.script.injEq] at hwrap
  exact Prod.ext hwrap.1 hwrap.2

/-- A script comes back exactly in a receiver that had no binary data, and never the second time. -/
theorem undone_iff {s : Script} (h : Storable s.mName s.mBinaryData) (r : Script) (generated : Oid) :
    let document := (s.wrap generated []).2
    let once := (r.unwrap document).2
    (Undone s r generated ↔ r.mBinaryData = []) ∧ (once.unwrap document).2 ≠ once := by
  intro document once
  have hdocument : document = scriptDocument (if s.mUpdate then s.mId else generated) s.mName s.mBinaryData :=
    congrArg Prod.snd (wrap_storable h generated)
  have honce : once = readScript (if s.mUpdate then s.mId else generated) s.mName (r.mBinaryData ++ s.mBinaryData) := by
    show (r.unwrap document).2 = _
    rw [hdocument, unwrap_scriptDocument h]
  refine ⟨⟨fun hundone => ?_, fun hempty => ?_⟩, fun htwice => ?_⟩
  · have hdata : r.mBinaryData ++ s.mBinaryData = s.mBinaryData :=
      (congrArg Script.mBinaryData honce).symm.trans hundone.data
    exact List.append_left_eq_self.mp hdata
  · have hread : r.unwrap document = (true, readScript (if s.mUpdate then s.mId else generated) s.mName s.mBinaryData) := by
      rw [hdocument, unwrap_scriptDocument h, hempty, List.nil_append]
    have hscript : (r.unwrap document).2 = readScript (if s.mUpdate then s.mId else generated) s.mName s.mBinaryData :=
      congrArg Prod.snd hread
    refine ⟨congrArg Prod.fst hread, congrArg (·.mName) hscript, ?_, congrArg (·.mBinaryData) hscript, fun g => ?_⟩
    · rw [wrap_storable h]
      exact congrArg (·.mId) ((congrArg (fun b => (r.unwrap b).2) hdocument.symm).trans hscript)
    · show ((r.unwrap document).2.wrap g []).2 = document
      rw [hscript, hdocument]
      exact congrArg Prod.snd (wrap_storable (s := readScript _ _ _) h g)
  · have hdata := congrArg Script.mBinaryData htwice
    rw [hdocument, unwrap_scriptDocument h] at hdata
    exact h.chunk_ne (List.append_right_eq_self.mp hdata)

/-- Read into a fresh script. -/
theorem undone_iff_new :
    let s : Script := .ofData 0 [97] [1, 2]
    let document := (s.wrap 5 []).2
    let once := ((Script.new 3).unwrap document).2
    (Undone s (.new 3) 5 ↔ (Script.new 3).mBinaryData = []) ∧ (once.unwrap document).2 ≠ once :=
  undone_iff (s := .ofData 0 [97] [1, 2]) ⟨by decide, by decide, by decide⟩ (.new 3) 5

/-- The second reading of a document doubles the data. -/
theorem undone_twice :
    ¬∀ (s r : Script) (generated : Oid), s.mName ≠ [] → 0 ∉ s.mName → s.mBinaryData ≠ [] → Undone s r generated := by
  intro h
  have hundone := h (.ofData 0 [97] [1, 2]) (((Script.new 3).unwrap ((Script.ofData 0 [97] [1, 2]).wrap 5 []).2).2) 5
    (by decide) (by decide) (by decide)
  exact absurd hundone.data (by decide)

end Script

end MetaEditor
