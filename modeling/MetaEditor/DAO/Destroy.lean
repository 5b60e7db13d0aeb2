import MetaEditor.DAO.DatabaseManager

/-!
# What destroy removes

`destroy` looks for the object by its name and then removes the documents that agree with the whole
wrapped object. The two speak of the same document only when every document with the name also has the
id that `wrap` writes, and the binary data of a `Script`.
-/

namespace MetaEditor

open Lib

namespace DatabaseManager

/-- One document, with the name, has been removed and the others are as they were. -/
def RemovesOne (name : Bytes) (c c' : Collection) : Prop :=
  ∃ before e after, c = before ++ e :: after ∧ e.lookup "name" = some (.utf8 (cString name)) ∧ c' = before ++ after

/-- The document has the id that `wrap` writes, which is a new one unless `m_update` is set, and, for a
`Script`, its binary data. -/
def HasIdAndData (o : AnyObject) (generated : Oid) (e : Bson) : Prop :=
  e.lookup "_id" = some (.oid (if o.toObject.mUpdate then o.id else generated)) ∧
    ∀ s, o = .script s → e.lookup "binaryData" = some (.binary bsonSubtypeBinary s.mBinaryData)

theorem agrees_fields {o : AnyObject} {generated : Oid} {e : Bson} :
    Agrees (o.fields generated) e ↔ e.lookup "name" = some (.utf8 (cString o.name)) ∧ HasIdAndData o generated e := by
  have hown : Agrees o.ownFields e ↔
      ∀ s, o = .script s → e.lookup "binaryData" = some (.binary bsonSubtypeBinary s.mBinaryData) := by
    cases o with
    | object o => simp [AnyObject.ownFields, Agrees]
    | script s => simp [AnyObject.ownFields, Agrees]
  unfold AnyObject.fields HasIdAndData
  rw [agrees_cons, agrees_cons, hown]
  exact and_left_comm

variable {d : Driver} {o : AnyObject} {c : Collection}

/-- If the document with the name agrees with the object, it is the one that is removed. -/
theorem removesOne_of_fits (hnames : UniqueIn "name" c) {e : Bson} (he : e ∈ c)
    (hname : e.lookup "name" = some (.utf8 (cString o.name))) (hfits : HasIdAndData o d.generated e) :
    RemovesOne o.name c (removeDocuments (o.fields d.generated) c) := by
  obtain ⟨before, after, rfl⟩ := List.append_of_mem he
  have hother : ∀ e' ∈ before ++ after, ¬ Agrees (o.fields d.generated) e' := by
    intro e' he' ha
    exact (uniqueIn_middle.mp hnames).1 _ hname e' he' (agrees_fields.mp ha).1
  exact ⟨before, e, after, rfl, hname, removeDocuments_of_split (agrees_fields.mpr ⟨hname, hfits⟩) hother⟩

/-- If it does not, nothing is removed. -/
theorem removeDocuments_of_not_fits (hnames : UniqueIn "name" c) {e : Bson} (he : e ∈ c)
    (hname : e.lookup "name" = some (.utf8 (cString o.name))) (hfits : ¬ HasIdAndData o d.generated e) :
    removeDocuments (o.fields d.generated) c = c := by
  refine removeDocuments_of_none fun e' he' ha => hfits ?_
  obtain ⟨hname', hfits'⟩ := agrees_fields.mp ha
  rwa [← hnames.eq_of_mem he' he hname' hname]

theorem not_removesOne_self (name : Bytes) (c : Collection) : ¬ RemovesOne name c c := by
  rintro ⟨before, e, after, hsplit, -, hrest⟩
  have hlen := congrArg List.length (hsplit.symm.trans hrest)
  simp at hlen

/-- `destroy` tells the truth about an object exactly when the documents with its name have its id and
its data. -/
theorem destroy_truthful_iff (hd : d.Succeeds) (hnames : UniqueIn "name" c) (o : AnyObject) (m : DatabaseManager) :
    (∀ o' c', (m.destroy d o c).1 = .ok (true, o', c') → RemovesOne o.name c c') ↔
      ∀ e ∈ c, e.lookup "name" = some (.utf8 (cString o.name)) → HasIdAndData o d.generated e := by
  have hdestroy : (m.destroy d o c).1 = .ok (destroyIn d o c) := withClient_of_connects hd.1 _ m
  rw [hdestroy, destroyIn_eq hd.2.1 hd.2.2]
  constructor
  · intro htrue e he hname
    by_contra hfits
    rw [if_pos ⟨e, he, hname⟩, removeDocuments_of_not_fits hnames he hname hfits] at htrue
    exact not_removesOne_self _ _ (htrue _ _ rfl)
  · intro hfits o' c' hret
    split_ifs at hret with hname
    · obtain ⟨e, he, hname⟩ := hname
      cases hret
      exact removesOne_of_fits hnames he hname (hfits e he hname)
    · cases hret

/-- A collection with one document. -/
def oneStored : Collection := [[("_id", .oid 1), ("name", .utf8 [97])]]

/-- A destroyed object that was read. -/
theorem destroy_truthful_iff_read :
    (∀ o' c', ((⟨true, none, none⟩ : DatabaseManager).destroy (.working 2) (.object ⟨1, [97], true⟩) oneStored).1 =
        .ok (true, o', c') → RemovesOne [97] oneStored c') ↔
      ∀ e ∈ oneStored, e.lookup "name" = some (.utf8 (cString [97])) → HasIdAndData (.object ⟨1, [97], true⟩) 2 e :=
  destroy_truthful_iff (by decide) (by decide) (.object ⟨1, [97], true⟩) ⟨true, none, none⟩

/-- An object built from the name: `destroy` answers `true` and removes nothing. -/
theorem destroy_not_truthful :
    UniqueIn "name" oneStored ∧ (Driver.working 2).Succeeds ∧
      ((⟨true, none, none⟩ : DatabaseManager).destroy (.working 2) (.object (.ofName 0 [97])) oneStored).1 =
        .ok (true, .object ⟨2, [97], false⟩, oneStored) ∧
      ¬ RemovesOne [97] oneStored oneStored :=
  ⟨by decide, by decide, rfl, not_removesOne_self _ _⟩

end DatabaseManager

end MetaEditor
