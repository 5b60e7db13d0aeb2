import MetaEditor.DAO.DatabaseManager

/-!
# Unique ids and names

Each operation of one client keeps the ids of a collection unique. `create` and `destroy` keep the names
unique too; `update` does so exactly when the name that it writes is free.
-/

namespace MetaEditor

open Lib

namespace DatabaseManager

/-- Ids and names are each unique. -/
structure Unique (c : Collection) : Prop where
  ids : UniqueIn "_id" c
  names : UniqueIn "name" c

/-- The object named by an `update` may take its name: if a document has the id of the object and `wrap`
keeps that id, then no other document has the name. -/
def NameFree (c : Collection) (o : AnyObject) (generated : Oid) : Prop :=
  (∃ e ∈ c, e.lookup "_id" = some (.oid o.id)) → o.wrappedId generated = o.id →
    ∀ e ∈ c, e.lookup "_id" ≠ some (.oid o.id) → e.lookup "name" ≠ some (.utf8 (cString o.name))

instance (c : Collection) (o : AnyObject) (generated : Oid) : Decidable (NameFree c o generated) :=
  inferInstanceAs (Decidable (_ → _ → _))

/-- `create` keeps ids and names unique. -/
theorem Unique.createIn {c : Collection} {d : Driver} (hq : d.query = true) (h : Unique c) (o : AnyObject) :
    Unique (createIn d o c).2.2 := by
  rcases createIn_cases hq o c with ⟨-, hc⟩ | ⟨-, hc, hins, hnew⟩
  · rwa [hc]
  · rw [hc]
    refine ⟨h.ids.insertDocument hins, uniqueIn_snoc.mpr ⟨fun v hv e he => ?_, h.names⟩⟩
    rw [AnyObject.lookup_name_fields] at hv
    rw [← hv]
    exact hnew e he

theorem Unique.destroyIn {c : Collection} (d : Driver) (h : Unique c) (o : AnyObject) :
    Unique (destroyIn d o c).2.2 := by
  rcases destroyIn_cases d o c with hc | hc
  · rwa [hc]
  · rw [hc]
    exact ⟨h.ids.removeDocuments _, h.names.removeDocuments _⟩

/-- The documents beside the one that an id finds have other ids. -/
theorem Unique.other_id {before after : Collection} {e : Bson} {id : Oid} (h : Unique (before ++ e :: after))
    (he : e.lookup "_id" = some (.oid id)) : ∀ e' ∈ before ++ after, e'.lookup "_id" ≠ some (.oid id) :=
  (uniqueIn_middle.mp h.ids).1 _ he

/-- `update` keeps ids unique, and names too if the name of the object is free. -/
theorem Unique.updateIn {c : Collection} {d : Driver} {o : AnyObject} (h : Unique c)
    (hfree : NameFree c o d.generated) : Unique (updateIn d o c).2.2 := by
  rcases updateIn_cases d o c with hc | ⟨before, e, after, hsplit, -, hid, hkept, hupd, hc⟩
  · rwa [hc]
  · refine ⟨h.ids.updateDocument hupd, ?_⟩
    subst hsplit
    rw [hc, uniqueIn_middle, lookup_setFields_of_some (o.nodup_keys_fields _) (o.lookup_name_fields _)]
    refine ⟨?_, (uniqueIn_middle.mp h.names).2⟩
    rintro v ⟨rfl⟩ e' he'
    have hfound : ∃ x ∈ before ++ e :: after, x.lookup "_id" = some (.oid o.id) := ⟨e, mem_middle.mpr (.inl rfl), hid⟩
    exact hfree hfound hkept e' (mem_middle.mpr (.inr he')) (h.other_id hid e' he')

/-- An `update` that is not allowed does write a second document with the name. -/
theorem updateIn_names_iff {c : Collection} {d : Driver} {o : AnyObject} (hd : d.Succeeds) (h : Unique c) :
    UniqueIn "name" (DatabaseManager.updateIn d o c).2.2 ↔ NameFree c o d.generated := by
  refine ⟨?_, fun hfree => (h.updateIn hfree).names⟩
  rintro hnames ⟨e, he, hid⟩ hkept e' he' hne
  obtain ⟨before, after, rfl⟩ := List.append_of_mem he
  have hother := h.other_id hid
  rw [updateIn_of_split hd.2.1 hd.2.2 (fun e' he' => hother e' (List.mem_append_left _ he')) hid hkept,
    uniqueIn_middle, lookup_setFields_of_some (o.nodup_keys_fields _) (o.lookup_name_fields _)] at hnames
  rcases mem_middle.mp he' with rfl | he'
  · exact absurd hid hne
  · exact hnames.1 _ rfl e' he'

end DatabaseManager

end MetaEditor
