import MetaEditor.DAO.DatabaseManager

/-!
# The identity of a created object

After `create` an object carries the id of its document. Only `unwrap` sets `m_update`, so that an object
that was built from a name still has the flag unset, and the `wrap` of a later `update` generates another
id for it: the server refuses to write that id, and the object no longer knows its document. An object
that was read before keeps its id, and its document has its name as long as the name has no NUL.
-/

namespace MetaEditor

open Lib DatabaseManager

/-- An object of the client, beside the collection it was created in. -/
structure Created where
  manager : DatabaseManager
  object : AnyObject
  collection : Collection
  deriving DecidableEq

/-- What the client does with the object later. -/
inductive Change
  | setName (name : Bytes)
  | update (d : Driver)

/-- The driver calls of the change succeed. -/
def Change.Succeeds : Change → Prop
  | .setName _ => True
  | .update d => d.Succeeds

instance Change.decidableSucceeds (change : Change) : Decidable change.Succeeds := by
  cases change <;> unfold Change.Succeeds <;> infer_instance

/-- What a call returned; an exception is no answer. -/
def answer (result : Except DatabaseException (Bool × AnyObject × Collection)) : Option Bool :=
  match result with
  | .ok (b, _, _) => some b
  | .error _ => none

namespace AnyObject

@[simp] theorem id_stamped (o : AnyObject) (generated : Oid) : (o.stamped generated).id = o.wrappedId generated := by
  cases o <;> rfl

@[simp] theorem mUpdate_stamped (o : AnyObject) (generated : Oid) :
    (o.stamped generated).toObject.mUpdate = o.toObject.mUpdate := by
  cases o <;> rfl

@[simp] theorem name_stamped (o : AnyObject) (generated : Oid) : (o.stamped generated).name = o.name := by
  cases o <;> rfl

@[simp] theorem id_setName (o : AnyObject) (name : Bytes) : (o.setName name).id = o.id := by
  cases o <;> rfl

@[simp] theorem name_setName (o : AnyObject) (name : Bytes) : (o.setName name).name = name := by
  cases o <;> rfl

@[simp] theorem mUpdate_setName (o : AnyObject) (name : Bytes) :
    (o.setName name).toObject.mUpdate = o.toObject.mUpdate := by
  cases o <;> rfl

theorem wrappedId_of_mUpdate {o : AnyObject} (h : o.toObject.mUpdate = true) (generated : Oid) :
    o.wrappedId generated = o.id := if_pos h

theorem wrappedId_of_not_mUpdate {o : AnyObject} (h : ¬o.toObject.mUpdate = true) (generated : Oid) :
    o.wrappedId generated = generated := if_neg h

end AnyObject

theorem DatabaseManager.exists_first {c : Collection} {id : Oid} (h : ∃ e ∈ c, e.lookup "_id" = some (.oid id)) :
    ∃ before e after, c = before ++ e :: after ∧ (∀ e' ∈ before, e'.lookup "_id" ≠ some (.oid id)) ∧
      e.lookup "_id" = some (.oid id) := by
  have hfind : (c.find? fun e => e.lookup "_id" == some (.oid id)).isSome = true := by
    simpa [List.find?_isSome] using h
  obtain ⟨e, he⟩ := Option.isSome_iff_exists.mp hfind
  obtain ⟨hid, before, after, rfl, hbefore⟩ := List.find?_eq_some_iff_append.mp he
  exact ⟨before, e, after, rfl, fun e' he' => by simpa using hbefore e' he', by simpa using hid⟩

/-- The only document with an id. -/
structure DatabaseManager.Alone (id : Oid) (e : Bson) (c : Collection) : Prop where
  hid : e.lookup "_id" = some (.oid id)
  split : ∃ before after, c = before ++ e :: after ∧ ∀ e' ∈ before ++ after, e'.lookup "_id" ≠ some (.oid id)

theorem DatabaseManager.Alone.eq {id : Oid} {e e' : Bson} {c : Collection} (h : Alone id e c) (he' : e' ∈ c)
    (hid : e'.lookup "_id" = some (.oid id)) : e' = e := by
  obtain ⟨before, after, rfl, hothers⟩ := h.split
  rcases mem_middle.mp he' with heq | hmem
  · exact heq
  · exact absurd hid (hothers e' hmem)

/-- An `update` that finds the document of its object: it succeeds exactly when `wrap` keeps the id. -/
theorem DatabaseManager.updateIn_found {d : Driver} {o : AnyObject} {c : Collection} {e : Bson} (hd : d.Succeeds)
    (h : Alone o.id e c) :
    (updateIn d o c).2.1 = o.stamped d.generated ∧ ((updateIn d o c).1 = true ↔ o.wrappedId d.generated = o.id) ∧
      (o.wrappedId d.generated = o.id → Alone o.id (setFields e (o.fields d.generated)) (updateIn d o c).2.2) := by
  obtain ⟨before, after, rfl, hothers⟩ := h.split
  have hbefore : ∀ e' ∈ before, e'.lookup "_id" ≠ some (.oid o.id) := fun e' he' =>
    hothers e' (List.mem_append_left _ he')
  by_cases hkept : o.wrappedId d.generated = o.id
  · rw [updateIn_of_split hd.2.1 hd.2.2 hbefore h.hid hkept]
    refine ⟨rfl, iff_of_true rfl hkept, fun _ => ⟨?_, before, after, rfl, hothers⟩⟩
    rw [lookup_setFields_of_some (o.nodup_keys_fields _) (o.lookup_id_fields _), hkept]
  · have hfound : findOID d o.id (before ++ e :: after) = true :=
      (findOID_iff hd.2.1).mpr ⟨e, mem_middle.mpr (.inl rfl), h.hid⟩
    have hrefused : updateDocument "_id" (idQuery o.id) (o.fields d.generated) (before ++ e :: after) = none := by
      have hmiss : ∀ e' ∈ before, ¬Agrees (idQuery o.id) e' := fun e' he' ha => hbefore e' he' (agrees_singleton.mp ha)
      have hhit : Agrees (idQuery o.id) e := agrees_singleton.mpr h.hid
      rw [updateDocument_of_split hmiss hhit, if_neg]
      rw [lookup_setFields_of_some (o.nodup_keys_fields _) (o.lookup_id_fields _), h.hid]
      simpa using hkept
    have hcall : updateIn d o (before ++ e :: after) = (false, o.stamped d.generated, before ++ e :: after) := by
      unfold updateIn collectionUpdate
      rw [if_neg (by simp [hfound]), AnyObject.wrap_eq, List.nil_append]
      simp only [if_pos hd.2.2, hrefused]
    rw [hcall]
    exact ⟨rfl, iff_of_false Bool.false_ne_true hkept, fun h => absurd h hkept⟩

/-- The rest of a function that returned. -/
theorem DatabaseManager.rest_of_withClient {α : Type} {m m' : DatabaseManager} {d : Driver} {rest a : α}
    (h : m.withClient d rest = (.ok a, m')) : a = rest := by
  unfold withClient at h
  split_ifs at h
  · obtain ⟨hmap, -⟩ := Prod.mk.inj h
    cases hcall : (m.tryReconnection d).1 with
    | error e =>
      rw [hcall] at hmap
      cases hmap
    | ok u =>
      rw [hcall] at hmap
      cases hmap
      rfl
  · cases h
    rfl

theorem DatabaseManager.object_insertWrapped (d : Driver) (o : AnyObject) (c : Collection) :
    (insertWrapped d o c).2.1 = o.stamped d.generated := by
  unfold insertWrapped
  rw [AnyObject.wrap_eq]
  simp only
  cases collectionInsert d ([] ++ o.fields d.generated) c <;> rfl

namespace Created

/-- What is left of a call. An exception leaves the object and the collection. -/
def afterCall (s : Created) (result : Except DatabaseException (Bool × AnyObject × Collection) × DatabaseManager) :
    Created :=
  match result with
  | (.ok (_, o, c), m) => { manager := m, object := o, collection := c }
  | (.error _, m) => { s with manager := m }

def step (s : Created) : Change → Created
  | .setName name => { s with object := s.object.setName name }
  | .update d => s.afterCall (s.manager.update d s.object s.collection)

/-- The object has the id, and it is the id of a document. -/
def Stored (id : Oid) (s : Created) : Prop :=
  s.object.id = id ∧ ∃ e ∈ s.collection, e.lookup "_id" = some (.oid id)

/-- The change keeps the identity; an `update` answers `true` and the document has the name of the object. -/
def Keeps (id : Oid) (s : Created) (change : Change) : Prop :=
  Stored id (s.step change) ∧
    match change with
    | .setName _ => True
    | .update d => answer (s.manager.update d s.object s.collection).1 = some true ∧
        ∃ e ∈ (s.step change).collection, e.lookup "_id" = some (.oid id) ∧
          e.lookup "name" = some (.utf8 (s.step change).object.name)

instance (id : Oid) (s : Created) : Decidable (Stored id s) := inferInstanceAs (Decidable (_ ∧ _))

instance (id : Oid) (s : Created) (change : Change) : Decidable (s.Keeps id change) := by
  cases change <;> unfold Keeps <;> infer_instance

/-! ### One change -/

variable {s : Created} {id : Oid} {d : Driver}

theorem keeps_setName (h : Stored id s) (name : Bytes) : s.Keeps id (.setName name) :=
  ⟨⟨(AnyObject.id_setName _ _).trans h.1, h.2⟩, trivial⟩

theorem afterCall_of_ok {rest : Bool × AnyObject × Collection}
    {result : Except DatabaseException (Bool × AnyObject × Collection) × DatabaseManager} (h : result.1 = .ok rest)
    (s : Created) : answer result.1 = some rest.1 ∧ (s.afterCall result).object = rest.2.1 ∧
      (s.afterCall result).collection = rest.2.2 := by
  obtain ⟨r, m⟩ := result
  obtain rfl := h
  exact ⟨rfl, rfl, rfl⟩

/-- What an `update` leaves of an object whose document is there. -/
theorem step_update {e : Bson} (h : Alone s.object.id e s.collection) (hd : d.Succeeds) :
    answer (s.manager.update d s.object s.collection).1 = some (updateIn d s.object s.collection).1 ∧
      (s.step (.update d)).object = s.object.stamped d.generated ∧
      (s.step (.update d)).collection = (updateIn d s.object s.collection).2.2 := by
  obtain ⟨hanswer, hobject, hcollection⟩ :=
    afterCall_of_ok (withClient_of_connects hd.1 (updateIn d s.object s.collection) s.manager) s
  exact ⟨hanswer, hobject.trans (updateIn_found hd h).1, hcollection⟩

/-- An `update` keeps the identity exactly when the flag is set and the name can be stored. -/
theorem keeps_update_iff {e : Bson} (h : Alone s.object.id e s.collection) (hd : d.Succeeds)
    (hfresh : d.generated ≠ s.object.id) :
    s.Keeps s.object.id (.update d) ↔ s.object.toObject.mUpdate = true ∧ 0 ∉ s.object.name := by
  obtain ⟨hanswer, hobject, hcollection⟩ := step_update h hd
  obtain ⟨-, hreturned, hdocument⟩ := updateIn_found hd h
  have hwritten : (setFields e (s.object.fields d.generated)).lookup "name" = some (.utf8 (cString s.object.name)) :=
    lookup_setFields_of_some (s.object.nodup_keys_fields _) (s.object.lookup_name_fields _) _
  constructor
  · rintro ⟨⟨hid, -⟩, -, e', he', hid', hname⟩
    have hflag : s.object.toObject.mUpdate = true := by
      by_contra hflag
      rw [hobject, AnyObject.id_stamped, AnyObject.wrappedId_of_not_mUpdate hflag] at hid
      exact hfresh hid
    have hsame := (hdocument (AnyObject.wrappedId_of_mUpdate hflag _)).eq (hcollection ▸ he') hid'
    rw [hsame, hwritten, hobject, AnyObject.name_stamped] at hname
    have hplain : cString s.object.name = s.object.name := BsonValue.utf8.inj (Option.some.inj hname)
    exact ⟨hflag, hplain ▸ zero_notMem_cString s.object.name⟩
  · rintro ⟨hflag, hplain⟩
    have hkept := AnyObject.wrappedId_of_mUpdate hflag d.generated
    have hthere := hdocument hkept
    obtain ⟨before, after, hc, -⟩ := hthere.split
    have hmem : setFields e (s.object.fields d.generated) ∈ (s.step (.update d)).collection := by
      rw [hcollection, hc]
      exact mem_middle.mpr (.inl rfl)
    refine ⟨⟨?_, _, hmem, hthere.hid⟩, hanswer.trans (congrArg some (hreturned.mpr hkept)), _, hmem, hthere.hid, ?_⟩
    · rw [hobject, AnyObject.id_stamped, hkept]
    · rw [hwritten, cString_eq_self hplain, hobject, AnyObject.name_stamped]

/-! ### All that follows a `create` -/

/-- A `create` that answers `true` appends the document of the object, the only one with the id the object has then. -/
theorem create_true {m m' : DatabaseManager} {d : Driver} {o o' : AnyObject} {c c' : Collection}
    (h : m.create d o c = (.ok (true, o', c'), m')) :
    o'.toObject.mUpdate = o.toObject.mUpdate ∧ o'.name = o.name ∧ ∃ e, c' = c ++ [e] ∧ Alone o'.id e c' := by
  have hcall : createIn d o c = (true, o', c') := (rest_of_withClient h).symm
  unfold createIn at hcall
  split_ifs at hcall with hname
  · cases hcall
  · have hobject := object_insertWrapped d o c
    rcases insertWrapped_cases d o c with ⟨hret, -⟩ | ⟨-, hc, hins⟩
    · rw [hcall] at hret
      cases hret
    · rw [hcall] at hc hobject
      obtain rfl : o' = o.stamped d.generated := hobject
      have hid : (o.fields d.generated).lookup "_id" = some (.oid (o.stamped d.generated).id) := by
        rw [AnyObject.lookup_id_fields, AnyObject.id_stamped]
      refine ⟨o.mUpdate_stamped _, o.name_stamped _, _, hc, hid, c, [], hc, fun e' he' => ?_⟩
      rw [← hid]
      exact (insertDocument_eq_some hins).1 e' (by simpa using he')

/-- Every name under which the object is updated can be stored: it has no NUL. -/
def NamesPlain (name : Bytes) : List Change → Prop
  | [] => True
  | .setName name' :: changes => NamesPlain name' changes
  | .update _ :: changes => 0 ∉ name ∧ NamesPlain name changes

theorem namesPlain_of_no_update {changes : List Change} (h : ∀ d, .update d ∉ changes) (name : Bytes) :
    NamesPlain name changes := by
  induction changes generalizing name with
  | nil => trivial
  | cons change changes ih =>
    cases change with
    | setName name' => exact ih (fun d hd => h d (List.mem_cons_of_mem _ hd)) name'
    | update d => exact absurd List.mem_cons_self (h d)

theorem keeps_all_iff {changes : List Change} {e : Bson} (h : Alone s.object.id e s.collection)
    (hsucceed : ∀ change ∈ changes, change.Succeeds) (hfresh : ∀ d, .update d ∈ changes → d.generated ≠ s.object.id) :
    StepsMeet step (Keeps s.object.id) s changes ↔
      (s.object.toObject.mUpdate = true ∨ ∀ d, .update d ∉ changes) ∧ NamesPlain s.object.name changes := by
  induction changes generalizing s e with
  | nil => exact iff_of_true trivial ⟨.inr fun d => List.not_mem_nil, trivial⟩
  | cons change changes ih =>
    obtain ⟨hchange, hrest⟩ := List.forall_mem_cons.mp hsucceed
    have hfreshRest : ∀ d, .update d ∈ changes → d.generated ≠ s.object.id := fun d hd => hfresh d (List.mem_cons_of_mem _ hd)
    cases change with
    | setName name =>
      obtain ⟨before, after, hc, -⟩ := h.split
      have hstored : Stored s.object.id s := ⟨rfl, e, hc ▸ mem_middle.mpr (.inl rfl), h.hid⟩
      have hid : (s.step (.setName name)).object.id = s.object.id := AnyObject.id_setName _ _
      have hflag : (s.step (.setName name)).object.toObject.mUpdate = s.object.toObject.mUpdate :=
        AnyObject.mUpdate_setName _ _
      have hname : (s.step (.setName name)).object.name = name := AnyObject.name_setName _ _
      have hrun := ih (s := s.step (.setName name)) (e := e) (hid ▸ h) hrest (hid ▸ hfreshRest)
      rw [hflag, hid, hname] at hrun
      refine (and_iff_right (keeps_setName hstored name)).trans (hrun.trans (and_congr_left fun _ => ?_))
      refine or_congr_right (forall_congr' fun d => not_congr ?_)
      rw [List.mem_cons, or_iff_right nofun]
    | update d =>
      have hkeeps := keeps_update_iff h hchange (hfresh d List.mem_cons_self)
      have hsome : ¬∀ d', Change.update d' ∉ Change.update d :: changes := fun hnone => hnone d List.mem_cons_self
      rw [or_iff_left hsome, NamesPlain, ← and_assoc, ← hkeeps]
      refine and_congr_right fun hk => ?_
      obtain ⟨hflag, -⟩ := hkeeps.mp hk
      obtain ⟨-, hobject, hcollection⟩ := step_update h hchange
      have hid : (s.step (.update d)).object.id = s.object.id := hk.1.1
      have halone := (updateIn_found hchange h).2.2 (AnyObject.wrappedId_of_mUpdate hflag _)
      have hrun := ih (s := s.step (.update d)) (hid.symm ▸ hcollection.symm ▸ halone) hrest (hid ▸ hfreshRest)
      rw [hid, hobject, AnyObject.mUpdate_stamped, AnyObject.name_stamped] at hrun
      exact hrun.trans (and_iff_right (.inl hflag))

/-- A created object keeps its identity through later changes exactly when it is never updated, or it had been read
before and every name under which it is updated can be stored. -/
theorem identity_kept_iff {m m' : DatabaseManager} {d : Driver} {o o' : AnyObject} {c c' : Collection}
    (hcreate : m.create d o c = (.ok (true, o', c'), m')) {changes : List Change}
    (hsucceed : ∀ change ∈ changes, change.Succeeds) (hfresh : ∀ d', .update d' ∈ changes → d'.generated ≠ o'.id) :
    ((∃ e, c' = c ++ [e] ∧ e.lookup "_id" = some (.oid o'.id)) ∧ StepsMeet step (Keeps o'.id) ⟨m', o', c'⟩ changes) ↔
      (∀ d', .update d' ∉ changes) ∨ o.toObject.mUpdate = true ∧ NamesPlain o.name changes := by
  obtain ⟨hflag, hname, e, hc, halone⟩ := create_true hcreate
  have hrun := keeps_all_iff (s := ⟨m', o', c'⟩) halone hsucceed hfresh
  rw [and_iff_right ⟨e, hc, halone.hid⟩, hrun, hflag, hname]
  constructor
  · rintro ⟨hread | hnone, hplain⟩
    · exact .inr ⟨hread, hplain⟩
    · exact .inl hnone
  · rintro (hnone | ⟨hread, hplain⟩)
    · exact ⟨.inr hnone, namesPlain_of_no_update hnone _⟩
    · exact ⟨.inl hread, hplain⟩

/-- What the owner of an object that was read does after it is created again. -/
def renames : List Change :=
  [.setName [98], .update (Driver.working 2), .setName [99], .update (Driver.working 3)]

theorem identity_kept_iff_read :
    let o : AnyObject := .object { mId := 7, mName := [97], mUpdate := true }
    let c : Collection := [[("_id", .oid 7), ("name", .utf8 [97])]]
    ((∃ e, c = [] ++ [e] ∧ e.lookup "_id" = some (.oid 7)) ∧ StepsMeet step (Keeps 7) ⟨⟨true, none, none⟩, o, c⟩ renames) ↔
      (∀ d', .update d' ∉ renames) ∨ true = true ∧ NamesPlain [97] renames :=
  identity_kept_iff (m := ⟨true, none, none⟩) (d := Driver.working 1) (o := .object { mId := 7, mName := [97], mUpdate := true })
    (c := []) rfl (by decide) (by simp [renames]; decide)

/-- An object that was built from a name: the first `update` answers `false` and leaves it with another id. -/
theorem identity_lost :
    ¬∀ (m m' : DatabaseManager) (d : Driver) (o o' : AnyObject) (c c' : Collection) (changes : List Change),
      d.Succeeds → m.create d o c = (.ok (true, o', c'), m') → (∀ change ∈ changes, change.Succeeds) →
      (∀ d', .update d' ∈ changes → d'.generated ≠ o'.id) →
      (∃ e, c' = c ++ [e] ∧ e.lookup "_id" = some (.oid o'.id)) ∧ StepsMeet step (Keeps o'.id) ⟨m', o', c'⟩ changes := by
  intro h
  have hkept := h ⟨true, none, none⟩ _ (Driver.working 1) (.object (.ofName 0 [97])) _ [] _ [.update (Driver.working 2)]
    (by decide) rfl (by decide) (by simp; decide)
  exact absurd hkept.2 (by decide)

end Created

end MetaEditor
