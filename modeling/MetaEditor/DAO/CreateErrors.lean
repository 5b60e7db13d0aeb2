import MetaEditor.DAO.Identity

/-!
# Creating on a server that fails

A failed insertion is seen by `create` and answered `false`. A failed name query is not: no document comes
out of the cursor, which reads as a free name, and the insertion that follows, if it does not fail too,
adds a second document with the name. A name is stored up to its first NUL, so that the document of an object
whose name has one does not carry that name.
-/

namespace MetaEditor

open Lib DatabaseManager

/-- A client that creates objects in a collection. -/
structure Creating where
  manager : DatabaseManager
  collection : Collection
  deriving DecidableEq

/-- Whether a function gets past its guard for `m_client`. -/
def DatabaseManager.Reaches (m : DatabaseManager) (d : Driver) : Prop := m.mClient = true ∨ d.Connects

instance (m : DatabaseManager) (d : Driver) : Decidable (m.Reaches d) := inferInstanceAs (Decidable (_ ∨ _))

theorem DatabaseManager.withClient_cases {α : Type} (d : Driver) (rest : α) (m : DatabaseManager) :
    (m.Reaches d ∧ (m.withClient d rest).1 = .ok rest) ∨
    (¬m.Reaches d ∧ ∃ e, (m.withClient d rest).1 = .error e) := by
  by_cases hconnects : d.Connects
  · exact .inl ⟨.inr hconnects, withClient_of_connects hconnects rest m⟩
  · by_cases hclient : m.mClient = true
    · refine .inl ⟨.inl hclient, ?_⟩
      rw [withClient, if_neg (by simp [hclient])]
    · obtain ⟨e, he⟩ := connect_of_not_connects hconnects m.mIp m.mPort m
      refine .inr ⟨not_or.mpr ⟨hclient, hconnects⟩, e, ?_⟩
      rw [withClient, if_pos (Bool.not_eq_true _ ▸ hclient), tryReconnection, he]
      rfl

namespace Creating

/-- One call of `create`. An exception leaves the collection. -/
def step (s : Creating) (call : Driver × AnyObject) : Creating :=
  match s.manager.create call.1 call.2 s.collection with
  | (.ok (_, _, c), m) => { manager := m, collection := c }
  | (.error _, m) => { s with manager := m }

def returned (s : Creating) (call : Driver × AnyObject) : Option Bool :=
  answer (s.manager.create call.1 call.2 s.collection).1

/-- Names stay unique, and the document of the object is added exactly when that is the answer. -/
structure Safe (s : Creating) (call : Driver × AnyObject) : Prop where
  names : UniqueIn "name" (s.step call).collection
  refused : s.returned call ≠ some true → (s.step call).collection = s.collection
  created : s.returned call = some true →
    ∃ e, (s.step call).collection = s.collection ++ [e] ∧ e.lookup "name" = some (.utf8 call.2.name)

/-- A document has the name, as far as it is stored: up to its first NUL. -/
def Taken (s : Creating) (o : AnyObject) : Prop := ∃ e ∈ s.collection, e.lookup "name" = some (.utf8 (cString o.name))

/-- Nothing is stored: the call does not come to its insertion, or the server refuses it, or the name is found. Or else
the name is free, and is stored as it is. -/
def Checked (s : Creating) (call : Driver × AnyObject) : Prop :=
  ¬s.manager.Reaches call.1 ∨ call.1.write = false ∨
    (∃ e ∈ s.collection, e.lookup "_id" = some (.oid (call.2.wrappedId call.1.generated))) ∨
    (call.1.query = true ∧ s.Taken call.2) ∨ ¬s.Taken call.2 ∧ 0 ∉ call.2.name

instance (s : Creating) (o : AnyObject) : Decidable (s.Taken o) := inferInstanceAs (Decidable (∃ e ∈ _, _))

instance (s : Creating) (call : Driver × AnyObject) : Decidable (s.Checked call) :=
  inferInstanceAs (Decidable (_ ∨ _ ∨ _ ∨ _ ∨ _))

variable {s : Creating} {d : Driver} {o : AnyObject}

/-- What a call leaves and answers: that of `createIn`, or nothing and no answer. -/
theorem step_cases (s : Creating) (d : Driver) (o : AnyObject) :
    (s.manager.Reaches d ∧ (s.step (d, o)).collection = (createIn d o s.collection).2.2 ∧
      s.returned (d, o) = some (createIn d o s.collection).1) ∨
    (¬s.manager.Reaches d ∧ (s.step (d, o)).collection = s.collection ∧ s.returned (d, o) = none) := by
  unfold step returned create
  have hcases := withClient_cases d (createIn d o s.collection) s.manager
  generalize s.manager.withClient d (createIn d o s.collection) = result at hcases
  obtain ⟨r, m⟩ := result
  rcases hcases with ⟨hreach, rfl⟩ | ⟨hreach, e, rfl⟩
  · exact .inl ⟨hreach, rfl, rfl⟩
  · exact .inr ⟨hreach, rfl, rfl⟩

/-- An insertion is refused only by a failure or for its id. -/
theorem insertWrapped_true_iff (d : Driver) (o : AnyObject) (c : Collection) :
    (insertWrapped d o c).1 = true ↔
      d.write = true ∧ ∀ e ∈ c, e.lookup "_id" ≠ some (.oid (o.wrappedId d.generated)) := by
  unfold insertWrapped collectionInsert
  rw [AnyObject.wrap_eq, List.nil_append]
  by_cases hwrite : d.write = true
  · simp only [hwrite, true_and]
    by_cases hid : ∀ e ∈ c, e.lookup "_id" ≠ some (.oid (o.wrappedId d.generated))
    · rw [insertDocument_of_new (d := o.fields d.generated) hid]
      exact iff_of_true rfl hid
    · cases hins : insertDocument "_id" (o.fields d.generated) c with
      | none => exact iff_of_false Bool.false_ne_true hid
      | some c' => exact absurd (insertDocument_eq_some hins).1 hid
  · simp [hwrite]

/-- After a failed query every name is free. -/
theorem findName_of_failed_query (hq : d.query = false) (name : Bytes) (c : Collection) : findName d name c = false := by
  unfold findName findQuery cursor
  rw [if_neg (by simp [hq])]

theorem Safe.of_unchanged (hnames : UniqueIn "name" s.collection) {call : Driver × AnyObject}
    (hc : (s.step call).collection = s.collection) (hret : s.returned call ≠ some true) : s.Safe call :=
  ⟨hc.symm ▸ hnames, fun _ => hc, fun h => absurd h hret⟩

/-- An appended document is safe exactly when it is the first with its name, and the name has no NUL. -/
theorem safe_iff_of_appended (hnames : UniqueIn "name" s.collection)
    (hc : (s.step (d, o)).collection = s.collection ++ [o.fields d.generated]) (hret : s.returned (d, o) = some true) :
    s.Safe (d, o) ↔ ¬s.Taken o ∧ 0 ∉ o.name := by
  constructor
  · intro h
    have hunique := h.names
    rw [hc, uniqueIn_snoc] at hunique
    refine ⟨fun ⟨e, he, hname⟩ => hunique.1 _ (o.lookup_name_fields d.generated) e he hname, ?_⟩
    obtain ⟨e, hadded, hname⟩ := h.created hret
    have hlast : o.fields d.generated = e := by
      rw [hc] at hadded
      exact List.singleton_inj.mp (List.append_cancel_left hadded)
    rw [← hlast, o.lookup_name_fields] at hname
    have hsame : cString o.name = o.name := BsonValue.utf8.inj (Option.some.inj hname)
    exact hsame ▸ zero_notMem_cString o.name
  · rintro ⟨hfree, hplain⟩
    refine ⟨?_, fun h => absurd hret h, fun _ => ⟨_, hc, ?_⟩⟩
    · rw [hc, uniqueIn_snoc]
      refine ⟨fun v hv e he hname => ?_, hnames⟩
      rw [o.lookup_name_fields] at hv
      exact hfree ⟨e, he, hv ▸ hname⟩
    · rw [o.lookup_name_fields, cString_eq_self hplain]

/-- An object that is wrapped and inserted. -/
theorem safe_iff_of_inserted (hnames : UniqueIn "name" s.collection)
    (hstep : (s.step (d, o)).collection = (insertWrapped d o s.collection).2.2)
    (hret : s.returned (d, o) = some (insertWrapped d o s.collection).1) :
    s.Safe (d, o) ↔ d.write = false ∨
      (∃ e ∈ s.collection, e.lookup "_id" = some (.oid (o.wrappedId d.generated))) ∨ ¬s.Taken o ∧ 0 ∉ o.name := by
  have hstored := insertWrapped_true_iff d o s.collection
  rcases insertWrapped_cases d o s.collection with ⟨hfalse, hc⟩ | ⟨htrue, hc, -⟩
  · refine iff_of_true (.of_unchanged hnames (hstep.trans hc) (by simp [hret, hfalse])) ?_
    by_contra hfree
    obtain ⟨hwrite, hfree⟩ := not_or.mp hfree
    have hid := not_exists.mp (not_or.mp hfree).1
    have hinserted := hstored.mpr ⟨Bool.not_eq_false _ ▸ hwrite, fun e he hsame => hid e ⟨he, hsame⟩⟩
    exact absurd (hfalse.symm.trans hinserted) (by decide)
  · obtain ⟨hwrite, hid⟩ := hstored.mp htrue
    rw [safe_iff_of_appended hnames (hstep.trans hc) (by rw [hret, htrue]), or_iff_right (by simp [hwrite]), or_iff_right]
    rintro ⟨e, he, hsame⟩
    exact hid e he hsame

/-- One call on a collection with unique names. -/
theorem safe_iff_checked (hnames : UniqueIn "name" s.collection) (call : Driver × AnyObject) :
    s.Safe call ↔ s.Checked call := by
  obtain ⟨d, o⟩ := call
  unfold Checked
  rcases s.step_cases d o with ⟨hreach, hstep, hret⟩ | ⟨hreach, hstep, hret⟩
  · rw [or_iff_right (not_not_intro hreach)]
    by_cases hfound : d.query = true ∧ s.Taken o
    · have hrefused : createIn d o s.collection = (false, o, s.collection) :=
        if_pos ((findName_iff hfound.1).mpr hfound.2)
      rw [hrefused] at hstep hret
      exact iff_of_true (.of_unchanged hnames hstep (by simp [hret])) (.inr (.inr (.inl hfound)))
    · have hmissed : findName d o.name s.collection = false := by
        cases hq : d.query with
        | false => exact findName_of_failed_query hq o.name s.collection
        | true =>
          rw [← Bool.not_eq_true, findName_iff hq]
          exact fun htaken => hfound ⟨hq, htaken⟩
      have hinserted : createIn d o s.collection = insertWrapped d o s.collection := if_neg (by simp [hmissed])
      rw [hinserted] at hstep hret
      rw [safe_iff_of_inserted hnames hstep hret, or_iff_right (a := d.query = true ∧ s.Taken o) hfound]
  · exact iff_of_true (.of_unchanged hnames hstep (by simp [hret])) (.inl hreach)

/-- A run of calls is safe exactly when no failed query hides a name that is then written again, and no name that is
written has a NUL. -/
theorem create_safe_iff {c : Collection} (hnames : UniqueIn "name" c) (m : DatabaseManager)
    (calls : List (Driver × AnyObject)) :
    StepsMeet step Safe ⟨m, c⟩ calls ↔ StepsMeet step Checked ⟨m, c⟩ calls :=
  stepsMeet_iff (fun s => UniqueIn "name" s.collection) (fun _ call h => safe_iff_checked h call)
    (fun _ call h hchecked => ((safe_iff_checked h call).mpr hchecked).names) hnames

/-- Two objects of one name, with a name query that fails. -/
def hiddenName : List (Driver × AnyObject) :=
  [(.working 1, .object (.ofName 0 [97])), ({ Driver.working 2 with query := false }, .object (.ofName 0 [97]))]

theorem create_safe_iff_hiddenName :
    StepsMeet step Safe ⟨⟨true, none, none⟩, []⟩ hiddenName ↔ StepsMeet step Checked ⟨⟨true, none, none⟩, []⟩ hiddenName :=
  create_safe_iff uniqueIn_nil _ _

theorem create_unsafe :
    ¬∀ (m : DatabaseManager) (c : Collection) (calls : List (Driver × AnyObject)), UniqueIn "name" c →
      StepsMeet step Safe ⟨m, c⟩ calls := by
  intro h
  have hsafe := h ⟨true, none, none⟩ [] hiddenName uniqueIn_nil
  exact absurd hsafe.2.1.names (by decide)

end Creating

end MetaEditor
