import MetaEditor.Lib.Middle
import MetaEditor.Lib.Run

/-!
# Collections of documents

A document is a list of named fields of which the first one of a name counts, and a collection is a
list of documents. A query is a document too: it selects the documents that agree with it in each of
its fields. One field `key` identifies a document: `insert` refuses a second document with the same
key and `update` refuses to change the key of one.
-/

namespace MetaEditor.Lib

variable {κ ν : Type*} [DecidableEq κ]

/-! ### Fields of a document -/

/-- Overwrite the first field named `k`, or append one. -/
def setField (k : κ) (v : ν) : List (κ × ν) → List (κ × ν)
  | [] => [(k, v)]
  | f :: d => if f.1 = k then (k, v) :: d else f :: setField k v d

/-- Set the fields one after the other. -/
def setFields (d fields : List (κ × ν)) : List (κ × ν) := fields.foldl (fun d f => setField f.1 f.2 d) d

theorem lookup_cons_eq (k : κ) (f : κ × ν) (d : List (κ × ν)) :
    List.lookup k (f :: d) = if f.1 = k then some f.2 else List.lookup k d := by
  obtain ⟨k', v⟩ := f
  rw [List.lookup_cons]
  by_cases h : k' = k
  · rw [if_pos h, show (k == k') = true by simp [h]]
  · rw [if_neg h, show (k == k') = false by simpa using fun h' => h h'.symm]

@[simp] theorem lookup_setField_self (k : κ) (v : ν) (d : List (κ × ν)) : (setField k v d).lookup k = some v := by
  induction d with
  | nil => simp [setField]
  | cons f d ih =>
    rw [setField]
    split_ifs with h
    · rw [lookup_cons_eq, if_pos rfl]
    · rw [lookup_cons_eq, if_neg h, ih]

theorem lookup_setField_of_ne {k k' : κ} (hne : k' ≠ k) (v : ν) (d : List (κ × ν)) :
    (setField k v d).lookup k' = d.lookup k' := by
  induction d with
  | nil => rw [setField, lookup_cons_eq, if_neg (Ne.symm hne)]
  | cons f d ih =>
    rw [setField]
    split_ifs with h
    · rw [lookup_cons_eq, lookup_cons_eq, if_neg (Ne.symm hne), if_neg (h ▸ Ne.symm hne)]
    · rw [lookup_cons_eq, lookup_cons_eq, ih]

/-- A field that is not set keeps its value. -/
theorem lookup_setFields_of_none {k : κ} {fields : List (κ × ν)} (h : fields.lookup k = none) (d : List (κ × ν)) :
    (setFields d fields).lookup k = d.lookup k := by
  induction fields generalizing d with
  | nil => rfl
  | cons f fields ih =>
    rw [lookup_cons_eq] at h
    split_ifs at h with hf
    exact (ih h _).trans (lookup_setField_of_ne (Ne.symm hf) f.2 d)

/-- A field that is set, once, has the value it is set to. -/
theorem lookup_setFields_of_some {k : κ} {v : ν} {fields : List (κ × ν)} (hnd : (fields.map (·.1)).Nodup)
    (h : fields.lookup k = some v) (d : List (κ × ν)) : (setFields d fields).lookup k = some v := by
  induction fields generalizing d with
  | nil => cases h
  | cons f fields ih =>
    rw [List.map_cons, List.nodup_cons] at hnd
    rw [lookup_cons_eq] at h
    split_ifs at h with hf
    · have hlast : fields.lookup k = none := by
        refine List.lookup_eq_none_iff.mpr fun g hg => ?_
        have hmem : g.1 ∈ fields.map (·.1) := List.mem_map_of_mem hg
        have hne : k ≠ g.1 := by
          intro he
          exact hnd.1 (hf ▸ he ▸ hmem)
        simpa using hne
      show (setFields (setField f.1 f.2 d) fields).lookup k = some v
      rw [lookup_setFields_of_none hlast, hf, lookup_setField_self]
      exact h
    · exact ih hnd.2 h _

/-! ### Queries -/

/-- The document agrees with the query in every field of the query. -/
def Agrees (query d : List (κ × ν)) : Prop := ∀ f ∈ query, d.lookup f.1 = some f.2

instance [DecidableEq ν] (query d : List (κ × ν)) : Decidable (Agrees query d) := List.decidableBAll _ _

theorem agrees_singleton {k : κ} {v : ν} {d : List (κ × ν)} : Agrees [(k, v)] d ↔ d.lookup k = some v := by
  simp [Agrees]

theorem agrees_cons {f : κ × ν} {query d : List (κ × ν)} :
    Agrees (f :: query) d ↔ d.lookup f.1 = some f.2 ∧ Agrees query d := by
  simp [Agrees]

/-! ### A field that no two documents share -/

/-- No two documents have the same value in field `k`; those without the field do not count. -/
def UniqueIn (k : κ) (c : List (List (κ × ν))) : Prop := (c.filterMap (·.lookup k)).Nodup

instance [DecidableEq ν] (k : κ) (c : List (List (κ × ν))) : Decidable (UniqueIn k c) := List.nodupDecidable _

variable {k : κ} {c : List (List (κ × ν))}

@[simp] theorem uniqueIn_nil : UniqueIn k ([] : List (List (κ × ν))) := List.nodup_nil

theorem uniqueIn_middle {before after : List (List (κ × ν))} {d : List (κ × ν)} :
    UniqueIn k (before ++ d :: after) ↔
      (∀ v, d.lookup k = some v → ∀ e ∈ before ++ after, e.lookup k ≠ some v) ∧ UniqueIn k (before ++ after) := by
  have hperm : ((before ++ d :: after).filterMap (·.lookup k)).Perm
      ((d :: (before ++ after)).filterMap (·.lookup k)) := List.perm_middle.filterMap _
  unfold UniqueIn
  rw [hperm.nodup_iff]
  cases hd : d.lookup k with
  | none => simp [List.filterMap_cons_none hd]
  | some v =>
    rw [List.filterMap_cons_some hd, List.nodup_cons]
    refine and_congr_left fun _ => ?_
    simp only [List.mem_filterMap, not_exists, not_and, Option.some.injEq, forall_eq']

theorem uniqueIn_snoc {d : List (κ × ν)} :
    UniqueIn k (c ++ [d]) ↔ (∀ v, d.lookup k = some v → ∀ e ∈ c, e.lookup k ≠ some v) ∧ UniqueIn k c := by
  have h : UniqueIn k (c ++ d :: []) ↔ _ := uniqueIn_middle
  rwa [List.append_nil] at h

/-- Two documents with the same value are the same document. -/
theorem UniqueIn.eq_of_mem (h : UniqueIn k c) {d e : List (κ × ν)} {v : ν} (hd : d ∈ c) (he : e ∈ c)
    (hdv : d.lookup k = some v) (hev : e.lookup k = some v) : d = e := by
  obtain ⟨before, after, rfl⟩ := List.append_of_mem hd
  have hother := (uniqueIn_middle.mp h).1 v hdv
  rcases mem_middle.mp he with rfl | he
  · rfl
  · exact absurd hev (hother e he)

/-! ### Operations of the server -/

variable [DecidableEq ν]

def findDocuments (query : List (κ × ν)) (c : List (List (κ × ν))) : List (List (κ × ν)) :=
  c.filter (Agrees query)

/-- Delete every document that agrees with the selector. -/
def removeDocuments (selector : List (κ × ν)) (c : List (List (κ × ν))) : List (List (κ × ν)) :=
  c.filter (¬ Agrees selector ·)

variable (key : κ)

def insertDocument (d : List (κ × ν)) (c : List (List (κ × ν))) : Option (List (List (κ × ν))) :=
  if ∃ e ∈ c, e.lookup key = d.lookup key then none else some (c ++ [d])

/-- The first document that agrees with the query takes the fields, which must leave its key as it is. -/
def updateDocument (query fields : List (κ × ν)) : List (List (κ × ν)) → Option (List (List (κ × ν)))
  | [] => some []
  | d :: c =>
    if Agrees query d then
      if (setFields d fields).lookup key = d.lookup key then some (setFields d fields :: c) else none
    else (updateDocument query fields c).map (d :: ·)

theorem mem_findDocuments {query d : List (κ × ν)} {c : List (List (κ × ν))} :
    d ∈ findDocuments query c ↔ d ∈ c ∧ Agrees query d := by
  simp [findDocuments]

theorem removeDocuments_of_none {selector : List (κ × ν)} (h : ∀ e ∈ c, ¬ Agrees selector e) :
    removeDocuments selector c = c :=
  List.filter_eq_self.mpr fun e he => decide_eq_true (h e he)

/-- If one document alone agrees with the selector, it alone is removed. -/
theorem removeDocuments_of_split {selector d : List (κ × ν)} {before after : List (List (κ × ν))}
    (hd : Agrees selector d) (hother : ∀ e ∈ before ++ after, ¬ Agrees selector e) :
    removeDocuments selector (before ++ d :: after) = before ++ after := by
  have hdrop : removeDocuments selector (d :: after) = removeDocuments selector after :=
    List.filter_cons_of_neg (by simpa using hd)
  calc removeDocuments selector (before ++ d :: after)
      = removeDocuments selector before ++ removeDocuments selector (d :: after) := List.filter_append _ _
    _ = before ++ after := by
      rw [hdrop, removeDocuments_of_none fun e he => hother e (List.mem_append_left _ he),
        removeDocuments_of_none fun e he => hother e (List.mem_append_right _ he)]

variable {key}

theorem insertDocument_eq_some {d : List (κ × ν)} {c c' : List (List (κ × ν))} (h : insertDocument key d c = some c') :
    (∀ e ∈ c, e.lookup key ≠ d.lookup key) ∧ c' = c ++ [d] := by
  unfold insertDocument at h
  split_ifs at h with hdup
  cases h
  exact ⟨fun e he hk => hdup ⟨e, he, hk⟩, rfl⟩

theorem insertDocument_of_new {d : List (κ × ν)} {c : List (List (κ × ν))}
    (h : ∀ e ∈ c, e.lookup key ≠ d.lookup key) : insertDocument key d c = some (c ++ [d]) := by
  unfold insertDocument
  rw [if_neg]
  rintro ⟨e, he, hk⟩
  exact h e he hk

/-- What an accepted update does: nothing, when nothing agrees with the query, or the fields are set in
one document. -/
theorem updateDocument_eq_some {query fields : List (κ × ν)} {c c' : List (List (κ × ν))}
    (h : updateDocument key query fields c = some c') :
    ((∀ d ∈ c, ¬ Agrees query d) ∧ c' = c) ∨
    ∃ before d after, c = before ++ d :: after ∧ (∀ e ∈ before, ¬ Agrees query e) ∧ Agrees query d ∧
      (setFields d fields).lookup key = d.lookup key ∧ c' = before ++ setFields d fields :: after := by
  induction c generalizing c' with
  | nil =>
    cases h
    exact .inl ⟨by simp, rfl⟩
  | cons d c ih =>
    rw [updateDocument] at h
    split_ifs at h with hd hkey
    · cases h
      exact .inr ⟨[], d, c, rfl, by simp, hd, hkey, rfl⟩
    · obtain ⟨c₁, hc₁, rfl⟩ := Option.map_eq_some_iff.mp h
      rcases ih hc₁ with ⟨hnone, rfl⟩ | ⟨before, e, after, rfl, hbefore, he, hkey, rfl⟩
      · exact .inl ⟨List.forall_mem_cons.mpr ⟨hd, hnone⟩, rfl⟩
      · exact .inr ⟨d :: before, e, after, rfl, List.forall_mem_cons.mpr ⟨hd, hbefore⟩, he, hkey, rfl⟩

theorem map_key_updateDocument {query fields : List (κ × ν)} {c c' : List (List (κ × ν))}
    (h : updateDocument key query fields c = some c') : c'.map (·.lookup key) = c.map (·.lookup key) := by
  rcases updateDocument_eq_some h with ⟨-, rfl⟩ | ⟨before, d, after, rfl, -, -, hkey, rfl⟩
  · rfl
  · simp only [List.map_append, List.map_cons, hkey]

/-- An update is refused only when it would change the key of the document it found. -/
theorem updateDocument_of_split {query fields d : List (κ × ν)} {before after : List (List (κ × ν))}
    (hbefore : ∀ e ∈ before, ¬ Agrees query e) (hd : Agrees query d) :
    updateDocument key query fields (before ++ d :: after) =
      if (setFields d fields).lookup key = d.lookup key then some (before ++ setFields d fields :: after) else none := by
  induction before with
  | nil => rw [List.nil_append, updateDocument, if_pos hd, List.nil_append]
  | cons e before ih =>
    obtain ⟨he, hbefore⟩ := List.forall_mem_cons.mp hbefore
    rw [List.cons_append, updateDocument, if_neg he, ih hbefore]
    split_ifs <;> rfl

theorem UniqueIn.removeDocuments (h : UniqueIn k c) (selector : List (κ × ν)) :
    UniqueIn k (removeDocuments selector c) :=
  List.Nodup.sublist (List.filter_sublist.filterMap _) h

/-- The key stays unique when a document is inserted. -/
theorem UniqueIn.insertDocument {d : List (κ × ν)} {c' : List (List (κ × ν))} (h : UniqueIn key c)
    (hins : insertDocument key d c = some c') : UniqueIn key c' := by
  obtain ⟨hnew, rfl⟩ := insertDocument_eq_some hins
  exact uniqueIn_snoc.mpr ⟨fun v hv e he => hv ▸ hnew e he, h⟩

/-- The key stays unique when a document is updated. -/
theorem UniqueIn.updateDocument {query fields : List (κ × ν)} {c' : List (List (κ × ν))} (h : UniqueIn key c)
    (hupd : updateDocument key query fields c = some c') : UniqueIn key c' := by
  rcases updateDocument_eq_some hupd with ⟨-, rfl⟩ | ⟨before, d, after, rfl, -, -, hkey, rfl⟩
  · exact h
  · rw [uniqueIn_middle] at h ⊢
    rwa [hkey]

end MetaEditor.Lib
