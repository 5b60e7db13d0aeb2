import MetaEditor.DAO.DatabaseManager

/-!
# Concurrent creates

Several clients call `create` on one collection. Each call is two round trips, the query for the name and
the insertion, and the server takes each of them as one step; between the two of one client any steps of
the others may fall. Names stay unique as long as no two calls with one name overlap in this way.
-/

namespace MetaEditor

open Lib DatabaseManager

/-- The collection, the call that each client is in after its query found nothing, and the answers that
`create` has given, with the names of the objects. -/
structure Clients (ι : Type) where
  collection : Collection
  pending : ι → Option AnyObject
  answers : List (Bytes × Bool)

/-- The two steps of a call of client `i`. -/
inductive ServerStep (ι : Type)
  | query (i : ι) (d : Driver) (o : AnyObject)
  | insert (i : ι) (d : Driver)

namespace Clients

variable {ι : Type}

/-- No client is in a call yet. -/
def start (c : Collection) : Clients ι := { collection := c, pending := fun _ => none, answers := [] }

/-- The names of the calls that were answered `true`. -/
def createdNames (answers : List (Bytes × Bool)) : List Bytes :=
  answers.filterMap fun a => if a.2 = true then some (cString a.1) else none

/-- A name query that finds nothing comes while no other client is in a call with that name. -/
def Apart (s : Clients ι) : ServerStep ι → Prop
  | .query i _ o =>
    (∀ e ∈ s.collection, e.lookup "name" ≠ some (.utf8 (cString o.name))) →
      ∀ j, j ≠ i → ∀ o' ∈ s.pending j, cString o'.name ≠ cString o.name
  | .insert _ _ => True

def Succeeds : ServerStep ι → Prop
  | .query _ d _ | .insert _ d => d.Succeeds

instance (e : ServerStep ι) : Decidable (Succeeds e) := by
  cases e <;> unfold Succeeds <;> infer_instance

/-- What holds after every step: names are unique, those of the pending calls are new and differ from
each other, and those that were created are there and were created once. -/
structure Inv (s : Clients ι) : Prop where
  names : UniqueIn "name" s.collection
  pendingNew : ∀ i, ∀ o ∈ s.pending i, ∀ e ∈ s.collection, e.lookup "name" ≠ some (.utf8 (cString o.name))
  pendingApart : ∀ i j, i ≠ j → ∀ o ∈ s.pending i, ∀ o' ∈ s.pending j, cString o.name ≠ cString o'.name
  createdThere : ∀ n ∈ createdNames s.answers, ∃ e ∈ s.collection, e.lookup "name" = some (.utf8 n)
  createdOnce : (createdNames s.answers).Nodup

@[simp] theorem createdNames_refused (answers : List (Bytes × Bool)) (name : Bytes) :
    createdNames (answers ++ [(name, false)]) = createdNames answers := by
  unfold createdNames
  rw [List.filterMap_append]
  simp

@[simp] theorem createdNames_created (answers : List (Bytes × Bool)) (name : Bytes) :
    createdNames (answers ++ [(name, true)]) = createdNames answers ++ [cString name] := by
  unfold createdNames
  rw [List.filterMap_append]
  simp

theorem inv_start {c : Collection} (hc : UniqueIn "name" c) : Inv (start c : Clients ι) where
  names := hc
  pendingNew := nofun
  pendingApart := nofun
  createdThere := nofun
  createdOnce := List.nodup_nil

variable [DecidableEq ι]

instance [Fintype ι] (s : Clients ι) (e : ServerStep ι) : Decidable (s.Apart e) := by
  cases e <;> unfold Apart <;> infer_instance

/-- A client that is in a call does not begin another one. -/
def query (i : ι) (d : Driver) (o : AnyObject) (s : Clients ι) : Clients ι :=
  match s.pending i with
  | some _ => s
  | none =>
    if findName d o.name s.collection = true then { s with answers := s.answers ++ [(o.name, false)] }
    else { s with pending := Function.update s.pending i (some o) }

def insert (i : ι) (d : Driver) (s : Clients ι) : Clients ι :=
  match s.pending i with
  | none => s
  | some o =>
    { collection := (insertWrapped d o s.collection).2.2
      pending := Function.update s.pending i none
      answers := s.answers ++ [(o.name, (insertWrapped d o s.collection).1)] }

def step (s : Clients ι) : ServerStep ι → Clients ι
  | .query i d o => s.query i d o
  | .insert i d => s.insert i d

/-- The two steps without another client between them are one call of `create`. -/
theorem run_query_insert {s : Clients ι} {i : ι} (hidle : s.pending i = none) (d : Driver) (o : AnyObject) :
    (run step s [.query i d o, .insert i d]).collection = (createIn d o s.collection).2.2 ∧
      (run step s [.query i d o, .insert i d]).answers = s.answers ++ [(o.name, (createIn d o s.collection).1)] := by
  show ((s.query i d o).insert i d).collection = _ ∧ ((s.query i d o).insert i d).answers = _
  unfold query createIn
  rw [hidle]
  by_cases hname : findName d o.name s.collection = true
  · simp only [if_pos hname]
    unfold insert
    simp only [hidle, and_self]
  · simp only [if_neg hname]
    unfold insert
    simp only [Function.update_self, and_self]

/-- The calls that are pending after client `i` began or ended one. -/
theorem mem_update_pending {s : Clients ι} {i j : ι} {call : Option AnyObject} {o : AnyObject} :
    o ∈ Function.update s.pending i call j ↔ j = i ∧ o ∈ call ∨ j ≠ i ∧ o ∈ s.pending j := by
  rw [Function.update_apply]
  split_ifs with hj <;> simp [hj]

/-- A query that finds nothing makes the call pending. -/
theorem Inv.query {s : Clients ι} {i : ι} {d : Driver} {o : AnyObject} (hq : d.query = true) (h : Inv s)
    (hapart : s.Apart (.query i d o)) : Inv (s.query i d o) := by
  unfold Clients.query
  cases hi : s.pending i with
  | some o' => exact h
  | none =>
    simp only
    split_ifs with hname
    · have hcreated := createdNames_refused s.answers o.name
      exact ⟨h.names, h.pendingNew, h.pendingApart, hcreated ▸ h.createdThere, hcreated ▸ h.createdOnce⟩
    · have hnew : ∀ e ∈ s.collection, e.lookup "name" ≠ some (.utf8 (cString o.name)) :=
        fun e he hn => hname ((findName_iff hq).mpr ⟨e, he, hn⟩)
      refine ⟨h.names, ?_, ?_, h.createdThere, h.createdOnce⟩
      · intro j o' ho'
        rcases mem_update_pending.mp ho' with ⟨-, ⟨rfl⟩⟩ | ⟨-, ho'⟩
        · exact hnew
        · exact h.pendingNew j o' ho'
      · intro j k hjk o₁ h₁ o₂ h₂
        rcases mem_update_pending.mp h₁ with ⟨rfl, ⟨rfl⟩⟩ | ⟨hj, hp₁⟩ <;>
          rcases mem_update_pending.mp h₂ with ⟨rfl, ⟨rfl⟩⟩ | ⟨hk, hp₂⟩
        · exact absurd rfl hjk
        · exact Ne.symm (hapart hnew k hk o₂ hp₂)
        · exact hapart hnew j hj o₁ hp₁
        · exact h.pendingApart j k hjk o₁ hp₁ o₂ hp₂

/-- An insertion ends the call, and its document is the only one with the name. -/
theorem Inv.insert {s : Clients ι} (h : Inv s) (i : ι) (d : Driver) : Inv (s.insert i d) := by
  unfold Clients.insert
  cases hi : s.pending i with
  | none => exact h
  | some o =>
    have hstays : ∀ j, ∀ o' ∈ Function.update s.pending i none j, j ≠ i ∧ o' ∈ s.pending j := by
      intro j o' ho'
      rcases mem_update_pending.mp ho' with ⟨-, ⟨⟩⟩ | ho'
      exact ho'
    have hapart : ∀ j k, j ≠ k → ∀ o₁ ∈ Function.update s.pending i none j,
        ∀ o₂ ∈ Function.update s.pending i none k, cString o₁.name ≠ cString o₂.name :=
      fun j k hjk o₁ h₁ o₂ h₂ => h.pendingApart j k hjk o₁ (hstays j o₁ h₁).2 o₂ (hstays k o₂ h₂).2
    simp only
    rcases insertWrapped_cases d o s.collection with ⟨hret, hc⟩ | ⟨hret, hc, -⟩
    · rw [hret, hc]
      have hcreated := createdNames_refused s.answers o.name
      refine ⟨h.names, ?_, hapart, hcreated ▸ h.createdThere, hcreated ▸ h.createdOnce⟩
      exact fun j o' ho' => h.pendingNew j o' (hstays j o' ho').2
    · rw [hret, hc]
      have hnew := h.pendingNew i o hi
      have hcreated := createdNames_created s.answers o.name
      refine ⟨uniqueIn_snoc.mpr ⟨fun v hv e he => ?_, h.names⟩, ?_, hapart, ?_, ?_⟩
      · rw [AnyObject.lookup_name_fields] at hv
        exact hv ▸ hnew e he
      · intro j o' ho' e he
        obtain ⟨hj, ho'⟩ := hstays j o' ho'
        rcases List.mem_append.mp he with he | he
        · exact h.pendingNew j o' ho' e he
        · rw [List.mem_singleton.mp he, AnyObject.lookup_name_fields]
          simpa using h.pendingApart i j (Ne.symm hj) o hi o' ho'
      · intro n hn
        rw [hcreated, List.mem_append, List.mem_singleton] at hn
        rcases hn with hn | rfl
        · obtain ⟨e, he, hname⟩ := h.createdThere n hn
          exact ⟨e, List.mem_append_left _ he, hname⟩
        · exact ⟨_, List.mem_append_right _ (List.mem_singleton.mpr rfl), o.lookup_name_fields _⟩
      · rw [hcreated, List.nodup_append]
        refine ⟨h.createdOnce, List.nodup_singleton _, ?_⟩
        rintro n hn m hm rfl
        obtain ⟨e, he, hname⟩ := h.createdThere n hn
        rw [List.mem_singleton.mp hm] at hname
        exact hnew e he hname

theorem Inv.step {s : Clients ι} {e : ServerStep ι} (h : Inv s) (he : Succeeds e) (hapart : s.Apart e) :
    Inv (step s e) := by
  cases e with
  | query i d o => exact h.query he.2.1 hapart
  | insert i d => exact h.insert i d

/-- In every interleaving in which no two calls with one name overlap, names stay unique and at most one
call of each name is answered `true`. -/
theorem creates_keep_names_unique {c : Collection} (hc : UniqueIn "name" c) {steps : List (ServerStep ι)}
    (hsucceed : ∀ e ∈ steps, Succeeds e) (hapart : StepsMeet step Apart (start c) steps) :
    UniqueIn "name" (run step (start c) steps).collection ∧ (createdNames (run step (start c) steps).answers).Nodup := by
  have hinv : Inv (run step (start c) steps) :=
    run_inv_of_stepsMeet Inv (fun s e h he => h.step he.1 he.2) (inv_start hc) (hapart.and hsucceed)
  exact ⟨hinv.names, hinv.createdOnce⟩

/-- Two clients create objects with the names `a` and `b`. -/
def twoClients (a b : Bytes) : List (ServerStep Bool) :=
  [.query false (.working 1) (.object (.ofName 0 a)), .query true (.working 2) (.object (.ofName 0 b)),
    .insert false (.working 1), .insert true (.working 2)]

theorem creates_keep_names_unique_twoClients :
    UniqueIn "name" (run step (start []) (twoClients [97] [98])).collection ∧
      (createdNames (run step (start []) (twoClients [97] [98])).answers).Nodup :=
  creates_keep_names_unique uniqueIn_nil (by decide) (by decide)

/-- Both queries come before both insertions: the name is there twice, and both calls answer `true`. -/
theorem creates_overlap :
    (∀ e ∈ twoClients [97] [97], Succeeds e) ∧
      ¬ UniqueIn "name" (run step (start []) (twoClients [97] [97])).collection ∧
      (run step (start []) (twoClients [97] [97])).answers = [([97], true), ([97], true)] := by
  decide

end Clients

end MetaEditor
