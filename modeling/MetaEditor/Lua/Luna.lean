import MetaEditor.Lib.Lifetime
import MetaEditor.Lib.Middle
import MetaEditor.Lib.Run

/-!
# Ownership across the Lua boundary

`Luna<T>::Register(L, t)` gives scripts a constructor whose upvalue is `t`: every call of it wraps the same
pointer in a userdata of its own, and each userdata has the finaliser `gc_obj`, which deletes what it
points to. A `Luna` is what matters here of a Lua state: the userdata in the order of their making, the
methods that are running, and what has been done to the objects so far.

The collector calls a finaliser once, after it has separated a userdata that no script can reach.
`lua_close` separates all that are left. A finaliser that a script has set itself can take a separated
userdata up again, before or after `gc_obj` was called for it.
-/

namespace MetaEditor

open Lib

/-- What the collector has done about a userdata. -/
inductive Phase
  | live
  | separated
  | finalised
  deriving DecidableEq, Repr

/-- A userdata that `inject` made. -/
structure Userdata (T : Type*) where
  obj : T
  phase : Phase
  /-- A script can reach it. -/
  held : Bool
  deriving DecidableEq, Repr

/-- The collector takes a live userdata for finalisation. -/
def Userdata.separate {T : Type*} (u : Userdata T) : Userdata T :=
  if u.phase = .live then { u with phase := .separated } else u

def Userdata.hold {T : Type*} (held : Bool) (u : Userdata T) : Userdata T := { u with held := held }

/-- What happens to a userdata short of its finalisation. -/
def Spares {T : Type*} (f : Userdata T → Userdata T) : Prop :=
  ∀ u, (f u).obj = u.obj ∧ ((f u).phase = .finalised ↔ u.phase = .finalised)

theorem spares_separate {T : Type*} : Spares (T := T) (·.separate) := by
  intro u
  simp only [Userdata.separate]
  split_ifs with h
  · exact ⟨rfl, iff_of_false nofun (by rw [h]; exact nofun)⟩
  · exact ⟨rfl, Iff.rfl⟩

theorem spares_hold {T : Type*} (held : Bool) : Spares (T := T) (·.hold held) := fun _ => ⟨rfl, Iff.rfl⟩

theorem Spares.unless {T : Type*} {f : Userdata T → Userdata T} (h : Spares f) (p : Userdata T → Bool) :
    Spares fun u => if p u = true then u else f u := by
  intro u
  simp only
  split_ifs
  · exact ⟨rfl, Iff.rfl⟩
  · exact h u

def Userdata.finalise {T : Type*} (u : Userdata T) : Userdata T := { u with phase := .finalised }

structure Luna (T : Type*) where
  userdata : List (Userdata T)
  /-- The objects whose methods are running, the innermost one first. -/
  calls : List T
  accesses : List (Access T)
  deriving DecidableEq, Repr

namespace Luna

variable {T : Type*}

def start : Luna T := { userdata := [], calls := [], accesses := [] }

/-- `table[0]` of the table that it returns is the new userdata. -/
def inject (obj : T) (s : Luna T) : Luna T :=
  { s with userdata := s.userdata ++ [{ obj := obj, phase := .live, held := true }] }

/-- `t` is the upvalue. -/
def constructor2 (t : T) (s : Luna T) : Luna T := s.inject t

/-- `luaL_checkudata` raises an error when slot 0 of the first argument is not a userdata of the class. -/
def thunk (slot : Option (Userdata T)) (s : Luna T) : Luna T :=
  match slot with
  | none => s
  | some u => { s with calls := u.obj :: s.calls, accesses := s.accesses ++ [.use u.obj] }

def gcObj (u : Userdata T) (s : Luna T) : Luna T := { s with accesses := s.accesses ++ [.delete u.obj] }

/-- What happens next. Userdata are numbered in the order of their making. -/
inductive Event
  | constructor2
  /-- The first argument has a userdata in slot 0, or something else. -/
  | thunk (slot : Option Nat)
  /-- The method that is running uses its object; scripts that it calls may run in between. -/
  | method
  | methodReturns
  /-- A script calls the `__gc` of the metatable. -/
  | gcObj (n : Nat)
  /-- The last reference of the scripts to the userdata is gone. -/
  | drop (n : Nat)
  /-- A script has it again, out of a weak table or in a finaliser of its own. -/
  | takeUp (n : Nat)
  | separate (n : Nat)
  /-- The collector calls the finaliser. -/
  | finalise (n : Nat)
  /-- `lua_close` begins. -/
  | close
  deriving DecidableEq, Repr

def update (n : Nat) (f : Userdata T → Userdata T) (s : Luna T) : Luna T :=
  { s with userdata := s.userdata.modify n f }

def method (s : Luna T) : Luna T :=
  match s.calls with
  | [] => s
  | obj :: _ => { s with accesses := s.accesses ++ [.use obj] }

/-- The collector calls the finaliser of a userdata that it has separated. -/
def finalise (n : Nat) (s : Luna T) : Luna T :=
  match s.userdata[n]?.filter (·.phase = .separated) with
  | none => s
  | some u => (s.gcObj u).update n (·.finalise)

/-- One event. What cannot happen in the state changes nothing. -/
def step (t : T) (s : Luna T) : Event → Luna T
  | .constructor2 => s.constructor2 t
  | .thunk slot => s.thunk ((slot.bind fun n => s.userdata[n]?).filter (·.held))
  | .method => s.method
  | .methodReturns => { s with calls := s.calls.tail }
  | .gcObj n =>
    match s.userdata[n]?.filter (·.held) with
    | none => s
    | some u => s.gcObj u
  | .drop n => s.update n (·.hold false)
  | .takeUp n => s.update n (·.hold true)
  | .separate n => s.update n fun u => if u.held = true then u else u.separate
  | .finalise n => s.finalise n
  | .close => { s with userdata := s.userdata.map (·.separate) }

/-! ### Deletions are finalisations -/

/-- How many userdata have been finalised. -/
def finalised (s : Luna T) : Nat := s.userdata.countP (·.phase = .finalised)

/-- Every userdata points to the registered object. -/
def PointsTo (t : T) (s : Luna T) : Prop := ∀ u ∈ s.userdata, u.obj = t

section Update

variable {t : T} {s : Luna T} {f : Userdata T → Userdata T} {n : Nat}

theorem finalised_update (hf : Spares f) : (s.update n f).finalised = s.finalised := by
  unfold finalised update
  by_cases hn : n < s.userdata.length
  · obtain ⟨before, u, after, hsplit, -, hmodify⟩ := List.exists_of_modify f hn
    rw [hmodify, hsplit, List.countP_append, List.countP_append, List.countP_cons, List.countP_cons]
    simp only [(hf u).2]
  · rw [List.modify_eq_self (by omega)]

theorem finalised_map (hf : Spares f) : finalised { s with userdata := s.userdata.map f } = s.finalised := by
  rw [finalised, List.countP_map]
  refine List.countP_congr fun u _ => ?_
  simpa using (hf u).2

theorem finalised_finalise {u : Userdata T} (hu : s.userdata[n]? = some u) (hphase : u.phase = .separated) :
    (s.update n (·.finalise)).finalised = s.finalised + 1 := by
  obtain ⟨hn, hget⟩ := List.getElem?_eq_some_iff.mp hu
  obtain ⟨before, v, after, hsplit, hlength, hmodify⟩ :=
    List.exists_of_modify (fun u : Userdata T => u.finalise) hn
  have hv : v = u := by
    rw [hsplit, List.getElem?_append_right (by omega), hlength, Nat.sub_self] at hu
    exact Option.some.inj hu
  unfold finalised update
  rw [hmodify, hsplit, List.countP_append, List.countP_append, List.countP_cons, List.countP_cons, hv]
  simp [Userdata.finalise, hphase]
  omega

theorem PointsTo.update (h : PointsTo t s) (hf : ∀ u, (f u).obj = u.obj) : PointsTo t (s.update n f) := by
  intro u hu
  unfold Luna.update at hu
  by_cases hn : n < s.userdata.length
  · obtain ⟨before, v, after, hsplit, -, hmodify⟩ := List.exists_of_modify f hn
    unfold PointsTo at h
    rw [hsplit] at h
    obtain ⟨hbefore, hv, hafter⟩ := forall_mem_middle.mp h
    rw [hmodify] at hu
    exact forall_mem_middle.mpr ⟨hbefore, (hf v).trans hv, hafter⟩ u hu
  · rw [List.modify_eq_self (by omega)] at hu
    exact h u hu

/-- A finalisation is either impossible, or it deletes the object. -/
theorem finalise_cases (h : PointsTo t s) (n : Nat) :
    s.finalise n = s ∨ ∃ u, s.userdata[n]? = some u ∧ u.phase = .separated ∧ u.obj = t ∧
      s.finalise n = (s.gcObj u).update n (·.finalise) := by
  unfold Luna.finalise
  split
  · exact .inl rfl
  · next u hpick =>
    obtain ⟨hu, hphase⟩ := Option.filter_eq_some_iff.mp hpick
    exact .inr ⟨u, hu, of_decide_eq_true hphase, h u (List.mem_of_getElem? hu), rfl⟩

/-- Of one userdata at most, one that is not finalised leaves none to be. -/
theorem finalised_eq_zero (hone : s.userdata.length ≤ 1) {u : Userdata T} (hu : s.userdata[n]? = some u)
    (hphase : u.phase ≠ .finalised) : s.finalised = 0 := by
  refine List.countP_eq_zero.mpr fun v hv => ?_
  obtain ⟨w, hw⟩ := List.length_eq_one_iff.mp (le_antisymm hone (List.length_pos_of_mem hv))
  rw [hw, List.mem_singleton] at hv
  have huw : u = w := by simpa [hw] using List.mem_of_getElem? hu
  simpa [hv, ← huw] using hphase

end Update

section Run

variable [DecidableEq T] {t : T} {s : Luna T}

/-- The object has been deleted as often as a userdata was finalised. -/
structure Accounted (t : T) (s : Luna T) : Prop where
  pointsTo : PointsTo t s
  deletions : deletions t s.accesses = s.finalised

theorem Accounted.start : Accounted t start := ⟨fun _ h => absurd h List.not_mem_nil, rfl⟩

theorem Accounted.update (h : Accounted t s) {f : Userdata T → Userdata T} (hf : Spares f) (n : Nat) :
    Accounted t (s.update n f) :=
  ⟨h.pointsTo.update fun u => (hf u).1, h.deletions.trans (finalised_update hf).symm⟩

theorem Accounted.constructor2 (h : Accounted t s) : Accounted t (s.constructor2 t) := by
  refine ⟨fun u hu => ?_, ?_⟩
  · obtain hu | hu := List.mem_append.mp hu
    · exact h.pointsTo u hu
    · rw [List.mem_singleton.mp hu]
  · rw [finalised, Luna.constructor2, inject, List.countP_append]
    exact h.deletions

theorem Accounted.thunk (h : Accounted t s) (slot : Option (Userdata T)) : Accounted t (s.thunk slot) := by
  cases slot with
  | none => exact h
  | some u => exact ⟨h.pointsTo, deletions_use.trans h.deletions⟩

theorem Accounted.method (h : Accounted t s) : Accounted t s.method := by
  unfold Luna.method
  split
  · exact h
  · exact ⟨h.pointsTo, deletions_use.trans h.deletions⟩

theorem Accounted.finalise (h : Accounted t s) (n : Nat) : Accounted t (s.finalise n) := by
  obtain hsame | ⟨u, hu, hphase, hobj, hstep⟩ := finalise_cases h.pointsTo n
  · rw [hsame]
    exact h
  · have hpoints : PointsTo t (s.gcObj u) := h.pointsTo
    have hdeleted : Lib.deletions t (s.gcObj u).accesses = Lib.deletions t s.accesses + 1 := by
      rw [gcObj, hobj, deletions_delete]
    rw [hstep]
    refine ⟨hpoints.update (f := (·.finalise)) fun _ => rfl, ?_⟩
    rw [finalised_finalise (s := s.gcObj u) hu hphase]
    exact hdeleted.trans (congrArg (· + 1) h.deletions)

theorem Accounted.close (h : Accounted t s) : Accounted t { s with userdata := s.userdata.map (·.separate) } := by
  refine ⟨fun u hu => ?_, h.deletions.trans (finalised_map spares_separate).symm⟩
  obtain ⟨v, hv, rfl⟩ := List.mem_map.mp hu
  exact (spares_separate v).1.trans (h.pointsTo v hv)

/-- Whatever happens, save that a script calls `__gc` itself. -/
theorem Accounted.step (h : Accounted t s) {e : Event} (he : ∀ n, e ≠ .gcObj n) : Accounted t (s.step t e) := by
  cases e with
  | constructor2 => exact h.constructor2
  | thunk slot => exact h.thunk _
  | method => exact h.method
  | methodReturns => exact ⟨h.pointsTo, h.deletions⟩
  | gcObj n => exact absurd rfl (he n)
  | drop n => exact h.update (spares_hold false) n
  | takeUp n => exact h.update (spares_hold true) n
  | separate n => exact h.update (spares_separate.unless (·.held)) n
  | finalise n => exact h.finalise n
  | close => exact h.close

/-- In a run in which no script calls `__gc` itself. -/
theorem accounted_run {events : List Event} (hnone : ∀ n, .gcObj n ∉ events) :
    Accounted t (run (step t) start events) := by
  have hmeet : StepsMeet (step t) (fun _ e => ∀ n, e ≠ .gcObj n) start events :=
    stepsMeet_forall_iff.mpr fun e he n heq => hnone n (heq ▸ he)
  exact run_inv_of_stepsMeet (Accounted t) (fun s e h he => h.step he) Accounted.start hmeet

/-- Once every userdata has been finalised, there has been a deletion for each call of the constructor. -/
theorem deletions_of_finalised {events : List Event} (hnone : ∀ n, .gcObj n ∉ events)
    (hall : ∀ u ∈ (run (step t) start events).userdata, u.phase = .finalised) :
    Lib.deletions t (run (step t) start events).accesses = (run (step t) start events).userdata.length := by
  rw [(accounted_run hnone).deletions, finalised, List.countP_eq_length]
  exact fun u hu => decide_eq_true (hall u hu)

/-! ### One call of the constructor -/

/-- The constructor is called once; no script calls `__gc` itself, or a method of a userdata that it took
up again after the finaliser had run; and no userdata is finalised while a method of its object runs. -/
def Allowed (s : Luna T) : Event → Prop
  | .constructor2 => s.userdata = []
  | .thunk slot => ∀ n ∈ slot, ∀ u ∈ s.userdata[n]?, u.phase ≠ .finalised
  | .gcObj _ => False
  | .finalise n => ∀ u ∈ s.userdata[n]?, u.obj ∉ s.calls
  | _ => True

instance (s : Luna T) (e : Event) : Decidable (s.Allowed e) := by
  cases e <;> unfold Allowed <;> infer_instance

/-- There is one userdata at most, and no method runs once it is finalised. -/
structure Owned (t : T) (s : Luna T) : Prop extends Accounted t s where
  one : s.userdata.length ≤ 1
  calls : ∀ obj ∈ s.calls, obj = t ∧ s.finalised = 0
  usedBefore : UsedBefore t s.accesses

theorem Owned.start : Owned t start :=
  { Accounted.start with one := Nat.zero_le 1, calls := fun _ h => absurd h List.not_mem_nil, usedBefore := .nil }

theorem Owned.lifetime (h : Owned t s) : Lifetime t s.accesses := by
  refine ⟨?_, h.usedBefore⟩
  rw [h.deletions]
  exact List.countP_le_length.trans h.one

theorem Owned.update (h : Owned t s) {f : Userdata T → Userdata T} (hf : Spares f) (n : Nat) : Owned t (s.update n f) where
  toAccounted := h.toAccounted.update hf n
  one := by
    rw [Luna.update, List.length_modify]
    exact h.one
  calls := by
    rw [finalised_update hf]
    exact h.calls
  usedBefore := h.usedBefore

theorem Owned.constructor2 (h : Owned t s) (hnone : s.userdata = []) : Owned t (s.constructor2 t) := by
  refine ⟨h.toAccounted.constructor2, ?_, fun obj hobj => ⟨(h.calls obj hobj).1, ?_⟩, h.usedBefore⟩
  · rw [Luna.constructor2, inject, hnone]
    exact le_rfl
  · rw [Luna.constructor2, inject, finalised, hnone]
    rfl

theorem Owned.thunk (h : Owned t s) {slot : Option (Userdata T)}
    (hslot : ∀ u ∈ slot, u.phase ≠ .finalised ∧ ∃ n : Nat, s.userdata[n]? = some u) : Owned t (s.thunk slot) := by
  cases slot with
  | none => exact h
  | some u =>
    obtain ⟨hphase, n, hu⟩ := hslot u rfl
    have hzero := finalised_eq_zero h.one hu hphase
    have halive : Lib.deletions t s.accesses = 0 := h.deletions.trans hzero
    refine ⟨h.toAccounted.thunk (some u), h.one, fun obj hobj => ?_, h.usedBefore.use halive⟩
    obtain rfl | hobj := List.mem_cons.mp hobj
    · exact ⟨h.pointsTo u (List.mem_of_getElem? hu), hzero⟩
    · exact h.calls obj hobj

theorem Owned.method (h : Owned t s) : Owned t s.method := by
  cases hcalls : s.calls with
  | nil =>
    have hsame : s.method = s := by rw [Luna.method, hcalls]
    rw [hsame]
    exact h
  | cons obj rest =>
    have hrunning : obj ∈ s.calls := by rw [hcalls]; exact List.mem_cons_self
    have hstep : s.method = { s with accesses := s.accesses ++ [.use obj] } := by rw [Luna.method, hcalls]
    have haccounted := h.toAccounted.method
    rw [hstep] at haccounted ⊢
    exact ⟨haccounted, h.one, h.calls, h.usedBefore.use (h.deletions.trans (h.calls obj hrunning).2)⟩

/-- While no method runs, the last finalisation leaves nothing to use. -/
theorem Owned.finalise (h : Owned t s) {n : Nat} (hn : ∀ u ∈ s.userdata[n]?, u.obj ∉ s.calls) :
    Owned t (s.finalise n) := by
  obtain hsame | ⟨u, hu, hphase, hobj, hstep⟩ := finalise_cases h.pointsTo n
  · rw [hsame]
    exact h
  · have haccounted := h.toAccounted.finalise n
    rw [hstep] at haccounted ⊢
    refine ⟨haccounted, ?_, fun obj hrunning => ?_, h.usedBefore.delete⟩
    · rw [Luna.update, List.length_modify]
      exact h.one
    · have hsame : obj = u.obj := (h.calls obj hrunning).1.trans hobj.symm
      rw [hsame] at hrunning
      exact absurd hrunning (hn u hu)

theorem Owned.step (h : Owned t s) {e : Event} (he : Allowed s e) : Owned t (s.step t e) := by
  cases e with
  | constructor2 => exact h.constructor2 he
  | thunk slot =>
    refine h.thunk fun u hu => ?_
    obtain ⟨hu, -⟩ := Option.filter_eq_some_iff.mp hu
    obtain ⟨n, hn, hu⟩ := Option.bind_eq_some_iff.mp hu
    exact ⟨he n hn u hu, n, hu⟩
  | method => exact h.method
  | methodReturns =>
    exact ⟨⟨h.pointsTo, h.deletions⟩, h.one, fun obj hobj => h.calls obj (List.mem_of_mem_tail hobj), h.usedBefore⟩
  | gcObj n => exact absurd he not_false
  | drop n => exact h.update (spares_hold false) n
  | takeUp n => exact h.update (spares_hold true) n
  | separate n => exact h.update (spares_separate.unless (·.held)) n
  | finalise n => exact h.finalise he
  | close =>
    refine ⟨h.toAccounted.close, ?_, fun obj hobj => ⟨(h.calls obj hobj).1, ?_⟩, h.usedBefore⟩
    · rw [Luna.step, List.length_map]
      exact h.one
    · exact (finalised_map spares_separate).trans (h.calls obj hobj).2

/-- In a run with one call of the constructor the registered object is deleted once at most, and not used
afterwards. -/
theorem run_lifetime {events : List Event} (h : StepsMeet (step t) Allowed start events) :
    Lifetime t (run (step t) start events).accesses :=
  (run_inv_of_stepsMeet (Owned t) (fun _ _ howned he => howned.step he) Owned.start h).lifetime

end Run

/-- `e = editor(); e:title(..); e = nil`, a collection, and the end of the state. -/
def oneEditor : List Event :=
  [.constructor2, .thunk (some 0), .method, .methodReturns, .drop 0, .separate 0, .finalise 0, .close]

theorem run_lifetime_oneEditor : Lifetime 7 (run (step 7) start oneEditor).accesses := run_lifetime (by decide)

/-- `editor(); e = editor()`, a collection, and `e:title(..)`. -/
def twoEditors : List Event :=
  [.constructor2, .drop 0, .constructor2, .separate 0, .finalise 0, .thunk (some 1), .close, .finalise 1]

/-- The method is called on a deleted object, which is then deleted again. -/
theorem used_and_deleted_again :
    ¬(∀ events : List Event, Lifetime 7 (run (step 7) start events).accesses) ∧
      (run (step 7) start twoEditors).accesses = [.delete 7, .use 7, .delete 7] := by
  have haccesses : (run (step 7) start twoEditors).accesses = [.delete 7, .use 7, .delete 7] := by decide
  refine ⟨fun h => ?_, haccesses⟩
  have honce := (h twoEditors).once
  rw [haccesses] at honce
  exact absurd honce (by decide)

end Luna

end MetaEditor
