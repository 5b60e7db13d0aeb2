import MetaEditor.Lua.RoundTrip

/-!
# What the loader accepts

Every function of the loader is stable: only a chunk that is too short is refused because of where it ends. What it
returns fits the layout, apart from a boolean constant, which is any character. So a chunk that is cut off anywhere
is `truncated`, and a function that was loaded can be dumped and loaded again.
-/

namespace MetaEditor

open Lib Undump LuaCompiler

/-- A boolean constant is a character of the first half. -/
def TValue.Flag (o : TValue) : Prop := ∀ b, o = .boolean b → 0 ≤ b ∧ b < 128

/-- The boolean constants of a function and of the functions nested in it. -/
inductive Proto.Flags : Proto → Prop
  | mk {f : Proto} (k : ∀ o ∈ f.k, o.Flag) (p : ∀ g ∈ f.p, Proto.Flags g) : Proto.Flags f

theorem Proto.InRange.flags {L : Layout} {f : Proto} (h : f.InRange L) : f.Flags := by
  induction h with
  | @mk f _ _ _ _ _ hk _ _ _ _ _ _ _ _ _ ih =>
    refine .mk (fun o ho b hb => ?_) ih
    have hrange := hk o ho
    rw [hb] at hrange
    exact hrange

namespace Undump

variable {L : Layout} {name : String}

/-- The error of `LoadMem`. -/
abbrev truncated (name : String) : LoadError := .because name "truncated"

/-! ### The functions of the loader -/

theorem stable_loadBlock (size : Nat) : Stable (truncated name) (fun bs => bs.length = size) (loadBlock name size) :=
  stable_take size

theorem stable_loadByte : Stable (truncated name) (fun _ => True) (loadByte name) :=
  (stable_loadBlock 1).map _ fun _ _ => trivial

theorem stable_loadChar : Stable (truncated name) (fun _ => True) (loadChar L name) :=
  stable_loadByte.map _ fun _ _ => trivial

theorem stable_loadInt : Stable (truncated name) L.CountRange (loadInt L name) := by
  refine (stable_loadBlock L.sizeofInt).bind fun b hlength => ?_
  have hrange := decodeInt_range L.littleEndian b
  rw [hlength] at hrange
  simp only
  split_ifs with hneg
  · exact stable_throw _
  · exact stable_pure ⟨not_lt.mp hneg, hrange.2⟩

theorem stable_loadString : Stable (truncated name) (stringInRange L) (loadString L name) := by
  refine (stable_loadBlock L.sizeofSizet).bind fun b hlength => ?_
  have hsize := decodeNat_lt L.littleEndian b
  rw [hlength] at hsize
  simp only
  split_ifs with hzero
  · exact stable_pure nofun
  · refine (stable_loadBlock _).map _ fun s hs => ?_
    intro t ht
    cases ht
    rw [List.length_take, hs]
    omega

theorem mem_elements {size n : Nat} {b c : Bytes} (hlength : b.length = n * size) (h : c ∈ elements size n b) :
    c.length = size := by
  induction n generalizing b with
  | zero => cases h
  | succ n ih =>
    rw [Nat.succ_mul] at hlength
    rcases List.mem_cons.mp h with rfl | htail
    · rw [List.length_take]
      omega
    · exact ih (by rw [List.length_drop]; omega) htail

theorem length_elements (size n : Nat) (b : Bytes) : (elements size n b).length = n := by
  induction n generalizing b with
  | zero => rfl
  | succ n ih => exact congrArg (· + 1) (ih _)

theorem stable_loadVector (n size : Nat) :
    Stable (truncated name) (fun bs => bs.length = n ∧ ∀ b ∈ bs, b.length = size) (loadVector name n size) :=
  (stable_loadBlock _).map _ fun _ hlength => ⟨length_elements size n _, fun _ hc => mem_elements hlength hc⟩

/-- A vector of numbers. -/
theorem stable_decoded {α : Type} {P : α → Prop} {size : Nat} (decode : Bytes → α)
    (hdecode : ∀ b : Bytes, b.length = size → P (decode b)) :
    Stable (truncated name) (fun as => L.CountRange as.length ∧ ∀ a ∈ as, P a)
      (do let n ← loadInt L name
          let bs ← loadVector name n.toNat size
          return bs.map decode) := by
  refine stable_loadInt.bind fun n hn => (stable_loadVector n.toNat size).map _ fun bs ⟨hlength, hbs⟩ => ⟨?_, ?_⟩
  · rw [List.length_map, hlength, Int.toNat_of_nonneg hn.1]
    exact hn
  · exact List.forall_mem_map.mpr fun b hb => hdecode b (hbs b hb)

/-- A counted list, with a loop over its elements. -/
theorem stable_loadCounted {α : Type} {P : α → Prop} {load : Reader LoadError α} (h : Stable (truncated name) P load) :
    Stable (truncated name) (fun as => L.CountRange as.length ∧ ∀ a ∈ as, P a) (loadCounted L name load) := by
  refine stable_loadInt.bind fun n hn => (stable_times h n.toNat).mono fun as ⟨hlength, has⟩ => ⟨?_, has⟩
  rw [hlength, Int.toNat_of_nonneg hn.1]
  exact hn

theorem stable_loadTagged (t : Int) : Stable (truncated name) (fun o => o.Flag → o.InRange L) (loadTagged L name t) := by
  unfold loadTagged
  split_ifs
  · exact stable_pure fun _ => trivial
  · exact stable_loadChar.map TValue.boolean fun b _ hflag => hflag b rfl
  · exact (stable_loadBlock _).map TValue.number fun b hlength _ => hlength
  · refine stable_loadString.bind fun s hs => ?_
    cases s with
    | none => exact stable_throw _
    | some s => exact stable_pure fun _ => hs
  · exact stable_pure fun _ => trivial

theorem stable_loadUpvalue : Stable (truncated name) (fun u => u.name = none) (loadUpvalue name) :=
  stable_loadByte.bind fun _ _ => stable_loadByte.map _ fun _ _ => rfl

theorem stable_loadLocVar : Stable (truncated name) (LocVar.InRange L) (loadLocVar L name) :=
  stable_loadString.bind fun _ hvarname => stable_loadInt.bind fun _ hstartpc =>
    stable_loadInt.map _ fun _ hendpc => ⟨hvarname, hstartpc, hendpc⟩

theorem length_setNames {upvalues : List Upvaldesc} {names : List (Option Bytes)} (h : names.length ≤ upvalues.length) :
    (setNames upvalues names).length = upvalues.length := by
  rw [setNames, List.length_append, List.length_map, List.length_zip, List.length_drop]
  omega

theorem name_setNames {upvalues : List Upvaldesc} {names : List (Option Bytes)} {u : Upvaldesc}
    (hnone : ∀ u ∈ upvalues, u.name = none) (h : u ∈ setNames upvalues names) : u.name = none ∨ u.name ∈ names := by
  rcases List.mem_append.mp h with hzip | hdrop
  · obtain ⟨⟨v, s⟩, hmem, rfl⟩ := List.mem_map.mp hzip
    exact .inr (List.of_mem_zip hmem).2
  · exact .inl (hnone u (List.mem_of_mem_drop hdrop))

/-- What `loadDebug` sets, and how it fits the layout. -/
def DebugOf (L : Layout) (f g : Proto) : Prop :=
  ∃ source lineinfo locvars upvalues, g = { f with source, lineinfo, locvars, upvalues } ∧
    upvalues.length = f.upvalues.length ∧ (∀ u ∈ upvalues, stringInRange L u.name) ∧ stringInRange L source ∧
    L.CountRange lineinfo.length ∧ (∀ x ∈ lineinfo, L.IntRange x) ∧
    L.CountRange locvars.length ∧ ∀ v ∈ locvars, v.InRange L

theorem stable_loadDebug {f : Proto} (hnone : ∀ u ∈ f.upvalues, u.name = none) :
    Stable (truncated name) (DebugOf L f) (loadDebug L name f) := by
  have hlineinfo : Stable (truncated name) (fun as => L.CountRange as.length ∧ ∀ x ∈ as, L.IntRange x)
      (loadLineinfo L name) := by
    refine stable_decoded _ fun b hlength => ?_
    have hrange := decodeInt_range L.littleEndian b
    rw [hlength] at hrange
    exact hrange
  refine stable_loadString.bind fun source hsource => hlineinfo.bind fun lineinfo ⟨hsizelineinfo, hlineinfo⟩ => ?_
  refine (stable_loadCounted stable_loadLocVar).bind fun locvars ⟨hsizelocvars, hlocvars⟩ => ?_
  refine (stable_loadCounted stable_loadString).bind fun names ⟨_, hnames⟩ => ?_
  split_ifs with hlt
  · exact stable_throw _
  · refine stable_pure ⟨source, lineinfo, locvars, _, rfl, length_setNames (not_lt.mp hlt), ?_, hsource, hsizelineinfo,
      hlineinfo, hsizelocvars, hlocvars⟩
    intro u hu
    rcases name_setNames hnone hu with hname | hmem
    · rw [hname]
      exact nofun
    · exact hnames _ hmem

/-- By induction on the fuel. -/
theorem stable_loadFunction (fuel : Nat) :
    Stable (truncated name) (fun f => f.Flags → f.InRange L) (loadFunction L name fuel) := by
  induction fuel with
  | zero => exact stable_throw _
  | succ fuel ih =>
    have hconstant : Stable (truncated name) (fun o => o.Flag → o.InRange L) (loadConstant L name) :=
      stable_loadChar.bind fun t _ => stable_loadTagged t
    have hcode : Stable (truncated name) (fun as => L.CountRange as.length ∧ ∀ i ∈ as, i < 256 ^ L.sizeofInstruction)
        (loadCode L name) := by
      refine stable_decoded _ fun b hlength => ?_
      have hlt := decodeNat_lt L.littleEndian b
      rwa [hlength] at hlt
    refine stable_loadInt.bind fun linedefined hlinedefined => stable_loadInt.bind fun lastlinedefined hlastlinedefined => ?_
    refine stable_loadByte.bind fun _ _ => stable_loadByte.bind fun _ _ => stable_loadByte.bind fun _ _ => ?_
    refine hcode.bind fun code ⟨hsizecode, hcode⟩ => ?_
    refine Stable.bind (P := fun kp : List TValue × List Proto => (L.CountRange kp.1.length ∧ ∀ o ∈ kp.1, o.Flag → o.InRange L) ∧
      L.CountRange kp.2.length ∧ ∀ f ∈ kp.2, f.Flags → f.InRange L) ?_ fun ⟨k, p⟩ ⟨⟨hsizek, hk⟩, hsizep, hp⟩ => ?_
    · exact (stable_loadCounted hconstant).bind fun k hk => (stable_loadCounted ih).map _ fun p hp => ⟨hk, hp⟩
    · refine (stable_loadCounted stable_loadUpvalue).bind fun upvalues ⟨hsizeupvalues, hupvalues⟩ => ?_
      refine (stable_loadDebug hupvalues).mono ?_
      rintro _ ⟨source, lineinfo, locvars, upvalues', rfl, hlength, hnames, hsource, hsizelineinfo, hlineinfo, hsizelocvars,
        hlocvars⟩ ⟨hflags, hnested⟩
      refine .mk hlinedefined hlastlinedefined hsizecode hcode hsizek (fun o ho => hk o ho (hflags o ho)) hsizep
        (fun g hg => hp g hg (hnested g hg)) ?_ hnames hsource hsizelineinfo hlineinfo hsizelocvars hlocvars
      rw [hlength]
      exact hsizeupvalues

/-- More fuel changes nothing but running out of it. -/
theorem loadFunction_extends {n m : Nat} (h : n ≤ m) :
    Extends .outOfFuel (loadFunction L name n) (loadFunction L name m) := by
  induction n generalizing m with
  | zero => exact extends_throw _
  | succ n ih =>
    obtain ⟨m, rfl⟩ : ∃ k, m = k + 1 := ⟨m - 1, by omega⟩
    have hfunctions : Extends .outOfFuel (loadCounted L name (loadFunction L name n))
        (loadCounted L name (loadFunction L name m)) :=
      (extends_refl _).bind fun count => extends_times (ih (by omega)) _
    refine (extends_refl _).bind fun _ => (extends_refl _).bind fun _ => (extends_refl _).bind fun _ => ?_
    refine (extends_refl _).bind fun _ => (extends_refl _).bind fun _ => (extends_refl _).bind fun _ => ?_
    refine Extends.bind ?_ fun _ => extends_refl _
    exact (extends_refl _).bind fun _ => hfunctions.bind fun _ => extends_refl _

/-- With enough fuel for the input, it does not matter how much. -/
theorem loadFunction_eq {n m : Nat} {input : Bytes} (hn : input.length < n) (hm : input.length < m) :
    loadFunction L name n input = loadFunction L name m input := by
  wlog hle : n ≤ m generalizing n m
  · exact (this hm hn (Nat.le_of_not_le hle)).symm
  exact (loadFunction_extends hle input (loadFunction_fuel L name n input hn).1).symm

/-- `luaU_undump` has enough fuel whatever comes behind its input. -/
theorem stable_rest : Stable (truncated name) (fun f => f.Flags → f.InRange L)
    (do let input ← get
        loadFunction L name (input.length + 1)) := by
  intro input more
  have hfuel : loadFunction L name (input.length + 1) input =
      loadFunction L name ((input ++ more).length + 1) input :=
    loadFunction_eq (by omega) (by rw [List.length_append]; omega)
  show (∀ f rest, loadFunction L name (input.length + 1) input = _ → _ ∧
    loadFunction L name ((input ++ more).length + 1) (input ++ more) = _) ∧
    ∀ e, loadFunction L name (input.length + 1) input = _ → _ →
      loadFunction L name ((input ++ more).length + 1) (input ++ more) = _
  rw [hfuel]
  exact stable_loadFunction _ input more

theorem stable_luaUUndump : Stable (truncated (chunkName name)) (fun f => f.Flags → f.InRange L) (luaUUndump L name) := by
  have hheader : Stable (truncated (chunkName name)) (fun _ => True) (loadHeader L (chunkName name)) := by
    refine (stable_loadBlock _).bind fun rest _ => ?_
    simp only
    split_ifs
    · exact stable_pure trivial
    all_goals exact stable_throw _
  exact hheader.bind fun _ _ => stable_rest

/-! ### Chunks -/

/-- The chunk of a function. -/
def compiled (L : Layout) (strip : Bool) (f : Proto) : Bytes :=
  (compile L { mWriter := writer, mData := [], mStrip := strip, mStatus := 0 } f writer [] strip).2.mData

theorem reads_chunk {f : Proto} (h : f.InRange L) (strip : Bool) (name : String) :
    ∃ bs, compiled L strip f = luaSignature.take 1 ++ bs ∧ Reads (luaUUndump L name) bs (f.dumped strip) := by
  obtain ⟨blocks, hd, hr⟩ := function_roundTrip strip (chunkName name) h
  refine ⟨(header L).drop 1 ++ blocks.flatten, ?_, ?_⟩
  · rw [compiled, compile_of_dumps hd, ← List.append_assoc]
    rfl
  · refine Reads.bind (reads_loadHeader L _) fun rest => ?_
    exact hr ((blocks.flatten ++ rest).length + 1) (by rw [List.length_append]; omega) rest

theorem header_isPrefix (L : Layout) (strip : Bool) (f : Proto) : header L <+: compiled L strip f := by
  obtain ⟨blocks, h⟩ := hasBlocks_function L strip f
  rw [compiled, compile_of_dumps h]
  exact List.prefix_append _ _

theorem loadChunk_compiled {f : Proto} (h : f.InRange L) (strip : Bool) (name : String) (rest : Bytes) :
    loadChunk L name (compiled L strip f ++ rest) = .ok (f.dumped strip, rest) := by
  obtain ⟨bs, hbs, hreads⟩ := reads_chunk h strip name
  rw [hbs]
  exact hreads rest

theorem loadChunk_eq_ok {input rest : Bytes} {f : Proto} (h : loadChunk L name input = .ok (f, rest)) :
    ∃ bs, input = 0x1B :: bs ∧ luaUUndump L name bs = .ok (f, rest) := by
  cases input with
  | nil => cases h
  | cons c bs =>
    change (if [c] = luaSignature.take 1 then luaUUndump L name else throw .notBinary : Reader LoadError Proto) bs = _ at h
    split_ifs at h with hsignature
    · rw [List.head_eq_of_cons_eq hsignature]
      exact ⟨bs, rfl, h⟩
    · cases h

/-- A chunk that is cut off behind its first character is truncated, wherever that is. -/
theorem loadChunk_truncated {f : Proto} (h : f.InRange L) (strip : Bool) (name : String) {input : Bytes}
    (hnil : input ≠ []) (hcut : input <+: compiled L strip f) (hne : input ≠ compiled L strip f) :
    loadChunk L name input = .error (.because (chunkName name) "truncated") := by
  obtain ⟨bs, hbs, hreads⟩ := reads_chunk h strip name
  rw [hbs] at hcut hne
  cases input with
  | nil => exact absurd rfl hnil
  | cons c input =>
    have hsplit : luaSignature.take 1 ++ bs = 0x1B :: bs := rfl
    rw [hsplit] at hcut hne
    obtain ⟨rfl, hcut'⟩ := List.cons_prefix_cons.mp hcut
    exact stable_luaUUndump.of_prefix hreads hcut' fun heq => hne (congrArg (0x1B :: ·) heq)

theorem loadChunk_truncated_version :
    loadChunk layout64 "=a" ((header layout64).take 5) = .error (.because (chunkName "=a") "truncated") := by
  refine loadChunk_truncated outerProto_inRange true "=a" (by decide)
    ((List.take_prefix 5 _).trans (header_isPrefix layout64 true outerProto)) fun heq => ?_
  have hle := (header_isPrefix layout64 true outerProto).length_le
  rw [← heq, length_header] at hle
  exact absurd hle (by decide)

/-- What was loaded from any bytes fits the layout when its boolean constants do, and then it is dumped as a chunk
from which it is loaded again. -/
theorem loadChunk_accepted {input rest : Bytes} {f : Proto} (h : loadChunk L name input = .ok (f, rest)) :
    (f.InRange L ↔ f.Flags) ∧
      (f.Flags → ∀ name' more, loadChunk L name' (compiled L false f ++ more) = .ok (f, more)) := by
  obtain ⟨bs, rfl, hundump⟩ := loadChunk_eq_ok h
  have hrange := ((stable_luaUUndump bs []).1 f rest hundump).1
  exact ⟨⟨Proto.InRange.flags, hrange⟩, fun hflags name' more => loadChunk_compiled (hrange hflags) false name' more⟩

theorem loadChunk_accepted_outerProto :
    (outerProto.stripped.InRange layout64 ↔ outerProto.stripped.Flags) ∧
      (outerProto.stripped.Flags → ∀ name' more,
        loadChunk layout64 name' (compiled layout64 false outerProto.stripped ++ more) = .ok (outerProto.stripped, more)) :=
  loadChunk_accepted (loadChunk_compiled outerProto_inRange true "=a" [7])

end Undump

end MetaEditor
