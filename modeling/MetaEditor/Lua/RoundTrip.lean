import MetaEditor.Lua.Blocks
import MetaEditor.Lua.Undump

/-!
# Loading what was dumped

`RoundTrip` joins the blocks of a dumper with a loader that reads exactly these bytes and returns the
value. The pieces are put together in the order of the chunk, and the functions by induction on the tree:
a nested function is shorter than the function around it, so that it still has fuel.
-/

namespace MetaEditor

open Lib Undump LuaCompiler

/-- What the dumper writes is read back by the loader. -/
def RoundTrip {α : Type} (strip : Bool) (d : Dumper) (p : Reader LoadError α) (a : α) : Prop :=
  ∃ blocks, Dumps strip d blocks ∧ Reads p blocks.flatten a

section Rules

variable {α β : Type} {strip : Bool} {d d' : Dumper} {blocks blocks' : List Bytes}

theorem RoundTrip.seq {p : Reader LoadError α} {f : α → Reader LoadError β} {a : α} {b : β}
    (h : RoundTrip strip d p a) (h' : RoundTrip strip d' (f a) b) :
    RoundTrip strip (fun σ lc => d' σ (d σ lc)) (p >>= f) b := by
  obtain ⟨blocks, hd, hr⟩ := h
  obtain ⟨blocks', hd', hr'⟩ := h'
  refine ⟨blocks ++ blocks', hd.seq hd', ?_⟩
  rw [List.flatten_append]
  exact hr.bind hr'

theorem RoundTrip.seq_pure {p : Reader LoadError α} {f : α → Reader LoadError β} {a : α} {b : β}
    (h : RoundTrip strip d p a) (hf : f a = pure b) : RoundTrip strip d (p >>= f) b := by
  obtain ⟨blocks, hd, hr⟩ := h
  exact ⟨blocks, hd, hr.bind_pure hf⟩

/-- A block that one reading takes. -/
theorem roundTrip_block {p : Reader LoadError α} {b : Bytes} {a : α} (h : Reads p b a) :
    RoundTrip strip (fun _ => dumpBlock b) p a :=
  ⟨[b], dumps_block b, by simpa using h⟩

/-- A loop of the dumper against a loop of the loader. -/
theorem roundTrip_each (dump : (σ : Type) → α → LuaCompiler σ → LuaCompiler σ) {p : Reader LoadError β} (g : α → β)
    (as : List α) (h : ∀ a ∈ as, RoundTrip strip (fun σ => dump σ a) p (g a)) :
    RoundTrip strip (fun σ => dumpEach (dump σ) as) (Reader.times as.length p) (as.map g) := by
  induction as with
  | nil => exact ⟨[], dumps_id, reads_pure []⟩
  | cons a as ih =>
    have hhead := h a (.head _)
    have htail := ih fun a' ha' => h a' (.tail _ ha')
    have h' := hhead.seq (f := fun b => Reader.times as.length p >>= fun bs => pure (b :: bs))
      (htail.seq_pure (f := fun bs => pure (g a :: bs)) rfl)
    exact h'

end Rules

section Pieces

variable {L : Layout} (strip : Bool) (name : String)

theorem reads_loadInt {x : Int} (h : L.CountRange x) : Reads (loadInt L name) (L.intBytes x) x := by
  have hrange := h.intRange
  have hlen : (L.intBytes x).length = L.sizeofInt := length_encodeInt _ _ _
  have hx : decodeInt L.littleEndian (L.intBytes x) = x := decodeInt_encodeInt hrange.1 hrange.2
  have hnn : ¬x < 0 := by
    have := h.1
    omega
  refine Reads.bind_pure (reads_take hlen) ?_
  simp only [hx, if_neg hnn]

theorem roundTrip_int {x : Int} (h : L.CountRange x) : RoundTrip strip (fun _ => dumpInt L x) (loadInt L name) x := by
  simp only [dumpInt, dumpVar_eq]
  exact roundTrip_block (reads_loadInt name h)

theorem reads_loadByte (b : UInt8) : Reads (loadByte name) [b] b := by
  refine Reads.bind_pure (reads_take rfl) ?_
  rfl

theorem roundTrip_byte (b : UInt8) : RoundTrip strip (fun _ => dumpChar b.toNat) (loadByte name) b := by
  have hbyte : UInt8.ofInt b.toNat = b := by
    rw [← UInt8.toNat_inj, UInt8.ofInt, UInt8.toNat_ofNat']
    have hlt := b.toNat_lt
    omega
  simp only [dumpChar, dumpVar_eq, hbyte]
  exact roundTrip_block (reads_loadByte name b)

theorem roundTrip_char {t : Int} (hnn : 0 ≤ t) (hlt : t < 128) :
    RoundTrip strip (fun _ => dumpChar t) (loadChar L name) t := by
  have hnat : (UInt8.ofInt t).toNat = t.toNat := by
    rw [UInt8.ofInt, UInt8.toNat_ofNat']
    omega
  have hsmall : ¬(L.charSigned = true ∧ 128 ≤ UInt8.ofInt t) := by
    rintro ⟨-, hge⟩
    rw [UInt8.le_iff_toNat_le, hnat] at hge
    have h128 : (128 : UInt8).toNat = 128 := rfl
    omega
  simp only [dumpChar, dumpVar_eq]
  refine roundTrip_block (Reads.bind_pure (reads_loadByte name _) ?_)
  rw [if_neg hsmall, hnat, Int.toNat_of_nonneg hnn]

theorem roundTrip_number {n : Bytes} (h : n.length = L.sizeofNumber) :
    RoundTrip strip (fun _ => dumpNumber n) (loadNumber L name) n := by
  simp only [dumpNumber, dumpVar_eq]
  exact roundTrip_block (reads_take h)

theorem roundTrip_string {s : Option Bytes} (h : stringInRange L s) :
    RoundTrip strip (fun _ => dumpString L s) (loadString L name) s := by
  have hpos : 0 < 256 ^ L.sizeofSizet := by positivity
  have hsize : ∀ {x : Nat}, x < 256 ^ L.sizeofSizet → RoundTrip strip (fun _ => dumpVar (L.sizetBytes x))
      (loadBlock name L.sizeofSizet) (L.sizetBytes x) ∧ decodeNat L.littleEndian (L.sizetBytes x) = x := by
    intro x hx
    simp only [dumpVar_eq]
    exact ⟨roundTrip_block (reads_take (length_encodeNat _ _ _)), decodeNat_encodeNat hx⟩
  cases s with
  | none =>
    obtain ⟨hround, hzero⟩ := hsize hpos
    refine hround.seq_pure ?_
    simp only [hzero]
    rfl
  | some s =>
    obtain ⟨hround, hval⟩ := hsize (h s rfl)
    refine hround.seq (roundTrip_block ?_)
    simp only [hval, Nat.add_eq_zero_iff, one_ne_zero, and_false, if_false, Nat.add_sub_cancel]
    exact (reads_take (by simp)).bind_pure (by simp)

theorem elements_flatten {size : Nat} (bs : List Bytes) (h : ∀ b ∈ bs, b.length = size) :
    elements size bs.length bs.flatten = bs := by
  induction bs with
  | nil => rfl
  | cons b bs ih =>
    have hb := h b (.head _)
    rw [List.length_cons, List.flatten_cons, elements, ← hb, List.take_left, List.drop_left, hb,
      ih fun b' hb' => h b' (.tail _ hb')]

theorem reads_loadVector {size : Nat} (bs : List Bytes) (h : ∀ b ∈ bs, b.length = size) :
    Reads (loadVector name bs.length size) bs.flatten bs := by
  have hlen : bs.flatten.length = bs.length * size := by
    rw [List.length_flatten, List.map_congr_left h, List.map_const', List.sum_replicate, smul_eq_mul]
  refine (reads_take hlen).bind_pure ?_
  rw [elements_flatten bs h]

/-- A vector of numbers: the count, and the elements in one block. -/
theorem roundTrip_vector {α : Type} {encode : α → Bytes} {decode : Bytes → α} {size : Nat} (as : List α)
    (hcount : L.CountRange as.length) (hlen : ∀ a, (encode a).length = size) (hdecode : ∀ a ∈ as, decode (encode a) = a) :
    RoundTrip strip (fun _ => dumpVector L (as.map encode))
      (do let n ← loadInt L name
          let bs ← loadVector name n.toNat size
          return bs.map decode) as := by
  have hmap : (as.map encode).map decode = as := by
    rw [List.map_map]
    exact (List.map_congr_left hdecode).trans (List.map_id as)
  have hblock : RoundTrip strip (fun _ => dumpMem (as.map encode)) (loadVector name (as.length : Int).toNat size)
      (as.map encode) := by
    have hread : Reads (loadVector name (as.map encode).length size) _ _ :=
      reads_loadVector name (as.map encode) (by simpa using fun a _ => hlen a)
    rw [List.length_map] at hread
    exact roundTrip_block hread
  have hint : RoundTrip strip (fun _ => dumpInt L (as.map encode).length) (loadInt L name) as.length := by
    rw [List.length_map]
    exact roundTrip_int strip name hcount
  have h := hint.seq (f := fun n => loadVector name n.toNat size >>= fun bs => pure (bs.map decode))
    (hblock.seq_pure (f := fun bs => pure (bs.map decode)) (by rw [hmap]))
  exact h

theorem roundTrip_constant {o : TValue} (h : o.InRange L) :
    RoundTrip strip (fun _ => dumpConstant L o) (loadConstant L name) o := by
  have htag : ∀ {t : Int} {d : Dumper}, 0 ≤ t → t < 128 → RoundTrip strip d (loadTagged L name t) o →
      RoundTrip strip (fun σ lc => d σ (dumpChar t lc)) (loadConstant L name) o :=
    fun hnn hlt hvalue => (roundTrip_char strip name hnn hlt).seq hvalue
  cases o with
  | nil =>
    refine RoundTrip.seq_pure (roundTrip_char strip name (le_refl 0) (by decide)) ?_
    rfl
  | boolean b =>
    refine htag (d := fun _ => dumpChar b) (by decide) (by decide) ?_
    refine RoundTrip.seq_pure (roundTrip_char strip name h.1 h.2) ?_
    rfl
  | number n =>
    refine htag (d := fun _ => dumpNumber n) (by decide) (by decide) ?_
    refine RoundTrip.seq_pure (roundTrip_number strip name h) ?_
    rfl
  | string s =>
    refine htag (d := fun _ => dumpString L (some s)) (by decide) (by decide) ?_
    refine RoundTrip.seq_pure (roundTrip_string strip name h) ?_
    rfl

/-- The upvalues come back without their names. -/
theorem roundTrip_upvalue (u : Upvaldesc) :
    RoundTrip strip (fun _ => dumpUpvalue u) (loadUpvalue name) u.unnamed := by
  obtain ⟨b, hd, hr⟩ := roundTrip_byte strip name u.instack
  obtain ⟨b', hd', hr'⟩ := roundTrip_byte strip name u.idx
  refine ⟨b ++ b', hd.seq hd', ?_⟩
  rw [List.flatten_append]
  refine Reads.bind hr (Reads.bind_pure hr' ?_)
  rfl

theorem roundTrip_locVar {v : LocVar} (h : v.InRange L) :
    RoundTrip strip (fun _ => dumpLocVar L v) (loadLocVar L name) v := by
  obtain ⟨hvarname, hstartpc, hendpc⟩ := h
  obtain ⟨b, hd, hr⟩ := roundTrip_string strip name hvarname
  obtain ⟨b', hd', hr'⟩ := roundTrip_int strip name hstartpc
  obtain ⟨b'', hd'', hr''⟩ := roundTrip_int strip name hendpc
  refine ⟨b ++ b' ++ b'', (hd.seq hd').seq hd'', ?_⟩
  rw [List.flatten_append, List.flatten_append, List.append_assoc]
  refine Reads.bind hr (Reads.bind hr' (Reads.bind_pure hr'' ?_))
  rfl

/-- A counted list, with a loop over its elements. -/
theorem roundTrip_counted {α β : Type} (dump : (σ : Type) → α → LuaCompiler σ → LuaCompiler σ)
    {p : Reader LoadError β} (g : α → β) (as : List α) (hcount : L.CountRange as.length)
    (h : ∀ a ∈ as, RoundTrip strip (fun σ => dump σ a) p (g a)) :
    RoundTrip strip (fun σ lc => lc |> dumpInt L as.length |> dumpEach (dump σ) as) (loadCounted L name p) (as.map g) :=
  (roundTrip_int strip name hcount).seq (f := fun n => Reader.times n.toNat p) (roundTrip_each dump g as h)

theorem roundTrip_upvalues (f : Proto) (h : L.CountRange f.upvalues.length) :
    RoundTrip strip (fun _ => dumpUpvalues L f) (loadUpvalues L name)
      (f.upvalues.map Upvaldesc.unnamed) :=
  roundTrip_counted strip name (fun _ => dumpUpvalue) Upvaldesc.unnamed f.upvalues h
    fun u _ => roundTrip_upvalue strip name u

theorem roundTrip_code {f : Proto} (hcount : L.CountRange f.code.length)
    (h : ∀ i ∈ f.code, i < 256 ^ L.sizeofInstruction) :
    RoundTrip strip (fun _ => dumpCode L f) (loadCode L name) f.code :=
  roundTrip_vector strip name f.code hcount (fun _ => length_encodeNat _ _ _) fun i hi => decodeNat_encodeNat (h i hi)

/-- The debug information that is dumped, read into a function `g`. -/
theorem roundTrip_debugParts {g : Proto} {source : Option Bytes} {lineinfo : List Int} {locvars : List LocVar}
    {upvalues : List Upvaldesc} (hsource : stringInRange L source) (hsizelineinfo : L.CountRange lineinfo.length)
    (hlineinfo : ∀ x ∈ lineinfo, L.IntRange x) (hsizelocvars : L.CountRange locvars.length)
    (hlocvars : ∀ v ∈ locvars, v.InRange L) (hsizeupvalues : L.CountRange upvalues.length)
    (hnames : ∀ u ∈ upvalues, stringInRange L u.name) (hle : upvalues.length ≤ g.upvalues.length) :
    RoundTrip strip (fun _ lc => lc |> dumpString L source
      |> dumpVector L (lineinfo.map L.intBytes)
      |> dumpInt L locvars.length
      |> dumpEach (dumpLocVar L) locvars
      |> dumpInt L upvalues.length
      |> dumpEach (fun u => dumpString L u.name) upvalues) (loadDebug L name g)
      { g with source, lineinfo, locvars, upvalues := setNames g.upvalues (upvalues.map Upvaldesc.name) } := by
  have hint : ∀ x ∈ lineinfo, decodeInt L.littleEndian (L.intBytes x) = x := fun x hx =>
    decodeInt_encodeInt (hlineinfo x hx).1 (hlineinfo x hx).2
  obtain ⟨b₁, hd₁, hr₁⟩ := roundTrip_string strip name hsource
  obtain ⟨b₂, hd₂, hr₂⟩ := roundTrip_vector strip name lineinfo hsizelineinfo
    (fun _ => length_encodeInt _ _ _) hint
  obtain ⟨b₃, hd₃, hr₃⟩ := roundTrip_counted strip name (fun _ => dumpLocVar L) id locvars hsizelocvars
    fun v hv => roundTrip_locVar strip name (hlocvars v hv)
  obtain ⟨b₄, hd₄, hr₄⟩ := roundTrip_counted strip name (fun _ u => dumpString L u.name) Upvaldesc.name upvalues
    hsizeupvalues fun u hu => roundTrip_string strip name (hnames u hu)
  refine ⟨b₁ ++ b₂ ++ b₃ ++ b₄, ((hd₁.seq hd₂).seq hd₃).seq hd₄, ?_⟩
  simp only [List.flatten_append, List.append_assoc]
  refine Reads.bind hr₁ (Reads.bind hr₂ (Reads.bind hr₃ (Reads.bind_pure hr₄ ?_)))
  simp only [List.length_map, List.map_id, if_neg (not_lt.mpr hle)]

theorem setNames_unnamed (upvalues : List Upvaldesc) :
    setNames (upvalues.map Upvaldesc.unnamed) (upvalues.map Upvaldesc.name) = upvalues := by
  rw [setNames, List.drop_eq_nil_of_le (by simp), List.append_nil, List.zip_map', List.map_map]
  exact List.map_id' upvalues

theorem setNames_nil (upvalues : List Upvaldesc) : setNames upvalues [] = upvalues := by
  simp [setNames]

/-- What is left of a list in a stripped chunk. -/
theorem forall_unless {α : Type} {P : α → Prop} {as : List α} (h : ∀ a ∈ as, P a) :
    ∀ a ∈ (if strip then [] else as), P a := by
  cases strip
  · exact h
  · simp

theorem countRange_unless {α : Type} {as : List α} (h : L.CountRange as.length) :
    L.CountRange (if strip then [] else as).length := by
  cases strip
  · exact h
  · exact ⟨le_refl _, by simp⟩

theorem roundTrip_debug {f g : Proto} (h : f.InRange L) (hg : g.upvalues = f.upvalues.map Upvaldesc.unnamed) :
    RoundTrip strip (fun _ => dumpDebug L f) (loadDebug L name g)
      (if strip then { g with source := none, lineinfo := [], locvars := [] }
        else { g with source := f.source, lineinfo := f.lineinfo, locvars := f.locvars, upvalues := f.upvalues }) := by
  obtain ⟨-, -, -, -, -, -, -, -, hsizeupvalues, hnames, hsource, hsizelineinfo, hlineinfo, hsizelocvars, hlocvars⟩ := h
  have hsource' : stringInRange L (if strip then none else f.source) := by
    cases strip
    · exact hsource
    · simp [stringInRange]
  have hle : (if strip then [] else f.upvalues).length ≤ g.upvalues.length := by
    rw [hg, List.length_map]
    split_ifs <;> simp
  obtain ⟨blocks, hd, hr⟩ := roundTrip_debugParts strip name hsource' (countRange_unless strip hsizelineinfo)
    (forall_unless strip hlineinfo) (countRange_unless strip hsizelocvars) (forall_unless strip hlocvars)
    (countRange_unless strip hsizeupvalues) (forall_unless strip hnames) hle
  refine ⟨blocks, fun σ lc hstrip => ?_, ?_⟩
  · rw [← hd σ lc hstrip]
    unfold dumpDebug
    simp only [hstrip]
  · convert hr using 1
    cases strip
    · simp [hg, setNames_unnamed]
    · simp [setNames_nil]

end Pieces

/-! ### Functions -/

/-- What is loaded after `f` was dumped. -/
def Proto.dumped (strip : Bool) (f : Proto) : Proto := if strip then f.stripped else f

/-- `dumpFunction` against `loadFunction`, with more fuel than bytes. -/
def FunctionRoundTrip (L : Layout) (strip : Bool) (name : String) (f : Proto) : Prop :=
  ∃ blocks, Dumps strip (fun _ => dumpFunction L f) blocks ∧ ∀ fuel, blocks.flatten.length < fuel →
    Reads (loadFunction L name fuel) blocks.flatten (f.dumped strip)

section Functions

variable {L : Layout} (strip : Bool) (name : String)

theorem functions_roundTrip (fs : List Proto) (h : ∀ f ∈ fs, FunctionRoundTrip L strip name f) :
    ∃ blocks, Dumps strip (fun _ => dumpFunctions L fs) blocks ∧ ∀ fuel, blocks.flatten.length < fuel →
      Reads (Reader.times fs.length (loadFunction L name fuel)) blocks.flatten (fs.map (Proto.dumped strip)) := by
  induction fs with
  | nil => exact ⟨[], fun _ _ _ => rfl, fun _ _ => reads_pure []⟩
  | cons f fs ih =>
    obtain ⟨b, hd, hr⟩ := h f (.head _)
    obtain ⟨b', hd', hr'⟩ := ih fun g hg => h g (.tail _ hg)
    refine ⟨b ++ b', hd.seq hd', fun fuel hlt => ?_⟩
    rw [List.flatten_append, List.length_append] at hlt
    rw [List.flatten_append]
    refine Reads.bind (hr fuel (by omega)) (Reads.bind_pure (hr' fuel (by omega)) ?_)
    rfl

theorem dumped_eq (f : Proto) : f.dumped strip =
    if strip then
      { f with p := f.p.map (Proto.dumped strip), upvalues := f.upvalues.map Upvaldesc.unnamed, source := none,
               lineinfo := [], locvars := [] }
    else { f with p := f.p.map (Proto.dumped strip) } := by
  cases strip with
  | false =>
    have hid : Proto.dumped false = id := by
      funext g
      rfl
    cases f
    simp [hid]
  | true =>
    have hstripped : Proto.dumped true = Proto.stripped := by
      funext g
      rfl
    obtain ⟨_, _, _, _, _, _, _, p, _, _, _, _⟩ := f
    rw [hstripped, Proto.stripped, Proto.strippedAll_eq_map]
    rfl

/-- By induction on the tree. -/
theorem function_roundTrip {f : Proto} (h : f.InRange L) : FunctionRoundTrip L strip name f := by
  induction h with
  | @mk f hlinedefined hlastlinedefined hsizecode hcode hsizek hk hsizep hp hsizeupvalues hnames hsource hsizelineinfo
      hlineinfo hsizelocvars hlocvars ih =>
    have hrange : f.InRange L := .mk hlinedefined hlastlinedefined hsizecode hcode hsizek hk hsizep hp hsizeupvalues hnames
      hsource hsizelineinfo hlineinfo hsizelocvars hlocvars
    have hd₁ : Dumps strip (fun _ => dumpInt L f.linedefined) [L.intBytes f.linedefined] := by
      simp only [dumpInt, dumpVar_eq]
      exact dumps_block _
    have hr₁ := reads_loadInt name hlinedefined
    have hpos : 0 < (L.intBytes f.linedefined).length := by
      rw [Layout.intBytes, length_encodeInt]
      exact L.sizeofInt_pos
    obtain ⟨b₂, hd₂, hr₂⟩ := roundTrip_int strip name hlastlinedefined
    obtain ⟨b₃, hd₃, hr₃⟩ := roundTrip_byte strip name f.numparams
    obtain ⟨b₄, hd₄, hr₄⟩ := roundTrip_byte strip name f.isVararg
    obtain ⟨b₅, hd₅, hr₅⟩ := roundTrip_byte strip name f.maxstacksize
    obtain ⟨b₆, hd₆, hr₆⟩ := roundTrip_code strip name hsizecode hcode
    obtain ⟨b₇, hd₇, hr₇⟩ := roundTrip_counted strip name (fun _ => dumpConstant L) id f.k hsizek
      fun o ho => roundTrip_constant strip name (hk o ho)
    obtain ⟨b₈, hd₈, hr₈⟩ := roundTrip_int strip name hsizep
    obtain ⟨b₉, hd₉, hr₉⟩ := functions_roundTrip strip name f.p ih
    obtain ⟨b₁₀, hd₁₀, hr₁₀⟩ := roundTrip_upvalues strip name f hsizeupvalues
    obtain ⟨b₁₁, hd₁₁, hr₁₁⟩ := roundTrip_debug strip name hrange
      (g := { f with p := f.p.map (Proto.dumped strip), upvalues := f.upvalues.map Upvaldesc.unnamed, source := none,
                     lineinfo := [], locvars := [] }) rfl
    have hconstants := ((hd₇.seq hd₈).seq hd₉)
    refine ⟨[L.intBytes f.linedefined] ++ b₂ ++ b₃ ++ b₄ ++ b₅ ++ b₆ ++ (b₇ ++ b₈ ++ b₉) ++ b₁₀ ++ b₁₁,
      fun σ lc hstrip => ?_, fun fuel hlt => ?_⟩
    · show dumpFunction L f lc = _
      rw [dumpFunction_eq]
      exact (((((((((hd₁.seq hd₂).seq hd₃).seq hd₄).seq hd₅).seq hd₆).seq hconstants).seq hd₁₀).seq hd₁₁)) σ lc hstrip
    · simp only [List.flatten_append, List.length_append, List.flatten_singleton] at hlt
      obtain ⟨fuel, rfl⟩ : ∃ n, fuel = n + 1 := ⟨fuel - 1, by omega⟩
      simp only [List.flatten_append, List.append_assoc, List.flatten_singleton]
      have hfunctions : Reads (loadCounted L name (loadFunction L name fuel)) (b₈.flatten ++ b₉.flatten)
          (f.p.map (Proto.dumped strip)) := Reads.bind hr₈ (hr₉ fuel (by omega))
      rw [loadFunction]
      refine Reads.bind hr₁ (Reads.bind hr₂ (Reads.bind hr₃ (Reads.bind hr₄ (Reads.bind hr₅ (Reads.bind hr₆ ?_)))))
      rw [← List.append_assoc b₈.flatten, ← List.append_assoc b₇.flatten]
      refine Reads.bind (Reads.bind hr₇ (Reads.bind_pure hfunctions rfl)) (Reads.bind hr₁₀ ?_)
      rw [List.map_id, dumped_eq]
      exact hr₁₁

end Functions

/-! ### Chunks -/

/-- The loader accepts the header of the dumper. -/
theorem reads_loadHeader (L : Layout) (name : String) : Reads (loadHeader L name) ((header L).drop 1) () := by
  have hlen : ((header L).drop 1).length = luacHeaderSize - 1 := by rw [List.length_drop, length_header]
  have hsame : luaUHeader L = (luaUHeader L).take 1 ++ (header L).drop 1 := (List.take_append_drop 1 (header L)).symm
  refine Reads.bind_pure (reads_take hlen) ?_
  simp only
  rw [if_pos hsame]

/-- A chunk that was compiled is loaded as the function it was compiled from, stripped or not, and
nothing behind it is read. -/
theorem loadChunk_compile {L : Layout} {f : Proto} (h : f.InRange L) (strip : Bool) (name : String) (rest : Bytes)
    (lc : LuaCompiler Bytes) :
    (lc.compile L f writer [] strip).1 = 0 ∧
      loadChunk L name ((lc.compile L f writer [] strip).2.mData ++ rest) =
        .ok (if strip then f.stripped else f, rest) := by
  obtain ⟨blocks, hd, hr⟩ := function_roundTrip strip (chunkName name) h
  rw [compile_of_dumps hd]
  refine ⟨rfl, ?_⟩
  have hfunction : Reads (do
      let input ← get
      loadFunction L (chunkName name) (input.length + 1)) blocks.flatten (f.dumped strip) := by
    intro rest
    exact hr ((blocks.flatten ++ rest).length + 1) (by rw [List.length_append]; omega) rest
  have hsplit : header L ++ blocks.flatten = luaSignature.take 1 ++ ((header L).drop 1 ++ blocks.flatten) := by
    rw [← List.append_assoc]
    rfl
  have hchunk : Reads (loadChunk L name) (header L ++ blocks.flatten) (f.dumped strip) := by
    rw [hsplit]
    refine Reads.bind (reads_take rfl) ?_
    rw [if_pos rfl]
    exact Reads.bind (reads_loadHeader L _) hfunction
  exact hchunk rest

/-- A function without a source and with a string constant that holds a NUL. -/
def innerProto : Proto :=
  { linedefined := 1, lastlinedefined := 3, numparams := 1, isVararg := 0, maxstacksize := 2, code := [0x80001F]
    k := [.nil, .boolean 1, .number [0, 0, 0, 0, 0, 0, 240, 63], .string [97, 0, 255]], p := []
    upvalues := [⟨some [120], 1, 0⟩], source := none, lineinfo := [2], locvars := [⟨some [110], 0, 1⟩] }

/-- A chunk around it. -/
def outerProto : Proto :=
  { linedefined := 0, lastlinedefined := 0, numparams := 0, isVararg := 1, maxstacksize := 2, code := [0x25, 0x80001F]
    k := [], p := [innerProto, innerProto], upvalues := [⟨some [95, 69, 78, 86], 1, 0⟩], source := some [64, 97]
    lineinfo := [3, 3], locvars := [] }

theorem innerProto_inRange : innerProto.InRange layout64 := by
  refine .mk (by decide) (by decide) (by decide) (by decide) (by decide) ?_ (by decide) (by simp [innerProto]) (by decide) ?_ ?_
    (by decide) (by decide) (by decide) ?_ <;>
  simp [innerProto, TValue.InRange, LocVar.InRange, stringInRange, layout64, Layout.CountRange]

theorem outerProto_inRange : outerProto.InRange layout64 := by
  have hinner : ∀ f ∈ outerProto.p, f.InRange layout64 := by
    intro f hf
    have : f = innerProto := by simpa [outerProto] using hf
    rw [this]
    exact innerProto_inRange
  refine .mk (by decide) (by decide) (by decide) (by decide) (by decide) ?_ (by decide) hinner (by decide) ?_ ?_
    (by decide) (by decide) (by decide) ?_ <;>
  simp [outerProto, stringInRange, layout64]

theorem loadChunk_compile_outerProto :
    let lc : LuaCompiler Bytes := { mWriter := writer, mData := [], mStrip := false, mStatus := 0 }
    (lc.compile layout64 outerProto writer [] true).1 = 0 ∧
      loadChunk layout64 "=a" ((lc.compile layout64 outerProto writer [] true).2.mData ++ [7]) =
        .ok (outerProto.stripped, [7]) :=
  loadChunk_compile outerProto_inRange true "=a" [7] _

end MetaEditor
