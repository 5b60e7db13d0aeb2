import MetaEditor.DAO.Identity
import MetaEditor.DAO.Unwrap

/-!
# Two lookups of a name

`findName` asks for the name as a string and takes any document. `read` leaves the name to `BCON_NEW`,
which takes some strings for tokens, and gives only what `unwrap` accepts and what has the very name. So a
script without a name or without data, or under the name of a token, is there for the name check of
`create` but cannot be read.
-/

namespace MetaEditor

open Lib DatabaseManager

/-- The strings `{`, `}`, `[` and `]`. -/
def bconTokens : List Bytes := [[123], [125], [91], [93]]

/-- What is assumed of `BCON_NEW("name", s)`: the tokens are these four strings and nothing longer that begins with one
of them, any other string is itself, and a token asks for no document with a string in that field. -/
structure IsBcon (bcon : Bytes → Bson) : Prop where
  bare : ∀ s ∉ bconTokens, bcon s = bareName s
  token : ∀ s ∈ bconTokens, ∀ (e : Bson) str, e.lookup "name" = some (.utf8 str) → ¬Agrees (bcon s) e

/-- The collections that calls about scripts leave of an empty one. -/
inductive Scripts : Collection → Prop
  | nil : Scripts []
  | create {m m' : DatabaseManager} {d : Driver} {s : Script} {b : Bool} {o : AnyObject} {c c' : Collection}
      (h : Scripts c) (hcall : m.create d (.script s) c = (.ok (b, o, c'), m')) : Scripts c'
  | update {m m' : DatabaseManager} {d : Driver} {s : Script} {b : Bool} {o : AnyObject} {c c' : Collection}
      (h : Scripts c) (hcall : m.update d (.script s) c = (.ok (b, o, c'), m')) : Scripts c'
  | destroy {m m' : DatabaseManager} {d : Driver} {s : Script} {b : Bool} {o : AnyObject} {c c' : Collection}
      (h : Scripts c) (hcall : m.destroy d (.script s) c = (.ok (b, o, c'), m')) : Scripts c'

/-- Whatever the driver does, `create` leaves the collection or appends the wrapped object. -/
theorem DatabaseManager.createIn_collection (d : Driver) (o : AnyObject) (c : Collection) :
    (createIn d o c).2.2 = c ∨ (createIn d o c).2.2 = c ++ [o.fields d.generated] := by
  unfold createIn
  split_ifs
  · exact .inl rfl
  · rcases insertWrapped_cases d o c with ⟨-, hc⟩ | ⟨-, hc, -⟩
    · exact .inl hc
    · exact .inr hc

/-- Every document is one of a script, without NUL in its name. -/
theorem Scripts.document {c : Collection} (h : Scripts c) :
    ∀ e ∈ c, ∃ id name chunk, e = scriptDocument id name chunk ∧ 0 ∉ name := by
  have hfields : ∀ (s : Script) generated, ∃ id name chunk,
      (AnyObject.script s).fields generated = scriptDocument id name chunk ∧ 0 ∉ name :=
    fun s generated => ⟨_, _, _, fields_script s generated, zero_notMem_cString _⟩
  induction h with
  | nil => exact nofun
  | @create _ _ d s b o c c' _ hcall ih =>
    have hc' : c' = (createIn d (.script s) c).2.2 := congrArg (·.2.2) (rest_of_withClient hcall)
    rcases createIn_collection d (.script s) c with hc | hc
    · rwa [hc', hc]
    · rw [hc', hc]
      intro e he
      rcases List.mem_append.mp he with he | he
      · exact ih e he
      · exact List.mem_singleton.mp he ▸ hfields s d.generated
  | @update _ _ d s b o c c' _ hcall ih =>
    have hc' : c' = (updateIn d (.script s) c).2.2 := congrArg (·.2.2) (rest_of_withClient hcall)
    rcases updateIn_cases d (.script s) c with hc | ⟨before, e, after, rfl, -, -, -, -, hc⟩
    · rwa [hc', hc]
    · rw [hc', hc]
      intro e' he'
      rcases mem_middle.mp he' with rfl | he'
      · obtain ⟨id, name, chunk, rfl, -⟩ := ih e (mem_middle.mpr (.inl rfl))
        obtain ⟨id', name', chunk', hset, hnul⟩ := hfields s d.generated
        exact ⟨id', name', chunk', by rw [hset, setFields_scriptDocument], hnul⟩
      · exact ih e' (mem_middle.mpr (.inr he'))
  | @destroy _ _ d s b o c c' _ hcall ih =>
    have hc' : c' = (destroyIn d (.script s) c).2.2 := congrArg (·.2.2) (rest_of_withClient hcall)
    rcases destroyIn_cases d (.script s) c with hc | hc
    · rwa [hc', hc]
    · rw [hc', hc]
      exact fun e he => ih e (List.mem_of_mem_filter he)

section Lookups

variable {c : Collection} {d : Driver} {bcon : Bytes → Bson} {name : Bytes}

/-- A document of a script is read back when its name is the one that is asked for and there is data. -/
theorem isSome_readNext_scriptDocument {id : Oid} {name' chunk : Bytes} (hnul : 0 ∉ name') :
    (readNext Script d name (scriptDocument id name' chunk)).isSome = true ↔ name' = name ∧ name' ≠ [] ∧ chunk ≠ [] := by
  have hread : readNext Script d name (scriptDocument id name' chunk) =
      if ((Script.new d.memory).unwrap (scriptDocument id name' chunk)).1 = true ∧
        ((Script.new d.memory).unwrap (scriptDocument id name' chunk)).2.mName = name
      then some ((Script.new d.memory).unwrap (scriptDocument id name' chunk)).2 else none := rfl
  rw [hread]
  by_cases hstorable : name' ≠ [] ∧ chunk ≠ []
  · rw [new_unwrap_scriptDocument ⟨hstorable.1, hnul, hstorable.2⟩, and_iff_left hstorable]
    by_cases hname : name' = name
    · rw [if_pos ⟨rfl, hname⟩]
      exact iff_of_true rfl hname
    · rw [if_neg fun h => hname h.2]
      exact iff_of_false Bool.false_ne_true hname
  · have hrefused : ¬((Script.new d.memory).unwrap (scriptDocument id name' chunk)).1 = true := by
      intro hanswer
      obtain ⟨hname, -, subtype, buffer, hlookup, hbuffer⟩ :=
        ((AnyObject.script (.new d.memory)).unwrap_true_iff _).mp hanswer
      obtain ⟨rfl, rfl⟩ : bsonSubtypeBinary = subtype ∧ chunk = buffer := by
        simpa [scriptDocument, lookup_cons_eq] using hlookup
      have hgot : BSONUtils.getString (scriptDocument id name' chunk) "name" = name' := cString_eq_self hnul
      exact hstorable ⟨hgot ▸ hname, hbuffer⟩
    rw [if_neg fun h => hrefused h.1]
    exact iff_of_false Bool.false_ne_true fun h => hstorable h.2

/-- The name is not there, or is a name and no token, and there is data under it. -/
def Readable (name : Bytes) (c : Collection) : Prop :=
  (∀ e ∈ c, e.lookup "name" ≠ some (.utf8 (cString name))) ∨
    (name ≠ [] ∧ 0 ∉ name ∧ name ∉ bconTokens ∧ ∃ e ∈ c, e.lookup "name" = some (.utf8 name) ∧
      ∃ subtype chunk, e.lookup "binaryData" = some (.binary subtype chunk) ∧ chunk ≠ [])

/-- What `read` finds among the documents of scripts. -/
theorem isSome_readIn (hc : Scripts c) (hbcon : IsBcon bcon) (hq : d.query = true) (name : Bytes) :
    (readIn Script bcon d name c).isSome = true ↔
      name ≠ [] ∧ 0 ∉ name ∧ name ∉ bconTokens ∧ ∃ e ∈ c, e.lookup "name" = some (.utf8 name) ∧
        ∃ subtype chunk, e.lookup "binaryData" = some (.binary subtype chunk) ∧ chunk ≠ [] := by
  unfold readIn
  rw [cursor_of_query hq, List.isSome_findSome?, List.any_eq_true]
  constructor
  · rintro ⟨e, he, hnext⟩
    obtain ⟨hmem, hagrees⟩ := mem_findDocuments.mp he
    obtain ⟨id, name', chunk, rfl, hnul⟩ := hc.document e hmem
    obtain ⟨rfl, hname, hchunk⟩ := (isSome_readNext_scriptDocument hnul).mp hnext
    refine ⟨hname, hnul, fun htoken => ?_, _, hmem, rfl, bsonSubtypeBinary, chunk, rfl, hchunk⟩
    rw [cString_eq_self hnul] at hagrees
    exact hbcon.token name' htoken _ name' rfl hagrees
  · rintro ⟨hname, hnul, htoken, e, he, hlookup, subtype, chunk, hdata, hchunk⟩
    obtain ⟨id, name', chunk', rfl, hnul'⟩ := hc.document e he
    obtain rfl : name' = name := by simpa [scriptDocument, lookup_cons_eq] using hlookup
    obtain ⟨-, rfl⟩ : bsonSubtypeBinary = subtype ∧ chunk' = chunk := by
      simpa [scriptDocument, lookup_cons_eq] using hdata
    refine ⟨_, mem_findDocuments.mpr ⟨he, ?_⟩, (isSome_readNext_scriptDocument hnul).mpr ⟨rfl, hname, hchunk⟩⟩
    rw [cString_eq_self hnul, hbcon.bare name' htoken]
    exact agrees_singleton.mpr hlookup

/-- `read` and the name check agree exactly on the names that are readable or not there. On those, `create`
of a name that was not read goes on to insert. -/
theorem read_iff_findName (hc : Scripts c) (hbcon : IsBcon bcon) (hd : d.Succeeds) (name : Bytes) (m : DatabaseManager) :
    ∃ found, (m.read Script bcon d name c).1 = .ok found ∧
      ((found.isSome = true ↔ findName d name c = true) ↔ Readable name c) ∧
      (Readable name c → found = none → ∀ o : AnyObject, o.name = name → createIn d o c = insertWrapped d o c) := by
  refine ⟨_, withClient_of_connects hd.1 _ m, ?_⟩
  have hread := isSome_readIn hc hbcon hd.2.1 name
  have hcheck : findName d name c = true ↔ ∃ e ∈ c, e.lookup "name" = some (.utf8 (cString name)) := findName_iff hd.2.1
  have hfound : (readIn Script bcon d name c).isSome = true → findName d name c = true := by
    intro h
    obtain ⟨-, hnul, -, e, he, hname, -⟩ := hread.mp h
    exact hcheck.mpr ⟨e, he, (cString_eq_self hnul).symm ▸ hname⟩
  have hagree : ((readIn Script bcon d name c).isSome = true ↔ findName d name c = true) ↔ Readable name c := by
    unfold Readable
    rw [← hread]
    constructor
    · intro hiff
      by_cases hname : findName d name c = true
      · exact .inr (hiff.mpr hname)
      · exact .inl fun e he hsame => hname (hcheck.mpr ⟨e, he, hsame⟩)
    · rintro (hnone | hsome)
      · have hname : ¬findName d name c = true := fun h => by
          obtain ⟨e, he, hsame⟩ := hcheck.mp h
          exact hnone e he hsame
        exact iff_of_false (fun h => hname (hfound h)) hname
      · exact iff_of_true hsome (hfound hsome)
  refine ⟨hagree, ?_⟩
  rintro hreadable hnone o rfl
  have hname : ¬findName d o.name c = true := by
    rw [← hagree.mpr hreadable, hnone]
    exact Bool.false_ne_true
  unfold createIn
  rw [if_neg hname]

end Lookups

/-- A function that `BCON_NEW("name", s)` agrees with: an empty document or array for an opened token. -/
def bconQuery (s : Bytes) : Bson :=
  if s ∈ bconTokens then [("name", .other 3 [5, 0, 0, 0, 0])] else bareName s

theorem isBcon_bconQuery : IsBcon bconQuery where
  bare _ hs := if_neg hs
  token s hs e str hname hagrees := by
    unfold bconQuery at hagrees
    rw [if_pos hs, agrees_singleton, hname] at hagrees
    cases hagrees

theorem scripts_create (d : Driver) (s : Script) : Scripts (createIn d (.script s) []).2.2 := by
  have hcall : (⟨true, none, none⟩ : DatabaseManager).create d (.script s) [] =
      (.ok (createIn d (.script s) []), ⟨true, none, none⟩) := rfl
  exact .create .nil hcall

theorem read_iff_findName_created :
    let c := (createIn (.working 1) (.script (.ofData 0 [97] [1])) []).2.2
    ∃ found, ((⟨true, none, none⟩ : DatabaseManager).read Script bconQuery (.working 2) [97] c).1 = .ok found ∧
      ((found.isSome = true ↔ findName (.working 2) [97] c = true) ↔ Readable [97] c) ∧
      (Readable [97] c → found = none →
        ∀ o : AnyObject, o.name = [97] → createIn (.working 2) o c = insertWrapped (.working 2) o c) :=
  read_iff_findName (scripts_create _ _) isBcon_bconQuery (by decide) [97] _

/-- A script without data is found and not read. -/
theorem read_not_findName :
    ¬∀ (c : Collection) (bcon : Bytes → Bson) (d : Driver) (name : Bytes), Scripts c → IsBcon bcon → d.Succeeds →
      ((readIn Script bcon d name c).isSome = true ↔ findName d name c = true) := by
  intro h
  have hiff := h _ bconQuery (.working 2) [97] (scripts_create (.working 1) (.ofData 0 [97] [])) isBcon_bconQuery (by decide)
  revert hiff
  decide

end MetaEditor
