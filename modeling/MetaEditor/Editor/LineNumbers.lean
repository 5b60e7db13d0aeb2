import Mathlib

/-!
# The line numbers

Beside the text the editor paints the numbers of the lines. It reserves the width of as many nines as the number of
blocks has digits. When a part of the area is to be painted it goes from the first visible block down, and stops at the
first one that begins below that part. The heights of the blocks are those of the layout, cut to whole pixels.
-/

namespace MetaEditor

namespace PlainEditor

/-! ### The width -/

/-- The loop of `lineNumberAreaWidth`. -/
def digitsFrom (digits max : Nat) : Nat :=
  if 10 ≤ max then digitsFrom (digits + 1) (max / 10) else digits
termination_by max
decreasing_by omega

def digits (blockCount : Nat) : Nat := digitsFrom 1 (max 1 blockCount)

/-- `nine` is the width of a nine. -/
def lineNumberAreaWidth (nine blockCount : Nat) : Nat := 3 + nine * digits blockCount

/-- By induction on the turns of the loop. -/
theorem digitsFrom_spec (digits max : Nat) (hmax : 1 ≤ max) :
    ∃ k, digitsFrom digits max = digits + k ∧ 10 ^ k ≤ max ∧ max < 10 ^ (k + 1) := by
  induction digits, max using digitsFrom.induct with
  | case1 digits max hten ih =>
    obtain ⟨k, hk, hlow, hhigh⟩ := ih (by omega)
    refine ⟨k + 1, ?_, ?_, ?_⟩
    · rw [digitsFrom, if_pos hten, hk]
      omega
    · rw [pow_succ]
      omega
    · rw [pow_succ]
      omega
  | case2 digits max hten =>
    refine ⟨0, ?_, hmax, by omega⟩
    rw [digitsFrom, if_neg hten]
    rfl

/-- There is room for the numbers of all blocks, and not more than for the last one. -/
theorem digits_spec (blockCount : Nat) :
    0 < digits blockCount ∧ 10 ^ (digits blockCount - 1) ≤ max 1 blockCount ∧ max 1 blockCount < 10 ^ digits blockCount := by
  obtain ⟨k, hk, hlow, hhigh⟩ := digitsFrom_spec 1 (max 1 blockCount) (le_max_left _ _)
  rw [digits, hk, Nat.add_sub_cancel_left, Nat.add_comm 1 k]
  exact ⟨Nat.succ_pos k, hlow, hhigh⟩

/-! ### The painting -/

/-- A block in the layout. -/
structure Row where
  height : Int
  visible : Bool
  deriving DecidableEq, Repr

/-- `event->rect()`, from its first row of pixels to its last. -/
structure Exposed where
  top : Int
  bottom : Int
  deriving DecidableEq, Repr

/-- A number that is drawn. -/
structure Drawn where
  top : Int
  number : String
  deriving DecidableEq, Repr

/-- The loop of `lineNumberAreaPaintEvent`, over the blocks from one on. -/
def paintRows (rect : Exposed) (blockNumber : Nat) (top : Int) : List Row → List Drawn
  | [] => []
  | block :: blocks =>
    if top ≤ rect.bottom then
      let bottom := top + block.height
      (if block.visible ∧ bottom ≥ rect.top then [{ top, number := toString (blockNumber + 1) }] else []) ++
        paintRows rect (blockNumber + 1) bottom blocks
    else []

/-- `first` is the number of the first visible block, and `top` where it begins. -/
def lineNumberAreaPaintEvent (rect : Exposed) (blocks : List Row) (first : Nat) (top : Int) : List Drawn :=
  paintRows rect first top (blocks.drop first)

/-- Where a block begins. -/
def topOf (blocks : List Row) (top : Int) (k : Nat) : Int := top + ((blocks.take k).map Row.height).sum

/-- A block is visible and not wholly above or below the exposed part. -/
def Meets (rect : Exposed) (blocks : List Row) (top : Int) (k : Nat) : Prop :=
  (∃ block ∈ blocks[k]?, block.visible) ∧ topOf blocks top k ≤ rect.bottom ∧ rect.top ≤ topOf blocks top (k + 1)

instance (rect : Exposed) (blocks : List Row) (top : Int) (k : Nat) : Decidable (Meets rect blocks top k) :=
  inferInstanceAs (Decidable (_ ∧ _))

theorem topOf_cons_succ (block : Row) (blocks : List Row) (top : Int) (k : Nat) :
    topOf (block :: blocks) top (k + 1) = topOf blocks (top + block.height) k := by
  rw [topOf, topOf, List.take_succ_cons, List.map_cons, List.sum_cons, Int.add_assoc]

theorem meets_cons_succ (rect : Exposed) (block : Row) (blocks : List Row) (top : Int) (k : Nat) :
    Meets rect (block :: blocks) top (k + 1) ↔ Meets rect blocks (top + block.height) k := by
  rw [Meets, Meets, topOf_cons_succ, topOf_cons_succ, List.getElem?_cons_succ]

/-- A block begins no earlier than the ones before it. -/
theorem top_le_topOf {blocks : List Row} (hheight : ∀ block ∈ blocks, 0 ≤ block.height) (top : Int) (k : Nat) :
    top ≤ topOf blocks top k := by
  have hsum : 0 ≤ ((blocks.take k).map Row.height).sum := by
    refine List.sum_nonneg fun height hmem => ?_
    obtain ⟨block, hblock, rfl⟩ := List.mem_map.mp hmem
    exact hheight block (List.mem_of_mem_take hblock)
  rw [topOf]
  omega

theorem meets_zero (rect : Exposed) (block : Row) (blocks : List Row) (top : Int) :
    Meets rect (block :: blocks) top 0 ↔ block.visible ∧ top ≤ rect.bottom ∧ rect.top ≤ top + block.height := by
  simp [Meets, topOf]

/-- The loop stops early, and paints all the same every block that meets the exposed part. -/
theorem paintRows_eq (rect : Exposed) (blocks : List Row) (hheight : ∀ block ∈ blocks, 0 ≤ block.height)
    (blockNumber : Nat) (top : Int) :
    paintRows rect blockNumber top blocks = ((List.range blocks.length).filter (Meets rect blocks top ·)).map fun k =>
      { top := topOf blocks top k, number := toString (blockNumber + k + 1) } := by
  induction blocks generalizing blockNumber top with
  | nil => rfl
  | cons block blocks ih =>
    have hfirst : topOf (block :: blocks) top 0 = top := by simp [topOf]
    rw [paintRows]
    split_ifs with htop
    · have hrest := ih (fun block hblock => hheight block (.tail _ hblock)) (blockNumber + 1) (top + block.height)
      have hfilter : (List.range blocks.length).filter (fun k => decide (Meets rect (block :: blocks) top (k + 1))) =
          (List.range blocks.length).filter (Meets rect blocks (top + block.height) ·) := by
        refine List.filter_congr fun k _ => ?_
        rw [decide_eq_decide]
        exact meets_cons_succ rect block blocks top k
      have htail : (((List.range blocks.length).map Nat.succ).filter (Meets rect (block :: blocks) top ·)).map (fun k =>
          ({ top := topOf (block :: blocks) top k, number := toString (blockNumber + k + 1) } : Drawn)) =
          paintRows rect (blockNumber + 1) (top + block.height) blocks := by
        rw [hrest, List.filter_map, List.map_map]
        refine (congrArg (List.map _) hfilter).trans (List.map_congr_left fun k _ => ?_)
        simp only [Function.comp_apply, Nat.succ_eq_add_one, topOf_cons_succ, Nat.add_assoc, Nat.add_comm 1]
      have hzero : (block.visible ∧ top + block.height ≥ rect.top) ↔ Meets rect (block :: blocks) top 0 := by
        rw [meets_zero]
        exact ⟨fun h => ⟨h.1, htop, h.2⟩, fun h => ⟨h.1, h.2.2⟩⟩
      rw [List.length_cons, List.range_succ_eq_map]
      dsimp only
      by_cases hmeets : Meets rect (block :: blocks) top 0
      · rw [if_pos (hzero.mpr hmeets), List.filter_cons, if_pos (decide_eq_true hmeets), List.map_cons, htail, hfirst]
        rfl
      · rw [if_neg (hzero.not.mpr hmeets), List.filter_cons, if_neg (by simpa using hmeets), htail]
        rfl
    · -- every block behind this one begins below it
      have hnone : (List.range (block :: blocks).length).filter (Meets rect (block :: blocks) top ·) = [] := by
        refine List.filter_eq_nil_iff.mpr fun k _ hmeets => htop ?_
        exact (top_le_topOf hheight top k).trans (of_decide_eq_true hmeets).2.1
      rw [hnone]
      rfl

/-- Whatever part of the area is exposed: the numbers that are painted are those of the visible blocks from the first
one on that meet it, each one where its block begins. Each one has room, and a digit less would be too few for the
last block. -/
theorem lineNumberArea_painted (nine : Nat) (rect : Exposed) {blocks : List Row}
    (hheight : ∀ block ∈ blocks, 0 ≤ block.height) (first : Nat) (top : Int) :
    lineNumberAreaPaintEvent rect blocks first top =
        ((List.range (blocks.drop first).length).filter (Meets rect (blocks.drop first) top ·)).map (fun k =>
          { top := topOf (blocks.drop first) top k, number := toString (first + k + 1) }) ∧
      (∀ drawn ∈ lineNumberAreaPaintEvent rect blocks first top,
        3 + nine * drawn.number.length ≤ lineNumberAreaWidth nine blocks.length) ∧
      10 ^ (digits blocks.length - 1) ≤ max 1 blocks.length := by
  have hpaint := paintRows_eq rect (blocks.drop first)
    (fun block hblock => hheight block (List.mem_of_mem_drop hblock)) first top
  obtain ⟨hpos, hneeded, hdigits⟩ := digits_spec blocks.length
  refine ⟨hpaint, fun drawn hdrawn => ?_, hneeded⟩
  rw [lineNumberAreaPaintEvent, hpaint] at hdrawn
  obtain ⟨k, hk, rfl⟩ := List.mem_map.mp hdrawn
  have hlt : k < (blocks.drop first).length := List.mem_range.mp (List.mem_of_mem_filter hk)
  rw [List.length_drop] at hlt
  have hlength : (toString (first + k + 1)).length ≤ digits blocks.length := Nat.repr_length _ _ hpos (by omega)
  exact Nat.add_le_add_left (Nat.mul_le_mul_left nine hlength) 3

/-- Ten lines of twelve pixels, of which the third is hidden: a strip across the second and the fourth. -/
theorem lineNumberArea_painted_strip :
    let blocks := List.replicate 2 { height := 12, visible := true } ++ [{ height := 0, visible := false }] ++
      List.replicate 7 { height := 12, visible := true }
    lineNumberAreaPaintEvent { top := 20, bottom := 30 } blocks 0 0 =
        ((List.range (blocks.drop 0).length).filter (Meets { top := 20, bottom := 30 } (blocks.drop 0) 0 ·)).map (fun k =>
          { top := topOf (blocks.drop 0) 0 k, number := toString (0 + k + 1) }) ∧
      (∀ drawn ∈ lineNumberAreaPaintEvent { top := 20, bottom := 30 } blocks 0 0,
        3 + 7 * drawn.number.length ≤ lineNumberAreaWidth 7 blocks.length) ∧
      10 ^ (digits blocks.length - 1) ≤ max 1 blocks.length :=
  lineNumberArea_painted 7 { top := 20, bottom := 30 } (by decide) 0 0

end PlainEditor

end MetaEditor
