import NbdServer.Catalog.Types
import NbdServer.Core.Range

/-!
# The geometry of a tree

Model of `tree/geometry.rs`: a tree over the chunks of an export, with a fixed fanout and the least
number of levels that holds all chunks. The slots on the way from the root to a chunk are the digits
of the chunk index, most significant first, so a node on this way is the one whose span starts at
the leading digits (`TreeGeometry.nodeAt`).

The fields of `TreeGeometry` that its constructor establishes are fields of the structure here.
-/

namespace NbdServer

/-- Rust `invalid_tree`. -/
def invalidTree (message : String) : ServerError := .catalog message

/-- The fanout and the chunk size of a format, as `TreeGeometry::new` chooses them. -/
def TreeFormat.shape : TreeFormat → Nat × Nat
  | bounded32V1 => (32, TREE_CHUNK_BYTES)

def chunkCount (sizeBytes : Nat) : Nat := (sizeBytes + (TREE_CHUNK_BYTES - 1)) / TREE_CHUNK_BYTES

/-- The level is the least one, from 1 on, whose capacity covers all chunks. -/
structure LeastLevel (count level : Nat) : Prop where
  pos : 1 ≤ level
  covers : count ≤ 32 ^ level
  least : level = 1 ∨ 32 ^ (level - 1) < count

/-- Rust `TreeGeometry`. -/
structure TreeGeometry where
  format : TreeFormat
  fanout : Nat
  chunkBytes : Nat
  sizeBytes : Nat
  rootLevel : Nat
  fanout_eq : fanout = 32
  chunk_eq : chunkBytes = TREE_CHUNK_BYTES
  size_pos : 0 < sizeBytes
  size_fits : sizeBytes + (TREE_CHUNK_BYTES - 1) < U64
  level : LeastLevel (chunkCount sizeBytes) rootLevel
  deriving DecidableEq

/-- Rust `TreePath`. -/
structure TreePath where
  chunkIndex : Nat
  slots : List Nat
  deriving DecidableEq, Repr

/-- Rust `TreeNodeSpan`. -/
structure TreeNodeSpan where
  level : Nat
  startBytes : Nat
  lenBytes : Nat
  deriving DecidableEq, Repr

/-- Rust `TreeChunkRange`. -/
structure TreeChunkRange where
  chunkIndex : Nat
  chunkOffset : Nat
  range : ByteRange
  deriving DecidableEq

/-- The loop of `TreeGeometry::new`. The capacity of a level fits in a `u64` for twelve levels, so
thirteen rounds are enough. -/
def rootLevelLoop (fanout chunkCount : Nat) : Nat → Nat → Nat → Res Nat
  | 0, _, _ => .error (.abort "more rounds than levels")
  | fuel + 1, capacityChunks, rootLevel =>
    if capacityChunks < chunkCount then do
      let capacityChunks ← okOr (checkedMul capacityChunks fanout)
        (invalidTree "tree capacity overflows")
      let rootLevel ← okOr (if rootLevel + 1 < 2 ^ 16 then some (rootLevel + 1) else none)
        (invalidTree "tree level overflows")
      rootLevelLoop fanout chunkCount fuel capacityChunks rootLevel
    else .ok rootLevel

lemma rootLevelLoop_least {count fuel level out : Nat} (pos : 1 ≤ level)
    (least : level = 1 ∨ 32 ^ (level - 1) < count)
    (run : rootLevelLoop 32 count fuel (32 ^ level) level = .ok out) : LeastLevel count out := by
  induction fuel generalizing level with
  | zero => cases run
  | succ fuel ih =>
    rw [rootLevelLoop] at run
    by_cases more : 32 ^ level < count
    · rw [if_pos more] at run
      obtain ⟨capacity, mul, run⟩ := Res.bind_eq_ok.1 run
      obtain ⟨next, add, run⟩ := Res.bind_eq_ok.1 run
      have grown : capacity = 32 ^ (level + 1) := by
        unfold checkedMul at mul
        split_ifs at mul
        · cases mul
          rw [Nat.pow_succ]
        · cases mul
      have up : next = level + 1 := by
        split_ifs at add
        · cases add
          rfl
        · cases add
      rw [grown, up] at run
      exact ih (by omega) (.inr more) run
    · rw [if_neg more] at run
      cases run
      exact ⟨pos, not_lt.1 more, least⟩

lemma rootLevelLoop_ok {count fuel level : Nat} (small : count ≤ 32 ^ 8) (le : level ≤ 8)
    (rounds : 9 ≤ fuel + level) :
    ∃ out, rootLevelLoop 32 count fuel (32 ^ level) level = .ok out := by
  induction fuel generalizing level with
  | zero => omega
  | succ fuel ih =>
    rw [rootLevelLoop]
    by_cases more : 32 ^ level < count
    · have lt : level < 8 := by
        by_contra ge
        have : level = 8 := by omega
        subst this
        omega
      have step : 32 ^ level * 32 = 32 ^ (level + 1) := (Nat.pow_succ ..).symm
      have fits : 32 ^ level * 32 < U64 := by
        rw [step]
        calc 32 ^ (level + 1) ≤ 32 ^ 8 := Nat.pow_le_pow_right (by omega) lt
          _ < U64 := by decide
      have mul : checkedMul (32 ^ level) 32 = some (32 ^ (level + 1)) := by
        unfold checkedMul
        rw [if_pos fits, step]
      rw [if_pos more, mul, okOr_some, Res.ok_bind, if_pos (by omega), okOr_some, Res.ok_bind]
      exact ih (by omega) (by omega)
    · rw [if_neg more]
      exact ⟨level, rfl⟩

lemma chunkCount_mul (sizeBytes : Nat) : sizeBytes ≤ chunkCount sizeBytes * TREE_CHUNK_BYTES := by
  have pos : 0 < TREE_CHUNK_BYTES := by decide
  have sum := Nat.div_add_mod (sizeBytes + (TREE_CHUNK_BYTES - 1)) TREE_CHUNK_BYTES
  have rest := Nat.mod_lt (sizeBytes + (TREE_CHUNK_BYTES - 1)) pos
  rw [Nat.mul_comm] at sum
  unfold chunkCount
  omega

lemma chunkCount_le {sizeBytes : Nat} (fits : sizeBytes + (TREE_CHUNK_BYTES - 1) < U64) :
    chunkCount sizeBytes ≤ 32 ^ 8 := by
  have most : U64 / TREE_CHUNK_BYTES ≤ 32 ^ 8 := by decide
  exact (Nat.div_le_div_right fits.le).trans most

lemma LeastLevel.le_eight {count level : Nat} (least : LeastLevel count level)
    (small : count ≤ 32 ^ 8) : level ≤ 8 := by
  rcases least.least with one | more
  · omega
  · have lt : level - 1 < 8 := (Nat.pow_lt_pow_iff_right (by decide)).1 (more.trans_le small)
    omega

lemma LeastLevel.le {count level other : Nat} (least : LeastLevel count level) (pos : 1 ≤ other)
    (covers : count ≤ 32 ^ other) : level ≤ other := by
  rcases least.least with one | more
  · omega
  · have lt : level - 1 < other := (Nat.pow_lt_pow_iff_right (by decide)).1 (more.trans_le covers)
    omega

namespace TreeGeometry

/-- The geometry for the level that the loop of `TreeGeometry::new` has found. -/
def ofLevel (format : TreeFormat) (sizeBytes : Nat) (pos : 0 < sizeBytes)
    (fits : sizeBytes + (TREE_CHUNK_BYTES - 1) < U64) :
    (found : Res Nat) → (∀ l, found = .ok l → LeastLevel (chunkCount sizeBytes) l) →
    Res TreeGeometry
  | .error fault, _ => .error fault
  | .ok rootLevel, least => .ok {
      format := format, fanout := format.shape.1, chunkBytes := format.shape.2
      sizeBytes := sizeBytes, rootLevel := rootLevel
      fanout_eq := by cases format; rfl
      chunk_eq := by cases format; rfl
      size_pos := pos, size_fits := fits, level := least rootLevel rfl }

/-- Rust `TreeGeometry::new`. -/
def new (format : TreeFormat) (sizeBytes : Nat) : Res TreeGeometry :=
  if zero : sizeBytes = 0 then fail (invalidTree "tree size must be non-zero")
  else if fits : sizeBytes + (TREE_CHUNK_BYTES - 1) < U64 then
    ofLevel format sizeBytes (Nat.pos_of_ne_zero zero) fits
      (rootLevelLoop format.shape.1 (chunkCount sizeBytes) 13 format.shape.1 1)
      (fun _ run => by cases format; exact rootLevelLoop_least le_rfl (.inl rfl) run)
  else fail (invalidTree "tree size overflows chunk count")

variable (g : TreeGeometry)

/-- Rust `TreeGeometry::root_span`. -/
def rootSpan : TreeNodeSpan := ⟨g.rootLevel, 0, g.sizeBytes⟩

/-- The loop of `TreeGeometry::chunks_per_node`. -/
def chunksPerNodeLoop : Nat → Nat → Res Nat
  | 0, chunks => .ok chunks
  | rounds + 1, chunks => do
    let chunks ← okOr (checkedMul chunks g.fanout) (invalidTree "node chunk capacity overflows")
    chunksPerNodeLoop rounds chunks

/-- Rust `TreeGeometry::chunks_per_node`. -/
def chunksPerNode (level : Nat) : Res Nat := g.chunksPerNodeLoop level 1

/-- Rust `TreeGeometry::full_span_len`. -/
def fullSpanLen (level : Nat) : Res Nat := do
  let chunks ← g.chunksPerNode level
  okOr (checkedMul g.chunkBytes chunks) (invalidTree "node span length overflows")

/-- Rust `TreeGeometry::node_span`. -/
def nodeSpan (level startBytes : Nat) : Res TreeNodeSpan :=
  if level > g.rootLevel then
    fail (invalidTree s!"node level {level} exceeds root level {g.rootLevel}")
  else if startBytes ≥ g.sizeBytes then
    fail (invalidTree s!"node starts at {startBytes}, beyond tree size {g.sizeBytes}")
  else do
    let fullLen ← g.fullSpanLen level
    .ok ⟨level, startBytes, min fullLen (g.sizeBytes - startBytes)⟩

/-- Rust `TreeGeometry::child_span`. -/
def childSpan (parent : TreeNodeSpan) (slot : Nat) : Res TreeNodeSpan :=
  if parent.level = 0 then fail (invalidTree "leaf nodes do not have children")
  else if slot ≥ g.fanout then
    fail (invalidTree s!"child slot {slot} exceeds fanout {g.fanout}")
  else do
    let childFullLen ← g.fullSpanLen (parent.level - 1)
    let offset ← okOr (checkedMul slot childFullLen) (invalidTree "child span offset overflows")
    let childStart ← okOr (checkedAdd parent.startBytes offset)
      (invalidTree "child span start overflows")
    g.nodeSpan (parent.level - 1) childStart

/-- Rust `TreeGeometry::validate_chunk_index`. -/
def validateChunkIndex (chunkIndex : Nat) : Res Unit := do
  let start ← okOr (checkedMul chunkIndex g.chunkBytes) (invalidTree "chunk byte offset overflows")
  if start ≥ g.sizeBytes then
    fail (invalidTree s!"chunk {chunkIndex} starts beyond tree size {g.sizeBytes}")
  else .ok ()

/-- The loop of `TreeGeometry::path_for_chunk`, from the given number of levels down to 0. -/
def pathSlots (chunkIndex : Nat) : Nat → Res (List Nat)
  | 0 => .ok []
  | childLevel + 1 => do
    let divisor ← g.chunksPerNode childLevel
    let slot ← okOr (if chunkIndex / divisor % g.fanout < 2 ^ 16 then
        some (chunkIndex / divisor % g.fanout) else none)
          (invalidTree "path slot does not fit in u16")
    let slots ← pathSlots chunkIndex childLevel
    .ok (slot :: slots)

/-- Rust `TreeGeometry::path_for_chunk`. -/
def pathForChunk (chunkIndex : Nat) : Res TreePath := do
  g.validateChunkIndex chunkIndex
  let slots ← g.pathSlots chunkIndex g.rootLevel
  .ok ⟨chunkIndex, slots⟩

def descend (g : TreeGeometry) : TreeNodeSpan → List Nat → Res (List TreeNodeSpan)
  | _, [] => .ok []
  | span, slot :: slots => do
    let child ← g.childSpan span slot
    let below ← descend g child slots
    .ok (child :: below)

/-! ## Levels -/

def Valid (chunkIndex : Nat) : Prop := chunkIndex * TREE_CHUNK_BYTES < g.sizeBytes

instance (chunkIndex : Nat) : Decidable (g.Valid chunkIndex) := inferInstanceAs (Decidable (_ < _))

variable {g}

lemma of_ofLevel {format : TreeFormat} {sizeBytes : Nat} {pos : 0 < sizeBytes}
    {fits : sizeBytes + (TREE_CHUNK_BYTES - 1) < U64} {found : Res Nat}
    {least : ∀ l, found = .ok l → LeastLevel (chunkCount sizeBytes) l}
    (run : ofLevel format sizeBytes pos fits found least = .ok g) :
    g.sizeBytes = sizeBytes ∧ g.format = format := by
  cases found with
  | error fault => cases run
  | ok level =>
    cases run
    exact ⟨rfl, rfl⟩

lemma of_new {format : TreeFormat} {sizeBytes : Nat} (run : new format sizeBytes = .ok g) :
    g.sizeBytes = sizeBytes ∧ g.format = format := by
  unfold new at run
  by_cases zero : sizeBytes = 0
  · rw [dif_pos zero] at run
    cases run
  · rw [dif_neg zero] at run
    by_cases fits : sizeBytes + (TREE_CHUNK_BYTES - 1) < U64
    · rw [dif_pos fits] at run
      exact of_ofLevel run
    · rw [dif_neg fits] at run
      cases run

lemma new_eq_ok {format : TreeFormat} {sizeBytes : Nat} (pos : 0 < sizeBytes)
    (fits : sizeBytes + (TREE_CHUNK_BYTES - 1) < U64) : ∃ g, new format sizeBytes = .ok g := by
  obtain ⟨level, found⟩ : ∃ level,
      rootLevelLoop format.shape.1 (chunkCount sizeBytes) 13 format.shape.1 1 = .ok level := by
    cases format
    exact rootLevelLoop_ok (chunkCount_le fits) (show 1 ≤ 8 by omega) (show 9 ≤ 13 + 1 by omega)
  unfold new
  rw [dif_neg pos.ne', dif_pos fits]
  simp only [found]
  exact ⟨_, rfl⟩

lemma rootLevel_le (g : TreeGeometry) : g.rootLevel ≤ 8 :=
    g.level.le_eight (chunkCount_le g.size_fits)

lemma Valid.lt_chunkCount {idx : Nat} (valid : g.Valid idx) : idx < chunkCount g.sizeBytes := by
  unfold chunkCount
  rw [← Nat.succ_le_iff, Nat.le_div_iff_mul_le (by decide), Nat.succ_mul]
  unfold Valid at valid
  omega

lemma chunksPerNodeLoop_eq {rounds chunks : Nat} (fits : chunks * 32 ^ rounds < U64) :
    g.chunksPerNodeLoop rounds chunks = .ok (chunks * 32 ^ rounds) := by
  induction rounds generalizing chunks with
  | zero => rw [chunksPerNodeLoop, pow_zero, Nat.mul_one]
  | succ rounds ih =>
    have step : chunks * 32 ^ (rounds + 1) = chunks * 32 * 32 ^ rounds := by
      rw [Nat.pow_succ, Nat.mul_comm (32 ^ rounds), Nat.mul_assoc]
    have pos : 0 < 32 ^ rounds := Nat.pow_pos (by decide)
    have small : chunks * 32 < U64 := (Nat.le_mul_of_pos_right _ pos).trans_lt (step ▸ fits)
    rw [chunksPerNodeLoop, g.fanout_eq, checkedMul_of_lt small, okOr_some, Res.ok_bind,
      ih (step ▸ fits), step]

lemma chunksPerNode_eq {level : Nat} (le : level ≤ 8) :
    g.chunksPerNode level = .ok (32 ^ level) := by
  have fits : 1 * 32 ^ level < U64 := by
    rw [Nat.one_mul]
    exact (Nat.pow_le_pow_right (by decide) le).trans_lt (by decide)
  rw [chunksPerNode, chunksPerNodeLoop_eq fits, Nat.one_mul]

lemma fullSpanLen_eq {level : Nat} (lt : level < 8) :
    g.fullSpanLen level = .ok (TREE_CHUNK_BYTES * 32 ^ level) := by
  have fits : TREE_CHUNK_BYTES * 32 ^ level < U64 := by
    have le : 32 ^ level ≤ 32 ^ 7 := Nat.pow_le_pow_right (by decide) (by omega)
    exact (Nat.mul_le_mul_left _ le).trans_lt (by decide)
  rw [fullSpanLen, chunksPerNode_eq lt.le, Res.ok_bind, g.chunk_eq, checkedMul_of_lt fits,
    okOr_some]

/-! ## The way to a chunk -/

/-- The node of a level on the way to a chunk: it starts at the leading digits of the chunk
index. -/
def nodeAt (g : TreeGeometry) (idx level : Nat) : TreeNodeSpan where
  level := level
  startBytes := idx / 32 ^ level * 32 ^ level * TREE_CHUNK_BYTES
  lenBytes := min (TREE_CHUNK_BYTES * 32 ^ level)
    (g.sizeBytes - idx / 32 ^ level * 32 ^ level * TREE_CHUNK_BYTES)

lemma nodeAt_start_le (g : TreeGeometry) (idx level : Nat) :
    (g.nodeAt idx level).startBytes ≤ idx * TREE_CHUNK_BYTES :=
  Nat.mul_le_mul_right _ (Nat.div_mul_le_self ..)

lemma Valid.rootSpan_eq {idx : Nat} (valid : g.Valid idx) :
    g.rootSpan = g.nodeAt idx g.rootLevel := by
  have first : idx / 32 ^ g.rootLevel = 0 :=
    Nat.div_eq_of_lt (valid.lt_chunkCount.trans_le g.level.covers)
  have all : g.sizeBytes ≤ TREE_CHUNK_BYTES * 32 ^ g.rootLevel := by
    rw [Nat.mul_comm]
    exact (chunkCount_mul g.sizeBytes).trans (Nat.mul_le_mul_right _ g.level.covers)
  simp only [rootSpan, nodeAt, first, Nat.zero_mul, Nat.sub_zero, Nat.min_eq_right all]

lemma nodeAt_zero (g : TreeGeometry) (idx : Nat) : g.nodeAt idx 0 =
    ⟨0, idx * TREE_CHUNK_BYTES, min TREE_CHUNK_BYTES (g.sizeBytes - idx * TREE_CHUNK_BYTES)⟩ := by
  simp only [nodeAt, pow_zero, Nat.div_one, Nat.mul_one]

lemma nodeAt_start_succ (g : TreeGeometry) (idx level : Nat) :
    (g.nodeAt idx level).startBytes = (g.nodeAt idx (level + 1)).startBytes +
      idx / 32 ^ level % 32 * (TREE_CHUNK_BYTES * 32 ^ level) := by
  have digit : idx / 32 ^ level = 32 * (idx / 32 ^ (level + 1)) + idx / 32 ^ level % 32 := by
    rw [Nat.pow_succ, ← Nat.div_div_eq_div_mul]
    exact (Nat.div_add_mod _ _).symm
  have shift : idx / 32 ^ (level + 1) * 32 ^ (level + 1) =
      32 * (idx / 32 ^ (level + 1)) * 32 ^ level := by
    rw [Nat.pow_succ]
    ring
  simp only [nodeAt]
  rw [shift]
  nth_rewrite 1 [digit]
  ring

lemma Valid.childSpan_eq {idx level : Nat} (valid : g.Valid idx) (lt : level < g.rootLevel) :
    g.childSpan (g.nodeAt idx (level + 1)) (idx / 32 ^ level % 32) = .ok (g.nodeAt idx level) := by
  have top := g.rootLevel_le
  have start := g.nodeAt_start_succ idx level
  have le := g.nodeAt_start_le idx level
  have size := g.size_fits
  have inside : idx * TREE_CHUNK_BYTES < g.sizeBytes := valid
  have slot : idx / 32 ^ level % 32 < 32 := Nat.mod_lt _ (by decide)
  have full : g.fullSpanLen level = .ok (TREE_CHUNK_BYTES * 32 ^ level) := fullSpanLen_eq (by omega)
  have above : (g.nodeAt idx (level + 1)).level = level + 1 := rfl
  unfold childSpan
  rw [above, if_neg (Nat.succ_ne_zero level), if_neg (by rw [g.fanout_eq]; omega)]
  simp only [nodeAt, Nat.add_sub_cancel] at start le ⊢
  rw [full, Res.ok_bind, checkedMul_of_lt (by omega), okOr_some, Res.ok_bind,
    checkedAdd_of_lt (by omega), okOr_some, Res.ok_bind, ← start, nodeSpan, if_neg (by omega),
    if_neg (by omega), full, Res.ok_bind]

/-- The digits of a chunk index, from the given level down. -/
def digits (idx : Nat) : Nat → List Nat
  | 0 => []
  | level + 1 => idx / 32 ^ level % 32 :: digits idx level

/-- The nodes on the way to a chunk, below the given level. -/
def nodesBelow (g : TreeGeometry) (idx : Nat) : Nat → List TreeNodeSpan
  | 0 => []
  | level + 1 => g.nodeAt idx level :: nodesBelow g idx level

lemma pathSlots_eq {idx level : Nat} (le : level ≤ 8) :
    g.pathSlots idx level = .ok (digits idx level) := by
  induction level with
  | zero => rfl
  | succ level ih =>
    have slot : idx / 32 ^ level % 32 < 2 ^ 16 := (Nat.mod_lt _ (by decide)).trans (by decide)
    rw [pathSlots, chunksPerNode_eq (by omega), Res.ok_bind, g.fanout_eq, if_pos slot, okOr_some,
      Res.ok_bind, ih (by omega), Res.ok_bind]
    rfl

lemma validateChunkIndex_eq_ok {idx : Nat} : g.validateChunkIndex idx = .ok () ↔ g.Valid idx := by
  have size := g.size_fits
  unfold validateChunkIndex Valid
  rw [g.chunk_eq]
  by_cases fits : idx * TREE_CHUNK_BYTES < U64
  · rw [checkedMul_of_lt fits, okOr_some, Res.ok_bind]
    split_ifs with beyond
    · simp only [fail, reduceCtorEq, false_iff, not_lt]
      exact beyond
    · simp only [true_iff]
      omega
  · have none : checkedMul idx TREE_CHUNK_BYTES = none := if_neg fits
    rw [none]
    simp only [okOr_none, fail, bind, Except.bind, reduceCtorEq, false_iff]
    omega

lemma pathForChunk_eq_ok {idx : Nat} {path : TreePath} :
    g.pathForChunk idx = .ok path ↔ g.Valid idx ∧ path = ⟨idx, digits idx g.rootLevel⟩ := by
  unfold pathForChunk
  rw [pathSlots_eq g.rootLevel_le]
  simp only [Res.bind_eq_ok]
  constructor
  · rintro ⟨_, checked, slots, run, made⟩
    cases run
    cases made
    exact ⟨validateChunkIndex_eq_ok.1 checked, rfl⟩
  · rintro ⟨valid, rfl⟩
    exact ⟨(), validateChunkIndex_eq_ok.2 valid, _, rfl, rfl⟩

lemma Valid.descend_eq {idx level : Nat} (valid : g.Valid idx) (le : level ≤ g.rootLevel) :
    g.descend (g.nodeAt idx level) (digits idx level) = .ok (g.nodesBelow idx level) := by
  induction level with
  | zero => rfl
  | succ level ih =>
    rw [digits, descend, valid.childSpan_eq le, Res.ok_bind, ih (by omega), Res.ok_bind]
    rfl

/-- The bytes of the second span are bytes of the first one. -/
def Contains (parent child : TreeNodeSpan) : Prop :=
  parent.startBytes ≤ child.startBytes ∧
    child.startBytes + child.lenBytes ≤ parent.startBytes + parent.lenBytes

lemma Valid.contains {idx level : Nat} (valid : g.Valid idx) :
    Contains (g.nodeAt idx (level + 1)) (g.nodeAt idx level) := by
  have start := g.nodeAt_start_succ idx level
  have le := g.nodeAt_start_le idx level
  have inside : idx * TREE_CHUNK_BYTES < g.sizeBytes := valid
  have slot : idx / 32 ^ level % 32 * (TREE_CHUNK_BYTES * 32 ^ level) ≤
      31 * (TREE_CHUNK_BYTES * 32 ^ level) :=
    Nat.mul_le_mul_right _ (Nat.le_of_lt_succ (Nat.mod_lt _ (by decide)))
  have grown : TREE_CHUNK_BYTES * 32 ^ (level + 1) = 32 * (TREE_CHUNK_BYTES * 32 ^ level) := by
    rw [Nat.pow_succ]
    ring
  refine ⟨by omega, ?_⟩
  show (g.nodeAt idx level).startBytes + min (TREE_CHUNK_BYTES * 32 ^ level)
      (g.sizeBytes - (g.nodeAt idx level).startBytes) ≤
    (g.nodeAt idx (level + 1)).startBytes + min (TREE_CHUNK_BYTES * 32 ^ (level + 1))
      (g.sizeBytes - (g.nodeAt idx (level + 1)).startBytes)
  rw [grown]
  omega

lemma Valid.chain {idx level : Nat} (valid : g.Valid idx) :
    (g.nodeAt idx level :: g.nodesBelow idx level).IsChain Contains := by
  induction level with
  | zero => exact List.isChain_singleton _
  | succ level ih => exact List.isChain_cons_cons.2 ⟨valid.contains, ih⟩

lemma nodesBelow_getLast (g : TreeGeometry) (idx level : Nat) :
    (g.nodeAt idx level :: g.nodesBelow idx level).getLast? = some (g.nodeAt idx 0) := by
  induction level with
  | zero => rfl
  | succ level ih =>
    rw [nodesBelow, List.getLast?_cons_cons]
    exact ih

lemma digits_inj {idx idx' level : Nat} (above : idx / 32 ^ level = idx' / 32 ^ level)
    (same : digits idx level = digits idx' level) : idx = idx' := by
  induction level with
  | zero => simpa using above
  | succ level ih =>
    rw [digits, digits, List.cons.injEq] at same
    refine ih ?_ same.2
    rw [Nat.pow_succ, ← Nat.div_div_eq_div_mul, ← Nat.div_div_eq_div_mul] at above
    rw [← Nat.div_add_mod (idx / 32 ^ level) 32, above, same.1, Nat.div_add_mod]

/-- The geometry addresses every chunk uniquely. The path to a chunk of the export leads from the
root span to the span of the chunk, through spans that contain each other; two chunks have different
paths; and the tree has the least number of levels for its chunks. -/
theorem geometry_addresses_chunks {format : TreeFormat} {sizeBytes : Nat} {g : TreeGeometry}
    (built : new format sizeBytes = .ok g) :
    (∀ idx, idx * TREE_CHUNK_BYTES < sizeBytes → ∃ path spans, g.pathForChunk idx = .ok path ∧
      g.descend g.rootSpan path.slots = .ok spans ∧
      (g.rootSpan :: spans).getLast? = some ⟨0, idx * TREE_CHUNK_BYTES,
        min TREE_CHUNK_BYTES (sizeBytes - idx * TREE_CHUNK_BYTES)⟩ ∧
      (g.rootSpan :: spans).IsChain Contains) ∧
    (∀ idx idx' path path', idx * TREE_CHUNK_BYTES < sizeBytes →
      idx' * TREE_CHUNK_BYTES < sizeBytes → g.pathForChunk idx = .ok path →
      g.pathForChunk idx' = .ok path' → path.slots = path'.slots → idx = idx') ∧
    1 ≤ g.rootLevel ∧ chunkCount sizeBytes ≤ 32 ^ g.rootLevel ∧
    ∀ level, 1 ≤ level → chunkCount sizeBytes ≤ 32 ^ level → g.rootLevel ≤ level := by
  obtain ⟨rfl, -⟩ := of_new built
  refine ⟨?_, ?_, g.level.pos, g.level.covers, fun level pos covers => g.level.le pos covers⟩
  · intro idx inside
    have valid : g.Valid idx := inside
    refine ⟨_, g.nodesBelow idx g.rootLevel, pathForChunk_eq_ok.2 ⟨valid, rfl⟩, ?_, ?_, ?_⟩
    · rw [valid.rootSpan_eq]
      exact valid.descend_eq le_rfl
    · rw [valid.rootSpan_eq, nodesBelow_getLast, nodeAt_zero]
    · rw [valid.rootSpan_eq]
      exact valid.chain
  · intro idx idx' path path' inside inside' run run' same
    obtain ⟨valid, rfl⟩ := pathForChunk_eq_ok.1 run
    obtain ⟨valid', rfl⟩ := pathForChunk_eq_ok.1 run'
    refine digits_inj ?_ same
    rw [Nat.div_eq_of_lt (valid.lt_chunkCount.trans_le g.level.covers),
      Nat.div_eq_of_lt (valid'.lt_chunkCount.trans_le g.level.covers)]

/-- One tebibyte has three levels, and its last chunk the last slot of each. -/
theorem geometry_addresses_chunks_tebibyte :
    ∃ g path spans, new .bounded32V1 (2 ^ 40) = .ok g ∧ g.pathForChunk 32767 = .ok path ∧
      g.descend g.rootSpan path.slots = .ok spans ∧
      (g.rootSpan :: spans).getLast? = some ⟨0, 32767 * TREE_CHUNK_BYTES,
        min TREE_CHUNK_BYTES (2 ^ 40 - 32767 * TREE_CHUNK_BYTES)⟩ := by
  obtain ⟨g, built⟩ := @new_eq_ok .bounded32V1 (2 ^ 40) (by decide) (by decide)
  obtain ⟨way, -⟩ := geometry_addresses_chunks built
  obtain ⟨path, spans, run, down, last, -⟩ := way 32767 (by decide)
  exact ⟨g, path, spans, built, run, down, last⟩

end TreeGeometry

end NbdServer
