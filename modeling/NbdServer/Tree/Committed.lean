import NbdServer.Lib.Pieces
import NbdServer.Lib.Stateful
import NbdServer.Storage.Blobs
import NbdServer.Tree.Block
import NbdServer.Tree.Geometry

/-!
# Reads of the committed tree

Model of `TreeGeometry::chunks_for_range` and of the loop of the two functions `read_committed`, in
`wal_durable/read_view.rs` and `simple_durable/reader.rs`, which differ in how they look up a chunk.
All of them cut a range at the chunk boundaries (`Pieces`): `chunksForRange_spec` and
`readLoop_spec`.

A round of a loop is at least one byte long, so as many rounds as the range has bytes are enough.
-/

namespace NbdServer

open Lib

/-- The length of the part of a range that lies in the chunk of an offset, as the loops compute
it. -/
def cutLen (chunkBytes : Nat) (range : ByteRange) (copied currentOffset : Nat) : Res Nat := do
  let chunkAvailable ← minus chunkBytes (currentOffset % chunkBytes)
  let left ← minus range.len copied
  .ok (min chunkAvailable left)

namespace TreeGeometry

/-- The loop of `TreeGeometry::chunks_for_range`. -/
def chunksLoop (g : TreeGeometry) (range : ByteRange) : Nat → Nat → Res (List TreeChunkRange)
  | 0, _ => .error (.abort "more rounds than bytes")
  | fuel + 1, copied =>
    if copied < range.len then do
      let currentOffset ← plus range.start copied
      let copyLen ← cutLen g.chunkBytes range copied currentOffset
      if copyLen < U32 then do
        let chunks ← chunksLoop g range fuel (copied + copyLen)
        .ok (⟨currentOffset / g.chunkBytes, currentOffset % g.chunkBytes,
          .new currentOffset copyLen⟩ :: chunks)
      else fail (invalidTree "chunk range length does not fit u32")
    else .ok []

/-- Rust `TreeGeometry::chunks_for_range`. -/
def chunksForRange (g : TreeGeometry) (range : ByteRange) : Res (List TreeChunkRange) := do
  let stop ← okOr range.checkedEnd (invalidTree "range end overflows")
  if stop > g.sizeBytes then fail (.outOfBounds "tree range" range.start range.len g.sizeBytes)
  else if range.isEmpty then .ok []
  else g.chunksLoop range (range.len + 1) 0

end TreeGeometry

section Read

variable {σ : Type} (lookup : Nat → EStateM Fault σ (Option BlobKey))
variable (getBlob : BlobKey → Nat → Nat → EStateM Fault σ Buf)

def readPart (chunkIndex chunkOffset : Nat) (partRange : ByteRange) :
    EStateM Fault σ BlockPart := do
  match ← lookup chunkIndex with
  | some key =>
    let chunkData ← getBlob key chunkOffset partRange.len
    pure (.data partRange chunkData)
  | none => pure (.zero partRange)

/-- The loop of the functions `read_committed`. -/
def readLoop (chunkBytes : Nat) (range : ByteRange) : Nat → Nat → EStateM Fault σ (List BlockPart)
  | 0, _ => throw (.abort "more rounds than bytes")
  | fuel + 1, copied =>
    if copied < range.len then do
      let currentOffset ← plus range.start copied
      let copyLen ← cutLen chunkBytes range copied currentOffset
      -- `copy_len as u32` is the truncation of `ByteRange.new`
      let partRange := ByteRange.new currentOffset copyLen
      let part ← readPart lookup getBlob (currentOffset / chunkBytes) (currentOffset % chunkBytes)
        partRange
      let parts ← readLoop chunkBytes range fuel (copied + partRange.len)
      pure (part :: parts)
    else pure []

end Read

/-! ## The cuts -/

section Cuts

variable {range : ByteRange} {copied : Nat}

lemma cutLen_eq {c : Nat} (pos : 0 < c) (le : copied ≤ range.len) :
    cutLen c range copied (range.start + copied) =
      .ok (firstPiece c (range.start + copied) (range.start + range.len)) := by
  have small := Nat.mod_lt (range.start + copied) pos
  rw [cutLen, minus_of_le small.le, Res.ok_bind, minus_of_le le, Res.ok_bind, firstPiece]
  congr 2
  omega

lemma cut_range {c : Nat} (fits : range.start + range.len < U64) (lt : copied < range.len) :
    (ByteRange.new (range.start + copied)
      (firstPiece c (range.start + copied) (range.start + range.len))).start = range.start +
      copied ∧
    (ByteRange.new (range.start + copied)
      (firstPiece c (range.start + copied) (range.start + range.len))).len =
        firstPiece c (range.start + copied) (range.start + range.len) := by
  have short := range.len_lt
  refine ⟨ByteRange.new_start (by omega), ByteRange.new_len ?_⟩
  unfold firstPiece
  omega

namespace TreeGeometry

variable {g : TreeGeometry}

lemma chunkBytes_pos (g : TreeGeometry) : 0 < g.chunkBytes := by
  rw [g.chunk_eq]
  decide

lemma chunksLoop_spec (fits : range.start + range.len < U64) {fuel : Nat} (le : copied ≤ range.len)
    (enough : range.len - copied < fuel) : ∃ chunks, g.chunksLoop range fuel copied = .ok chunks ∧
      Pieces g.chunkBytes (range.start + copied) (range.start + range.len)
        (chunks.map fun c => (c.range.start, c.range.len)) ∧
      ∀ c ∈ chunks, c.chunkIndex = c.range.start / g.chunkBytes ∧
        c.chunkOffset = c.range.start % g.chunkBytes := by
  induction fuel generalizing copied with
  | zero => omega
  | succ fuel ih =>
    rw [chunksLoop]
    by_cases lt : copied < range.len
    · have lt' : range.start + copied < range.start + range.len := by omega
      have first := firstPiece_pos g.chunkBytes_pos lt'
      have last := firstPiece_le (c := g.chunkBytes) lt'
      have short := range.len_lt
      obtain ⟨chunks, run, pieces, all⟩ :=
        @ih (copied + firstPiece g.chunkBytes (range.start + copied) (range.start + range.len))
          (by omega) (by omega)
      rw [if_pos lt, plus_of_lt (by omega), Res.ok_bind, cutLen_eq g.chunkBytes_pos le, Res.ok_bind,
        if_pos (by omega), run, Res.ok_bind]
      obtain ⟨start, len⟩ := cut_range (c := g.chunkBytes) fits lt
      refine ⟨_, rfl, ?_, ?_⟩
      · rw [List.map_cons]
        dsimp only
        rw [start, len]
        exact .cons lt' (by rwa [Nat.add_assoc])
      · intro c mem
        rcases List.mem_cons.1 mem with rfl | mem
        · dsimp only
          rw [start]
          exact ⟨rfl, rfl⟩
        · exact all c mem
    · rw [if_neg lt]
      have done : copied = range.len := by omega
      subst done
      exact ⟨[], rfl, .nil, by simp⟩

lemma chunksForRange_spec (inside : range.start + range.len ≤ g.sizeBytes) :
    ∃ chunks, g.chunksForRange range = .ok chunks ∧
      Pieces TREE_CHUNK_BYTES range.start (range.start + range.len)
        (chunks.map fun c => (c.range.start, c.range.len)) ∧
      ∀ c ∈ chunks, c.chunkIndex = c.range.start / TREE_CHUNK_BYTES ∧
        c.chunkOffset = c.range.start % TREE_CHUNK_BYTES := by
  have size := g.size_fits
  have fits : range.start + range.len < U64 := by omega
  rw [chunksForRange, show range.checkedEnd = _ from checkedAdd_of_lt fits, okOr_some, Res.ok_bind,
    if_neg (by omega)]
  by_cases empty : range.len = 0
  · rw [if_pos (by simp [ByteRange.isEmpty, empty]), empty]
    exact ⟨[], rfl, .nil, by simp⟩
  · rw [if_neg (by simp [ByteRange.isEmpty, empty])]
    have spec := @chunksLoop_spec range 0 g fits (range.len + 1) (by omega) (by omega)
    rwa [g.chunk_eq] at spec

end TreeGeometry

end Cuts

/-! ## The reads -/

section Read

variable {σ : Type} {lookup : Nat → EStateM Fault σ (Option BlobKey)}
variable {getBlob : BlobKey → Nat → Nat → EStateM Fault σ Buf} {range : ByteRange}

/-- The byte at an offset of the committed tree: that of the blob of its chunk, or zero. -/
def committedByte (blobs : Blobs) (key : Option BlobKey) (x : Nat) : Option UInt8 :=
  match key with
  | none => some 0
  | some key => (blobs key).bind (·[x % TREE_CHUNK_BYTES]?)

structure PartOf (blobs : Blobs) (keys : Nat → Option BlobKey) (part : BlockPart) : Prop where
  len : part.bytes.length = part.range.len
  bytes : ∀ i < part.range.len, part.bytes[i]? =
    committedByte blobs (keys ((part.range.start + i) / TREE_CHUNK_BYTES)) (part.range.start + i)

lemma readPart_spec {keys : Nat → Option BlobKey} {s s' : σ} {blobs : Blobs} {partRange : ByteRange}
    (looked : lookup (partRange.start / TREE_CHUNK_BYTES) s =
      .ok (keys (partRange.start / TREE_CHUNK_BYTES)) s')
    (got : ∀ key offset len, getBlob key offset len s' = ofExcept (blobs.getBlob key offset len) s')
    (stored : ∀ key, keys (partRange.start / TREE_CHUNK_BYTES) = some key → ∃ bytes,
      blobs key = some bytes ∧ bytes.length = TREE_CHUNK_BYTES)
    (block : partRange.start % TREE_CHUNK_BYTES + partRange.len ≤ TREE_CHUNK_BYTES) :
    ∃ part, readPart lookup getBlob (partRange.start / TREE_CHUNK_BYTES)
        (partRange.start % TREE_CHUNK_BYTES) partRange s = .ok part s' ∧ part.range = partRange ∧
      PartOf blobs keys part := by
  have in_block : ∀ i < partRange.len,
      (partRange.start + i) / TREE_CHUNK_BYTES = partRange.start / TREE_CHUNK_BYTES ∧
        (partRange.start + i) % TREE_CHUNK_BYTES = partRange.start % TREE_CHUNK_BYTES + i :=
    fun i lt => same_block (by omega)
  unfold readPart
  rw [bind_ok looked]
  cases found : keys (partRange.start / TREE_CHUNK_BYTES) with
  | none =>
    refine ⟨.zero partRange, rfl, rfl, by simp [BlockPart.bytes, BlockPart.range], ?_⟩
    intro i lt
    have lt : i < partRange.len := lt
    show (List.replicate partRange.len 0)[i]? = committedByte blobs
      (keys ((partRange.start + i) / _)) _
    rw [(in_block i lt).1, found, List.getElem?_replicate, if_pos lt]
    rfl
  | some key =>
    obtain ⟨bytes, is, len⟩ := stored key found
    have inside : partRange.start % TREE_CHUNK_BYTES + partRange.len ≤ bytes.length := by omega
    have read := got key (partRange.start % TREE_CHUNK_BYTES) partRange.len
    rw [Blobs.getBlob_eq is inside] at read
    refine ⟨.data partRange (slice bytes (partRange.start % TREE_CHUNK_BYTES) partRange.len), ?_,
      rfl, length_slice inside, ?_⟩
    · dsimp only
      rw [bind_ok read]
      rfl
    · intro i lt
      have lt : i < partRange.len := lt
      show (slice bytes _ _)[i]? =
        committedByte blobs (keys ((partRange.start + i) / _)) (partRange.start + i)
      rw [(in_block i lt).1, found, getElem?_slice lt]
      show _ = (blobs key).bind _
      rw [is, Option.bind_some, (in_block i lt).2]

lemma readLoop_spec {keys : Nat → Option BlobKey} {blobs : Blobs} {Inv : σ → Prop} {stop : Nat}
    (looks : ∀ s idx, Inv s → idx * TREE_CHUNK_BYTES < stop → ∃ s', lookup idx s =
    .ok (keys idx) s' ∧ Inv s') (got : ∀ s, Inv s → ∀ key offset len,
      getBlob key offset len s = ofExcept (blobs.getBlob key offset len) s)
    (stored : ∀ idx key, keys idx = some key → ∃ bytes,
      blobs key = some bytes ∧ bytes.length = TREE_CHUNK_BYTES)
    (inside : range.start + range.len ≤ stop) (fits : stop < U64) {s : σ} (inv : Inv s)
    {copied fuel : Nat} (le : copied ≤ range.len) (enough : range.len - copied < fuel) :
    ∃ parts s', readLoop lookup getBlob TREE_CHUNK_BYTES range fuel copied s = .ok parts s' ∧
    Inv s' ∧
      Pieces TREE_CHUNK_BYTES (range.start + copied) (range.start + range.len)
        (parts.map fun p => (p.range.start, p.range.len)) ∧
      Tiles parts (range.start + copied) (range.start + range.len) ∧
      ∀ p ∈ parts, PartOf blobs keys p := by
  have pos : 0 < TREE_CHUNK_BYTES := by decide
  induction fuel generalizing copied s with
  | zero => omega
  | succ fuel ih =>
    rw [readLoop]
    by_cases lt : copied < range.len
    · have lt' : range.start + copied < range.start + range.len := by omega
      have first := firstPiece_pos pos lt'
      have last := firstPiece_le (c := TREE_CHUNK_BYTES) lt'
      have block := firstPiece_block pos (range.start + copied) (range.start + range.len)
      have short := range.len_lt
      obtain ⟨start, len⟩ := cut_range (c := TREE_CHUNK_BYTES) (by omega) lt
      have here : (range.start + copied) / TREE_CHUNK_BYTES * TREE_CHUNK_BYTES < stop := by
        have := Nat.div_mul_le_self (range.start + copied) TREE_CHUNK_BYTES
        omega
      rw [if_pos lt, plus_of_lt (by omega), lift_ok_bind, cutLen_eq pos le, lift_ok_bind]
      generalize ByteRange.new (range.start + copied)
        (firstPiece TREE_CHUNK_BYTES (range.start + copied) (range.start + range.len)) =
          partRange at *
      obtain ⟨s₁, looked, inv₁⟩ := looks s _ inv here
      rw [← start] at looked
      obtain ⟨part, read, is_range, part_of⟩ := readPart_spec looked (got s₁ inv₁)
        (fun key found => stored _ key found) (by rw [start, len]; exact block)
      obtain ⟨parts, s₂, run, inv₂, pieces, tiles, all⟩ := @ih s₁ inv₁ (copied + partRange.len)
        (by omega) (by omega)
      rw [start] at read
      refine ⟨part :: parts, s₂, ?_, inv₂, ?_, ?_, ?_⟩
      · rw [bind_ok read, bind_ok run]
        rfl
      · rw [List.map_cons, is_range, start, len]
        refine .cons lt' ?_
        rwa [Nat.add_assoc, ← len]
      · rw [← start, ← is_range]
        refine .cons part_of.len ?_
        rwa [is_range, start, Nat.add_assoc]
      · intro p mem
        rcases List.mem_cons.1 mem with rfl | mem
        · exact part_of
        · exact all p mem
    · rw [if_neg lt]
      have done : copied = range.len := by omega
      subst done
      exact ⟨[], s, rfl, inv, .nil, .nil, by simp⟩

lemma Tiles.content {parts : List BlockPart} {start stop : Nat} {f : Nat → Option UInt8}
    (h : Tiles parts start stop)
    (all : ∀ p ∈ parts, ∀ i < p.range.len, p.bytes[i]? = f (p.range.start + i)) :
    ∀ i < stop - start, (parts.flatMap (·.bytes))[i]? = f (start + i) := by
  induction h with
  | nil =>
    intro i lt
    omega
  | @cons part parts stop len rest ih =>
    intro i lt
    rw [List.flatMap_cons]
    by_cases here : i < part.range.len
    · rw [List.getElem?_append_left (by omega)]
      exact all part List.mem_cons_self i here
    · rw [List.getElem?_append_right (by omega), len,
        ih (fun p mem => all p (List.mem_cons_of_mem _ mem)) _ (by omega)]
      congr 1
      omega

/-- A block that is the committed content of a range: its parts are the ranges of
`chunks_for_range`, one for each chunk that the range meets and inside of it, and each byte is that
of the chunk's blob. -/
structure CommittedBlock (g : TreeGeometry) (blobs : Blobs) (keys : Nat → Option BlobKey)
    (range : ByteRange) (block : Block) : Prop where
  range_eq : block.range = range
  cuts : ∃ chunks, g.chunksForRange range = .ok chunks ∧
    block.parts.map (·.range) = chunks.map (·.range) ∧ (chunks.map (·.chunkIndex)).Nodup ∧
    (∀ k, k ∈ chunks.map (·.chunkIndex) ↔ ∃ x, range.Has x ∧ x / TREE_CHUNK_BYTES = k) ∧
    ∀ c ∈ chunks, 0 < c.range.len ∧
      c.range.start = c.chunkIndex * TREE_CHUNK_BYTES + c.chunkOffset ∧
      c.chunkOffset + c.range.len ≤ TREE_CHUNK_BYTES
  length : block.materialize.length = range.len
  bytes : ∀ i < range.len, block.materialize[i]? =
    committedByte blobs (keys ((range.start + i) / TREE_CHUNK_BYTES)) (range.start + i)

lemma readBlock_spec {g : TreeGeometry} {keys : Nat → Option BlobKey} {blobs : Blobs}
    {Inv : σ → Prop}
    (looks : ∀ s idx, Inv s → g.Valid idx → ∃ s', lookup idx s = .ok (keys idx) s' ∧ Inv s')
    (got : ∀ s, Inv s → ∀ key offset len,
      getBlob key offset len s = ofExcept (blobs.getBlob key offset len) s)
    (stored : ∀ idx key, keys idx = some key → ∃ bytes,
      blobs key = some bytes ∧ bytes.length = TREE_CHUNK_BYTES)
    (inside : range.start + range.len ≤ g.sizeBytes) {s : σ} (inv : Inv s) :
    ∃ block s', (do
        let parts ← readLoop lookup getBlob TREE_CHUNK_BYTES range (range.len + 1) 0
        liftM (Block.new range parts) : EStateM Fault σ Block) s = .ok block s' ∧ Inv s' ∧
      CommittedBlock g blobs keys range block := by
  have pos : 0 < TREE_CHUNK_BYTES := by decide
  have size := g.size_fits
  obtain ⟨parts, s', run, inv', pieces, tiles, all⟩ :=
    @readLoop_spec σ lookup getBlob range keys blobs Inv
    g.sizeBytes looks got stored inside (by omega) s inv 0 (range.len + 1) (by omega) (by omega)
  obtain ⟨chunks, cut, pieces', places⟩ := TreeGeometry.chunksForRange_spec inside
  rw [Nat.add_zero] at pieces tiles
  have valid : validateBlockParts range parts = .ok () :=
    validateBlockParts_eq_ok.2 ⟨by omega, tiles⟩
  have built : Block.new range parts = .ok ⟨range, parts, valid⟩ := by
    unfold Block.new
    split
    · rfl
    · rename_i fault failed
      rw [valid] at failed
      cases failed
  have same := pieces.unique pieces'
  have bounds : Function.Injective fun r : ByteRange => (r.start, r.len) := by
    intro r r' eq
    obtain ⟨start, len⟩ := Prod.mk.injEq .. ▸ eq
    exact ByteRange.ext start len
  have indices : chunks.map (·.chunkIndex) =
      (chunks.map fun c => (c.range.start, c.range.len)).map (·.1 / TREE_CHUNK_BYTES) := by
    rw [List.map_map]
    exact List.map_congr_left fun c mem => (places c mem).1
  obtain ⟨nodup, touched⟩ := pieces'.blocks pos
  refine ⟨⟨range, parts, valid⟩, s', ?_, inv', rfl, ⟨chunks, cut, ?_, ?_, ?_, ?_⟩,
    Block.length_materialize _, ?_⟩
  · rw [bind_ok run, built]
    rfl
  · refine List.map_injective_iff.2 bounds ?_
    rw [List.map_map, List.map_map]
    exact same
  · rw [indices]
    exact nodup
  · intro k
    rw [indices, touched k]
    simp only [ByteRange.Has, and_assoc]
  · intro c mem
    obtain ⟨index, offset⟩ := places c mem
    obtain ⟨-, some_byte, -, block⟩ := pieces'.mem pos (List.mem_map_of_mem mem)
    rw [index, offset, Nat.div_add_mod']
    exact ⟨some_byte, rfl, block⟩
  · intro i lt
    have content :=
      tiles.content (f := fun x => committedByte blobs (keys (x / TREE_CHUNK_BYTES)) x)
      fun p mem => (all p mem).bytes
    exact content i (by omega)

end Read

end NbdServer
