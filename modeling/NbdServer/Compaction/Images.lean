import NbdServer.Compaction.Stores
import NbdServer.Core.History

/-!
# The chunk images of a compaction

Model of the first part of `compact_snapshot` of `wal_durable/compaction.rs`: the overlay slices of
a snapshot are copied into images of the chunks they meet. An image starts as the committed chunk,
when the first slice that meets it is copied, and several slices can share one.

Other compactions add rows and blobs meanwhile, so each read sees the stores of its own moment:
`stores k` are the stores at read number `k`. What was there stays (`Stores.Grows`), so the images
do not depend on it (`applySlices_spec`).
-/

namespace NbdServer

open Lib TreeGeometry

/-- Rust `validate_overlay_slice_range`. -/
def validateOverlaySliceRange (root : RootSnapshot) (targetWalSeq : Nat)
    (slice : OverlayReadSlice) :
    Res Unit :=
  if slice.record.seq ≤ root.baseWalSeq then
    fail (.wal "compact overlay slice" s!"record sequence {slice.record.seq
      } is at or before checkpoint {root.baseWalSeq}")
  else if slice.record.seq > targetWalSeq then
    fail (.wal "compact overlay slice" s!"record sequence {slice.record.seq
      } is after compaction target {targetWalSeq}")
  else do
    let outOfBounds := .outOfBounds "compact overlay slice" slice.start (slice.stop - slice.start)
      root.sizeBytes
    let stop ← okOr ((checkedSub slice.stop slice.start).bind (checkedAdd slice.start)) outOfBounds
    if stop > root.sizeBytes then fail outOfBounds
    else do
      let recordEnd ← okOr (checkedAdd slice.recordOffset (slice.stop - slice.start))
        (.wal "compact overlay slice" "record offset overflowed")
      if recordEnd > slice.record.data.length then
        fail (.wal "compact overlay slice" "overlay slice extends beyond WAL record payload")
      else .ok ()

/-- The images of a compaction, with the sequences of the records it copied and the number of reads
it made. -/
structure ChunkImages where
  images : OrdMap Nat Buf
  visibleRecords : OrdMap Nat Unit
  reads : Nat

namespace ChunkImages

def new : ChunkImages := ⟨.empty, .empty, 0⟩

variable (stores : Nat → Stores) (root : RootSnapshot)

/-- Rust `load_committed_chunk`. It looks the chunk up as `CowTreeReader` does. -/
def loadCommittedChunk (reads chunkIndex : Nat) : Res Buf := do
  match ← outcome (CowTreeReader.lookup root chunkIndex (stores reads)) with
  | none => .ok (List.replicate TREE_CHUNK_BYTES 0)
  | some key => (stores (reads + 1)).blobs.getBlob key 0 TREE_CHUNK_BYTES

/-- Rust `load_or_create_root_chunk`. -/
def loadOrCreateRootChunk (chunks : ChunkImages) (chunkIndex : Nat) : Res (ChunkImages × Buf) :=
  match chunks.images.find chunkIndex with
  | some data => .ok (chunks, data)
  | none => do
    let data ← loadCommittedChunk stores root chunks.reads chunkIndex
    .ok ({ chunks with
      images := chunks.images.insert chunkIndex data
      reads := chunks.reads + 2 }, data)

/-- The loop of `apply_overlay_slice_to_chunks`. A round copies at least one byte. -/
def copyLoop (slice : OverlayReadSlice) (totalLen : Nat) : Nat → ChunkImages → Nat → Res ChunkImages
  | 0, _, _ => .error (.abort "more rounds than bytes")
  | fuel + 1, chunks, copied =>
    if copied < totalLen then do
      let currentOffset ← plus slice.start copied
      let chunkIndex := currentOffset / TREE_CHUNK_BYTES
      let chunkOffset := currentOffset % TREE_CHUNK_BYTES
      let chunkAvailable ← minus TREE_CHUNK_BYTES chunkOffset
      let left ← minus totalLen copied
      let copyLen := min chunkAvailable left
      let srcStart ← okOr (checkedAdd slice.recordOffset copied)
        (.wal "compact overlay slice" "record offset overflowed")
      let _ ← okOr (checkedAdd srcStart copyLen)
        (.wal "compact overlay slice" "record slice overflowed")
      let (chunks, chunk) ← chunks.loadOrCreateRootChunk stores root chunkIndex
      let chunk ← copySlice chunk chunkOffset slice.record.data srcStart copyLen
      copyLoop slice totalLen fuel { chunks with images := chunks.images.insert chunkIndex chunk }
        (copied + copyLen)
    else .ok chunks

/-- Rust `apply_overlay_slice_to_chunks`. -/
def applyOverlaySliceToChunks (chunks : ChunkImages) (slice : OverlayReadSlice) :
    Res ChunkImages := do
  let totalLen ← minus slice.stop slice.start
  copyLoop stores root slice totalLen (totalLen + 1) chunks 0

/-- A round of the loop of `compact_snapshot` over the slices. -/
def applySlice (targetWalSeq : Nat) (chunks : ChunkImages) (slice : OverlayReadSlice) :
    Res ChunkImages := do
  validateOverlaySliceRange root targetWalSeq slice
  applyOverlaySliceToChunks stores root
    { chunks with visibleRecords := chunks.visibleRecords.insert slice.record.seq () } slice

/-- The loop of `compact_snapshot` over the slices. -/
def applySlices (targetWalSeq : Nat) (slices : List OverlayReadSlice) : Res ChunkImages :=
  slices.foldlM (applySlice stores root targetWalSeq) .new

end ChunkImages

/-! ## Where the images are -/

def ChunkImages.Inside (size : Nat) (chunks : ChunkImages) : Prop :=
  ∀ idx data, chunks.images.find idx = some data → idx * TREE_CHUNK_BYTES < size

section Inside

variable {stores : Nat → Stores} {root : RootSnapshot} {chunks chunks' : ChunkImages}
variable {slice : OverlayReadSlice}

lemma validateOverlaySliceRange_eq_ok {target : Nat}
    (run : validateOverlaySliceRange root target slice = .ok ()) :
    root.baseWalSeq < slice.record.seq ∧ slice.record.seq ≤ target ∧ slice.start ≤ slice.stop ∧
      slice.stop ≤ root.sizeBytes := by
  unfold validateOverlaySliceRange at run
  split_ifs at run with before after
  · cases run
  · cases run
  · obtain ⟨stop, bounds, run⟩ := Res.bind_eq_ok.1 run
    unfold checkedSub at bounds
    split_ifs at bounds with le
    · rw [Option.bind_some, checkedAdd] at bounds
      split_ifs at bounds
      · cases bounds
        split_ifs at run with out
        · cases run
        · exact ⟨by omega, by omega, le, by omega⟩
      · cases bounds
    · cases bounds

lemma validateOverlaySliceRange_error {target : Nat} {fault : Fault}
    (run : validateOverlaySliceRange root target slice = .error fault) : ∃ e, fault = .err e := by
  unfold validateOverlaySliceRange at run
  split_ifs at run
  · cases run
    exact ⟨_, rfl⟩
  · cases run
    exact ⟨_, rfl⟩
  · cases bounds : (checkedSub slice.stop slice.start).bind (checkedAdd slice.start) with
    | none =>
      rw [bounds] at run
      cases run
      exact ⟨_, rfl⟩
    | some stop =>
      dsimp only at run
      rw [bounds, okOr_some, Res.ok_bind] at run
      split_ifs at run
      · cases run
        exact ⟨_, rfl⟩
      · cases sum : checkedAdd slice.recordOffset (slice.stop - slice.start) with
        | none =>
          rw [sum] at run
          cases run
          exact ⟨_, rfl⟩
        | some recordEnd =>
          rw [sum, okOr_some, Res.ok_bind] at run
          split_ifs at run
          cases run
          exact ⟨_, rfl⟩

lemma ChunkImages.Inside.loadOrCreate {size idx : Nat} {data : Buf} (h : chunks.Inside size)
    (inside : idx * TREE_CHUNK_BYTES < size)
    (run : chunks.loadOrCreateRootChunk stores root idx = .ok (chunks', data)) :
    chunks'.Inside size := by
  unfold ChunkImages.loadOrCreateRootChunk at run
  split at run
  · cases run
    exact h
  · obtain ⟨data', -, run⟩ := Res.bind_eq_ok.1 run
    cases run
    intro k bytes is
    rw [OrdMap.find_insert] at is
    split_ifs at is with same
    · rw [same]
      exact inside
    · exact h k bytes is

lemma ChunkImages.Inside.copyLoop {size totalLen fuel copied : Nat} (h : chunks.Inside size)
    (inside : slice.start + totalLen ≤ size)
    (run : ChunkImages.copyLoop stores root slice totalLen fuel chunks copied = .ok chunks') :
    chunks'.Inside size := by
  induction fuel generalizing chunks copied with
  | zero => cases run
  | succ fuel ih =>
    rw [ChunkImages.copyLoop] at run
    split_ifs at run with more
    · obtain ⟨offset, is_offset, run⟩ := Res.bind_eq_ok.1 run
      obtain ⟨available, -, run⟩ := Res.bind_eq_ok.1 run
      obtain ⟨left, -, run⟩ := Res.bind_eq_ok.1 run
      obtain ⟨srcStart, -, run⟩ := Res.bind_eq_ok.1 run
      obtain ⟨srcEnd, -, run⟩ := Res.bind_eq_ok.1 run
      obtain ⟨⟨chunks₁, chunk⟩, loaded, run⟩ := Res.bind_eq_ok.1 run
      obtain ⟨chunk', -, run⟩ := Res.bind_eq_ok.1 run
      unfold plus at is_offset
      split_ifs at is_offset
      cases is_offset
      have here : (slice.start + copied) / TREE_CHUNK_BYTES * TREE_CHUNK_BYTES < size := by
        have := Nat.div_mul_le_self (slice.start + copied) TREE_CHUNK_BYTES
        omega
      refine ih ?_ run
      intro k bytes is
      rw [OrdMap.find_insert] at is
      split_ifs at is with same
      · rw [same]
        exact here
      · exact h.loadOrCreate here loaded k bytes is
    · cases run
      exact h

lemma ChunkImages.applySlices_inside {target : Nat} {slices : List OverlayReadSlice}
    (run : ChunkImages.applySlices stores root target slices = .ok chunks) :
    chunks.Inside root.sizeBytes := by
  suffices all : ∀ first : ChunkImages, first.Inside root.sizeBytes →
      slices.foldlM (ChunkImages.applySlice stores root target) first = .ok chunks →
      chunks.Inside root.sizeBytes from all .new (fun idx data is => (by cases is)) run
  clear run
  induction slices with
  | nil =>
    intro first h run
    cases run
    exact h
  | cons slice slices ih =>
    intro first h run
    rw [List.foldlM_cons] at run
    obtain ⟨chunks₁, step, run⟩ := Res.bind_eq_ok.1 run
    refine ih chunks₁ ?_ run
    unfold ChunkImages.applySlice at step
    obtain ⟨⟨⟩, checked, step⟩ := Res.bind_eq_ok.1 step
    obtain ⟨-, -, le, inside⟩ := validateOverlaySliceRange_eq_ok checked
    unfold ChunkImages.applyOverlaySliceToChunks at step
    rw [minus_of_le le, Res.ok_bind] at step
    refine ChunkImages.Inside.copyLoop ?_ ?_ step
    · exact h
    · omega

end Inside

/-! ## What the images hold -/

/-- The images hold a content of the export, which is the old one in the chunks without an image. -/
structure ImagesOf (g : TreeGeometry) (old content : Nat → UInt8) (images : OrdMap Nat Buf) :
    Prop where
  image : ∀ idx data, images.find idx = some data → g.Valid idx ∧ data.length = TREE_CHUNK_BYTES ∧
    ∀ j < TREE_CHUNK_BYTES, data[j]? = some (content (idx * TREE_CHUNK_BYTES + j))
  rest : ∀ x, images.find (x / TREE_CHUNK_BYTES) = none → content x = old x

def overlaid (content : Nat → UInt8) (start stop : Nat) (value : Nat → UInt8) (x : Nat) : UInt8 :=
  if start ≤ x ∧ x < stop then value x else content x

/-- A slice that passes the checks and is the part of its record that it says. -/
structure SliceOk (size base target : Nat) (slice : OverlayReadSlice) : Prop where
  after_base : base < slice.record.seq
  until_target : slice.record.seq ≤ target
  lt : slice.start < slice.stop
  inside : slice.stop ≤ size
  offset : slice.record.range.start + slice.recordOffset = slice.start
  fits : slice.stop ≤ slice.record.range.start + slice.record.range.len

variable {g : TreeGeometry} {start : Stores} {stores : Nat → Stores} {root : RootSnapshot}
variable {old content : Nat → UInt8} {images : OrdMap Nat Buf} {chunks : ChunkImages}
variable {slice : OverlayReadSlice}

lemma SliceOk.byte {size base target : Nat} (h : SliceOk size base target slice) {x : Nat}
    (low : slice.start ≤ x) (high : x < slice.stop) :
    slice.record.data[slice.recordOffset + (x - slice.start)]? = some (slice.record.value x) := by
  have := h.offset
  have := h.fits
  rw [← WalRecord.byteAt_eq ⟨by omega, by omega⟩, WalRecord.byteAt]
  congr 1
  omega

lemma SliceOk.validate {target : Nat} (h : SliceOk root.sizeBytes root.baseWalSeq target slice)
    (fits : root.sizeBytes < U64) : validateOverlaySliceRange root target slice = .ok () := by
  have lt := h.lt
  have inside := h.inside
  have offset := h.offset
  have last := h.fits
  have small := slice.record.range.len_lt
  have := U32_lt_U64
  have bounds : (checkedSub slice.stop slice.start).bind (checkedAdd slice.start) =
      some slice.stop := by
    rw [checkedSub_of_le lt.le, Option.bind_some, checkedAdd_of_lt (by omega)]
    congr 1
    omega
  unfold validateOverlaySliceRange
  rw [if_neg (Nat.not_le.2 h.after_base), if_neg (Nat.not_lt.2 h.until_target)]
  dsimp only
  rw [bounds, okOr_some, Res.ok_bind, if_neg (Nat.not_lt.2 inside), checkedAdd_of_lt (by omega),
    okOr_some, Res.ok_bind, if_neg (by rw [slice.record.data_len]; omega)]

lemma loadCommittedChunk_spec (reads : ∀ k, start.Grows (stores k))
    (stored : StoredRoot start root g) {idx : Nat} (valid : g.Valid idx) (k : Nat) :
    ∃ data, ChunkImages.loadCommittedChunk stores root k idx = .ok data ∧
      data.length = TREE_CHUNK_BYTES ∧
      ∀ j < TREE_CHUNK_BYTES,
        data[j]? = some (start.committed root (idx * TREE_CHUNK_BYTES + j)) := by
  have now := stored.grows (reads k)
  obtain ⟨format, is_format, built⟩ := stored.built
  have looked := now.tree.lookup is_format built valid
  rw [stored.tree.cowKeys_grows (reads k).rows] at looked
  have place : ∀ j < TREE_CHUNK_BYTES, (idx * TREE_CHUNK_BYTES + j) / TREE_CHUNK_BYTES = idx ∧
      (idx * TREE_CHUNK_BYTES + j) % TREE_CHUNK_BYTES = j := by
    intro j lt
    rw [Nat.mul_comm, Nat.mul_add_div (by decide), Nat.mul_add_mod, Nat.div_eq_of_lt lt,
      Nat.mod_eq_of_lt lt]
    exact ⟨rfl, rfl⟩
  have byte : ∀ j < TREE_CHUNK_BYTES,
      committedByte start.blobs (cowKeys g root.rootNodeId start.rows idx)
        (idx * TREE_CHUNK_BYTES + j) =
        some (start.committed root (idx * TREE_CHUNK_BYTES + j)) := by
    intro j lt
    have := stored.tree.committedByte_eq (idx * TREE_CHUNK_BYTES + j)
    rwa [(place j lt).1, ← stored.committed_eq] at this
  unfold ChunkImages.loadCommittedChunk
  rw [looked, outcome, Res.ok_bind]
  cases found : cowKeys g root.rootNodeId start.rows idx with
  | none =>
    refine ⟨_, rfl, List.length_replicate, fun j lt => ?_⟩
    rw [← byte j lt, found, List.getElem?_replicate, if_pos lt]
    rfl
  | some key =>
    obtain ⟨bytes, is, len⟩ := stored.tree.stored found
    have got : (stores (k + 1)).blobs.getBlob key 0 TREE_CHUNK_BYTES = _ :=
      Blobs.getBlob_eq ((reads (k + 1)).blobs key bytes is) (by omega)
    rw [← len, slice_all] at got
    refine ⟨bytes, by rw [← len]; exact got, len, fun j lt => ?_⟩
    rw [← byte j lt, found, committedByte, is, Option.bind_some, (place j lt).2]

lemma loadOrCreateRootChunk_spec (reads : ∀ k, start.Grows (stores k))
    (stored : StoredRoot start root g) (h : ImagesOf g (start.committed root) content chunks.images)
    {idx : Nat} (valid : g.Valid idx) :
    ∃ chunks' data, chunks.loadOrCreateRootChunk stores root idx = .ok (chunks', data) ∧
      chunks'.images.find idx = some data ∧ chunks'.visibleRecords = chunks.visibleRecords ∧
      ImagesOf g (start.committed root) content chunks'.images := by
  unfold ChunkImages.loadOrCreateRootChunk
  cases found : chunks.images.find idx with
  | some data => exact ⟨chunks, data, rfl, found, rfl, h⟩
  | none =>
    obtain ⟨data, run, len, bytes⟩ := loadCommittedChunk_spec reads stored valid chunks.reads
    dsimp only
    rw [run, Res.ok_bind]
    refine ⟨_, data, rfl, by simp, rfl, ?_, ?_⟩
    · intro idx' data' is
      rw [OrdMap.find_insert] at is
      split_ifs at is with same
      · cases is
        subst same
        refine ⟨valid, len, fun j lt => ?_⟩
        rw [bytes j lt, h.rest]
        rwa [Nat.mul_comm, Nat.mul_add_div (by decide), Nat.div_eq_of_lt lt, Nat.add_zero]
      · exact h.image idx' data' is
    · intro x is
      rw [OrdMap.find_insert] at is
      split_ifs at is
      exact h.rest x is

lemma ImagesOf.write (h : ImagesOf g old content images) {idx off len : Nat} {data src : Buf}
    (value : Nat → UInt8) (image : images.find idx = some data) (src_len : src.length = len)
    (fits : off + len ≤ TREE_CHUNK_BYTES)
    (bytes : ∀ i < len, src[i]? = some (value (idx * TREE_CHUNK_BYTES + off + i))) :
    ImagesOf g old
      (overlaid content (idx * TREE_CHUNK_BYTES + off) (idx * TREE_CHUNK_BYTES + off + len) value)
      (images.insert idx (splice data off src)) := by
  obtain ⟨valid, data_len, agree⟩ := h.image idx data image
  have inside : off + src.length ≤ data.length := by omega
  constructor
  · intro idx' data' is
    rw [OrdMap.find_insert] at is
    split_ifs at is with same
    · cases is
      subst same
      refine ⟨valid, by rw [length_splice inside, data_len], fun j lt => ?_⟩
      rw [getElem?_splice inside, overlaid, src_len]
      by_cases here : off ≤ j ∧ j < off + len
      · have same : idx' * TREE_CHUNK_BYTES + off + (j - off) = idx' * TREE_CHUNK_BYTES + j := by
          omega
        rw [if_pos here, if_pos (by omega), bytes (j - off) (by omega), same]
      · rw [if_neg here, if_neg (by omega), agree j lt]
    · obtain ⟨valid', len', agree'⟩ := h.image idx' data' is
      refine ⟨valid', len', fun j lt => ?_⟩
      rw [agree' j lt, overlaid, if_neg]
      rintro ⟨low, high⟩
      refine same (Nat.eq_of_le_of_lt_succ ?_ ?_)
      · exact Nat.le_of_lt_succ (Nat.lt_of_mul_lt_mul_right (a := TREE_CHUNK_BYTES) (by
          rw [Nat.succ_mul]
          omega))
      · exact Nat.lt_of_mul_lt_mul_right (a := TREE_CHUNK_BYTES) (by
          rw [Nat.succ_mul]
          omega)
  · intro x is
    rw [OrdMap.find_insert] at is
    split_ifs at is with same
    rw [overlaid, if_neg, h.rest x is]
    rintro ⟨low, high⟩
    refine same ?_
    exact Nat.div_eq_of_lt_le (by omega) (by rw [Nat.succ_mul]; omega)

lemma overlaid_overlaid {a b c : Nat} {value : Nat → UInt8} (le : a ≤ b) (le' : b ≤ c) :
    overlaid (overlaid content a b value) b c value = overlaid content a c value := by
  funext x
  unfold overlaid
  split_ifs <;> first | rfl | omega

lemma copyLoop_spec (reads : ∀ k, start.Grows (stores k)) (stored : StoredRoot start root g)
    {target : Nat} (ok : SliceOk root.sizeBytes root.baseWalSeq target slice) {fuel copied : Nat}
    (le : slice.start + copied ≤ slice.stop) (enough : slice.stop - slice.start - copied < fuel)
    (h : ImagesOf g (start.committed root)
      (overlaid content slice.start (slice.start + copied) slice.record.value) chunks.images) :
    ∃ chunks', ChunkImages.copyLoop stores root slice (slice.stop - slice.start) fuel chunks
      copied =
        .ok chunks' ∧ chunks'.visibleRecords = chunks.visibleRecords ∧
      ImagesOf g (start.committed root) (overlaid content slice.start slice.stop slice.record.value)
        chunks'.images := by
  have pos : 0 < TREE_CHUNK_BYTES := by decide
  have size := stored.size_eq
  have fits := g.size_fits
  have inside := ok.inside
  have offset := ok.offset
  have last := ok.fits
  have data_len := slice.record.data_len
  have small := slice.record.range.len_lt
  have := U32_lt_U64
  induction fuel generalizing chunks copied with
  | zero => omega
  | succ fuel ih =>
    rw [ChunkImages.copyLoop]
    by_cases more : copied < slice.stop - slice.start
    · have lt : slice.start + copied < slice.stop := by omega
      have first := firstPiece_pos pos lt
      have within := firstPiece_le (c := TREE_CHUNK_BYTES) lt
      have block := firstPiece_block pos (slice.start + copied) slice.stop
      have in_chunk := Nat.mod_lt (slice.start + copied) pos
      have split := Nat.div_add_mod' (slice.start + copied) TREE_CHUNK_BYTES
      have cut : min (TREE_CHUNK_BYTES - (slice.start + copied) % TREE_CHUNK_BYTES)
          (slice.stop - slice.start - copied) =
            firstPiece TREE_CHUNK_BYTES (slice.start + copied) slice.stop := by
        rw [firstPiece, Nat.sub_sub]
      have valid : g.Valid ((slice.start + copied) / TREE_CHUNK_BYTES) := by
        show _ * TREE_CHUNK_BYTES < g.sizeBytes
        omega
      rw [if_pos more, plus_of_lt (by omega), Res.ok_bind]
      dsimp only
      rw [minus_of_le in_chunk.le, Res.ok_bind, minus_of_le more.le, Res.ok_bind, cut]
      generalize firstPiece TREE_CHUNK_BYTES (slice.start + copied) slice.stop = len at *
      obtain ⟨chunks₁, data, run, image, visible, h₁⟩ :=
        loadOrCreateRootChunk_spec reads stored h valid
      have data_full := (h₁.image _ data image).2.1
      have src : slice.recordOffset + copied + len ≤ slice.record.data.length := by omega
      rw [checkedAdd_of_lt (by omega), okOr_some, Res.ok_bind, checkedAdd_of_lt (by omega),
        okOr_some, Res.ok_bind, run, Res.ok_bind]
      dsimp only
      rw [copySlice_eq src (by omega), Res.ok_bind]
      have written := h₁.write slice.record.value image (length_slice src) block (by
        intro i lt
        rw [getElem?_slice lt, split, ← ok.byte (by omega) (by omega)]
        congr 1
        omega)
      rw [split, overlaid_overlaid (by omega) (by omega), Nat.add_assoc slice.start] at written
      obtain ⟨chunks', rest, visible', h'⟩ := @ih { chunks₁ with images := _ } (copied + len)
        (by omega)
        (by omega) written
      exact ⟨chunks', rest, visible'.trans visible, h'⟩
    · have done : slice.start + copied = slice.stop := by omega
      rw [done] at h
      rw [if_neg more]
      exact ⟨chunks, rfl, rfl, h⟩

lemma applySlice_spec (reads : ∀ k, start.Grows (stores k)) (stored : StoredRoot start root g)
    {target : Nat} (ok : SliceOk root.sizeBytes root.baseWalSeq target slice)
    (h : ImagesOf g (start.committed root) content chunks.images) :
    ∃ chunks', ChunkImages.applySlice stores root target chunks slice = .ok chunks' ∧
      ImagesOf g (start.committed root) (overlaid content slice.start slice.stop slice.record.value)
        chunks'.images := by
  have size := stored.size_eq
  have fits := g.size_fits
  have lt := ok.lt
  have first : ImagesOf g (start.committed root)
      (overlaid content slice.start (slice.start + 0) slice.record.value) (ChunkImages.images
        { chunks with visibleRecords := chunks.visibleRecords.insert slice.record.seq () }) := by
    have same : overlaid content slice.start (slice.start + 0) slice.record.value = content := by
      funext x
      rw [overlaid, if_neg (by omega)]
    rw [same]
    exact h
  obtain ⟨chunks', run, -, h'⟩ := copyLoop_spec reads stored ok lt.le
    (show _ < slice.stop - slice.start + 1 by omega) first
  refine ⟨chunks', ?_, h'⟩
  unfold ChunkImages.applySlice ChunkImages.applyOverlaySliceToChunks
  rw [ok.validate (by omega), Res.ok_bind, minus_of_le lt.le, Res.ok_bind]
  exact run

structure SlicePart (slice : OverlayReadSlice) : Prop where
  lt : slice.start < slice.stop
  offset : slice.record.range.start + slice.recordOffset = slice.start
  fits : slice.stop ≤ slice.record.range.start + slice.record.range.len

lemma applySlices_spec (reads : ∀ k, start.Grows (stores k)) (stored : StoredRoot start root g)
    (target : Nat) {slices : List OverlayReadSlice} (parts : ∀ slice ∈ slices, SlicePart slice) :
    (∃ e, ChunkImages.applySlices stores root target slices = fail e) ∨
    ∃ chunks, ChunkImages.applySlices stores root target slices = .ok chunks ∧
      ImagesOf g (start.committed root) (slices.foldl (fun content slice =>
        overlaid content slice.start slice.stop slice.record.value) (start.committed root))
        chunks.images := by
  suffices all : ∀ chunks content, ImagesOf g (start.committed root) content chunks.images →
      (∃ e, slices.foldlM (ChunkImages.applySlice stores root target) chunks = fail e) ∨
      ∃ chunks', slices.foldlM (ChunkImages.applySlice stores root target) chunks = .ok chunks' ∧
        ImagesOf g (start.committed root) (slices.foldl (fun content slice =>
          overlaid content slice.start slice.stop slice.record.value) content) chunks'.images from
    all .new _ ⟨fun idx data is => (by cases is), fun x _ => rfl⟩
  induction slices with
  | nil => exact fun chunks content h => .inr ⟨chunks, rfl, h⟩
  | cons slice slices ih =>
    intro chunks content h
    rw [List.foldlM_cons]
    cases checked : validateOverlaySliceRange root target slice with
    | error fault =>
      obtain ⟨e, rfl⟩ := validateOverlaySliceRange_error checked
      refine .inl ⟨e, ?_⟩
      rw [ChunkImages.applySlice, checked]
      rfl
    | ok _ =>
      obtain ⟨part_lt, offset, fits⟩ := parts slice List.mem_cons_self
      obtain ⟨above, below, -, inside⟩ := validateOverlaySliceRange_eq_ok checked
      obtain ⟨chunks₁, run, h₁⟩ := applySlice_spec reads stored ⟨above, below, part_lt, inside,
        offset, fits⟩ h
      rw [run, Res.ok_bind]
      exact ih (fun s mem => parts s (List.mem_cons_of_mem _ mem)) chunks₁ _ h₁

/-- Slices of an overlay, the writers of which are the records of the slices, lead to the content
under the overlay. -/
lemma foldl_overlaid {overlay : OverlayExtentMap} {slices : List OverlayReadSlice}
    (writer : ∀ s ∈ slices, ∀ x, s.start ≤ x → x < s.stop → overlay.writer x = some s.record)
    (content : Nat → UInt8) (x : Nat) : slices.foldl (fun content slice =>
        overlaid content slice.start slice.stop slice.record.value) content x =
      match overlay.writer x with
      | some r => if ∃ s ∈ slices, s.start ≤ x ∧ x < s.stop then r.value x else content x
      | none => content x := by
  induction slices generalizing content with
  | nil => cases overlay.writer x <;> simp
  | cons slice slices ih =>
    rw [List.foldl_cons, ih (fun s mem => writer s (List.mem_cons_of_mem _ mem))]
    unfold overlaid
    by_cases here : slice.start ≤ x ∧ x < slice.stop
    · have is := writer slice List.mem_cons_self x here.1 here.2
      rw [is]
      simp [here]
    · simp [here]

def CompactionSnapshot.contentOver (sn : CompactionSnapshot) (committed : Nat → UInt8) (x : Nat) :
    UInt8 :=
  match sn.overlay.writer x with
  | some record => record.value x
  | none => committed x

lemma slicePart_allSlices (overlay : OverlayExtentMap) : ∀ slice ∈ overlay.allSlices,
    SlicePart slice := by
  intro slice mem
  obtain ⟨e, is, rfl⟩ := List.mem_map.1 mem
  obtain ⟨-, offset, fits⟩ := overlay.part e is
  exact ⟨e.lt, offset, fits⟩

lemma OverlayExtentMap.writer_of_slice {overlay : OverlayExtentMap} {slice : OverlayReadSlice}
    (mem : slice ∈ overlay.allSlices) {x : Nat} (low : slice.start ≤ x) (high : x < slice.stop) :
    overlay.writer x = some slice.record := by
  obtain ⟨e, is, rfl⟩ := List.mem_map.1 mem
  exact writer_eq_some.2 ⟨e, is, ⟨low, high⟩, rfl⟩

lemma CompactionSnapshot.foldl_allSlices (sn : CompactionSnapshot) (committed : Nat → UInt8) :
    sn.overlay.allSlices.foldl (fun content slice =>
      overlaid content slice.start slice.stop slice.record.value) committed =
      sn.contentOver committed := by
  funext x
  rw [foldl_overlaid fun s mem x low high => OverlayExtentMap.writer_of_slice mem low high,
    contentOver]
  cases found : sn.overlay.writer x with
  | none => rfl
  | some r =>
    obtain ⟨e, is, has, -⟩ := OverlayExtentMap.writer_eq_some.1 found
    exact if_pos ⟨_, List.mem_map_of_mem is, has.1, has.2⟩

end NbdServer
