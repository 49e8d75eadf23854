import NbdServer.View.StateInv

/-!
# Reads of the read view

The three phases of `ExportReadView::read`. `Captured` is what the first critical section
establishes: overlay slices, cache slices and tree misses cover the read, and each of them leads to
the content the view represented at that moment. It says nothing about later states, so the tree
reads may take as long as they like (`Captured.assemble`). The last critical section caches the
blocks that were read, at the holes that are left then (`Represents.finishRead`).
-/

namespace NbdServer

open Lib

namespace ReadCache

/-- What `read_slices` says of a slice: it lies in the read and holds the cached bytes. -/
structure Slice (c : ReadCache) (range : ByteRange) (s : CacheReadSlice) : Prop where
  lower : range.start ≤ s.start
  lt : s.start < s.stop
  upper : s.stop ≤ range.stop
  small : s.objectOffset ≤ s.start
  fits : s.objectOffset + (s.stop - s.start) ≤ s.payload.data.length
  bytes : ∀ x, s.start ≤ x → x < s.stop →
    c.byteAt x = s.payload.data[s.objectOffset + (x - s.start)]?

lemma Linked.readSlices {c : ReadCache} (h : c.Linked) (range : ByteRange) :
    ∃ slices, c.readSlices range = .ok slices ∧ (∀ s ∈ slices, c.Slice range s) ∧
      ∀ x b, range.start ≤ x → x < range.stop → c.byteAt x = some b →
        ∃ s ∈ slices, s.start ≤ x ∧ x < s.stop := by
  have stop_lt := range.stop_lt
  unfold ReadCache.readSlices
  by_cases nonempty : range.start < range.stop
  · rw [ExtentMap.overlapping_eq nonempty, Res.ok_bind]
    obtain ⟨slices, run, all⟩ := Res.mapM_forall₂
      (l := c.extents.entries.filter (·.Meets range.start range.stop))
      (f := c.readSlice range.start range.stop) (p := fun e s => c.Slice range s ∧
        s.start = max range.start e.start ∧ s.stop = min range.stop e.stop) (by
        intro e he
        obtain ⟨he, meets⟩ := List.mem_filter.1 he
        obtain ⟨m₁, m₂⟩ : e.Meets range.start range.stop := by simpa using meets
        obtain ⟨o, ho, ⟨s₁, s₂, -⟩⟩ := h.slice e he
        have lt := e.lt
        unfold ReadCache.readSlice
        rw [ho, okOr_some, Res.ok_bind, checkedAdd_of_lt (by omega), okOr_some, Res.ok_bind]
        refine ⟨_, rfl, ⟨by simp, ?_, by simp, ?_, ?_, ?_⟩, rfl, rfl⟩
        · show max range.start e.start < min range.stop e.stop
          omega
        · show e.value.objectOffset + (max range.start e.start - e.start) ≤ max range.start e.start
          omega
        · show e.value.objectOffset + (max range.start e.start - e.start) +
            (min range.stop e.stop - max range.start e.start) ≤ o.payload.data.length
          omega
        · intro x h₁ h₂
          have h₁ : max range.start e.start ≤ x := h₁
          have h₂ : x < min range.stop e.stop := h₂
          have off : e.value.objectOffset + (max range.start e.start - e.start) +
              (x - max range.start e.start) = e.value.objectOffset + (x - e.start) := by omega
          show c.byteAt x = o.payload.data[e.value.objectOffset +
            (max range.start e.start - e.start) + (x - max range.start e.start)]?
          rw [off, byteAt_of_mem he ⟨by omega, by omega⟩, objectData, ho]
          rfl)
    refine ⟨slices, run, ?_, ?_⟩
    · intro s hs
      obtain ⟨e, -, h, -⟩ := forall₂_right all s hs
      exact h
    · intro x b h₁ h₂ hb
      obtain ⟨v, hv, -⟩ := Option.bind_eq_some_iff.1 hb
      obtain ⟨e, he, has, -⟩ := IntervalMap.valueAt_eq_some.1 hv
      have mem : e ∈ c.extents.entries.filter (·.Meets range.start range.stop) :=
        List.mem_filter.2 ⟨he, by simpa using Entry.meets_of_has has h₁ h₂⟩
      obtain ⟨s, hs, -, e₁, e₂⟩ := forall₂_left all e mem
      obtain ⟨h₃, h₄⟩ := has
      exact ⟨s, hs, by omega, by omega⟩
  · have empty : range.start = range.stop := by
      have := range.start_lt
      unfold ByteRange.stop at nonempty ⊢
      omega
    unfold ExtentMap.overlapping
    rw [if_pos empty, Res.ok_bind]
    refine ⟨[], rfl, by simp, ?_⟩
    intro x b h₁ h₂
    omega

end ReadCache

/-- The slice lies in the read and holds the content `f` there. -/
structure SliceHolds (range : ByteRange) (start stop offset : Nat) (data : Buf) (f : Nat → UInt8) :
    Prop where
  lower : range.start ≤ start
  lt : start < stop
  upper : stop ≤ range.stop
  fits : offset + (stop - start) ≤ data.length
  content : ∀ x, start ≤ x → x < stop → data[offset + (x - start)]? = some (f x)

/-- What a read holds after its first critical section, when the view represented the content
`f`. -/
structure Captured (committed : RootSnapshot → Nat → UInt8) (size : Nat) (f : Nat → UInt8)
    (c : Capture) : Prop where
  inside : c.range.start + c.range.len ≤ size
  overlay : ∀ s ∈ c.overlaySlices, SliceHolds c.range s.start s.stop s.recordOffset s.record.data f
  cache : ∀ s ∈ c.cacheSlices,
    s.objectOffset ≤ s.start ∧ SliceHolds c.range s.start s.stop s.objectOffset s.payload.data f
  misses : ∀ m ∈ c.treeMisses, c.range.start ≤ m.start ∧
    m.start + m.len ≤ c.range.start + c.range.len ∧ ∀ x, m.Has x → committed c.root x = f x
  cover : ∀ x, c.range.Has x → (∃ s ∈ c.overlaySlices, s.start ≤ x ∧ x < s.stop) ∨
    (∃ s ∈ c.cacheSlices, s.start ≤ x ∧ x < s.stop) ∨ ∃ m ∈ c.treeMisses, m.Has x

lemma cacheSlicesIn_spec {c : ReadCache} (h : c.Linked) (ranges : List ByteRange) :
    ∃ slices, ReadViewState.cacheSlicesIn c ranges = .ok slices ∧
      ∀ s ∈ slices, ∃ r ∈ ranges, c.Slice r s := by
  induction ranges with
  | nil => exact ⟨[], rfl, by simp⟩
  | cons r ranges ih =>
    obtain ⟨slices, run, all, -⟩ := h.readSlices r
    obtain ⟨rest, runs, alls⟩ := ih
    refine ⟨slices ++ rest, ?_, ?_⟩
    · rw [ReadViewState.cacheSlicesIn, run, Res.ok_bind, runs, Res.ok_bind]
    · intro s hs
      rcases List.mem_append.1 hs with hs | hs
      · exact ⟨r, List.mem_cons_self, all s hs⟩
      · obtain ⟨r', hr', h'⟩ := alls s hs
        exact ⟨r', List.mem_cons_of_mem _ hr', h'⟩

namespace Represents

variable {committed : RootSnapshot → Nat → UInt8} {base : Nat → UInt8} {first size : Nat}
variable {done pending : List WalRecord} {s : ReadViewState}

lemma overlaySlice (h : Represents committed base first size done pending s) {range : ByteRange}
    {sl : OverlayReadSlice} (hsl : s.overlay.Slice range sl) :
    SliceHolds range sl.start sl.stop sl.recordOffset sl.record.data
      (contentAfter base (done ++ pending)) := by
  obtain ⟨h₁, h₂, h₃, h₄, h₅, h₆⟩ := hsl
  refine ⟨h₁, h₂, h₃, ?_, ?_⟩
  · rw [sl.record.data_len]
    omega
  · intro x hx₁ hx₂
    have hw := h₆ x hx₁ hx₂
    have has := OverlayExtentMap.writer_has hw
    rw [h.overlay] at hw
    rw [contentAfter, flat_append, flat_of_some hw, ← WalRecord.byteAt_eq has, WalRecord.byteAt]
    congr 1
    omega

lemma cached_content (h : Represents committed base first size done pending s) {x b}
    (hb : s.cache.byteAt x = some b) : contentAfter base (done ++ pending) x = b := by
  obtain ⟨-, h₂, h₃⟩ := h.cached x b hb
  rw [contentAfter, flat_append, flat_of_none h₂]
  exact h₃

lemma capture (h : Represents committed base first size done pending s) (hs : size < U64)
    {range : ByteRange} (inside : range.start + range.len ≤ size) :
    ∃ c, s.capture range = .ok c ∧ c.range = range ∧ c.root = s.root ∧
      Captured committed size (contentAfter base (done ++ pending)) c := by
  have stop_eq : range.stop = range.start + range.len := ByteRange.stop_of_lt (by omega)
  obtain ⟨os, run₁, os_ok, os_all⟩ := s.overlay.readSlices_spec range
  have span₁ : ∀ sp ∈ os.map (fun sl => (sl.start, sl.stop)),
      range.start ≤ sp.1 ∧ sp.1 < sp.2 ∧ sp.2 ≤ range.stop := by
    intro sp hsp
    obtain ⟨sl, hsl, rfl⟩ := List.mem_map.1 hsp
    have := os_ok sl hsl
    exact ⟨this.lower, this.lt, this.upper⟩
  obtain ⟨ranges, run₂, in₂, gaps₂⟩ := gapsInRange_spec range _ span₁
  obtain ⟨cs, run₃, cs_ok⟩ := cacheSlicesIn_spec h.cache.toLinked ranges
  have cs_in : ∀ sl ∈ cs, range.start ≤ sl.start ∧ sl.start < sl.stop ∧ sl.stop ≤ range.stop := by
    intro sl hsl
    obtain ⟨r, hr, hsl⟩ := cs_ok sl hsl
    obtain ⟨-, i₂, i₃⟩ := in₂ r hr
    have : r.stop ≤ range.stop := by
      unfold ByteRange.stop
      omega
    exact ⟨i₂.trans hsl.lower, hsl.lt, hsl.upper.trans this⟩
  have span₂ : ∀ sp ∈ os.map (fun sl => (sl.start, sl.stop)) ++
      cs.map (fun sl => (sl.start, sl.stop)),
      range.start ≤ sp.1 ∧ sp.1 < sp.2 ∧ sp.2 ≤ range.stop := by
    intro sp hsp
    rcases List.mem_append.1 hsp with hsp | hsp
    · exact span₁ sp hsp
    · obtain ⟨sl, hsl, rfl⟩ := List.mem_map.1 hsp
      exact cs_in sl hsl
  obtain ⟨misses, run₄, in₄, gaps₄⟩ := gapsInRange_spec range _ span₂
  refine ⟨⟨range, s.root, os, cs, misses⟩, ?_, rfl, rfl, inside, ?_, ?_, ?_, ?_⟩
  · unfold ReadViewState.capture
    rw [h.size_eq, (validateRange_eq_ok hs).2 inside, Res.ok_bind, run₁]
    simp only [Res.ok_bind, run₂, run₃, run₄]
  · intro sl hsl
    exact h.overlaySlice (os_ok sl hsl)
  · intro sl hsl
    obtain ⟨r, -, ok⟩ := cs_ok sl hsl
    obtain ⟨i₁, i₂, i₃⟩ := cs_in sl hsl
    refine ⟨ok.small, i₁, i₂, i₃, ok.fits, ?_⟩
    intro x h₁ h₂
    have fits := ok.fits
    have byte := ok.bytes x h₁ h₂
    rw [List.getElem?_eq_getElem (by omega)] at byte
    rw [h.cached_content byte, List.getElem?_eq_getElem]
  · intro m hm
    obtain ⟨i₁, i₂, i₃⟩ := in₄ m hm
    refine ⟨i₂, by show m.start + m.len ≤ range.start + range.len; omega, ?_⟩
    intro x hx
    have free := ((gaps₄ x).1 ⟨m, hm, hx⟩)
    have lt : x < size := by omega
    -- the overlay does not hold the byte, so the content is that of the root
    have none : writerIn pending x = none := by
      rw [← h.overlay]
      cases hw : s.overlay.writer x with
      | none => rfl
      | some r =>
        obtain ⟨sl, hsl, h₁, h₂⟩ := os_all x r free.1 free.2.1 hw
        exact absurd ⟨h₁, h₂⟩ (free.2.2 _ (List.mem_append_left _ (List.mem_map.2 ⟨sl, hsl, rfl⟩)))
    show committed s.root x = _
    rw [h.root x lt, contentAfter, contentAfter, flat_append, flat_of_none none]
  · intro x hx
    by_cases free : ∀ sp ∈ os.map (fun sl => (sl.start, sl.stop)) ++
        cs.map (fun sl => (sl.start, sl.stop)), ¬ Span.Has sp x
    · have h₂ := hx.2
      obtain ⟨m, hm, hmx⟩ := (gaps₄ x).2 ⟨hx.1, by rw [stop_eq]; exact h₂, free⟩
      exact .inr (.inr ⟨m, hm, hmx⟩)
    · push Not at free
      obtain ⟨sp, hsp, has⟩ := free
      rcases List.mem_append.1 hsp with hsp | hsp
      · obtain ⟨sl, hsl, rfl⟩ := List.mem_map.1 hsp
        exact .inl ⟨sl, hsl, has.1, has.2⟩
      · obtain ⟨sl, hsl, rfl⟩ := List.mem_map.1 hsp
        exact .inr (.inl ⟨sl, hsl, has.1, has.2⟩)

end Represents

/-! ## Assembling the buffer -/

lemma fillFrom_spec {α} (copy : Buf → α → Res Buf) (sources : List α) (places : α → Set Nat)
    {f : Nat → UInt8} {n : Nat} {data : Buf} {known : Set Nat} (len : data.length = n)
    (agree : Agrees data f known)
    (step : ∀ a ∈ sources, ∀ data known, data.length = n → Agrees data f known →
      ∃ data', copy data a = .ok data' ∧ data'.length = n ∧ Agrees data' f (known ∪ places a)) :
    ∃ data', ReadViewState.fillFrom copy sources data = .ok data' ∧ data'.length = n ∧
      Agrees data' f (known ∪ {i | ∃ a ∈ sources, i ∈ places a}) := by
  induction sources generalizing data known with
  | nil => exact ⟨data, rfl, len, by simpa using agree⟩
  | cons a sources ih =>
    obtain ⟨data₁, run₁, len₁, agree₁⟩ := step a List.mem_cons_self data known len agree
    obtain ⟨data', run', len', agree'⟩ := ih len₁ agree₁ fun b hb =>
      step b (List.mem_cons_of_mem _ hb)
    refine ⟨data', ?_, len', ?_⟩
    · rw [ReadViewState.fillFrom, run₁, Res.ok_bind, run']
    · intro i hi mem
      refine agree' i hi ?_
      rcases mem with mem | ⟨b, hb, mem⟩
      · exact .inl (.inl mem)
      · rcases List.mem_cons.1 hb with rfl | hb
        · exact .inl (.inr mem)
        · exact .inr ⟨b, hb, mem⟩

lemma SliceHolds.copy {range : ByteRange} {start stop offset : Nat} {bytes : Buf} {f : Nat → UInt8}
    (h : SliceHolds range start stop offset bytes f) (hr : range.stop = range.start + range.len)
    {data : Buf} {known : Set Nat} (len : data.length = range.len)
    (agree : Agrees data (fun i => f (range.start + i)) known) :
    ∃ data', copySlice data (start - range.start) bytes offset (stop - start) = .ok data' ∧
      data'.length = range.len ∧ Agrees data' (fun i => f (range.start + i))
        (known ∪ {i | start ≤ range.start + i ∧ range.start + i < stop}) := by
  obtain ⟨h₁, h₂, h₃, h₄, h₅⟩ := h
  obtain ⟨data', run, len', agree'⟩ := copySlice_agrees (start - range.start)
    agree h₄ (by omega) (by
      intro i hi
      have := h₅ (start + i) (by omega) (by omega)
      rw [Nat.add_sub_cancel_left] at this
      rw [this]
      congr 2
      omega)
  refine ⟨data', run, len'.trans len, ?_⟩
  intro i hi mem
  refine agree' i hi ?_
  rcases mem with mem | ⟨m₁, m₂⟩
  · exact .inl mem
  · exact .inr ⟨by omega, by omega⟩

def Answers (committed : RootSnapshot → Nat → UInt8) (c : Capture) (blocks : List Block) : Prop :=
  List.Forall₂ (fun miss block => block.range = miss ∧ block.Holds (committed c.root)) c.treeMisses
    blocks

/-- When all misses are answered, the buffer of the read holds the content of the moment of the
capture. -/
lemma Captured.assemble {committed : RootSnapshot → Nat → UInt8} {size : Nat} {f : Nat → UInt8}
    {c : Capture} (h : Captured committed size f c) (hs : size < U64) {blocks : List Block}
    (answers : Answers committed c blocks) :
    ∃ data, ReadViewState.assemble c blocks = .ok data ∧ data.length = c.range.len ∧
      ∀ i < c.range.len, data[i]? = some (f (c.range.start + i)) := by
  have inside := h.inside
  have stop_eq : c.range.stop = c.range.start + c.range.len := ByteRange.stop_of_lt (by omega)
  have agree₀ : Agrees (List.replicate c.range.len 0) (fun i => f (c.range.start + i)) ∅ :=
    fun i _ mem => mem.elim
  -- cached slices first, then the blocks of the tree, and the overlay over both
  obtain ⟨data₁, run₁, len₁, agree₁⟩ := fillFrom_spec
    (fun data slice => CacheReadSlice.copyTo slice c.range data) c.cacheSlices
    (fun s => {i | s.start ≤ c.range.start + i ∧ c.range.start + i < s.stop})
    (List.length_replicate (a := (0 : UInt8))) agree₀
    (by
      intro sl hsl data known len agree
      obtain ⟨small, holds⟩ := h.cache sl hsl
      have e₁ : max c.range.start sl.start = sl.start := Nat.max_eq_right holds.lower
      have e₂ : min c.range.stop sl.stop = sl.stop := Nat.min_eq_right holds.upper
      have lt := holds.lt
      have upper := holds.upper
      obtain ⟨data', run, rest⟩ := holds.copy stop_eq len agree
      refine ⟨data', ?_, rest⟩
      show CacheReadSlice.copyTo sl c.range data = _
      unfold CacheReadSlice.copyTo
      rw [e₁, e₂, if_neg (by omega), Nat.sub_self, checkedAdd_of_lt (by omega), okOr_some,
        Res.ok_bind]
      exact run)
  obtain ⟨data₂, run₂, len₂, agree₂⟩ := fillFrom_spec
    (fun data block => ReadViewState.copyTreeBlock data c.range block) blocks
    (fun b => {i | b.range.Has (c.range.start + i)}) len₁ agree₁
    (by
      intro b hb data known len agree
      obtain ⟨m, hm, rfl, holds⟩ := forall₂_right answers b hb
      obtain ⟨m₁, m₂, m₃⟩ := h.misses _ hm
      have bl := b.length_materialize
      have fits := b.fits
      refine ⟨splice data (b.range.start - c.range.start) b.materialize, ?_, ?_, ?_⟩
      · show ReadViewState.copyTreeBlock data c.range b = _
        unfold ReadViewState.copyTreeBlock
        rw [if_neg, if_neg (not_not.2 bl), copyInto_eq (by omega)]
        rw [ByteRange.stop_of_lt fits]
        omega
      · rw [length_splice (by omega), len]
      · have := agree.splice (b.range.start - c.range.start) b.materialize (by omega)
          (by
            intro i hi
            rw [holds i (by omega), m₃ _ ⟨by omega, by omega⟩]
            congr 2
            omega)
        intro i hi mem
        refine this i hi ?_
        rcases mem with mem | ⟨h₁, h₂⟩
        · exact .inl mem
        · exact .inr ⟨by omega, by omega⟩)
  obtain ⟨data₃, run₃, len₃, agree₃⟩ := fillFrom_spec
    (fun data slice => ReadViewState.overlayRecord data c.range slice) c.overlaySlices
    (fun s => {i | s.start ≤ c.range.start + i ∧ c.range.start + i < s.stop}) len₂ agree₂
    (by
      intro sl hsl data known len agree
      have holds := h.overlay sl hsl
      have e₁ : max c.range.start sl.start = sl.start := Nat.max_eq_right holds.lower
      have e₂ : min c.range.stop sl.stop = sl.stop := Nat.min_eq_right holds.upper
      have lt := holds.lt
      obtain ⟨data', run, rest⟩ := holds.copy stop_eq len agree
      refine ⟨data', ?_, rest⟩
      show ReadViewState.overlayRecord data c.range sl = _
      unfold ReadViewState.overlayRecord
      rw [e₁, e₂, if_neg (by omega), Nat.sub_self]
      exact run)
  refine ⟨data₃, ?_, len₃, ?_⟩
  · unfold ReadViewState.assemble
    rw [run₁, Res.ok_bind, run₂, Res.ok_bind, run₃]
  · intro i hi
    refine agree₃ i (by omega) ?_
    rcases h.cover (c.range.start + i) ⟨by omega, by omega⟩ with ⟨sl, hsl, h'⟩ | ⟨sl, hsl, h'⟩ |
      ⟨m, hm, h'⟩
    · exact .inr ⟨sl, hsl, h'⟩
    · exact .inl (.inl (.inr ⟨sl, hsl, h'⟩))
    · obtain ⟨b, hb, rfl, -⟩ := forall₂_left answers m hm
      exact .inl (.inr ⟨b, hb, h'⟩)

/-! ## Caching what was read -/

namespace Represents

variable {committed : RootSnapshot → Nat → UInt8} {base : Nat → UInt8} {first size : Nat}
variable {done pending : List WalRecord} {s : ReadViewState}

/-- Filling the holes of a part succeeds; what is cached afterwards was cached before or is a byte
of the part in a hole. -/
lemma insertHoles (range : ByteRange) (bytes : Buf) (holes : List ByteRange) {cache : ReadCache}
    (inv : cache.Inv) (len : bytes.length = range.len)
    (fits : range.start + range.len + CACHE_BLOCK_BYTES < U64)
    (inside : ∀ g ∈ holes, range.start ≤ g.start ∧ g.start + g.len ≤ range.start + range.len) :
    ∃ cache', ReadViewState.insertHoles cache range bytes holes = .ok cache' ∧ cache'.Inv ∧
      ∀ x b, cache'.byteAt x = some b → cache.byteAt x = some b ∨
        ∃ g ∈ holes, g.Has x ∧ bytes[x - range.start]? = some b := by
  induction holes generalizing cache with
  | nil => exact ⟨cache, rfl, inv, fun x b hb => .inl hb⟩
  | cons g holes ih =>
    obtain ⟨i₁, i₂⟩ := inside g List.mem_cons_self
    have slice_ok : g.start - range.start + g.len ≤ bytes.length := by omega
    obtain ⟨cache₁, run₁, inv₁, -, bytes₁⟩ := inv.insertBytes g
      (slice bytes (g.start - range.start) g.len) .hot (length_slice slice_ok) (by omega)
    obtain ⟨cache', run', inv', bytes'⟩ := ih inv₁ fun g' hg' =>
      inside g' (List.mem_cons_of_mem _ hg')
    refine ⟨cache', ?_, inv', ?_⟩
    · rw [ReadViewState.insertHoles, minus_of_le i₁, Res.ok_bind, sliceOf_eq slice_ok, Res.ok_bind,
        run₁, Res.ok_bind, run']
    · intro x b hb
      rcases bytes' x b hb with hb | ⟨g', hg', later⟩
      · have := bytes₁ x b hb
        split at this
        · rename_i has
          obtain ⟨h₁, h₂⟩ := has
          refine .inr ⟨g, List.mem_cons_self, ⟨h₁, h₂⟩, ?_⟩
          rw [getElem?_slice (by omega)] at this
          rw [← this]
          congr 1
          omega
        · exact .inl this
      · exact .inr ⟨g', List.mem_cons_of_mem _ hg', later⟩

lemma insertPartFill (h : Represents committed base first size done pending s)
    (hs : size + CACHE_BLOCK_BYTES < U64) (range : ByteRange) (bytes : Buf)
    (inside : range.start + range.len ≤ size) (len : bytes.length = range.len)
    (content : ∀ i < range.len, bytes[i]? = some (committed s.root (range.start + i))) :
    ∃ s', s.insertPartFill range bytes = .ok s' ∧
      Represents committed base first size done pending s' ∧ s'.root = s.root ∧
      s'.walDebtBytes = s.walDebtBytes := by
  have stop_eq : range.stop = range.start + range.len := ByteRange.stop_of_lt (by omega)
  obtain ⟨os, run₁, os_ok, os_all⟩ := s.overlay.readSlices_spec range
  obtain ⟨cs, run₂, cs_ok, -⟩ := h.cache.toLinked.readSlices range
  obtain ⟨holes, run₃, in₃, gaps⟩ := gapsInRange_spec range
    (os.map (fun sl => (sl.start, sl.stop)) ++ cs.map (fun sl => (sl.start, sl.stop))) (by
      intro sp hsp
      rcases List.mem_append.1 hsp with hsp | hsp
      · obtain ⟨sl, hsl, rfl⟩ := List.mem_map.1 hsp
        have := os_ok sl hsl
        exact ⟨this.lower, this.lt, this.upper⟩
      · obtain ⟨sl, hsl, rfl⟩ := List.mem_map.1 hsp
        have := cs_ok sl hsl
        exact ⟨this.lower, this.lt, this.upper⟩)
  obtain ⟨cache, run₄, inv, bytes'⟩ := insertHoles range bytes holes h.cache len (by omega) (by
      intro g hg
      obtain ⟨-, h₂, h₃⟩ := in₃ g hg
      exact ⟨h₂, by omega⟩)
  refine ⟨{ s with cache := cache }, ?_, ?_, rfl, rfl⟩
  · unfold ReadViewState.insertPartFill
    rw [run₁, Res.ok_bind, run₂, Res.ok_bind, run₃, Res.ok_bind, run₄, Res.ok_bind]
  · refine ⟨h.size_eq, h.base_eq, h.last_eq, h.seqs, h.bounds, h.root, h.overlay, inv, ?_⟩
    intro x b hb
    rcases bytes' x b hb with old | ⟨g, hg, has, byte⟩
    · exact h.cached x b old
    · obtain ⟨f₁, f₂, f₃⟩ := (gaps x).1 ⟨g, hg, has⟩
      have lt : x < size := by omega
      refine ⟨lt, ?_, ?_⟩
      · rw [← h.overlay]
        cases hw : s.overlay.writer x with
        | none => rfl
        | some r =>
          obtain ⟨sl, hsl, h₁, h₂⟩ := os_all x r f₁ f₂ hw
          exact absurd ⟨h₁, h₂⟩ (f₃ _ (List.mem_append_left _ (List.mem_map.2 ⟨sl, hsl, rfl⟩)))
      · have := content (x - range.start) (by omega)
        rw [byte, Nat.add_sub_of_le f₁, h.root x lt] at this
        exact (Option.some.inj this).symm

lemma insertPartFills (h : Represents committed base first size done pending s)
    (hs : size + CACHE_BLOCK_BYTES < U64) (parts : List BlockPart)
    (ok : ∀ p ∈ parts, p.range.start + p.range.len ≤ size ∧ p.bytes.length = p.range.len ∧
      ∀ i < p.range.len, p.bytes[i]? = some (committed s.root (p.range.start + i))) :
    ∃ s', s.insertPartFills parts = .ok s' ∧
      Represents committed base first size done pending s' ∧ s'.root = s.root ∧
      s'.walDebtBytes = s.walDebtBytes := by
  induction parts generalizing s with
  | nil => exact ⟨s, rfl, h, rfl, rfl⟩
  | cons p parts ih =>
    have rest : ∀ s' : ReadViewState, s'.root = s.root → ∀ p ∈ parts,
        p.range.start + p.range.len ≤ size ∧ p.bytes.length = p.range.len ∧
        ∀ i < p.range.len, p.bytes[i]? = some (committed s'.root (p.range.start + i)) := by
      intro s' e q hq
      rw [e]
      exact ok q (List.mem_cons_of_mem _ hq)
    cases p with
    | data range bytes =>
      obtain ⟨o₁, o₂, o₃⟩ := ok _ List.mem_cons_self
      obtain ⟨s₁, run₁, h₁, e₁, d₁⟩ := h.insertPartFill hs range bytes o₁ o₂ o₃
      obtain ⟨s', run', h', e', d'⟩ := ih h₁ (rest s₁ e₁)
      refine ⟨s', ?_, h', e'.trans e₁, d'.trans d₁⟩
      rw [ReadViewState.insertPartFills, run₁, Res.ok_bind, run']
    | zero range =>
      obtain ⟨s', run', h', e', d'⟩ := ih h (rest s rfl)
      exact ⟨s', run', h', e', d'⟩

lemma insertTreeFills (h : Represents committed base first size done pending s)
    (hs : size + CACHE_BLOCK_BYTES < U64) (blocks : List Block)
    (ok : ∀ b ∈ blocks, b.range.start + b.range.len ≤ size ∧ b.Holds (committed s.root)) :
    ∃ s', s.insertTreeFills blocks = .ok s' ∧
      Represents committed base first size done pending s' ∧ s'.root = s.root ∧
      s'.walDebtBytes = s.walDebtBytes := by
  induction blocks generalizing s with
  | nil => exact ⟨s, rfl, h, rfl, rfl⟩
  | cons b blocks ih =>
    obtain ⟨o₁, o₂⟩ := ok b List.mem_cons_self
    obtain ⟨s₁, run₁, h₁, e₁, d₁⟩ := h.insertPartFills hs b.parts (by
      intro p hp
      obtain ⟨-, p₂, p₃, p₄⟩ := o₂.part hp
      exact ⟨by omega, p₃, p₄⟩)
    obtain ⟨s', run', h', e', d'⟩ := ih h₁ (by
      intro b' hb'
      rw [e₁]
      exact ok b' (List.mem_cons_of_mem _ hb'))
    refine ⟨s', ?_, h', e'.trans e₁, d'.trans d₁⟩
    rw [ReadViewState.insertTreeFills, run₁, Res.ok_bind, run']

lemma finishRead (h : Represents committed base first size done pending s)
    (hs : size + CACHE_BLOCK_BYTES < U64) {f : Nat → UInt8} {c : Capture} {blocks : List Block}
    (captured : Captured committed size f c) (answers : Answers committed c blocks) :
    ∃ s', s.finishRead c blocks = (s', .ok ()) ∧
      Represents committed base first size done pending s' ∧ s'.root = s.root ∧
      s'.walDebtBytes = s.walDebtBytes := by
  unfold ReadViewState.finishRead
  split
  · exact ⟨s, rfl, h, rfl, rfl⟩
  · obtain ⟨inv, -, -, bytes⟩ := h.cache.promoteHits (c.cacheSlices.map (·.objectId))
    have h₁ := h.withCache inv fun x b hb => (bytes x).symm.trans hb
    simp only
    split
    · rename_i same
      obtain ⟨s', run, h', e', d'⟩ := h₁.insertTreeFills hs blocks (by
        intro b hb
        obtain ⟨m, hm, rfl, holds⟩ := forall₂_right answers b hb
        obtain ⟨-, m₂, -⟩ := captured.misses _ hm
        have := captured.inside
        refine ⟨by omega, ?_⟩
        show b.Holds (committed s.root)
        rw [same]
        exact holds)
      exact ⟨s', by rw [run], h', e', d'⟩
    · exact ⟨_, rfl, h₁, rfl, rfl⟩

end Represents

end NbdServer
