import NbdServer.View.CacheOrder
import NbdServer.View.Refine

/-!
# The order of retired data

When the root advances, the overlay extents it holds are moved to the cold end of the cache, one
after another. `visible_through` lists them by ascending sequence, so the extents of the lower
sequences come first and end up hotter than those of the higher ones.
-/

namespace NbdServer

open Lib

namespace ReadCache

/-- From `c` to `c'` new objects were put at the cold end of the LRU list, in the order of their
ids. They own the offsets in `new`; nothing else changed hands. -/
structure Appended (c c' : ReadCache) (new : Nat → Prop) (len : Nat) : Prop where
  inv : c'.Inv
  maxBytes_eq : c'.maxBytes = c.maxBytes
  next_le : c.nextObjectId ≤ c'.nextObjectId
  charge_le : c'.chargedBytes ≤ c.chargedBytes + len
  lru_eq : c'.lru = c.lru ++ List.range' c.nextObjectId (c'.nextObjectId - c.nextObjectId)
  owner_new : ∀ x, new x → ∃ id, c'.owner x = some id ∧ c.nextObjectId ≤ id ∧ id < c'.nextObjectId
  owner_old : ∀ x, ¬ new x → c'.owner x = c.owner x

namespace Appended

variable {c c₁ c₂ : ReadCache} {new₁ new₂ : Nat → Prop} {len₁ len₂ : Nat}

lemma refl (h : c.Inv) : Appended c c (fun _ => False) 0 where
  inv := h
  maxBytes_eq := rfl
  next_le := le_rfl
  charge_le := le_rfl
  lru_eq := by simp
  owner_new _ f := f.elim
  owner_old _ _ := rfl

lemma congr (a : Appended c c₁ new₁ len₁) (new : Nat → Prop) (iff : ∀ x, new₁ x ↔ new x) :
    Appended c c₁ new len₁ :=
  ⟨a.inv, a.maxBytes_eq, a.next_le, a.charge_le, a.lru_eq, fun x h => a.owner_new x ((iff x).2 h),
    fun x h => a.owner_old x fun h' => h ((iff x).1 h')⟩

lemma trans (a : Appended c c₁ new₁ len₁) (b : Appended c₁ c₂ new₂ len₂)
    (apart : ∀ x, new₁ x → ¬ new₂ x) :
    Appended c c₂ (fun x => new₁ x ∨ new₂ x) (len₁ + len₂) := by
  have le₁ := a.next_le
  have le₂ := b.next_le
  refine ⟨b.inv, b.maxBytes_eq.trans a.maxBytes_eq, le₁.trans le₂, ?_, ?_, ?_, ?_⟩
  · have := a.charge_le
    have := b.charge_le
    omega
  · rw [b.lru_eq, a.lru_eq, List.append_assoc]
    congr 1
    have start : c₁.nextObjectId = c.nextObjectId + (c₁.nextObjectId - c.nextObjectId) := by omega
    have total : c₂.nextObjectId - c.nextObjectId =
        c₁.nextObjectId - c.nextObjectId + (c₂.nextObjectId - c₁.nextObjectId) := by omega
    rw [total, List.range'_append_1 .. |>.symm]
    congr 2
  · rintro x (h | h)
    · obtain ⟨id, own, lower, upper⟩ := a.owner_new x h
      exact ⟨id, by rw [b.owner_old x (apart x h), own], lower, by omega⟩
    · obtain ⟨id, own, lower, upper⟩ := b.owner_new x h
      exact ⟨id, own, by omega, upper⟩
  · intro x none
    rw [b.owner_old x fun h => none (.inr h), a.owner_old x fun h => none (.inl h)]

end Appended

/-- No byte of the block of `x` is cached. -/
def Free (c : ReadCache) (x : Nat) : Prop :=
  ∀ y, y / CACHE_BLOCK_BYTES = x / CACHE_BLOCK_BYTES → c.owner y = none

lemma Merged.appended {c c' : ReadCache} {start stop lo hi : Nat} {inputs : List Nat}
    {f : Nat → Option UInt8} (m : Merged c c' start stop lo hi inputs .cold f) (h : c.Inv)
    (free : c.Free start) :
    Appended c c' (fun x => start ≤ x ∧ x < stop) (stop - start) := by
  have none : inputs = [] := by
    refine List.eq_nil_iff_forall_not_mem.2 fun id hid => ?_
    obtain ⟨x, own, same⟩ := m.among id hid
    rw [free x same] at own
    cases own
  subst none
  obtain ⟨rfl, rfl⟩ := m.alone rfl
  have all : c.lru.filter (c'.objects.Has ·) = c.lru := by
    refine List.filter_eq_self.2 fun id hid => ?_
    simpa using m.kept h ((h.lru_mem id).1 hid) (by simp)
  have next_eq := m.next_eq
  refine ⟨m.inv, m.maxBytes_eq, by omega, m.charge_le, ?_, ?_, ?_⟩
  · rw [m.lru_eq, all, next_eq, Nat.add_sub_cancel_left]
    rfl
  · intro x hx
    exact ⟨c.nextObjectId, by rw [m.owner, if_pos hx], le_rfl, by omega⟩
  · intro x hx
    rw [m.owner, if_neg hx]

lemma Inv.insertBlocks_free {c : ReadCache} (h : c.Inv) {fill : CacheFill} (matching : fill.Matches)
    (fits : fill.range.start + fill.range.len + CACHE_BLOCK_BYTES ≤ U64)
    (free : ∀ x, fill.range.Has x → c.Free x) :
    ∃ c', c.insertBlocks fill .cold = .ok c' ∧ Appended c c' fill.range.Has fill.range.len := by
  have pos : 0 < CACHE_BLOCK_BYTES := by decide
  have stop_eq : fill.range.stop = fill.range.start + fill.range.len :=
    ByteRange.stop_of_lt (by omega)
  -- the loop stands at the start of the range, at its end or at the start of a block
  obtain ⟨c', run, -, -, app⟩ := windowLoop_spec (ReadCache.insertBlock fill .cold) fill.range.stop
    (fun a c' => (fill.range.start ≤ a ∧ a ≤ fill.range.stop) ∧
      (a = fill.range.start ∨ a = fill.range.stop ∨ cacheBlockStart a = a) ∧
      Appended c c' (fun x => fill.range.start ≤ x ∧ x < a) (a - fill.range.start))
    (by omega)
    (by
      rintro a c₁ ⟨⟨low, high⟩, edge, app⟩ lt
      have block := sameBlock_min lt
      obtain ⟨b₁, b₂⟩ := block_bounds a
      have end_eq : min fill.range.stop (cacheBlockStart a + CACHE_BLOCK_BYTES) = fill.range.stop ∨
          cacheBlockStart (min fill.range.stop (cacheBlockStart a + CACHE_BLOCK_BYTES)) =
            min fill.range.stop (cacheBlockStart a + CACHE_BLOCK_BYTES) := by
        rcases le_total fill.range.stop (cacheBlockStart a + CACHE_BLOCK_BYTES) with le | le
        · exact .inl (Nat.min_eq_left le)
        · right
          rw [Nat.min_eq_right le]
          unfold cacheBlockStart
          rw [← Nat.succ_mul, Nat.mul_div_cancel _ pos]
      set b := min fill.range.stop (cacheBlockStart a + CACHE_BLOCK_BYTES)
      have free₁ : c₁.Free a := by
        intro y same
        have before : ¬ (fill.range.start ≤ y ∧ y < a) := by
          rintro ⟨h₁, h₂⟩
          have start_eq : cacheBlockStart y = cacheBlockStart a := by
            unfold cacheBlockStart
            rw [same]
          have := block_bounds y
          omega
        rw [app.owner_old y before]
        exact free a ⟨low, by omega⟩ y same
      obtain ⟨c₂, lo, hi, run, m⟩ := app.inv.insertBlock matching .cold block low (by omega) fits
      have lt' := block.1
      refine ⟨c₂, run, ⟨by omega, by omega⟩, .inr end_eq, ?_⟩
      have joined := (app.trans (m.appended app.inv free₁) (by
        rintro x ⟨-, h₁⟩ ⟨h₂, -⟩
        omega)).congr (fun x => fill.range.start ≤ x ∧ x < b) (by
        intro x
        omega)
      have sum : a - fill.range.start + (b - a) = b - fill.range.start := by omega
      rw [sum] at joined
      exact joined)
    fill.range.len fill.range.start (by omega) (by omega) (c := c)
    ⟨⟨le_rfl, by omega⟩, .inl rfl, by
      have none := (Appended.refl h).congr
        (fun x => fill.range.start ≤ x ∧ x < fill.range.start) (by
          intro x
          rw [false_iff]
          omega)
      rwa [Nat.sub_self]⟩
  refine ⟨c', run, ?_⟩
  have whole := app.congr fill.range.Has (by
    intro x
    rw [stop_eq]
    rfl)
  rw [stop_eq, Nat.add_sub_cancel_left] at whole
  exact whole

end ReadCache

/-- The extent covers `x`. -/
def RetiredOverlayExtent.Has (e : RetiredOverlayExtent) (x : Nat) : Prop := e.start ≤ x ∧ x < e.stop

def retiredBytes (retired : List RetiredOverlayExtent) : Nat :=
  (retired.map fun e => e.stop - e.start).sum

/-- The retired extents fall in cache blocks different from each other and from those of the
cache. -/
structure Scattered (cache : ReadCache) (retired : List RetiredOverlayExtent) : Prop where
  each : ∀ e ∈ retired, ∀ e' ∈ retired, e ≠ e' → ∀ x y, e.Has x → e'.Has y →
    x / CACHE_BLOCK_BYTES ≠ y / CACHE_BLOCK_BYTES
  cached : ∀ e ∈ retired, ∀ x, e.Has x → cache.Free x

/-- In `cache'` the objects of each retired extent have lower ids than those of the later ones. -/
def AgedInOrder (cache' : ReadCache) (retired : List RetiredOverlayExtent) : Prop :=
  retired.Pairwise fun e e' => ∀ x y i j, e.Has x → e'.Has y → cache'.owner x = some i →
    cache'.owner y = some j → i < j

namespace Represents

/-- The loop over retired extents in blocks of their own appends their objects in the order of the
list. -/
lemma cacheRetired_appended (overlay : OverlayExtentMap) (seq : Nat)
    (retired : List RetiredOverlayExtent) {cache : ReadCache} (inv : cache.Inv)
    (sub : ∀ e ∈ retired, e ∈ overlay.visibleThrough seq) (nodup : retired.Nodup)
    (fits : ∀ e ∈ retired, e.stop + CACHE_BLOCK_BYTES < U64) (scattered : Scattered cache retired)
    (room : cache.chargedBytes + retiredBytes retired ≤ cache.maxBytes) :
    ∃ cache', ReadViewState.cacheRetired cache retired = .ok cache' ∧
      ReadCache.Appended cache cache' (fun x => ∃ e ∈ retired, e.Has x) (retiredBytes retired) ∧
      AgedInOrder cache' retired := by
  induction retired generalizing cache with
  | nil =>
    refine ⟨cache, rfl, ?_, .nil⟩
    exact (ReadCache.Appended.refl inv).congr _ (by simp)
  | cons e retired ih =>
    obtain ⟨absent, nodup⟩ := List.nodup_cons.1 nodup
    obtain ⟨part, -⟩ := OverlayExtentMap.retiredPart (sub e List.mem_cons_self)
    have small := fits e List.mem_cons_self
    have lt := part.lt
    obtain ⟨range, run₁, start_eq, len_eq, inside⟩ := part.range small
    have has : ∀ x, range.Has x ↔ e.Has x := by
      intro x
      unfold ByteRange.Has RetiredOverlayExtent.Has
      omega
    have bytes : retiredBytes (e :: retired) = range.len + retiredBytes retired := by
      rw [len_eq]
      exact List.sum_cons
    have matching : ReadCache.CacheFill.Matches (.walRecord range e.record e.recordOffset) := inside
    obtain ⟨cache₁, run₂, app⟩ := inv.insertBlocks_free matching
      (by show range.start + range.len + CACHE_BLOCK_BYTES ≤ U64; omega)
      (fun x hx => scattered.cached e List.mem_cons_self x ((has x).1 hx))
    have app₁ : ReadCache.Appended cache cache₁ e.Has range.len := app.congr e.Has has
    have charge := app₁.charge_le
    have within : cache₁.chargedBytes ≤ cache₁.maxBytes := by
      rw [app₁.maxBytes_eq]
      omega
    have run : cache.insertWalRecordSlice range e.record e.recordOffset .cold = .ok cache₁ := by
      have eq := ReadCache.insert_eq (c := cache) matching .cold
      rw [run₂, Res.ok_bind, ReadCache.evictToBudget_of_le within, if_neg] at eq
      · exact eq
      · have pos : range.len ≠ 0 := by omega
        show ¬ (range.isEmpty = true)
        simp [ByteRange.isEmpty, pos]
    obtain ⟨cache', runs, app₂, aged⟩ := ih app₁.inv
      (fun e' he' => sub e' (List.mem_cons_of_mem _ he')) nodup
      (fun e' he' => fits e' (List.mem_cons_of_mem _ he'))
      (by
        refine ⟨fun a ha b hb => scattered.each a (List.mem_cons_of_mem _ ha) b
          (List.mem_cons_of_mem _ hb), ?_⟩
        intro e' he' x hx y same
        have ne : e ≠ e' := fun eq => absent (eq ▸ he')
        rw [app₁.owner_old]
        · exact scattered.cached e' (List.mem_cons_of_mem _ he') x hx y same
        · intro hy
          exact scattered.each e List.mem_cons_self e' (List.mem_cons_of_mem _ he') ne y x hy hx
            same)
      (by
        rw [app₁.maxBytes_eq]
        omega)
    have apart : ∀ x, e.Has x → ¬ ∃ e' ∈ retired, e'.Has x := by
      rintro x hx ⟨e', he', hx'⟩
      have ne : e ≠ e' := fun eq => absent (eq ▸ he')
      exact scattered.each e List.mem_cons_self e' (List.mem_cons_of_mem _ he') ne x x hx hx' rfl
    refine ⟨cache', ?_, ?_, List.pairwise_cons.2 ⟨?_, aged⟩⟩
    · rw [ReadViewState.cacheRetired, run₁, Res.ok_bind, run, Res.ok_bind, runs]
    · rw [bytes]
      exact (app₁.trans app₂ apart).congr _ (by simp)
    · intro e' he' x y i j hx hy hi hj
      -- the objects of `e` are older than the loop over the rest
      obtain ⟨i', own, -, upper⟩ := app₁.owner_new x hx
      obtain ⟨j', own', lower, -⟩ := app₂.owner_new y ⟨e', he', hy⟩
      rw [app₂.owner_old x (apart x hx), own] at hi
      rw [own'] at hj
      cases hi
      cases hj
      omega

end Represents

/-- A root advance whose retired extents fall in cache blocks of their own, with room for them.
Their objects are colder than every object that was cached before. But among them those of the lower
sequences are the hotter ones: that lower sequences are colder only holds when all retired extents
have the same sequence. -/
theorem retired_colder_by_sequence_iff {committed : RootSnapshot → Nat → UInt8}
    {root : RootSnapshot} {budget : Nat} (size_le : root.sizeBytes ≤ 2 ^ 63 - 1) {w : ViewWorld}
    (reach : (viewSystem committed root budget).Reachable w) {newRoot : RootSnapshot}
    {s' : ReadViewState} (run : w.view.installRoot newRoot = .ok s')
    {retired : List RetiredOverlayExtent}
    (retired_eq : retired = w.view.overlay.visibleThrough newRoot.baseWalSeq)
    (scattered : Scattered w.view.cache retired)
    (room : w.view.cache.chargedBytes + retiredBytes retired ≤ w.view.cache.maxBytes) :
    (∀ e ∈ retired, ∀ x, e.Has x → ∃ id, s'.cache.owner x = some id ∧
      ∀ old ∈ w.view.cache.lru, s'.cache.Hotter old id) ∧
    ((∀ e ∈ retired, ∀ e' ∈ retired, e.seq < e'.seq → ∀ x y i j, e.Has x → e'.Has y →
      s'.cache.owner x = some i → s'.cache.owner y = some j → s'.cache.Hotter j i) ↔
      ∀ e ∈ retired, ∀ e' ∈ retired, e.seq = e'.seq) := by
  have hs := sizeBytes_fits size_le
  obtain ⟨done, pending, -, rep⟩ := (ViewInv.of_reachable hs reach).view
  have sub : ∀ e ∈ retired, e ∈ w.view.overlay.visibleThrough newRoot.baseWalSeq := by
    rw [retired_eq]
    exact fun e he => he
  have nodup : retired.Nodup := retired_eq ▸ w.view.overlay.visibleThrough_nodup _
  have sorted := retired_eq ▸ w.view.overlay.visibleThrough_sorted newRoot.baseWalSeq
  obtain ⟨cache', runs, app, aged⟩ := Represents.cacheRetired_appended w.view.overlay
    newRoot.baseWalSeq retired rep.cache sub nodup (fun e he => rep.retired_fits hs (sub e he))
    scattered room
  have cache_eq : s'.cache = cache' := by
    unfold ReadViewState.installRoot at run
    simp only [← retired_eq, runs, Res.ok_bind] at run
    obtain ⟨overlay, -, run⟩ := Res.bind_eq_ok.1 run
    cases run
    rfl
  rw [cache_eq]
  have lru_nodup := app.inv.lru_nodup
  rw [app.lru_eq] at lru_nodup
  have new : ∀ e ∈ retired, ∀ x id, e.Has x → cache'.owner x = some id →
      id ∈ List.range' w.view.cache.nextObjectId
        (cache'.nextObjectId - w.view.cache.nextObjectId) := by
    intro e he x id hx own
    obtain ⟨id', own', lower, upper⟩ := app.owner_new x ⟨e, he, hx⟩
    rw [own] at own'
    cases own'
    exact List.mem_range'_1.2 ⟨lower, by omega⟩
  -- of two extents with different sequences the lower one is retired first
  have order : ∀ e ∈ retired, ∀ e' ∈ retired, e.seq < e'.seq → ∀ x y i j, e.Has x → e'.Has y →
      cache'.owner x = some i → cache'.owner y = some j → cache'.Hotter i j := by
    intro e he e' he' lt x y i j hx hy hi hj
    have ne : e ≠ e' := by
      rintro rfl
      exact Nat.lt_irrefl _ lt
    have less : i < j := by
      rcases pairwise_or (sorted.and aged) he he' ne with ⟨-, first⟩ | ⟨le, -⟩
      · exact first x y i j hx hy hi hj
      · unfold OverlayExtentMap.retiredLe at le
        omega
    have hi' := new e he x i hx hi
    have hj' := new e' he' y j hy hj
    show Precedes cache'.lru i j
    rw [app.lru_eq, precedes_append_right lru_nodup hi' hj', precedes_range' hi' hj']
    exact less
  refine ⟨?_, ?_⟩
  · intro e he x hx
    obtain ⟨id, own, -⟩ := app.owner_new x ⟨e, he, hx⟩
    refine ⟨id, own, fun old hold => ?_⟩
    show Precedes cache'.lru old id
    rw [app.lru_eq]
    exact precedes_of_mem_append lru_nodup hold (new e he x id hx own)
  · constructor
    · intro colder
      have same : ∀ e ∈ retired, ∀ e' ∈ retired, ¬ e.seq < e'.seq := by
        intro e he e' he' lt
        have start : e.Has e.start := ⟨le_rfl, (OverlayExtentMap.retiredPart (sub e he)).1.lt⟩
        have start' : e'.Has e'.start := ⟨le_rfl, (OverlayExtentMap.retiredPart (sub e' he')).1.lt⟩
        obtain ⟨i, hi, -⟩ := app.owner_new _ ⟨e, he, start⟩
        obtain ⟨j, hj, -⟩ := app.owner_new _ ⟨e', he', start'⟩
        exact precedes_asymm (order e he e' he' lt _ _ i j start start' hi hj)
          (colder e he e' he' lt _ _ i j start start' hi hj)
      intro e he e' he'
      have h₁ := same e he e' he'
      have h₂ := same e' he' e he
      omega
    · intro same e he e' he' lt
      have := same e he e' he'
      omega

/-- Two records in two cache blocks, and a root that holds both. -/
def twoBlocks : Option ViewWorld :=
  [.apply (.byte 1 0 7 seq_one), .apply (.byte 2 2097152 9 seq_two)].foldlM ViewWorld.nextLocal
    (.new (.cowHead none 0 4194304 .bounded32V1) 64)

/-- The advance of this view retires the record with sequence 1 to the object 1 and the record with
sequence 2 to the object 2, and the object 1 is the hotter one: the higher sequence is evicted
first. -/
theorem retired_hotter_by_sequence :
    ∃ w s', twoBlocks = some w ∧
      (viewSystem (fun _ _ => 0) (.cowHead none 0 4194304 .bounded32V1) 64).Reachable w ∧
      w.view.installRoot (.cowHead none 2 4194304 .bounded32V1) = .ok s' ∧
      w.view.cache.lru = [] ∧
      (w.view.overlay.visibleThrough 2).map (fun e => [e.seq, e.start, e.stop]) =
        [[1, 0, 1], [2, 2097152, 2097153]] ∧
      s'.cache.owner 0 = some 1 ∧ s'.cache.owner 2097152 = some 2 ∧ s'.cache.Hotter 1 2 := by
  have before : twoBlocks.map (fun w => ((w.view.cache.lru : List Nat),
      (w.view.overlay.visibleThrough 2).map fun e => [e.seq, e.start, e.stop])) =
      some ([], [[1, 0, 1], [2, 2097152, 2097153]]) := by decide +kernel
  have after : (twoBlocks.bind fun w =>
      (w.view.installRoot (.cowHead none 2 4194304 .bounded32V1)).toOption).map
      (fun s => (s.cache.owner 0, s.cache.owner 2097152, decide (s.cache.Hotter 1 2))) =
      some (some 1, some 2, true) := by decide +kernel
  obtain ⟨w, hw, eq⟩ := Option.map_eq_some_iff.1 before
  have reach : (viewSystem (fun _ _ => 0) (.cowHead none 0 4194304 .bounded32V1) 64).Reachable w :=
    .foldlM ViewWorld.nextLocal_legal (.init rfl) hw
  rw [hw, Option.bind_some] at after
  obtain ⟨s', run, eq'⟩ := Option.map_eq_some_iff.1 after
  rw [Prod.mk.injEq] at eq
  rw [Prod.mk.injEq, Prod.mk.injEq, decide_eq_true_eq] at eq'
  refine ⟨w, s', hw, reach, ?_, eq.1, eq.2, eq'⟩
  cases done : w.view.installRoot (.cowHead none 2 4194304 .bounded32V1) with
  | ok s =>
    rw [done] at run
    cases run
    rfl
  | error fault =>
    rw [done] at run
    cases run

def thirdBlockByte : Block := ⟨.new 4194304 1, [.data (.new 4194304 1) [0]], by decide⟩

/-- A read puts a byte of the third block into the cache, and then a record over the border of the
first two blocks loses its middle to a second record. -/
def splitRecord : Option ViewWorld := do
  let w ← (ViewWorld.new (.cowHead none 0 6291456 .bounded32V1) 64).nextLocal
    (.beginRead (.new 4194304 1))
  let w ← w.next (.treeRead 0 thirdBlockByte)
  [.finishRead 0, .apply (recordAt 1 2097150 [7, 7, 7, 7] seq_one (by decide) (by decide)),
    .apply (recordAt 2 2097151 [9, 9] seq_two (by decide) (by decide))].foldlM ViewWorld.nextLocal w

lemma splitRecord_reachable {w : ViewWorld} (run : splitRecord = some w) :
    (viewSystem (fun _ _ => 0) (.cowHead none 0 6291456 .bounded32V1) 64).Reachable w := by
  rw [splitRecord] at run
  obtain ⟨w₁, first, run⟩ := Option.bind_eq_some_iff.1 run
  obtain ⟨w₂, second, run⟩ := Option.bind_eq_some_iff.1 run
  have reach : (viewSystem (fun _ _ => 0) (.cowHead none 0 6291456 .bounded32V1) 64).Reachable w₁ :=
    .step (.init rfl) (ViewWorld.nextLocal_legal first)
  refine .foldlM ViewWorld.nextLocal_legal (.step (l := .treeRead 0 thirdBlockByte) reach
    ⟨?_, second⟩) run
  have misses : ((ViewWorld.new (.cowHead none 0 6291456 .bounded32V1) 64).nextLocal
      (.beginRead (.new 4194304 1))).map (fun w => w.reads.map ViewWorld.nextMiss) =
        some [some (.new 4194304 1)] := by decide +kernel
  rw [first, Option.map_some, Option.some.injEq, List.map_eq_singleton_iff] at misses
  obtain ⟨r', only, miss'⟩ := misses
  intro r is_read miss is_miss
  rw [only] at is_read
  cases is_read
  rw [miss'] at is_miss
  cases is_miss
  exact ⟨rfl, fun i lt => by
    rw [Nat.lt_one_iff.1 lt]
    rfl⟩

/-- Two extents in different blocks that the cache does not touch. -/
lemma Scattered.pair {c : ReadCache} {r₁ r₂ : RetiredOverlayExtent} {b₁ b₂ : Nat} (ne : b₁ ≠ b₂)
    (h₁ : ∀ x, r₁.Has x → x / CACHE_BLOCK_BYTES = b₁)
    (h₂ : ∀ x, r₂.Has x → x / CACHE_BLOCK_BYTES = b₂)
    (free : ∀ x, x / CACHE_BLOCK_BYTES = b₁ ∨ x / CACHE_BLOCK_BYTES = b₂ → c.Free x) :
    Scattered c [r₁, r₂] := by
  constructor
  · intro e he e' he' distinct x y hx hy
    simp only [List.mem_cons, List.not_mem_nil, or_false] at he he'
    rcases he with rfl | rfl <;> rcases he' with rfl | rfl
    · exact absurd rfl distinct
    · rwa [h₁ x hx, h₂ y hy]
    · rw [h₂ x hx, h₁ y hy]
      exact ne.symm
    · exact absurd rfl distinct
  · intro e he x hx
    simp only [List.mem_cons, List.not_mem_nil, or_false] at he
    rcases he with rfl | rfl
    · exact free x (.inl (h₁ x hx))
    · exact free x (.inr (h₂ x hx))

/-- `retired_colder_by_sequence_iff` where both fragments of this record are retired. -/
theorem retired_colder_by_sequence_iff_fragments :
    ∃ w s', splitRecord = some w ∧
      w.view.installRoot (.cowHead none 1 6291456 .bounded32V1) = .ok s' ∧
      w.view.cache.lru = [1] ∧
      (w.view.overlay.visibleThrough 1).map (fun e => [e.seq, e.start, e.stop]) =
        [[1, 2097150, 2097151], [1, 2097153, 2097154]] ∧
      (∀ e ∈ w.view.overlay.visibleThrough 1, ∀ x, e.Has x →
        ∃ id, s'.cache.owner x = some id ∧ s'.cache.Hotter 1 id) ∧
      ∀ e ∈ w.view.overlay.visibleThrough 1, ∀ e' ∈ w.view.overlay.visibleThrough 1,
        e.seq < e'.seq → ∀ x y i j, e.Has x → e'.Has y → s'.cache.owner x = some i →
        s'.cache.owner y = some j → s'.cache.Hotter j i := by
  have before : splitRecord.map (fun w => [[w.view.cache.lru],
      w.view.cache.extents.entries.map fun e => [e.start, e.stop],
      (w.view.overlay.visibleThrough 1).map fun e => [e.seq, e.start, e.stop],
      [[w.view.cache.chargedBytes, w.view.cache.maxBytes,
        retiredBytes (w.view.overlay.visibleThrough 1)]]]) =
      some [[[1]], [[4194304, 4194305]], [[1, 2097150, 2097151], [1, 2097153, 2097154]],
        [[1, 64, 2]]] := by decide +kernel
  have after : (splitRecord.bind fun w =>
      (w.view.installRoot (.cowHead none 1 6291456 .bounded32V1)).toOption).isSome := by
    decide +kernel
  obtain ⟨w, hw, eq⟩ := Option.map_eq_some_iff.1 before
  simp only [List.cons.injEq, and_true] at eq
  obtain ⟨lru, cached, listed, charge, max, bytes⟩ := eq
  obtain ⟨s', run⟩ : ∃ s', w.view.installRoot (.cowHead none 1 6291456 .bounded32V1) = .ok s' := by
    rw [hw, Option.bind_some] at after
    cases done : w.view.installRoot (.cowHead none 1 6291456 .bounded32V1) with
    | ok s => exact ⟨s, rfl⟩
    | error fault =>
      rw [done] at after
      cases after
  -- the fragments are in the first and in the second block, the cached byte is in the third one
  obtain ⟨r₁, r₂, only, first, second⟩ : ∃ r₁ r₂, w.view.overlay.visibleThrough 1 = [r₁, r₂] ∧
      [r₁.seq, r₁.start, r₁.stop] = [1, 2097150, 2097151] ∧
      [r₂.seq, r₂.start, r₂.stop] = [1, 2097153, 2097154] := by
    obtain ⟨r₁, rest, only, first, listed⟩ := List.map_eq_cons_iff.1 listed
    obtain ⟨r₂, rfl, second⟩ := List.map_eq_singleton_iff.1 listed
    exact ⟨r₁, r₂, only, first, second⟩
  simp only [List.cons.injEq, and_true] at first second
  have scattered : Scattered w.view.cache (w.view.overlay.visibleThrough 1) := by
    rw [only]
    refine .pair zero_ne_one ?_ ?_ ?_
    · intro x has
      unfold RetiredOverlayExtent.Has at has
      unfold CACHE_BLOCK_BYTES
      omega
    · intro x has
      unfold RetiredOverlayExtent.Has at has
      unfold CACHE_BLOCK_BYTES
      omega
    · intro x low y same
      rw [ReadCache.owner, Option.map_eq_none_iff, IntervalMap.find_eq_none]
      obtain ⟨c, is, bounds⟩ := List.map_eq_singleton_iff.1 cached
      simp only [List.cons.injEq, and_true] at bounds
      rw [is]
      intro e mem has
      rw [List.mem_singleton.1 mem] at has
      unfold CACHE_BLOCK_BYTES at same low
      have : c.start ≤ y := has.1
      omega
  have room : w.view.cache.chargedBytes + retiredBytes (w.view.overlay.visibleThrough 1) ≤
      w.view.cache.maxBytes := by omega
  obtain ⟨colder, iff⟩ := retired_colder_by_sequence_iff (by decide) (splitRecord_reachable hw) run
    rfl scattered room
  refine ⟨w, s', hw, run, lru, listed, ?_, iff.2 ?_⟩
  · intro e he x hx
    obtain ⟨id, own, hotter⟩ := colder e he x hx
    exact ⟨id, own, hotter 1 (by rw [lru]; exact List.mem_cons_self)⟩
  · intro e he e' he'
    have same : ∀ e ∈ w.view.overlay.visibleThrough 1, e.seq = 1 := by
      rw [only]
      simp [first.1, second.1]
    rw [same e he, same e' he']

end NbdServer
