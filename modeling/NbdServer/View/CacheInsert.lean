import NbdServer.View.CacheEvict

/-!
# Inserting into the read cache

An insert never fails on a cache that satisfies its invariant: the merge sources are connected, so
the coverage check passes. Block by block the inserted bytes override the cached ones; the eviction
at the end only takes bytes away.
-/

namespace NbdServer

open Lib

namespace ReadCache

/-- The source is an extent of the cache that meets the block of `start`. -/
structure SourceOf (c : ReadCache) (start : Nat) (s : ExistingSource)
    (e : ExtentEntry CacheExtent) : Prop where
  mem : e ∈ c.extents.entries
  meets : e.Meets (cacheBlockStart start) (cacheBlockStart start + CACHE_BLOCK_BYTES)
  start_eq : s.start = e.start
  stop_eq : s.stop = e.stop
  id_eq : s.objectId = e.value.objectId
  offset_eq : s.objectOffset = e.value.objectOffset
  data_eq : c.objectData e.value.objectId = some s.payload.data

lemma Linked.existingSources {c : ReadCache} (h : c.Linked) {start : Nat}
    (fits : cacheBlockStart start + CACHE_BLOCK_BYTES < U64) :
    ∃ sources, c.existingSourcesForWindow start = .ok sources ∧
      (∀ s ∈ sources, ∃ e, c.SourceOf start s e) ∧
      ∀ e ∈ c.extents.entries,
        e.Meets (cacheBlockStart start) (cacheBlockStart start + CACHE_BLOCK_BYTES) →
        ∃ s ∈ sources, c.SourceOf start s e := by
  have pos : 0 < CACHE_BLOCK_BYTES := by decide
  obtain ⟨sources, run, all⟩ := Res.mapM_forall₂
    (l := c.extents.entries.filter
      (·.Meets (cacheBlockStart start) (cacheBlockStart start + CACHE_BLOCK_BYTES)))
    (f := c.existingSource) (p := fun e s => c.SourceOf start s e) (by
      intro e he
      obtain ⟨he, meets⟩ := List.mem_filter.1 he
      obtain ⟨o, ho, -⟩ := h.slice e he
      refine ⟨⟨e.start, e.stop, e.value.objectId, e.value.objectOffset, o.payload⟩, ?_,
        he, by simpa using meets, rfl, rfl, rfl, rfl, ?_⟩
      · unfold existingSource
        rw [ho, okOr_some, Res.ok_bind]
      · rw [objectData, ho]
        rfl)
  refine ⟨sources, ?_, ?_, ?_⟩
  · unfold existingSourcesForWindow
    rw [checkedAdd_of_lt fits, okOr_some, Res.ok_bind, ExtentMap.overlapping_eq (by omega),
      Res.ok_bind, run]
  · intro s hs
    obtain ⟨e, -, he⟩ := forall₂_right all s hs
    exact ⟨e, he⟩
  · intro e he meets
    exact forall₂_left all e (List.mem_filter.2 ⟨he, by simpa using meets⟩)

def content (c : ReadCache) (x : Nat) : UInt8 := (c.byteAt x).getD 0

lemma Linked.holds {c : ReadCache} (h : c.Linked) {start lo hi : Nat} {s e}
    (src : c.SourceOf start s e) (lower : lo ≤ s.start) (upper : s.stop ≤ hi) :
    s.Holds lo hi c.content := by
  obtain ⟨o, ho, ⟨h₁, h₂, -⟩⟩ := h.slice e src.mem
  have data : o.payload.data = s.payload.data := by
    have := src.data_eq
    rw [objectData, ho] at this
    exact Option.some.inj this
  have lt := e.lt
  refine ⟨lower, by rw [src.start_eq, src.stop_eq]; exact lt, upper, ?_, ?_⟩
  · rw [← data, src.offset_eq, src.start_eq, src.stop_eq]
    omega
  · intro x h₃ h₄
    rw [src.start_eq] at h₃
    rw [src.stop_eq] at h₄
    obtain ⟨b, hb⟩ := Option.isSome_iff_exists.1 (h.byteAt_isSome src.mem ⟨h₃, h₄⟩)
    have byte := byteAt_of_mem src.mem ⟨h₃, h₄⟩
    rw [src.data_eq, Option.bind_some] at byte
    rw [src.offset_eq, src.start_eq, ← byte, content, hb]
    rfl

/-- `[start, stop)` is not empty and lies in one cache block. -/
def SameBlock (start stop : Nat) : Prop :=
  start < stop ∧ start / CACHE_BLOCK_BYTES = (stop - 1) / CACHE_BLOCK_BYTES

instance (start stop : Nat) : Decidable (SameBlock start stop) :=
    inferInstanceAs (Decidable (_ ∧ _))

lemma owner_eq_valueAt (c : ReadCache) (x : Nat) :
    c.owner x = (c.extents.valueAt CacheExtent.splitAt x).map (·.objectId) := by
  rw [owner, IntervalMap.valueAt, Option.map_map]
  rfl

lemma Inv.has_iff_owner {c : ReadCache} (h : c.Inv) {id : Nat} :
    c.objects.Has id ↔ ∃ x, c.owner x = some id := by
  constructor
  · intro has
    obtain ⟨o, ho⟩ := Option.isSome_iff_exists.1 has
    obtain ⟨starts, ne⟩ := h.backrefs id o ho
    rw [starts] at ne
    obtain ⟨start, mem⟩ := Finset.nonempty_iff_ne_empty.2 ne
    obtain ⟨e, he, hid, -⟩ := mem_startsOf.1 mem
    exact ⟨e.start, owner_eq_some.2 ⟨e, he, ⟨le_rfl, e.lt⟩, hid⟩⟩
  · rintro ⟨x, hx⟩
    obtain ⟨e, he, -, rfl⟩ := owner_eq_some.1 hx
    obtain ⟨o, ho, -⟩ := h.slice e he
    rw [OrdMap.Has, ho]
    rfl

/-- An object on `[start, stop)` has replaced what the cache held there. -/
structure Replaced (c c' : ReadCache) (start stop : Nat) (payload : CachePayload)
    (position : Option Nat) (placement : CacheInsertPlacement) : Prop where
  inv : c'.Inv
  maxBytes_eq : c'.maxBytes = c.maxBytes
  next_eq : c'.nextObjectId = c.nextObjectId + 1
  charge_le : c'.chargedBytes ≤ c.chargedBytes + payload.data.length
  lru_eq : c'.lru = putAt (c.lru.filter (c'.objects.Has ·)) c.nextObjectId placement position
  owner : ∀ x, c'.owner x = if start ≤ x ∧ x < stop then some c.nextObjectId else c.owner x
  bytes : ∀ x, c'.byteAt x =
    if start ≤ x ∧ x < stop then payload.data[x - start]? else c.byteAt x

lemma erase_filter_place {lru : CacheObjectLru} {id : Nat} {placement : CacheInsertPlacement}
    {p : Nat → Bool} (fresh : id ∉ lru) (live : p id = true) :
    ((lru.place id placement).filter p).erase id = lru.filter p := by
  have absent : id ∉ lru.filter p := fun mem => fresh (List.mem_of_mem_filter mem)
  cases placement with
  | hot =>
    show ((id :: lru).filter p).erase id = _
    rw [List.filter_cons_of_pos live, List.erase_cons_head]
  | cold =>
    show ((lru ++ [id]).filter p).erase id = _
    rw [List.filter_append, List.filter_cons_of_pos live, List.filter_nil,
      List.erase_append_right _ absent]
    simp

lemma Linked.replaceComponent {c : ReadCache} (h : c.Linked) {start stop : Nat}
    {payload : CachePayload} (position : Option Nat) (placement : CacheInsertPlacement)
    (block : SameBlock start stop) (len : payload.data.length = stop - start) :
    ∃ c', c.replaceComponent start stop payload position placement = .ok c' ∧
      Replaced c c' start stop payload position placement := by
  obtain ⟨lt, same⟩ := block
  obtain ⟨m₁, run₁, cut⟩ := c.extents.removeRangeWithSplit_spec CacheExtent.splitAt lt
  have run₂ : m₁.insertExact start stop ⟨c.nextObjectId, 0⟩ = .ok _ :=
    ExtentMap.insertExact_eq lt cut.clear
  set m₂ := m₁.insert ⟨start, stop, ⟨c.nextObjectId, 0⟩, lt⟩ cut.clear with hm₂
  have mem₂ : ∀ y, y ∈ m₂.entries ↔
      y = ⟨start, stop, ⟨c.nextObjectId, 0⟩, lt⟩ ∨ y ∈ m₁.entries :=
    fun y => IntervalMap.mem_insert
  obtain ⟨h₁, bytes₁⟩ := h.cut cut
  -- no slice refers to the object that is inserted
  have fresh : ¬ c.objects.Has c.nextObjectId := by
    intro has
    have := (h.ids _ has).2
    omega
  have old : ∀ id, c.objects.Has id → id ≠ c.nextObjectId := by
    rintro id has rfl
    exact fresh has
  have has : ∀ id v, (c.objects.insert c.nextObjectId v).Has id ↔
      id = c.nextObjectId ∨ c.objects.Has id := by
    intro id v
    unfold OrdMap.Has
    rw [OrdMap.find_insert]
    split <;> simp_all
  have slice₁ : ∀ e ∈ m₁.entries, ∃ o, c.objects.find e.value.objectId = some o ∧ SliceOf e o :=
    h₁.slice
  have ne : ∀ e ∈ m₁.entries, e.value.objectId ≠ c.nextObjectId := by
    intro e he
    obtain ⟨o, ho, -⟩ := slice₁ e he
    exact old _ (by rw [OrdMap.Has, ho]; rfl)
  -- the cut range makes room for the new slice, so the links hold before the rebuild
  have h₂ : Linked { c.insertObject start stop payload placement with extents := m₂ } := by
    refine ⟨?_, Nat.succ_pos _, ?_, ?_, ?_, ?_, ?_⟩
    · intro e he
      rcases (mem₂ e).1 he with rfl | he
      · refine ⟨⟨start, stop - start, payload, ∅, payload.chargedBytes⟩, ?_, ?_, ?_, same⟩
        · exact OrdMap.find_insert.trans (if_pos rfl)
        · exact Nat.add_zero _
        · show stop ≤ start + payload.data.length
          omega
      · obtain ⟨o, ho, hs⟩ := slice₁ e he
        refine ⟨o, ?_, hs⟩
        exact OrdMap.find_insert.trans ((if_neg (ne e he)).trans ho)
    · intro id hid
      show 0 < id ∧ id < c.nextObjectId + 1
      rcases (has id _).1 hid with rfl | hid
      · exact ⟨h.next_pos, Nat.lt_succ_self _⟩
      · have := h.ids id hid
        omega
    · show (c.lru.place c.nextObjectId placement).Nodup
      rw [place_perm.nodup_iff, List.nodup_cons]
      exact ⟨fun hm => fresh ((h.lru_mem _).1 hm), h.lru_nodup⟩
    · intro id
      show id ∈ c.lru.place c.nextObjectId placement ↔ _
      rw [place_perm.mem_iff, List.mem_cons, h.lru_mem]
      exact (has id _).symm
    · intro id o ho
      have find := OrdMap.find_insert.symm.trans ho
      split at find
      · cases find
        rfl
      · exact h.charge id o find
    · show c.chargedBytes + payload.chargedBytes = _
      rw [h.total]
      exact (OrdMap.total_insert_new (f := (·.chargedBytes))
        (v := ⟨start, stop - start, payload, ∅, payload.chargedBytes⟩) fresh).symm
  have new₂ : startsOf m₂ c.nextObjectId ≠ ∅ :=
    Finset.ne_empty_of_mem (mem_startsOf.2 ⟨_, (mem₂ _).2 (.inl rfl), rfl, rfl⟩)
  obtain ⟨c', run', built⟩ := h₂.rebuild c.nextObjectId position placement
  have has' : ∀ i, c'.objects.Has i ↔
      (i = c.nextObjectId ∨ c.objects.Has i) ∧ startsOf m₂ i ≠ ∅ := by
    intro i
    rw [built.has i]
    exact and_congr_left' (has i _)
  refine ⟨c', ?_, built.inv, built.maxBytes_eq, built.next_eq, built.charge_le, ?_, ?_, ?_⟩
  · unfold ReadCache.replaceComponent
    simp only [run₁, Res.ok_bind, run₂, run']
  · rw [built.lru_eq ((has' _).2 ⟨.inl rfl, new₂⟩)]
    show putAt (((c.lru.place c.nextObjectId placement).filter (startsOf m₂ · ≠ ∅)).erase _) _ _ _ =
      _
    rw [erase_filter_place (fun mem => fresh ((h.lru_mem _).1 mem)) (by simpa using new₂)]
    congr 1
    refine List.filter_congr fun i hi => ?_
    have old := (h.lru_mem i).1 hi
    simp only [has', old, or_true, true_and]
  · intro x
    rw [owner_eq_valueAt, owner_eq_valueAt, built.extents_eq]
    show (m₂.valueAt _ x).map _ = _
    rw [IntervalMap.valueAt_of_mem_iff mem₂, cut.valueAt splitAt_add]
    by_cases inside : start ≤ x ∧ x < stop
    · rw [if_pos (show Entry.Has ⟨start, stop, _, lt⟩ x from inside), if_pos inside]
      rfl
    · rw [if_neg (show ¬ Entry.Has ⟨start, stop, _, lt⟩ x from inside), if_neg inside,
        if_neg inside]
  · intro x
    rw [built.bytes]
    by_cases inside : start ≤ x ∧ x < stop
    · have byte := byteAt_of_mem
        (c := { c.insertObject start stop payload placement with extents := m₂ })
        (e := ⟨start, stop, ⟨c.nextObjectId, 0⟩, lt⟩) ((mem₂ _).2 (.inl rfl)) inside
      rw [if_pos inside, byte]
      have data : objectData { c.insertObject start stop payload placement with extents := m₂ }
          c.nextObjectId = some payload.data := by
        show (OrdMap.find (c.objects.insert _ _) _).map _ = _
        rw [OrdMap.find_insert, if_pos rfl]
        rfl
      rw [data, Option.bind_some]
      congr 1
      exact Nat.zero_add _
    · rw [if_neg inside]
      have := bytes₁ x
      rw [if_neg inside] at this
      rw [← this]
      unfold byteAt
      show (m₂.valueAt _ x).bind _ = (m₁.valueAt _ x).bind _
      rw [IntervalMap.valueAt_of_mem_iff mem₂, if_neg]
      · cases hv : m₁.valueAt CacheExtent.splitAt x with
        | none => rfl
        | some v =>
          obtain ⟨e, he, -, rfl⟩ := IntervalMap.valueAt_eq_some.1 hv
          have data : objectData { c.insertObject start stop payload placement with extents := m₂ }
              e.value.objectId = objectData { c with extents := m₁ } e.value.objectId := by
            show (OrdMap.find (c.objects.insert _ _) _).map _ = (c.objects.find _).map _
            rw [OrdMap.find_insert, if_neg (ne e he)]
          show (objectData _ e.value.objectId).bind _ = (objectData _ e.value.objectId).bind _
          rw [data]
      · exact inside

/-- What the two ways to build a payload have in common: on a connected component they succeed, with
the content `f` on the new bytes and the old content elsewhere. -/
def Builds (start stop : Nat) (f : Nat → Option UInt8)
    (build : Nat → Nat → List ExistingSource → Res CachePayload) : Prop :=
  ∀ lo hi connected old, Component start stop lo hi (· ∈ connected) →
    (∀ s ∈ connected, s.Holds lo hi old) →
    ∃ p, build lo hi connected = .ok p ∧ p.data.length = hi - lo ∧
      (∀ x, start ≤ x → x < stop → p.data[x - lo]? = f x) ∧
      ∀ x, lo ≤ x → x < hi → ¬ (start ≤ x ∧ x < stop) → p.data[x - lo]? = some (old x)

lemma component_nil {start stop lo hi : Nat} {sel : ExistingSource → Prop} (none : ∀ s, ¬ sel s)
    (c : Component start stop lo hi sel) : lo = start ∧ hi = stop := by
  constructor
  · rcases c.low with h | ⟨s, hs, -⟩
    · exact h
    · exact absurd hs (none s)
  · rcases c.high with h | ⟨s, hs, -⟩
    · exact h
    · exact absurd hs (none s)

lemma bytesPayload_builds {start stop : Nat} {bytes : Buf} (lt : start < stop)
    (len : bytes.length = stop - start) :
    Builds start stop (fun x => bytes[x - start]?) (bytesPayload start stop bytes) := by
  intro lo hi connected old comp holds
  unfold bytesPayload
  split
  · rename_i whole
    obtain ⟨-, rfl, rfl⟩ := whole
    exact ⟨_, rfl, len, fun x _ _ => rfl, fun x h₁ h₂ h₃ => absurd ⟨h₁, h₂⟩ h₃⟩
  · obtain ⟨merged, run, hl, new, rest⟩ := materializeMerged_spec comp lt holds
      (show 0 + (stop - start) ≤ bytes.length by omega)
    refine ⟨.bytes merged, ?_, hl, ?_, rest⟩
    · unfold materializeMergedBytes
      rw [run]
      rfl
    · intro x h₁ h₂
      have := new x h₁ h₂
      rwa [Nat.zero_add] at this

lemma walRecordPayload_builds {start stop : Nat} (record : WalRecord) (recordOffset : Nat)
    (lt : start < stop) (fits : recordOffset + (stop - start) ≤ record.data.length) :
    Builds start stop (fun x => record.data[recordOffset + (x - start)]?)
      (walRecordPayload start stop record recordOffset) := by
  intro lo hi connected old comp holds
  unfold walRecordPayload
  split
  · rename_i whole
    obtain ⟨rfl, rfl, hl, -⟩ := whole
    obtain ⟨rfl, rfl⟩ := component_nil (by simp) comp
    refine ⟨_, rfl, hl.symm, ?_, fun x h₁ h₂ h₃ => absurd ⟨h₁, h₂⟩ h₃⟩
    intro x _ _
    show record.data[x - lo]? = record.data[0 + (x - lo)]?
    rw [Nat.zero_add]
  · obtain ⟨merged, run, hl, new, rest⟩ := materializeMerged_spec comp lt holds fits
    refine ⟨.bytes merged, ?_, hl, new, rest⟩
    unfold materializeMergedWalBytes
    rw [run]
    rfl

lemma div_block {x k : Nat} (h₁ : k * CACHE_BLOCK_BYTES ≤ x)
    (h₂ : x < k * CACHE_BLOCK_BYTES + CACHE_BLOCK_BYTES) : x / CACHE_BLOCK_BYTES = k := by
  refine Nat.div_eq_of_lt_le h₁ ?_
  rw [Nat.succ_mul]
  exact h₂

lemma block_bounds (x : Nat) : cacheBlockStart x ≤ x ∧ x < cacheBlockStart x +
    CACHE_BLOCK_BYTES := by
  unfold cacheBlockStart
  have h := Nat.div_add_mod x CACHE_BLOCK_BYTES
  have lt := Nat.mod_lt x (show CACHE_BLOCK_BYTES > 0 by decide)
  have := Nat.mul_comm CACHE_BLOCK_BYTES (x / CACHE_BLOCK_BYTES)
  omega

lemma sameBlock_bounds {start stop : Nat} (h : SameBlock start stop) :
    cacheBlockStart start ≤ start ∧ stop ≤ cacheBlockStart start + CACHE_BLOCK_BYTES := by
  obtain ⟨lt, same⟩ := h
  have b₁ := block_bounds start
  have b₂ := block_bounds (stop - 1)
  have eq : cacheBlockStart (stop - 1) = cacheBlockStart start := by
    unfold cacheBlockStart
    rw [same]
  omega

lemma sameBlock_of_bounds (start : Nat) {lo hi : Nat} (lt : lo < hi)
    (h₁ : cacheBlockStart start ≤ lo) (h₂ : hi ≤ cacheBlockStart start + CACHE_BLOCK_BYTES) :
    SameBlock lo hi := by
  refine ⟨lt, ?_⟩
  unfold cacheBlockStart at h₁ h₂
  have e₁ : lo / CACHE_BLOCK_BYTES = start / CACHE_BLOCK_BYTES := div_block h₁ (by omega)
  have e₂ : (hi - 1) / CACHE_BLOCK_BYTES = start / CACHE_BLOCK_BYTES :=
    div_block (by omega) (by omega)
  rw [e₁, e₂]

lemma Linked.source_inside {c : ReadCache} (h : c.Linked) {start : Nat} {s e}
    (src : c.SourceOf start s e) :
    cacheBlockStart start ≤ s.start ∧ s.stop ≤ cacheBlockStart start + CACHE_BLOCK_BYTES := by
  obtain ⟨o, -, ⟨-, -, same⟩⟩ := h.slice e src.mem
  obtain ⟨m₁, m₂⟩ := src.meets
  have lt := e.lt
  have inside := sameBlock_bounds ⟨lt, same⟩
  have bs := block_bounds e.start
  -- the two blocks share a byte, so they are the same
  have eq : cacheBlockStart e.start = cacheBlockStart start := by
    unfold cacheBlockStart at *
    have := Nat.lt_or_ge (e.start / CACHE_BLOCK_BYTES) (start / CACHE_BLOCK_BYTES)
    rcases lt_trichotomy (e.start / CACHE_BLOCK_BYTES) (start / CACHE_BLOCK_BYTES) with lt | eq | gt
    · have := Nat.mul_le_mul_right CACHE_BLOCK_BYTES (Nat.succ_le_of_lt lt)
      rw [Nat.succ_mul] at this
      omega
    · rw [eq]
    · have := Nat.mul_le_mul_right CACHE_BLOCK_BYTES (Nat.succ_le_of_lt gt)
      rw [Nat.succ_mul] at this
      omega
  rw [src.start_eq, src.stop_eq, ← eq]
  exact inside

/-- The objects that an insert of `[start, stop)` inside one block merges with. -/
def mergeInputs (c : ReadCache) (start stop : Nat) : List Nat :=
  (connectedSources start stop ((c.existingSourcesForWindow start).toOption.getD [])).map
    (·.objectId)

lemma mergeInputs_eq {c : ReadCache} {start : Nat} (stop : Nat) {sources : List ExistingSource}
    (run : c.existingSourcesForWindow start = .ok sources) :
    c.mergeInputs start stop = (connectedSources start stop sources).map (·.objectId) := by
  unfold mergeInputs
  rw [run]
  rfl

/-- An insert of the bytes `f` on `[start, stop)` has replaced the component `[lo, hi)` of the new
bytes and the objects `inputs` by one object. -/
structure Merged (c c' : ReadCache) (start stop lo hi : Nat) (inputs : List Nat)
    (placement : CacheInsertPlacement) (f : Nat → Option UInt8) : Prop where
  inv : c'.Inv
  maxBytes_eq : c'.maxBytes = c.maxBytes
  next_eq : c'.nextObjectId = c.nextObjectId + 1
  charge_le : c'.chargedBytes ≤ c.chargedBytes + (hi - lo)
  lower : lo ≤ start
  upper : stop ≤ hi
  alone : inputs = [] → lo = start ∧ hi = stop
  among : ∀ id ∈ inputs, ∃ x, c.owner x = some id ∧ x / CACHE_BLOCK_BYTES =
    start / CACHE_BLOCK_BYTES
  owned : ∀ x id, lo ≤ x → x < hi → c.owner x = some id → id ∈ inputs
  lru_eq : c'.lru = putAt (c.lru.filter (c'.objects.Has ·)) c.nextObjectId placement
    (c.lru.coldestPosition inputs)
  owner : ∀ x, c'.owner x = if lo ≤ x ∧ x < hi then some c.nextObjectId else c.owner x
  bytes : ∀ x, c'.byteAt x = if start ≤ x ∧ x < stop then f x else c.byteAt x

lemma Inv.insertWindow {c : ReadCache} (h : c.Inv) {start stop : Nat} {f : Nat → Option UInt8}
    {build : Nat → Nat → List ExistingSource → Res CachePayload} (placement : CacheInsertPlacement)
    (block : SameBlock start stop) (fits : cacheBlockStart start + CACHE_BLOCK_BYTES < U64)
    (builds : Builds start stop f build) :
    ∃ c' lo hi, c.insertWindow start stop placement build = .ok c' ∧
      Merged c c' start stop lo hi (c.mergeInputs start stop) placement f := by
  obtain ⟨sources, run₁, src, all⟩ := h.toLinked.existingSources fits
  obtain ⟨sub, touching, lo, hi, comp⟩ := connectedSources_spec start stop sources
  have inputs := mergeInputs_eq stop run₁
  set connected := connectedSources start stop sources
  have inside : ∀ s ∈ connected, ∃ e, c.SourceOf start s e := fun s hs => src s (sub s hs)
  obtain ⟨p, run₂, len, new, rest⟩ := builds lo hi connected c.content comp (by
    intro s hs
    obtain ⟨e, he⟩ := inside s hs
    obtain ⟨h₁, h₂⟩ := comp.inside s hs
    exact h.toLinked.holds he h₁ h₂)
  obtain ⟨b₁, b₂⟩ := sameBlock_bounds block
  obtain ⟨lt, -⟩ := block
  have lower := comp.lower
  have upper := comp.upper
  have low : cacheBlockStart start ≤ lo := by
    rcases comp.low with e | ⟨s, hs, e⟩
    · omega
    · obtain ⟨e', he'⟩ := inside s hs
      have := h.toLinked.source_inside he'
      omega
  have high : hi ≤ cacheBlockStart start + CACHE_BLOCK_BYTES := by
    rcases comp.high with e | ⟨s, hs, e⟩
    · omega
    · obtain ⟨e', he'⟩ := inside s hs
      have := h.toLinked.source_inside he'
      omega
  have whole : SameBlock lo hi := sameBlock_of_bounds start (by omega) low high
  obtain ⟨c', run₃, rep⟩ := h.toLinked.replaceComponent
    (c.lru.coldestPosition (connected.map (·.objectId))) placement whole len
  obtain ⟨min, max⟩ := component_bounds comp
  have charge := rep.charge_le
  rw [len] at charge
  rw [inputs]
  refine ⟨c', lo, hi, ?_, rep.inv, rep.maxBytes_eq, rep.next_eq, charge, lower, upper, ?_, ?_, ?_,
    rep.lru_eq, rep.owner, ?_⟩
  · unfold ReadCache.insertWindow
    rw [run₁, Res.ok_bind]
    unfold ReadCache.insertConnected
    rw [min, expect_some, Res.ok_bind, max, expect_some, Res.ok_bind, run₂, Res.ok_bind, run₃]
  · intro none
    rw [List.map_eq_nil_iff] at none
    exact component_nil (by simp [none]) comp
  · intro id hid
    obtain ⟨s, hs, rfl⟩ := List.mem_map.1 hid
    obtain ⟨e, he⟩ := inside s hs
    have block := h.toLinked.source_inside he
    rw [he.start_eq, he.stop_eq] at block
    have lt := e.lt
    rw [he.id_eq]
    exact ⟨e.start, owner_eq_some.2 ⟨e, he.mem, ⟨le_rfl, lt⟩, rfl⟩,
      div_block block.1 (show e.start < cacheBlockStart start + CACHE_BLOCK_BYTES by omega)⟩
  · intro x id h₁ h₂ own
    obtain ⟨e, he, has, rfl⟩ := owner_eq_some.1 own
    obtain ⟨h₃, h₄⟩ := has
    -- the extent owns a byte of the component: a new one, which it then touches, or one of a
    -- connected source, which is its own
    rcases comp.cover x h₁ h₂ with ⟨h₅, h₆⟩ | ⟨t, ht, h₅, h₆⟩
    · obtain ⟨s, hs, he'⟩ := all e he ⟨by omega, by omega⟩
      rw [← he'.id_eq]
      refine List.mem_map_of_mem (touching s hs ?_ ?_)
      · rw [he'.start_eq]
        omega
      · rw [he'.stop_eq]
        omega
    · obtain ⟨e', ht'⟩ := inside t ht
      rw [ht'.start_eq] at h₅
      rw [ht'.stop_eq] at h₆
      have eq : e' = e := c.extents.eq_of_has ht'.mem he ⟨h₅, h₆⟩ ⟨h₃, h₄⟩
      rw [← eq, ← ht'.id_eq]
      exact List.mem_map_of_mem ht
  · intro x
    rw [rep.bytes]
    by_cases inNew : start ≤ x ∧ x < stop
    · rw [if_pos inNew, if_pos (by omega), new x inNew.1 inNew.2]
    · rw [if_neg inNew]
      by_cases inComp : lo ≤ x ∧ x < hi
      · rw [if_pos inComp, rest x inComp.1 inComp.2 inNew]
        -- a byte of the component outside of the new range is cached
        rcases comp.cover x inComp.1 inComp.2 with h₁ | ⟨s, hs, h₁, h₂⟩
        · exact absurd h₁ inNew
        · obtain ⟨e, he⟩ := inside s hs
          rw [he.start_eq] at h₁
          rw [he.stop_eq] at h₂
          obtain ⟨b, hb⟩ := Option.isSome_iff_exists.1
            (h.toLinked.byteAt_isSome he.mem ⟨h₁, h₂⟩)
          rw [content, hb]
          rfl
      · rw [if_neg inComp]

/-! ## The loop over the blocks -/

/-- What an insert puts into the cache: bytes, or a slice of a WAL record. -/
inductive CacheFill where
  | bytes (range : ByteRange) (data : Buf)
  | walRecord (range : ByteRange) (record : WalRecord) (recordOffset : Nat)

namespace CacheFill

def range : CacheFill → ByteRange
  | bytes range _ => range
  | walRecord range _ _ => range

/-- The length of the payload is that of the range, which the inserts check first. -/
def Matches : CacheFill → Prop
  | bytes range data => data.length = range.len
  | walRecord range record recordOffset => recordOffset + range.len ≤ record.data.length

/-- The byte that is inserted at `x`. -/
def byte : CacheFill → Nat → Option UInt8
  | bytes range data, x => data[x - range.start]?
  | walRecord range record recordOffset, x => record.data[recordOffset + (x - range.start)]?

end CacheFill

/-- `insert_bytes` and `insert_wal_record_slice`. -/
def insert (c : ReadCache) (fill : CacheFill) (placement : CacheInsertPlacement) : Res ReadCache :=
  match fill with
  | .bytes range data => c.insertBytes range data placement
  | .walRecord range record recordOffset =>
    c.insertWalRecordSlice range record recordOffset placement

def insertBlock (fill : CacheFill) (placement : CacheInsertPlacement) (c : ReadCache)
    (start stop : Nat) : Res ReadCache :=
  match fill with
  | .bytes range data => do
    let window ← sliceOf data (start - range.start) (stop - start)
    c.insertWindowBytes start stop window placement
  | .walRecord range record recordOffset => do
    let sliceOffset ← okOr (checkedAdd recordOffset (start - range.start))
      (.wal "insert read cache WAL record" "record offset overflowed")
    c.insertWindowWalRecord start stop record sliceOffset placement

def insertBlocks (c : ReadCache) (fill : CacheFill) (placement : CacheInsertPlacement) :
    Res ReadCache :=
  windowLoop (insertBlock fill placement) fill.range.stop fill.range.len fill.range.start c

lemma insert_eq {c : ReadCache} {fill : CacheFill} (matching : fill.Matches)
    (placement : CacheInsertPlacement) :
    c.insert fill placement = if fill.range.isEmpty then .ok c else
      c.insertBlocks fill placement >>= fun c => c.evictToBudget := by
  cases fill with
  | bytes range data =>
    show c.insertBytes range data placement = _
    unfold insertBytes
    rw [if_neg (not_not.2 (show data.length = range.len from matching))]
    rfl
  | walRecord range record recordOffset =>
    have inside : recordOffset + range.len ≤ record.data.length := matching
    have small : record.data.length < U64 := by
      rw [record.data_len]
      exact record.range.len_lt.trans U32_lt_U64
    show c.insertWalRecordSlice range record recordOffset placement = _
    unfold insertWalRecordSlice
    rw [checkedAdd_of_lt (by omega), okOr_some, Res.ok_bind, if_neg (by omega)]
    rfl

lemma Inv.insertBlock {c : ReadCache} (h : c.Inv) {fill : CacheFill} (matching : fill.Matches)
    (placement : CacheInsertPlacement) {a b : Nat} (block : SameBlock a b)
    (lower : fill.range.start ≤ a) (upper : b ≤ fill.range.start + fill.range.len)
    (fits : fill.range.start + fill.range.len + CACHE_BLOCK_BYTES ≤ U64) :
    ∃ c' lo hi, ReadCache.insertBlock fill placement c a b = .ok c' ∧
      Merged c c' a b lo hi (c.mergeInputs a b) placement fill.byte := by
  have lt := block.1
  obtain ⟨b₁, b₂⟩ := block_bounds a
  have fits' : cacheBlockStart a + CACHE_BLOCK_BYTES < U64 := by omega
  cases fill with
  | bytes range data =>
    have lower : range.start ≤ a := lower
    have inside : a - range.start + (b - a) ≤ data.length := by
      have : data.length = range.len := matching
      have : b ≤ range.start + range.len := upper
      omega
    obtain ⟨c', lo, hi, run, m⟩ := h.insertWindow placement block fits'
      (bytesPayload_builds lt (length_slice inside))
    refine ⟨c', lo, hi, ?_, m.inv, m.maxBytes_eq, m.next_eq, m.charge_le, m.lower, m.upper, m.alone,
      m.among, m.owned, m.lru_eq, m.owner, ?_⟩
    · show (sliceOf data (a - range.start) (b - a) >>= _) = _
      rw [sliceOf_eq inside, Res.ok_bind]
      exact run
    · intro x
      rw [m.bytes]
      by_cases hx : a ≤ x ∧ x < b
      · have eq : a - range.start + (x - a) = x - range.start := by omega
        rw [if_pos hx, if_pos hx, getElem?_slice (by omega), eq]
        rfl
      · rw [if_neg hx, if_neg hx]
  | walRecord range record recordOffset =>
    have lower : range.start ≤ a := lower
    have upper : b ≤ range.start + range.len := upper
    have inside : recordOffset + range.len ≤ record.data.length := matching
    have small : record.data.length < U64 := by
      rw [record.data_len]
      exact record.range.len_lt.trans U32_lt_U64
    obtain ⟨c', lo, hi, run, m⟩ := h.insertWindow placement block fits'
      (walRecordPayload_builds record (recordOffset + (a - range.start)) lt (by omega))
    refine ⟨c', lo, hi, ?_, m.inv, m.maxBytes_eq, m.next_eq, m.charge_le, m.lower, m.upper, m.alone,
      m.among, m.owned, m.lru_eq, m.owner, ?_⟩
    · show (okOr (checkedAdd recordOffset (a - range.start)) _ >>= _) = _
      rw [checkedAdd_of_lt (by omega), okOr_some, Res.ok_bind]
      exact run
    · intro x
      rw [m.bytes]
      by_cases hx : a ≤ x ∧ x < b
      · have eq : recordOffset + (a - range.start) + (x - a) = recordOffset +
            (x - range.start) := by
          omega
        rw [if_pos hx, if_pos hx, eq]
        rfl
      · rw [if_neg hx, if_neg hx]

lemma sameBlock_min {start stop : Nat} (lt : start < stop) :
    SameBlock start (min stop (cacheBlockStart start + CACHE_BLOCK_BYTES)) := by
  obtain ⟨b₁, b₂⟩ := block_bounds start
  exact sameBlock_of_bounds start (by omega) b₁ (by omega)

/-- The rule of the loop over the blocks: what every block takes from its start to its end holds at
the end of the range. -/
lemma windowLoop_spec (insert : ReadCache → Nat → Nat → Res ReadCache) (stop : Nat)
    (P : Nat → ReadCache → Prop) (fits : stop + CACHE_BLOCK_BYTES ≤ U64)
    (step : ∀ start c, P start c → start < stop →
      ∃ c', insert c start (min stop (cacheBlockStart start + CACHE_BLOCK_BYTES)) = .ok c' ∧
        P (min stop (cacheBlockStart start + CACHE_BLOCK_BYTES)) c')
    (fuel start : Nat) (enough : stop - start ≤ fuel) (le : start ≤ stop) {c : ReadCache}
    (h : P start c) :
    ∃ c', windowLoop insert stop fuel start c = .ok c' ∧ P stop c' := by
  induction fuel generalizing start c with
  | zero =>
    obtain rfl : start = stop := by omega
    exact ⟨c, rfl, h⟩
  | succ fuel ih =>
    rw [windowLoop]
    by_cases lt : start < stop
    · obtain ⟨b₁, b₂⟩ := block_bounds start
      obtain ⟨c₁, run₁, h₁⟩ := step start c h lt
      set last := min stop (cacheBlockStart start + CACHE_BLOCK_BYTES)
      obtain ⟨c', run', h'⟩ := ih last (by omega) (by omega) h₁
      refine ⟨c', ?_, h'⟩
      rw [if_pos lt, cacheBlockEnd, checkedAdd_of_lt (by omega), okOr_some, Res.ok_bind]
      show (insert c start last >>= fun c => windowLoop insert stop fuel last c) = _
      rw [run₁, Res.ok_bind, run']
    · obtain rfl : start = stop := by omega
      rw [if_neg lt]
      exact ⟨c, rfl, h⟩

lemma Inv.insertBlocks {c : ReadCache} (h : c.Inv) {fill : CacheFill} (matching : fill.Matches)
    (placement : CacheInsertPlacement)
    (fits : fill.range.start + fill.range.len + CACHE_BLOCK_BYTES ≤ U64) :
    ∃ c', c.insertBlocks fill placement = .ok c' ∧ c'.Inv ∧ c'.maxBytes = c.maxBytes ∧
      ∀ x, c'.byteAt x = if fill.range.Has x then fill.byte x else c.byteAt x := by
  have pos : 0 < CACHE_BLOCK_BYTES := by decide
  have stop_eq : fill.range.stop = fill.range.start + fill.range.len :=
    ByteRange.stop_of_lt (by omega)
  obtain ⟨c', run, -, inv, max_eq, bytes⟩ := windowLoop_spec
    (ReadCache.insertBlock fill placement) fill.range.stop
    (fun a c' => fill.range.start ≤ a ∧ c'.Inv ∧ c'.maxBytes = c.maxBytes ∧
      ∀ x, c'.byteAt x = if fill.range.start ≤ x ∧ x < a then fill.byte x else c.byteAt x)
    (by omega)
    (by
      rintro a c₁ ⟨low, inv, max_eq, bytes⟩ lt
      have block := sameBlock_min lt
      set b := min fill.range.stop (cacheBlockStart a + CACHE_BLOCK_BYTES)
      obtain ⟨c', lo, hi, run, m⟩ := inv.insertBlock matching placement block low (by omega) fits
      have lt := block.1
      refine ⟨c', run, by omega, m.inv, m.maxBytes_eq.trans max_eq, ?_⟩
      intro x
      rw [m.bytes, bytes]
      by_cases hx : a ≤ x ∧ x < b
      · rw [if_pos hx, if_pos (by omega)]
      · rw [if_neg hx]
        by_cases hx' : fill.range.start ≤ x ∧ x < a
        · rw [if_pos hx', if_pos (by omega)]
        · rw [if_neg hx', if_neg (by omega)])
    fill.range.len fill.range.start (by omega) (by omega) (c := c)
    ⟨le_rfl, h, rfl, fun x => by rw [if_neg (by omega)]⟩
  refine ⟨c', run, inv, max_eq, ?_⟩
  intro x
  rw [bytes, stop_eq]
  rfl

lemma Inv.insert {c : ReadCache} (h : c.Inv) (fill : CacheFill) (matching : fill.Matches)
    (placement : CacheInsertPlacement)
    (fits : fill.range.start + fill.range.len + CACHE_BLOCK_BYTES ≤ U64) :
    ∃ c', c.insert fill placement = .ok c' ∧ c'.Inv ∧ c'.maxBytes = c.maxBytes ∧
      ∀ x b, c'.byteAt x = some b →
        if fill.range.Has x then fill.byte x = some b else c.byteAt x = some b := by
  rw [insert_eq matching]
  split
  · rename_i empty
    have zero : fill.range.len = 0 := by simpa [ByteRange.isEmpty] using empty
    refine ⟨c, rfl, h, rfl, ?_⟩
    intro x b hb
    rw [if_neg]
    · exact hb
    · rintro ⟨h₁, h₂⟩
      omega
  · obtain ⟨c₁, run₁, inv₁, max₁, bytes₁⟩ := h.insertBlocks matching placement fits
    obtain ⟨c', evicted, run', ev, -⟩ := inv₁.evictToBudget
    refine ⟨c', ?_, ev.inv, ev.maxBytes_eq.trans max₁, ?_⟩
    · rw [run₁, Res.ok_bind, run']
    · intro x b hb
      have old := ev.sub x b hb
      rw [bytes₁] at old
      by_cases hx : fill.range.Has x
      · rw [if_pos hx]
        rwa [if_pos hx] at old
      · rw [if_neg hx]
        rwa [if_neg hx] at old

lemma Inv.insertBytes {c : ReadCache} (h : c.Inv) (range : ByteRange) (bytes : Buf)
    (placement : CacheInsertPlacement) (len : bytes.length = range.len)
    (fits : range.start + range.len + CACHE_BLOCK_BYTES < U64) :
    ∃ c', c.insertBytes range bytes placement = .ok c' ∧ c'.Inv ∧ c'.maxBytes = c.maxBytes ∧
      ∀ x b, c'.byteAt x = some b →
        if range.Has x then bytes[x - range.start]? = some b else c.byteAt x = some b := by
  refine h.insert (.bytes range bytes) len placement ?_
  show range.start + range.len + CACHE_BLOCK_BYTES ≤ U64
  omega

lemma Inv.insertWalRecordSlice {c : ReadCache} (h : c.Inv) (range : ByteRange) (record : WalRecord)
    (recordOffset : Nat) (placement : CacheInsertPlacement)
    (inside : recordOffset + range.len ≤ record.data.length)
    (fits : range.start + range.len + CACHE_BLOCK_BYTES < U64) :
    ∃ c', c.insertWalRecordSlice range record recordOffset placement = .ok c' ∧ c'.Inv ∧
      c'.maxBytes = c.maxBytes ∧
      ∀ x b, c'.byteAt x = some b →
        if range.Has x then record.data[recordOffset + (x - range.start)]? = some b
        else c.byteAt x = some b := by
  refine h.insert (.walRecord range record recordOffset) inside placement ?_
  show range.start + range.len + CACHE_BLOCK_BYTES ≤ U64
  omega

end ReadCache

end NbdServer
