import NbdServer.Lib.System
import NbdServer.View.Read

/-!
# Runs of the read cache

What holds of a cache after any sequence of calls: its four structures describe each other
(`cache_representation`), and every call changes the partial map from offsets to bytes that
`read_slices` answers from as it should (`cache_content`).

A call whose payload does not have the length of its range is refused before anything is changed.
Every other call returns, so a run has no cache that an error left half changed.
-/

namespace NbdServer

open Lib

namespace ReadCache

inductive Call where
  | insert (fill : CacheFill) (placement : CacheInsertPlacement)
  | trimRange (range : ByteRange)
  | promoteHits (hits : List Nat)

namespace Call

/-- The ranges of the call end a block before the end of the `u64`s. -/
def Fits : Call → Prop
  | insert fill _ => fill.range.start + fill.range.len + CACHE_BLOCK_BYTES ≤ U64
  | trimRange range => range.start + range.len + CACHE_BLOCK_BYTES ≤ U64
  | promoteHits _ => True

/-- The payload of the call has the length of its range. -/
def Matches : Call → Prop
  | insert fill _ => fill.Matches
  | trimRange _ => True
  | promoteHits _ => True

end Call

def call (c : ReadCache) : Call → Res ReadCache
  | .insert fill placement => c.insert fill placement
  | .trimRange range => c.trimRange range
  | .promoteHits hits => .ok (c.promoteHits hits)

/-- The runs of a cache with a budget of `budget` bytes. -/
def cacheSystem (budget : Nat) : System ReadCache Call where
  init c := c = .new budget
  step c call c' := call.Fits ∧ c.call call = .ok c'

/-- The invariant, and the charge is within the budget. -/
structure Bounded (budget : Nat) (c : ReadCache) : Prop where
  inv : c.Inv
  maxBytes_eq : c.maxBytes = budget
  charge_le : c.chargedBytes ≤ budget

lemma matches_of_insert {c c' : ReadCache} {fill : CacheFill} {placement : CacheInsertPlacement}
    (run : c.insert fill placement = .ok c') : fill.Matches := by
  cases fill with
  | bytes range data =>
    by_contra differ
    have run : c.insertBytes range data placement = .ok c' := run
    unfold insertBytes at run
    rw [if_pos (show data.length ≠ range.len from differ)] at run
    cases run
  | walRecord range record recordOffset =>
    have run : c.insertWalRecordSlice range record recordOffset placement = .ok c' := run
    unfold insertWalRecordSlice at run
    cases sum : checkedAdd recordOffset range.len with
    | none =>
      rw [sum] at run
      cases run
    | some stop =>
      obtain ⟨-, rfl⟩ := checkedAdd_eq_some.1 sum
      rw [sum, okOr_some, Res.ok_bind] at run
      by_contra longer
      rw [if_pos (Nat.lt_of_not_le longer)] at run
      cases run

namespace Bounded

variable {budget : Nat} {c : ReadCache}

/-- An insert overrides the bytes of its range and evicts the shortest suffix of the LRU list that
brings the charge within the budget. -/
lemma insert (h : c.Bounded budget) {fill : CacheFill} (matching : fill.Matches)
    (placement : CacheInsertPlacement)
    (fits : fill.range.start + fill.range.len + CACHE_BLOCK_BYTES ≤ U64) :
    ∃ c₁ c' evicted, c.insertBlocks fill placement = .ok c₁ ∧ c₁.Inv ∧ c₁.maxBytes = budget ∧
      (∀ x, c₁.byteAt x = if fill.range.Has x then fill.byte x else c.byteAt x) ∧
      c₁.evictToBudget = .ok c' ∧ c.insert fill placement = .ok c' ∧ c'.Bounded budget ∧
      Evicts c₁ c' evicted ∧
      ∀ ids, ids <:+ c₁.lru → c₁.chargedBytes ≤ budget + c₁.chargeOf ids →
        evicted.length ≤ ids.length := by
  obtain ⟨c₁, run₁, inv₁, max₁, bytes₁⟩ := h.inv.insertBlocks matching placement fits
  rw [h.maxBytes_eq] at max₁
  obtain ⟨c', evicted, run', ev, within, least⟩ := inv₁.evictToBudget
  have max' : c'.maxBytes = budget := ev.maxBytes_eq.trans max₁
  rw [max'] at within
  rw [max₁] at least
  refine ⟨c₁, c', evicted, run₁, inv₁, max₁, bytes₁, run', ?_, ⟨ev.inv, max', within⟩, ev, least⟩
  rw [insert_eq matching, run₁, Res.ok_bind, run']
  split
  · rename_i empty
    have zero : fill.range.len = 0 := by simpa [ByteRange.isEmpty] using empty
    have same : c₁ = c := by
      unfold insertBlocks at run₁
      rw [zero] at run₁
      cases run₁
      rfl
    have fit : c.chargedBytes ≤ c.maxBytes := by
      rw [h.maxBytes_eq]
      exact h.charge_le
    rw [same, evictToBudget_of_le fit] at run'
    exact run'
  · rfl

lemma trimRange (h : c.Bounded budget) (range : ByteRange)
    (fits : range.start + range.len + CACHE_BLOCK_BYTES ≤ U64) :
    ∃ c', c.trimRange range = .ok c' ∧ c'.Bounded budget ∧
      ∀ x, c'.byteAt x = if range.Has x then none else c.byteAt x := by
  have pos : 0 < CACHE_BLOCK_BYTES := by decide
  obtain ⟨c', run, inv, max, charge, bytes⟩ := h.inv.trimRange range (by omega)
  exact ⟨c', run, ⟨inv, max.trans h.maxBytes_eq, charge.trans h.charge_le⟩, bytes⟩

lemma promoteHits (h : c.Bounded budget) (hits : List Nat) :
    (c.promoteHits hits).Bounded budget ∧
      ∀ x, (c.promoteHits hits).byteAt x = c.byteAt x := by
  obtain ⟨inv, max, charge, bytes⟩ := h.inv.promoteHits hits
  exact ⟨⟨inv, max.trans h.maxBytes_eq, charge.trans_le h.charge_le⟩, bytes⟩

lemma call (h : c.Bounded budget) {call : Call} (fits : call.Fits) :
    (call.Matches ↔ ∃ c', c.call call = .ok c') ∧
      ∀ c', c.call call = .ok c' → c'.Bounded budget := by
  cases call with
  | insert fill placement =>
    have ok : fill.Matches → ∃ c', c.insert fill placement = .ok c' ∧ c'.Bounded budget := by
      intro matching
      obtain ⟨-, c', -, -, -, -, -, -, run, h', -⟩ := h.insert matching placement fits
      exact ⟨c', run, h'⟩
    refine ⟨⟨?_, ?_⟩, ?_⟩
    · intro matching
      obtain ⟨c', run, -⟩ := ok matching
      exact ⟨c', run⟩
    · rintro ⟨c', run⟩
      exact matches_of_insert run
    · intro c' run
      obtain ⟨c'', run', h'⟩ := ok (matches_of_insert run)
      cases run'.symm.trans run
      exact h'
  | trimRange range =>
    obtain ⟨c', run, h', -⟩ := h.trimRange range fits
    refine ⟨⟨fun _ => ⟨c', run⟩, fun _ => trivial⟩, ?_⟩
    intro c'' run'
    cases run.symm.trans run'
    exact h'
  | promoteHits hits =>
    refine ⟨⟨fun _ => ⟨_, rfl⟩, fun _ => trivial⟩, ?_⟩
    rintro c' run
    cases run
    exact (h.promoteHits hits).1

lemma of_reachable (reach : (cacheSystem budget).Reachable c) : c.Bounded budget := by
  refine System.invariant _ ?_ ?_ reach
  · rintro _ rfl
    exact ⟨new_inv budget, rfl, Nat.zero_le _⟩
  · rintro c call c' h ⟨fits, run⟩
    exact (h.call fits).2 c' run

end Bounded

lemma Linked.lru_perm {c : ReadCache} (h : c.Linked) :
    c.lru.Perm (c.objects.entries.map (·.1)) := by
  have nodup : (c.objects.entries.map (·.1)).Nodup := by
    refine List.pairwise_map.2 (c.objects.ordered.imp ?_)
    intro a b lt
    exact lt.ne
  rw [List.perm_ext_iff_of_nodup h.lru_nodup nodup]
  intro id
  rw [h.lru_mem, OrdMap.has_iff, List.mem_map]
  simp

lemma Linked.chargedBytes_eq {c : ReadCache} (h : c.Linked) :
    c.chargedBytes = (c.objects.entries.map (·.2.payload.data.length)).sum := by
  rw [h.total, OrdMap.total]
  congr 1
  refine List.map_congr_left ?_
  rintro ⟨id, o⟩ mem
  exact h.charge id o (OrdMap.find_eq_some.2 mem)

/-- After any calls the extents are sorted, not empty and apart, each lies in one block and is the
slice of an object at its distance from the start of the object, the back references of an object
are the starts of its extents and not none, the LRU list is a permutation of the objects, and the
charge is the length of their payloads and within the budget. A next call returns exactly if its
payload has the length of its range. -/
theorem cache_representation {budget : Nat} {c : ReadCache}
    (reach : (cacheSystem budget).Reachable c) :
    c.extents.entries.Pairwise (fun a b => a.stop ≤ b.start) ∧
    (∀ e ∈ c.extents.entries, e.start < e.stop ∧
      e.stop ≤ cacheBlockStart e.start + CACHE_BLOCK_BYTES ∧
      ∃ o, c.objects.find e.value.objectId = some o ∧ o.logicalStart ≤ e.start ∧
        e.value.objectOffset = e.start - o.logicalStart ∧
        e.stop ≤ o.logicalStart + o.payload.data.length) ∧
    (∀ id o, c.objects.find id = some o → o.extentStarts.Nonempty ∧
      ∀ start, start ∈ o.extentStarts ↔
        ∃ e ∈ c.extents.entries, e.value.objectId = id ∧ e.start = start) ∧
    c.lru.Nodup ∧ c.lru.Perm (c.objects.entries.map (·.1)) ∧
    c.chargedBytes = (c.objects.entries.map (·.2.payload.data.length)).sum ∧
    c.chargedBytes ≤ budget ∧
    ∀ call : Call, call.Fits → (call.Matches ↔ ∃ c', c.call call = .ok c') := by
  have h := Bounded.of_reachable reach
  refine ⟨c.extents.ordered, ?_, ?_, h.inv.lru_nodup, h.inv.lru_perm, h.inv.chargedBytes_eq,
    h.charge_le, fun call fits => (h.call fits).1⟩
  · intro e he
    obtain ⟨o, ho, ⟨s₁, s₂, s₃⟩⟩ := h.inv.slice e he
    have lt := e.lt
    exact ⟨lt, (sameBlock_bounds ⟨lt, s₃⟩).2, o, ho, by omega, by omega, s₂⟩
  · intro id o ho
    obtain ⟨starts, ne⟩ := h.inv.backrefs id o ho
    refine ⟨Finset.nonempty_iff_ne_empty.2 ne, ?_⟩
    intro start
    rw [starts]
    exact mem_startsOf

instance : DecidablePred Call.Fits
  | .insert _ _ => inferInstanceAs (Decidable (_ ≤ _))
  | .trimRange _ => inferInstanceAs (Decidable (_ ≤ _))
  | .promoteHits _ => inferInstanceAs (Decidable True)

def next (c : ReadCache) (call : Call) : Option ReadCache :=
  if call.Fits then (c.call call).toOption else none

lemma step_of_next {budget : Nat} {c c' : ReadCache} {call : Call} (h : c.next call = some c') :
    (cacheSystem budget).step c call c' := by
  unfold next at h
  split at h
  · rename_i fits
    refine ⟨fits, ?_⟩
    cases run : c.call call with
    | ok d =>
      rw [run] at h
      cases h
      rfl
    | error fault =>
      rw [run] at h
      cases h
  · cases h

/-- Two inserts of which the third joins one, a trim that splits the joined object, and a hit. -/
def joinedCache : Option ReadCache :=
  [.insert (.bytes (.new 0 2) [1, 2]) .hot, .insert (.bytes (.new 5 1) [7]) .hot,
    .insert (.bytes (.new 2 2) [8, 9]) .cold, .trimRange (.new 1 2), .promoteHits [3]].foldlM
    next (.new 8)

def outline (c : ReadCache) : List Nat × List (List Nat) :=
  (c.lru, c.extents.entries.map fun e => [e.start, e.stop, e.value.objectId, e.value.objectOffset])

/-- `cache_representation` at this cache: the object of four bytes has two extents. -/
theorem cache_representation_joined :
    ∃ c, joinedCache = some c ∧
      c.outline = ([3, 2], [[0, 1, 3, 0], [3, 4, 3, 3], [5, 6, 2, 0]]) ∧
      c.chargedBytes = (c.objects.entries.map (·.2.payload.data.length)).sum := by
  have run : joinedCache.isSome := by decide +kernel
  have shape : joinedCache.map outline =
      some ([3, 2], [[0, 1, 3, 0], [3, 4, 3, 3], [5, 6, 2, 0]]) := by decide +kernel
  obtain ⟨c, hc⟩ := Option.isSome_iff_exists.1 run
  have reach : (cacheSystem 8).Reachable c := .foldlM step_of_next (.init rfl) hc
  rw [hc, Option.map_some, Option.some.injEq] at shape
  obtain ⟨-, -, -, -, -, sum, -, -⟩ := cache_representation reach
  exact ⟨c, hc, shape, sum⟩

/-! ## The content -/

/-- What `read_slices` says: in every range the slices hold exactly the bytes of the partial
map `f`. -/
def Reads (c : ReadCache) (f : Nat → Option UInt8) : Prop :=
  ∀ range : ByteRange, ∃ slices, c.readSlices range = .ok slices ∧
    ∀ x b, range.start ≤ x → x < range.stop →
      (f x = some b ↔ ∃ s ∈ slices, s.start ≤ x ∧ x < s.stop ∧
        s.payload.data[s.objectOffset + (x - s.start)]? = some b)

lemma Linked.reads {c : ReadCache} (h : c.Linked) : c.Reads c.byteAt := by
  intro range
  obtain ⟨slices, run, all, cover⟩ := h.readSlices range
  refine ⟨slices, run, ?_⟩
  intro x b h₁ h₂
  constructor
  · intro byte
    obtain ⟨s, hs, h₃, h₄⟩ := cover x b h₁ h₂ byte
    exact ⟨s, hs, h₃, h₄, by rw [← (all s hs).bytes x h₃ h₄, byte]⟩
  · rintro ⟨s, hs, h₃, h₄, byte⟩
    rw [(all s hs).bytes x h₃ h₄, byte]

/-- A cache is the partial map `byteAt` that `read_slices` answers from. An insert succeeds: before
the eviction the map is overridden by the inserted bytes, and the eviction takes away the bytes of
the shortest suffix of the LRU list whose removal brings the charge within the budget, and no
others. A trim takes away exactly the bytes of its range, and hits change no byte. -/
theorem cache_content {budget : Nat} {c : ReadCache} (reach : (cacheSystem budget).Reachable c) :
    c.Reads c.byteAt ∧
    (∀ (fill : CacheFill) (placement : CacheInsertPlacement), fill.Matches →
      fill.range.start + fill.range.len + CACHE_BLOCK_BYTES ≤ U64 →
      ∃ c₁ c' evicted, c.insertBlocks fill placement = .ok c₁ ∧ c₁.evictToBudget = .ok c' ∧
        c.insert fill placement = .ok c' ∧ c₁.Reads c₁.byteAt ∧ c'.Reads c'.byteAt ∧
        (∀ x, c₁.byteAt x = if fill.range.Has x then fill.byte x else c.byteAt x) ∧
        c₁.lru = c'.lru ++ evicted ∧ c'.chargedBytes + c₁.chargeOf evicted = c₁.chargedBytes ∧
        c'.chargedBytes ≤ budget ∧
        (∀ ids, ids <:+ c₁.lru → c₁.chargedBytes ≤ budget + c₁.chargeOf ids →
          evicted.length ≤ ids.length) ∧
        ∀ x, c'.byteAt x = if ∃ id ∈ evicted, c₁.owner x = some id then none else c₁.byteAt x) ∧
    (∀ range : ByteRange, range.start + range.len + CACHE_BLOCK_BYTES ≤ U64 →
      ∃ c', c.trimRange range = .ok c' ∧ c'.Reads c'.byteAt ∧
        ∀ x, c'.byteAt x = if range.Has x then none else c.byteAt x) ∧
    ∀ hits, (c.promoteHits hits).Reads (c.promoteHits hits).byteAt ∧
      ∀ x, (c.promoteHits hits).byteAt x = c.byteAt x := by
  have h := Bounded.of_reachable reach
  refine ⟨h.inv.reads, ?_, ?_, ?_⟩
  · intro fill placement matching fits
    obtain ⟨c₁, c', evicted, run₁, inv₁, -, bytes₁, run', run, h', ev, least⟩ :=
      h.insert matching placement fits
    exact ⟨c₁, c', evicted, run₁, run', run, inv₁.reads, h'.inv.reads, bytes₁, ev.lru_eq,
      ev.charge_eq, h'.charge_le, least, ev.bytes⟩
  · intro range fits
    obtain ⟨c', run, h', bytes⟩ := h.trimRange range fits
    exact ⟨c', run, h'.inv.reads, bytes⟩
  · intro hits
    obtain ⟨h', bytes⟩ := h.promoteHits hits
    exact ⟨h'.inv.reads, bytes⟩

/-- `cache_content` at a cache whose object has a hole: what is inserted there and around it
overrides what is cached. -/
theorem cache_content_joined :
    ∃ c, joinedCache = some c ∧ c.byteAt 0 = some 1 ∧ c.byteAt 1 = none ∧
      ∃ c₁, c.insertBlocks (.bytes (.new 0 2) [4, 5]) .hot = .ok c₁ ∧ c₁.byteAt 0 = some 4 ∧
        c₁.byteAt 1 = some 5 ∧ c₁.byteAt 3 = some 9 := by
  have run : joinedCache.isSome := by decide +kernel
  have shape : joinedCache.map (fun c => (c.byteAt 0, c.byteAt 1, c.byteAt 3)) =
      some (some 1, none, some 9) := by decide +kernel
  obtain ⟨c, hc⟩ := Option.isSome_iff_exists.1 run
  have reach : (cacheSystem 8).Reachable c := .foldlM step_of_next (.init rfl) hc
  rw [hc, Option.map_some, Option.some.injEq, Prod.mk.injEq, Prod.mk.injEq] at shape
  obtain ⟨b₀, b₁, b₃⟩ := shape
  obtain ⟨-, insert, -, -⟩ := cache_content reach
  obtain ⟨c₁, -, -, run₁, -, -, -, -, bytes, -⟩ := insert (.bytes (.new 0 2) [4, 5]) .hot rfl
    (by decide)
  refine ⟨c, hc, b₀, b₁, c₁, run₁, ?_, ?_, ?_⟩
  · exact (bytes 0).trans (if_pos (by decide))
  · exact (bytes 1).trans (if_pos (by decide))
  · exact (bytes 3).trans ((if_neg (by decide)).trans b₃)

end ReadCache

end NbdServer
