import NbdServer.View.Cache

/-!
# The invariant of the read cache

`Linked` is what holds in the middle of an update: extents are slices of existing objects, the LRU
list and the charge account for exactly the objects. `Inv` adds that the back references are exact
and no object is without an extent, which `rebuild_backrefs_and_gc` restores.

The content of a cache is `ReadCache.byteAt`, the byte it holds at an offset.
-/

namespace NbdServer

open Lib

namespace ReadCache

def objectData (c : ReadCache) (id : Nat) : Option Buf := (c.objects.find id).map (·.payload.data)

/-- The byte the cache holds at `x`. -/
def byteAt (c : ReadCache) (x : Nat) : Option UInt8 :=
  (c.extents.valueAt CacheExtent.splitAt x).bind fun e =>
    (c.objectData e.objectId).bind fun data => data[e.objectOffset]?

/-- The extent is a slice of the object, and lies in one cache block. -/
structure SliceOf (e : ExtentEntry CacheExtent) (o : CacheObject) : Prop where
  offset : o.logicalStart + e.value.objectOffset = e.start
  fits : e.stop ≤ o.logicalStart + o.payload.data.length
  block : e.start / CACHE_BLOCK_BYTES = (e.stop - 1) / CACHE_BLOCK_BYTES

/-- Extents are slices of objects, and the LRU list and the charge are those of the objects. -/
structure Linked (c : ReadCache) : Prop where
  slice : ∀ e ∈ c.extents.entries, ∃ o, c.objects.find e.value.objectId = some o ∧ SliceOf e o
  next_pos : 0 < c.nextObjectId
  ids : ∀ id, c.objects.Has id → 0 < id ∧ id < c.nextObjectId
  lru_nodup : c.lru.Nodup
  lru_mem : ∀ id, id ∈ c.lru ↔ c.objects.Has id
  charge : ∀ id o, c.objects.find id = some o → o.chargedBytes = o.payload.data.length
  total : c.chargedBytes = c.objects.total (·.chargedBytes)

def startsOf (extents : ExtentMap CacheExtent) (id : Nat) : Finset Nat :=
  ((extents.entries.filter (·.value.objectId = id)).map (·.start)).toFinset

lemma mem_startsOf {extents : ExtentMap CacheExtent} {id start : Nat} :
    start ∈ startsOf extents id ↔
      ∃ e ∈ extents.entries, e.value.objectId = id ∧ e.start = start := by
  simp [startsOf, and_assoc]

structure Inv (c : ReadCache) : Prop extends Linked c where
  backrefs : ∀ id o, c.objects.find id = some o →
    o.extentStarts = startsOf c.extents id ∧ o.extentStarts ≠ ∅

lemma splitAt_add (e : CacheExtent) (a b : Nat) : (e.splitAt a).splitAt b = e.splitAt (a + b) := by
  unfold CacheExtent.splitAt
  simp only [Nat.add_assoc]

lemma new_inv (maxBytes : Nat) : (new maxBytes).Inv where
  slice := by simp [new, IntervalMap.empty]
  next_pos := Nat.one_pos
  ids := by simp [new, OrdMap.Has, OrdMap.find, OrdMap.empty]
  lru_nodup := List.nodup_nil
  lru_mem := by simp [new, OrdMap.Has, OrdMap.find, OrdMap.empty]
  charge := by simp [new, OrdMap.find, OrdMap.empty]
  total := rfl
  backrefs := by simp [new, OrdMap.find, OrdMap.empty]

lemma new_byteAt (maxBytes x : Nat) : (new maxBytes).byteAt x = none := rfl

lemma byteAt_of_mem {c : ReadCache} {e x} (he : e ∈ c.extents.entries) (has : e.Has x) :
    c.byteAt x = (c.objectData e.value.objectId).bind
      fun data => data[e.value.objectOffset + (x - e.start)]? := by
  rw [byteAt, IntervalMap.valueAt_of_mem he has]
  rfl

lemma byteAt_congr {c c' : ReadCache} (extents : c'.extents = c.extents)
    (objects : ∀ e ∈ c.extents.entries,
      c'.objectData e.value.objectId = c.objectData e.value.objectId) (x : Nat) :
    c'.byteAt x = c.byteAt x := by
  unfold byteAt
  rw [extents]
  cases h : c.extents.valueAt CacheExtent.splitAt x with
  | none => rfl
  | some v =>
    obtain ⟨e, he, -, rfl⟩ := IntervalMap.valueAt_eq_some.1 h
    show (c'.objectData e.value.objectId).bind _ = (c.objectData e.value.objectId).bind _
    rw [objects e he]

lemma Linked.byteAt_isSome {c : ReadCache} (h : c.Linked) {e x} (he : e ∈ c.extents.entries)
    (has : e.Has x) : (c.byteAt x).isSome := by
  obtain ⟨o, ho, ⟨h₁, h₂, -⟩⟩ := h.slice e he
  obtain ⟨h₃, h₄⟩ := has
  rw [byteAt_of_mem he ⟨h₃, h₄⟩, objectData, ho, Option.map_some, Option.bind_some,
    List.getElem?_eq_getElem (by omega)]
  rfl

/-! ## Removing objects -/

lemma Linked.removeObject {c : ReadCache} (h : c.Linked) {id o} (ho : c.objects.find id = some o)
    (unused : ∀ e ∈ c.extents.entries, e.value.objectId ≠ id) :
    c.removeObject id = .ok { c with
        objects := c.objects.erase id
        chargedBytes := c.chargedBytes - o.chargedBytes
        lru := c.lru.erase id } ∧
      Linked { c with
        objects := c.objects.erase id
        chargedBytes := c.chargedBytes - o.chargedBytes
        lru := c.lru.erase id } := by
  have tot := OrdMap.total_erase (f := (·.chargedBytes)) ho
  have eq := h.total
  have has : ∀ i, (c.objects.erase id).Has i ↔ i ≠ id ∧ c.objects.Has i := by
    intro i
    unfold OrdMap.Has
    rw [OrdMap.find_erase]
    split <;> simp_all
  constructor
  · unfold ReadCache.removeObject
    simp only [ho]
    rw [minus_of_le (by omega), Res.ok_bind]
    rfl
  · refine ⟨?_, h.next_pos, ?_, h.lru_nodup.erase id, ?_, ?_, ?_⟩
    · intro e he
      obtain ⟨o', ho', hs⟩ := h.slice e he
      refine ⟨o', ?_, hs⟩
      show (c.objects.erase id).find e.value.objectId = some o'
      rw [OrdMap.find_erase, if_neg (unused e he), ho']
    · intro i hi
      exact h.ids i ((has i).1 hi).2
    · intro i
      show i ∈ c.lru.erase id ↔ (c.objects.erase id).Has i
      rw [h.lru_nodup.mem_erase_iff, has, h.lru_mem]
    · intro i o' ho'
      have : (c.objects.erase id).find i = some o' := ho'
      rw [OrdMap.find_erase] at this
      split at this
      · cases this
      · exact h.charge i o' this
    · show c.chargedBytes - o.chargedBytes = (c.objects.erase id).total _
      omega

lemma Linked.removeObjects {c : ReadCache} (h : c.Linked) {ids : List Nat} (nodup : ids.Nodup)
    (has : ∀ id ∈ ids, c.objects.Has id)
    (unused : ∀ id ∈ ids, ∀ e ∈ c.extents.entries, e.value.objectId ≠ id) :
    ∃ c', c.removeObjects ids = .ok c' ∧ c'.Linked ∧ c'.extents = c.extents ∧
      c'.maxBytes = c.maxBytes ∧ c'.nextObjectId = c.nextObjectId ∧
      (∀ id, c'.objects.find id = if id ∈ ids then none else c.objects.find id) ∧
      c'.lru = c.lru.filter (· ∉ ids) ∧ c'.chargedBytes ≤ c.chargedBytes := by
  induction ids generalizing c with
  | nil => exact ⟨c, rfl, h, rfl, rfl, rfl, by simp, by simp, le_rfl⟩
  | cons id ids ih =>
    obtain ⟨hd, tl⟩ := List.nodup_cons.1 nodup
    obtain ⟨o, ho⟩ := Option.isSome_iff_exists.1 (has id List.mem_cons_self)
    obtain ⟨run₁, h₁⟩ := h.removeObject ho (unused id List.mem_cons_self)
    obtain ⟨c', run, h', e₁, e₂, e₃, e₄, e₅, e₆⟩ := ih h₁ tl (by
        intro i hi
        have ne : i ≠ id := fun e => hd (e ▸ hi)
        have := has i (List.mem_cons_of_mem _ hi)
        unfold OrdMap.Has at this ⊢
        show ((c.objects.erase id).find i).isSome
        rw [OrdMap.find_erase, if_neg ne]
        exact this)
      (fun i hi => unused i (List.mem_cons_of_mem _ hi))
    refine ⟨c', ?_, h', e₁, e₂, e₃, ?_, ?_, e₆.trans (Nat.sub_le ..)⟩
    · rw [ReadCache.removeObjects, run₁, Res.ok_bind, run]
    · intro i
      rw [e₄]
      show (if i ∈ ids then none else (c.objects.erase id).find i) = _
      rw [OrdMap.find_erase]
      by_cases h₁ : i ∈ ids <;> by_cases h₂ : i = id <;> simp [h₁, h₂]
    · rw [e₅]
      show (c.lru.erase id).filter (· ∉ ids) = _
      rw [h.lru_nodup.erase_eq_filter, List.filter_filter]
      refine List.filter_congr ?_
      intro i _
      by_cases h₁ : i ∈ ids <;> by_cases h₂ : i = id <;> simp [h₁, h₂]

/-! ## Rebuilding the back references -/

lemma find_addBackref {objects : OrdMap Nat CacheObject} {e : ExtentEntry CacheExtent} {id : Nat} :
    (addBackref objects e).find id = (objects.find id).map fun o =>
      if e.value.objectId = id then { o with extentStarts := insert e.start o.extentStarts }
      else o := by
  unfold addBackref
  cases h : objects.find e.value.objectId with
  | none =>
    by_cases eq : e.value.objectId = id
    · subst eq
      simp [h]
    · simp [eq]
  | some o =>
    by_cases eq : e.value.objectId = id
    · subst eq
      simp [h]
    · have : ¬ id = e.value.objectId := fun h => eq h.symm
      simp [eq, this]

lemma find_foldl_addBackref {l : List (ExtentEntry CacheExtent)} {objects : OrdMap Nat CacheObject}
    {id : Nat} :
    (l.foldl addBackref objects).find id = (objects.find id).map fun o =>
      { o with extentStarts :=
          ((l.filter (·.value.objectId = id)).map (·.start)).toFinset ∪ o.extentStarts } := by
  induction l generalizing objects with
  | nil => simp
  | cons e l ih =>
    rw [List.foldl_cons, ih, find_addBackref, Option.map_map]
    congr 1
    funext o
    by_cases eq : e.value.objectId = id
    · simp [eq, Finset.insert_union, Finset.union_insert]
    · simp [eq]

lemma rebuildBackrefs_objects (c : ReadCache) :
    c.rebuildBackrefs.objects =
      c.objects.mapValues fun id o => { o with extentStarts := startsOf c.extents id } := by
  apply OrdMap.ext_find
  intro id
  rw [rebuildBackrefs, find_foldl_addBackref, OrdMap.find_mapValues, OrdMap.find_mapValues,
    Option.map_map]
  congr 1
  funext o
  simp [startsOf]

lemma find_rebuildBackrefs {c : ReadCache} {id : Nat} :
    c.rebuildBackrefs.objects.find id =
      (c.objects.find id).map fun o => { o with extentStarts := startsOf c.extents id } := by
  rw [rebuildBackrefs_objects, OrdMap.find_mapValues]

lemma has_rebuildBackrefs {c : ReadCache} {id : Nat} :
    c.rebuildBackrefs.objects.Has id ↔ c.objects.Has id := by
  unfold OrdMap.Has
  rw [find_rebuildBackrefs, Option.isSome_map]

lemma Linked.rebuildBackrefs {c : ReadCache} (h : c.Linked) : c.rebuildBackrefs.Linked := by
  refine ⟨?_, h.next_pos, fun id hid => h.ids id (has_rebuildBackrefs.1 hid), h.lru_nodup,
    fun id => (h.lru_mem id).trans has_rebuildBackrefs.symm, ?_, ?_⟩
  · intro e he
    obtain ⟨o, ho, hs⟩ := h.slice e he
    refine ⟨{ o with extentStarts := startsOf c.extents e.value.objectId }, ?_,
      ⟨hs.offset, hs.fits, hs.block⟩⟩
    rw [find_rebuildBackrefs, ho]
    rfl
  · intro id o ho
    rw [find_rebuildBackrefs] at ho
    obtain ⟨o', ho', rfl⟩ := Option.map_eq_some_iff.1 ho
    exact h.charge id o' ho'
  · show c.chargedBytes = _
    rw [rebuildBackrefs_objects, h.total, OrdMap.total_mapValues]
    intro _ _
    rfl

lemma mem_emptyObjects_rebuildBackrefs {c : ReadCache} {id : Nat} :
    id ∈ c.rebuildBackrefs.emptyObjects ↔ c.objects.Has id ∧ startsOf c.extents id = ∅ := by
  unfold emptyObjects OrdMap.Has
  simp only [List.mem_map, List.mem_filter, decide_eq_true_eq, Prod.exists, exists_and_right,
    exists_eq_right, Option.isSome_iff_exists]
  constructor
  · rintro ⟨o, mem, empty⟩
    rw [← OrdMap.find_eq_some, find_rebuildBackrefs] at mem
    obtain ⟨o', ho', rfl⟩ := Option.map_eq_some_iff.1 mem
    exact ⟨⟨o', ho'⟩, empty⟩
  · rintro ⟨⟨o, ho⟩, empty⟩
    refine ⟨{ o with extentStarts := startsOf c.extents id }, ?_, empty⟩
    rw [← OrdMap.find_eq_some, find_rebuildBackrefs, ho]
    rfl

lemma emptyObjects_nodup (c : ReadCache) : c.emptyObjects.Nodup := by
  refine List.pairwise_map.2 ((c.objects.ordered.filter _).imp ?_)
  intro a b lt
  exact lt.ne

/-- What is left when the objects without an extent are removed. -/
structure Collected (c c' : ReadCache) : Prop where
  linked : c'.Linked
  extents_eq : c'.extents = c.extents
  maxBytes_eq : c'.maxBytes = c.maxBytes
  next_eq : c'.nextObjectId = c.nextObjectId
  charge_le : c'.chargedBytes ≤ c.chargedBytes
  find_eq : ∀ i, c'.objects.find i = if startsOf c.extents i = ∅ then none else
    (c.objects.find i).map fun o => { o with extentStarts := startsOf c.extents i }
  lru_eq : c'.lru = c.lru.filter (startsOf c.extents · ≠ ∅)

lemma Linked.collect {c : ReadCache} (h : c.Linked) :
    ∃ c', c.rebuildBackrefs.removeObjects c.rebuildBackrefs.emptyObjects = .ok c' ∧
      Collected c c' := by
  obtain ⟨c', run, h', e₁, e₂, e₃, e₄, e₅, e₆⟩ := h.rebuildBackrefs.removeObjects
    (emptyObjects_nodup _)
    (fun i hi => has_rebuildBackrefs.2 (mem_emptyObjects_rebuildBackrefs.1 hi).1)
    (by
      rintro i hi e he rfl
      have mem : e.start ∈ startsOf c.extents e.value.objectId := mem_startsOf.2 ⟨e, he, rfl, rfl⟩
      rw [(mem_emptyObjects_rebuildBackrefs.1 hi).2] at mem
      simp at mem)
  refine ⟨c', run, h', e₁, e₂, e₃, e₆, ?_, ?_⟩
  · intro i
    rw [e₄, find_rebuildBackrefs]
    simp only [mem_emptyObjects_rebuildBackrefs]
    by_cases empty : startsOf c.extents i = ∅
    · rw [if_pos empty]
      cases hi : c.objects.find i with
      | none => simp
      | some o => simp [OrdMap.Has, hi, empty]
    · rw [if_neg empty, if_neg (fun both => empty both.2)]
  · rw [e₅]
    refine List.filter_congr ?_
    intro i hi
    have has := (h.lru_mem i).1 hi
    simp only [mem_emptyObjects_rebuildBackrefs, has, true_and]

namespace Collected

variable {c c' : ReadCache}

lemma has (col : Collected c c') {i : Nat} :
    c'.objects.Has i ↔ c.objects.Has i ∧ startsOf c.extents i ≠ ∅ := by
  unfold OrdMap.Has
  rw [col.find_eq]
  split
  · rename_i empty
    simp [empty]
  · rename_i ne
    simp [ne]

lemma backrefs (col : Collected c c') {i : Nat} {o : CacheObject}
    (ho : c'.objects.find i = some o) :
    o.extentStarts = startsOf c'.extents i ∧ o.extentStarts ≠ ∅ := by
  rw [col.find_eq] at ho
  split at ho
  · cases ho
  · rename_i ne
    obtain ⟨o', -, rfl⟩ := Option.map_eq_some_iff.1 ho
    rw [col.extents_eq]
    exact ⟨rfl, ne⟩

lemma bytes (col : Collected c c') (x : Nat) : c'.byteAt x = c.byteAt x := by
  refine byteAt_congr col.extents_eq ?_ x
  intro e he
  have ne : startsOf c.extents e.value.objectId ≠ ∅ :=
    Finset.ne_empty_of_mem (mem_startsOf.2 ⟨e, he, rfl, rfl⟩)
  rw [objectData, objectData, col.find_eq, if_neg ne, Option.map_map]
  rfl

end Collected

lemma Linked.perm {c : ReadCache} (h : c.Linked) {lru : CacheObjectLru} (perm : lru.Perm c.lru) :
    Linked { c with lru := lru } :=
  ⟨h.slice, h.next_pos, h.ids, perm.nodup_iff.2 h.lru_nodup, fun id => perm.mem_iff.trans
    (h.lru_mem id), h.charge, h.total⟩

lemma place_perm {lru : CacheObjectLru} {id : Nat} {placement : CacheInsertPlacement} :
    (lru.place id placement).Perm (id :: lru) := by
  cases placement with
  | hot => exact List.Perm.refl _
  | cold => exact List.perm_append_singleton id lru

/-- The LRU list with `id` at the inherited position, or where `placement` says. -/
def putAt (lru : CacheObjectLru) (id : Nat) (placement : CacheInsertPlacement) :
    Option Nat → CacheObjectLru
  | some position => lru.insertAt position id
  | none => lru.place id placement

lemma putAt_perm {lru : CacheObjectLru} {id : Nat} {placement : CacheInsertPlacement}
    {position : Option Nat} : (putAt lru id placement position).Perm (id :: lru) := by
  cases position with
  | none => exact place_perm
  | some position => exact List.perm_insertIdx id _ (Nat.min_le_right _ _)

lemma inheritPosition_of_has {c : ReadCache} {id : Nat} (has : c.objects.Has id)
    (position : Option Nat) (placement : CacheInsertPlacement) :
    c.inheritPosition id position placement =
      { c with lru := putAt (c.lru.erase id) id placement position } := by
  unfold inheritPosition
  rw [if_pos has]
  cases position with
  | none => rfl
  | some position => rfl

lemma inheritPosition_eq {c : ReadCache} (h : c.Linked) (id : Nat) (position : Option Nat)
    (placement : CacheInsertPlacement) :
    ∃ lru, c.inheritPosition id position placement = { c with lru := lru } ∧ lru.Perm c.lru := by
  by_cases has : c.objects.Has id
  · have mem : id ∈ c.lru := (h.lru_mem id).2 has
    exact ⟨_, inheritPosition_of_has has position placement,
      putAt_perm.trans (List.perm_cons_erase mem).symm⟩
  · refine ⟨c.lru, ?_, List.Perm.refl _⟩
    unfold inheritPosition
    rw [if_neg has]

/-- What `rebuild_backrefs_and_gc_with_inherited_lru` leaves: the objects that still have an extent,
in the old order but for the inherited one. -/
structure Rebuilt (c c' : ReadCache) (id : Nat) (position : Option Nat)
    (placement : CacheInsertPlacement) : Prop where
  inv : c'.Inv
  extents_eq : c'.extents = c.extents
  maxBytes_eq : c'.maxBytes = c.maxBytes
  next_eq : c'.nextObjectId = c.nextObjectId
  charge_le : c'.chargedBytes ≤ c.chargedBytes
  has : ∀ i, c'.objects.Has i ↔ c.objects.Has i ∧ startsOf c.extents i ≠ ∅
  lru_eq : c'.objects.Has id →
    c'.lru = putAt ((c.lru.filter (startsOf c.extents · ≠ ∅)).erase id) id placement position
  bytes : ∀ x, c'.byteAt x = c.byteAt x

lemma Linked.rebuild {c : ReadCache} (h : c.Linked) (id : Nat) (position : Option Nat)
    (placement : CacheInsertPlacement) :
    ∃ c', c.rebuildBackrefsAndGcWithInheritedLru id position placement = .ok c' ∧
      Rebuilt c c' id position placement := by
  obtain ⟨c₁, run₁, col⟩ := h.collect
  obtain ⟨lru, eq, perm⟩ := inheritPosition_eq col.linked id position placement
  refine ⟨c₁.inheritPosition id position placement, ?_, ?_⟩
  · unfold rebuildBackrefsAndGcWithInheritedLru
    simp only [run₁, Res.ok_bind]
  · have moved : (c₁.objects.Has id) → lru = putAt (c₁.lru.erase id) id placement position := by
      intro has
      rw [inheritPosition_of_has has] at eq
      exact (ReadCache.mk.inj eq).2.2.1.symm
    rw [eq]
    refine ⟨⟨col.linked.perm perm, fun i o ho => col.backrefs ho⟩, col.extents_eq, col.maxBytes_eq,
      col.next_eq, col.charge_le, fun i => col.has, ?_, col.bytes⟩
    intro has
    show lru = _
    rw [moved has, col.lru_eq]

/-! ## Trimming -/

lemma sliceOf_tail {objects : OrdMap Nat CacheObject} {start stop : Nat}
    (x y : ExtentEntry CacheExtent)
    (h : ∃ o, objects.find x.value.objectId = some o ∧ SliceOf x o) (meets : x.Meets start stop)
    (tail : ExtentMap.Tail start stop CacheExtent.splitAt x y) :
    ∃ o, objects.find y.value.objectId = some o ∧ SliceOf y o := by
  obtain ⟨o, ho, ⟨h₁, h₂, h₃⟩⟩ := h
  obtain ⟨b₁, b₂, -⟩ := tail.bounds meets
  have ly := y.lt
  have block : y.start / CACHE_BLOCK_BYTES = (y.stop - 1) / CACHE_BLOCK_BYTES := by
    have d₁ : x.start / CACHE_BLOCK_BYTES ≤ y.start / CACHE_BLOCK_BYTES := Nat.div_le_div_right b₁
    have d₂ : y.start / CACHE_BLOCK_BYTES ≤ (y.stop - 1) / CACHE_BLOCK_BYTES :=
      Nat.div_le_div_right (by omega)
    have d₃ : (y.stop - 1) / CACHE_BLOCK_BYTES ≤ (x.stop - 1) / CACHE_BLOCK_BYTES :=
      Nat.div_le_div_right (by omega)
    omega
  refine ⟨o, ?_, ?_, by omega, block⟩
  · rcases tail with ⟨-, -, -, hv⟩ | ⟨-, -, -, hv⟩
    · rw [hv]
      exact ho
    · rw [hv]
      exact ho
  · obtain ⟨m₁, m₂⟩ := meets
    rcases tail with ⟨-, hs, -, hv⟩ | ⟨-, hs, -, hv⟩
    · rw [hv, hs]
      exact h₁
    · rw [hv, hs]
      show o.logicalStart + (x.value.objectOffset + (stop - x.start)) = stop
      omega

lemma Linked.cut {c : ReadCache} (h : c.Linked) {extents : ExtentMap CacheExtent} {start stop : Nat}
    (cut : ExtentMap.Cut c.extents extents start stop CacheExtent.splitAt) :
    Linked { c with extents := extents } ∧
      ∀ x, byteAt { c with extents := extents } x =
        if start ≤ x ∧ x < stop then none else c.byteAt x := by
  refine ⟨⟨cut.forall h.slice sliceOf_tail, h.next_pos, h.ids, h.lru_nodup, h.lru_mem,
    h.charge, h.total⟩, ?_⟩
  intro x
  unfold byteAt
  rw [cut.valueAt splitAt_add]
  split
  · rfl
  · rfl

lemma Inv.trimRange {c : ReadCache} (h : c.Inv) (range : ByteRange)
    (fits : range.start + range.len < U64) :
    ∃ c', c.trimRange range = .ok c' ∧ c'.Inv ∧ c'.maxBytes = c.maxBytes ∧
      c'.chargedBytes ≤ c.chargedBytes ∧
      ∀ x, c'.byteAt x = if range.Has x then none else c.byteAt x := by
  unfold ReadCache.trimRange
  by_cases empty : range.len = 0
  · rw [if_pos (by simp [ByteRange.isEmpty, empty])]
    refine ⟨c, rfl, h, rfl, le_rfl, ?_⟩
    intro x
    rw [if_neg]
    rintro ⟨h₁, h₂⟩
    omega
  · have hs := ByteRange.stop_of_lt fits
    rw [if_neg (by simp [ByteRange.isEmpty, empty])]
    obtain ⟨extents, run, cut⟩ := c.extents.removeRangeWithSplit_spec CacheExtent.splitAt
      (show range.start < range.stop by omega)
    obtain ⟨h₁, bytes₁⟩ := h.toLinked.cut cut
    obtain ⟨c', run', built⟩ := h₁.rebuild 0 none .hot
    refine ⟨c', ?_, built.inv, built.maxBytes_eq, built.charge_le, ?_⟩
    · rw [run, Res.ok_bind]
      exact run'
    · intro x
      rw [built.bytes, bytes₁, hs]
      rfl

end ReadCache

end NbdServer
