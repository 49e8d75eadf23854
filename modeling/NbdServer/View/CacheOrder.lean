import NbdServer.Lib.Position
import NbdServer.View.CacheCalls

/-!
# The order of the read cache

The LRU list after an insert. A merged object is put at the position of the coldest object it
replaces, but this position is taken before the replaced objects leave the list. The merged object
therefore ends up colder than objects that were colder than everything it replaces, unless it
replaces one object only or the coldest of all (`merge_inherits_position_iff`).
-/

namespace NbdServer

open Lib

namespace ReadCache

/-- `a` is hotter than `b`: it is nearer to the head of the LRU list. -/
def Hotter (c : ReadCache) (a b : Nat) : Prop := Precedes c.lru a b

instance (c : ReadCache) (a b : Nat) : Decidable (c.Hotter a b) :=
  inferInstanceAs (Decidable (Precedes _ _ _))

lemma coldestPosition_eq {lru : CacheObjectLru} {ids : List Nat} {coldest : Nat}
    (sub : ∀ id ∈ ids, id ∈ lru) (mem : coldest ∈ ids)
    (last : ∀ id ∈ ids, lru.idxOf id ≤ lru.idxOf coldest) :
    lru.coldestPosition ids = some (lru.idxOf coldest) := by
  rw [CacheObjectLru.coldestPosition, List.max?_eq_some_iff]
  constructor
  · exact List.mem_filterMap.2 ⟨coldest, mem, idxOf?_of_mem (sub _ mem)⟩
  · intro i hi
    obtain ⟨id, hid, eq⟩ := List.mem_filterMap.1 hi
    rw [idxOf?_of_mem (sub id hid), Option.some.injEq] at eq
    rw [← eq]
    exact last id hid

lemma Inv.insertBlocks_single {c c₁ : ReadCache} (h : c.Inv) {fill : CacheFill}
    (matching : fill.Matches) {placement : CacheInsertPlacement}
    (block : SameBlock fill.range.start (fill.range.start + fill.range.len))
    (fits : fill.range.start + fill.range.len + CACHE_BLOCK_BYTES ≤ U64)
    (run : c.insertBlocks fill placement = .ok c₁) :
    ∃ lo hi, Merged c c₁ fill.range.start (fill.range.start + fill.range.len) lo hi
      (c.mergeInputs fill.range.start (fill.range.start + fill.range.len)) placement fill.byte := by
  have pos : 0 < CACHE_BLOCK_BYTES := by decide
  have stop_eq : fill.range.stop = fill.range.start + fill.range.len :=
    ByteRange.stop_of_lt (by omega)
  obtain ⟨b₁, b₂⟩ := sameBlock_bounds block
  have lt := block.1
  obtain ⟨c', lo, hi, run', m⟩ := h.insertBlock matching placement block le_rfl le_rfl fits
  have whole : min (fill.range.start + fill.range.len)
      (cacheBlockStart fill.range.start + CACHE_BLOCK_BYTES) =
      fill.range.start + fill.range.len := Nat.min_eq_left b₂
  obtain ⟨n, hn⟩ : ∃ n, fill.range.len = n + 1 := ⟨fill.range.len - 1, by omega⟩
  have rest : ∀ fuel, windowLoop (ReadCache.insertBlock fill placement)
      (fill.range.start + fill.range.len) fuel (fill.range.start + fill.range.len) c' = .ok c' := by
    intro fuel
    cases fuel with
    | zero => rfl
    | succ fuel => rw [windowLoop, if_neg (Nat.lt_irrefl _)]
  have loop : c.insertBlocks fill placement = .ok c' := by
    have unfolded : c.insertBlocks fill placement =
      windowLoop (ReadCache.insertBlock fill placement)
        (fill.range.start + fill.range.len) (n + 1) fill.range.start c := by
      rw [ReadCache.insertBlocks, stop_eq, hn]
    rw [unfolded, windowLoop, if_pos lt, cacheBlockEnd, checkedAdd_of_lt (by omega), okOr_some,
      Res.ok_bind, whole, run', Res.ok_bind, rest]
  rw [loop] at run
  cases run
  exact ⟨lo, hi, m⟩

namespace Merged

variable {c c' : ReadCache} {start stop lo hi : Nat} {inputs : List Nat}
variable {placement : CacheInsertPlacement} {f : Nat → Option UInt8}

lemma has_input (m : Merged c c' start stop lo hi inputs placement f) (h : c.Inv) {id : Nat}
    (hid : id ∈ inputs) : c.objects.Has id := by
  obtain ⟨x, own, -⟩ := m.among id hid
  exact h.has_iff_owner.2 ⟨x, own⟩

lemma kept (m : Merged c c' start stop lo hi inputs placement f) (h : c.Inv) {id : Nat}
    (has : c.objects.Has id) (other : id ∉ inputs) : c'.objects.Has id := by
  obtain ⟨x, own⟩ := h.has_iff_owner.1 has
  refine m.inv.has_iff_owner.2 ⟨x, ?_⟩
  rw [m.owner, if_neg, own]
  rintro ⟨h₁, h₂⟩
  exact other (m.owned x id h₁ h₂ own)

lemma survivors (m : Merged c c' start stop lo hi inputs placement f) (h : c.Inv)
    (replaced : ∀ id ∈ inputs, ¬ c'.objects.Has id) :
    c.lru.filter (c'.objects.Has ·) = c.lru.filter (¬ · ∈ inputs) := by
  refine List.filter_congr fun id hid => ?_
  by_cases input : id ∈ inputs
  · simp [input, replaced id input]
  · simp [input, m.kept h ((h.lru_mem id).1 hid) input]

lemma fresh (h : c.Inv) : c.nextObjectId ∉ c.lru := by
  intro mem
  have := (h.ids _ ((h.lru_mem _).1 mem)).2
  omega

end Merged

/-- The merged object of an insert inside one block, where all objects it merges are replaced whole.
The others keep their order. They are hotter than the merged object exactly if they were hotter than
the coldest replaced one, in case there is only one replaced object or it was the coldest of all; in
no other case. -/
theorem merge_inherits_position_iff {budget : Nat} {c c₁ : ReadCache}
    (reach : (cacheSystem budget).Reachable c) {fill : CacheFill} {placement : CacheInsertPlacement}
    (matching : fill.Matches)
    (block : SameBlock fill.range.start (fill.range.start + fill.range.len))
    (fits : fill.range.start + fill.range.len + CACHE_BLOCK_BYTES ≤ U64)
    (run : c.insertBlocks fill placement = .ok c₁) {inputs : List Nat}
    (inputs_eq : inputs = c.mergeInputs fill.range.start (fill.range.start + fill.range.len))
    (replaced : ∀ id ∈ inputs, ¬ c₁.objects.Has id) {coldest : Nat} (mem : coldest ∈ inputs)
    (last : ∀ id ∈ inputs, ¬ c.Hotter coldest id) :
    (∀ x, fill.range.Has x → c₁.owner x = some c.nextObjectId) ∧
    c₁.lru.erase c.nextObjectId = c.lru.filter (· ∉ inputs) ∧
    ((∀ id ∈ c.lru, id ∉ inputs → (c₁.Hotter id c.nextObjectId ↔ c.Hotter id coldest)) ↔
      (∀ id ∈ inputs, id = coldest) ∨ c.lru.getLast? = some coldest) := by
  have h := (Bounded.of_reachable reach).inv
  obtain ⟨lo, hi, m⟩ := h.insertBlocks_single matching block fits run
  rw [← inputs_eq] at m
  have among : ∀ id ∈ inputs, id ∈ c.lru := fun id hid => (h.lru_mem id).2 (m.has_input h hid)
  have fresh := Merged.fresh h
  -- the merged object goes to the position that the coldest input had, `front.length`
  obtain ⟨front, back, split⟩ := List.append_of_mem (among coldest mem)
  have nodup := h.lru_nodup
  rw [split] at nodup
  have front_fresh : coldest ∉ front := fun hm =>
    (List.nodup_append.1 nodup).2.2 _ hm _ List.mem_cons_self rfl
  have position : c.lru.idxOf coldest = front.length := by
    rw [split, List.idxOf_append_of_notMem front_fresh, List.idxOf_cons_self, Nat.add_zero]
  set others := c.lru.filter (¬ · ∈ inputs) with others_eq
  have lru : c₁.lru = others.insertIdx (min front.length others.length) c.nextObjectId := by
    rw [m.lru_eq, m.survivors h replaced, coldestPosition_eq among mem
      (fun id hid => Nat.le_of_not_lt (last id hid)), position]
    rfl
  have others_fresh : c.nextObjectId ∉ others := fun hm => fresh (List.mem_of_mem_filter hm)
  refine ⟨?_, ?_, ?_⟩
  · rintro x ⟨h₁, h₂⟩
    have lower := m.lower
    have upper := m.upper
    rw [m.owner, if_pos (by omega)]
  · rw [lru, insertIdx_eq_take_drop (Nat.min_le_right ..), List.erase_append_right]
    · rw [List.erase_cons_head, List.take_append_drop]
    · exact fun hm => others_fresh (List.mem_of_mem_take hm)
  · have later : ∀ id ∈ back, id ∉ inputs := by
      intro id hid input
      have behind := precedes_of_mem_append (a := coldest) (b := id)
        (show (front ++ [coldest] ++ back).Nodup by rwa [List.append_assoc])
        (List.mem_append_right _ List.mem_cons_self) hid
      rw [List.append_assoc, List.singleton_append, ← split] at behind
      exact last id input behind
    have main := precedes_insertIdx_iff (· ∈ inputs) nodup mem later (split ▸ fresh)
      (split ▸ others_eq)
    have sides : (∀ id ∈ c.lru, id ∉ inputs →
        (c₁.Hotter id c.nextObjectId ↔ c.Hotter id coldest)) ↔
        ∀ a ∈ others, Precedes (others.insertIdx (min front.length others.length) c.nextObjectId) a
          c.nextObjectId ↔ Precedes (front ++ coldest :: back) a coldest := by
      rw [← lru, ← split]
      simp only [others_eq, List.mem_filter, decide_eq_true_eq, and_imp]
      rfl
    have alone : (∀ a ∈ front, a ∉ inputs) ↔ ∀ id ∈ inputs, id = coldest := by
      constructor
      · intro none id hid
        have hm := among id hid
        rw [split] at hm
        rcases List.mem_append.1 hm with hf | hb
        · exact absurd hid (none id hf)
        · rcases List.mem_cons.1 hb with eq | hb
          · exact eq
          · exact absurd hid (later id hb)
      · intro only a ha input
        rw [only a input] at ha
        exact front_fresh ha
    have end_eq : back = [] ↔ c.lru.getLast? = some coldest := by
      rw [split]
      constructor
      · rintro rfl
        exact List.getLast?_concat ..
      · intro tail
        rcases List.eq_nil_or_concat back with nil | ⟨back', y, eq⟩
        · exact nil
        · rw [eq, List.concat_eq_append, ← List.cons_append, ← List.append_assoc,
            List.getLast?_concat, Option.some.injEq] at tail
          have inBack : coldest ∈ back := by
            rw [eq, List.concat_eq_append, tail]
            exact List.mem_append_right _ List.mem_cons_self
          exact absurd mem (later _ inBack)
    rw [sides, main, alone, end_eq]

/-- Three bytes that do not touch: the object 3 at offset 0 is the hottest, the object 1 at offset
10 the coldest. -/
def scatteredCache : Option ReadCache :=
  [.insert (.bytes (.new 10 1) [7]) .hot, .insert (.bytes (.new 2 1) [8]) .hot,
    .insert (.bytes (.new 0 1) [9]) .hot].foldlM next (.new 64)

lemma scatteredCache_insert (start : Nat) (inputs lru' : List Nat)
    (facts : scatteredCache.map (fun c => [c.lru, c.mergeInputs start (start + 1)]) =
      some [[3, 2, 1], inputs])
    (after : (scatteredCache.bind fun c =>
      (c.insertBlocks (.bytes (.new start 1) [5]) .hot).toOption).map (·.lru) = some lru') :
    ∃ c c₁, scatteredCache = some c ∧ (cacheSystem 64).Reachable c ∧
      c.insertBlocks (.bytes (.new start 1) [5]) .hot = .ok c₁ ∧ c.lru = [3, 2, 1] ∧
      c.mergeInputs start (start + 1) = inputs ∧ c₁.lru = lru' := by
  obtain ⟨c, hc, eq⟩ := Option.map_eq_some_iff.1 facts
  have reach : (cacheSystem 64).Reachable c := .foldlM step_of_next (.init rfl) hc
  rw [hc, Option.bind_some] at after
  obtain ⟨c₁, run, lru⟩ := Option.map_eq_some_iff.1 after
  obtain ⟨eq₁, eq₂⟩ := List.cons.inj eq
  refine ⟨c, c₁, hc, reach, ?_, eq₁, (List.cons.inj eq₂).1, lru⟩
  cases done : c.insertBlocks (.bytes (.new start 1) [5]) .hot with
  | ok c' =>
    rw [done] at run
    cases run
    rfl
  | error fault =>
    rw [done] at run
    cases run

/-- The byte between the objects 3 and 2 joins both. The object 1 was colder than both, and now is
hotter than the merged object. -/
theorem merged_object_too_cold :
    ∃ c c₁, scatteredCache = some c ∧ (cacheSystem 64).Reachable c ∧
      c.insertBlocks (.bytes (.new 1 1) [5]) .hot = .ok c₁ ∧ c.mergeInputs 1 2 = [3, 2] ∧
      (∀ id ∈ [3, 2], id ∉ c₁.lru) ∧ c.Hotter 3 2 ∧ c.nextObjectId = 4 ∧
      c.Hotter 2 1 ∧ c₁.Hotter 1 4 := by
  obtain ⟨c, c₁, hc, reach, run, lru, inputs, lru'⟩ := scatteredCache_insert 1 [3, 2] [1, 4]
    (by decide +kernel) (by decide +kernel)
  have next : scatteredCache.map (·.nextObjectId) = some 4 := by decide +kernel
  rw [hc, Option.map_some, Option.some.injEq] at next
  refine ⟨c, c₁, hc, reach, run, inputs, ?_, ?_, next, ?_, ?_⟩
  · rw [lru']
    decide
  · show Precedes c.lru _ _
    rw [lru]
    decide
  · show Precedes c.lru _ _
    rw [lru]
    decide
  · show Precedes c₁.lru _ _
    rw [lru']
    decide

/-- `merge_inherits_position_iff` where one object is replaced: the others stay hotter. -/
theorem merge_inherits_position_iff_one :
    ∃ c c₁, scatteredCache = some c ∧
      c.insertBlocks (.bytes (.new 11 1) [5]) .hot = .ok c₁ ∧ c.mergeInputs 11 12 = [1] ∧
      ∀ id ∈ c.lru, id ∉ [1] → (c₁.Hotter id c.nextObjectId ↔ c.Hotter id 1) := by
  obtain ⟨c, c₁, hc, reach, run, lru, inputs, lru'⟩ := scatteredCache_insert 11 [1] [3, 2, 4]
    (by decide +kernel) (by decide +kernel)
  refine ⟨c, c₁, hc, run, inputs, ?_⟩
  have inv := (Bounded.of_reachable reach).inv
  have matching : CacheFill.Matches (.bytes (.new 11 1) [5]) := rfl
  obtain ⟨lo, hi, m⟩ := inv.insertBlocks_single matching (by decide) (by decide) run
  refine (merge_inherits_position_iff reach matching (by decide) (by decide) run inputs.symm ?_
    List.mem_cons_self ?_).2.2.2 (.inl ?_)
  · intro id hid has
    rw [← m.inv.lru_mem, lru', List.mem_singleton.1 hid] at has
    revert has
    decide
  · intro id hid
    show ¬ Precedes c.lru _ _
    rw [lru, List.mem_singleton.1 hid]
    decide
  · simp

end ReadCache

end NbdServer
