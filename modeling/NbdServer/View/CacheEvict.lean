import NbdServer.View.CacheInv

/-!
# Eviction

`evict_to_budget` takes objects from the cold end of the LRU list until the charge is within the
budget. What it removes is the shortest suffix of the list that is enough, and with it exactly the
bytes of these objects (`Inv.evictToBudget`).
-/

namespace NbdServer

open Lib

namespace ReadCache

lemma cut_entry {m m' : ExtentMap CacheExtent} {e} (he : e ∈ m.entries)
    (cut : ExtentMap.Cut m m' e.start e.stop CacheExtent.splitAt) :
    m' = m.filter (·.start ≠ e.start) := by
  have le := e.lt
  have only : ∀ x ∈ m.entries, x.Meets e.start e.stop → x = e := by
    rintro x hx ⟨h₁, h₂⟩
    rcases m.apart hx he with h | h
    · exact h
    · omega
  apply IntervalMap.ext_mem
  intro y
  rw [cut.mem, IntervalMap.filter, List.mem_filter]
  constructor
  · rintro (⟨hy, hn⟩ | ⟨x, hx, meets, tail⟩)
    · refine ⟨hy, ?_⟩
      simp only [ne_eq, decide_not, Bool.not_eq_eq_eq_not, Bool.not_true, decide_eq_false_iff_not]
      intro eq
      have := y.lt
      exact hn ⟨by omega, by omega⟩
    · obtain rfl := only x hx meets
      rcases tail with ⟨lt, -⟩ | ⟨lt, -⟩
      · omega
      · omega
  · rintro ⟨hy, ne⟩
    refine .inl ⟨hy, ?_⟩
    intro meets
    rw [only y hy meets] at ne
    simp at ne

lemma removeExtents_eq {m : ExtentMap CacheExtent} {starts : List Nat} :
    removeExtents m starts = .ok (m.filter (·.start ∉ starts)) := by
  induction starts generalizing m with
  | nil =>
    rw [removeExtents]
    congr 1
    apply IntervalMap.ext_mem
    simp [IntervalMap.filter]
  | cons start starts ih =>
    rw [removeExtents]
    cases h : m.entries.find? (·.start = start) with
    | none =>
      show removeExtents m starts = _
      rw [ih]
      congr 1
      apply IntervalMap.ext_mem
      intro e
      have := List.find?_eq_none.1 h e
      simp only [IntervalMap.filter, List.mem_filter]
      by_cases he : e ∈ m.entries
      · have := this he
        simp_all
      · simp [he]
    | some e =>
      have he := List.mem_of_find?_eq_some h
      have hs : e.start = start := by simpa using List.find?_some h
      obtain ⟨m', run, cut⟩ := m.removeRangeWithSplit_spec CacheExtent.splitAt e.lt
      simp only [run, Res.ok_bind]
      rw [ih, cut_entry he cut, hs]
      congr 1
      apply IntervalMap.ext_mem
      intro a
      simp only [IntervalMap.filter, List.mem_filter]
      by_cases h₁ : a.start = start <;> by_cases h₂ : a.start ∈ starts <;> simp [h₁, h₂]

def owner (c : ReadCache) (x : Nat) : Option Nat := (c.extents.find x).map (·.value.objectId)

lemma owner_eq_some {c : ReadCache} {x id : Nat} :
    c.owner x = some id ↔ ∃ e ∈ c.extents.entries, e.Has x ∧ e.value.objectId = id := by
  simp only [owner, Option.map_eq_some_iff, IntervalMap.find_eq_some, and_assoc]

lemma byteAt_without {c c' : ReadCache} {id : Nat}
    (extents : c'.extents = c.extents.filter (·.value.objectId ≠ id))
    (find : ∀ i, i ≠ id → c'.objects.find i = c.objects.find i) (x : Nat) :
    c'.byteAt x = if c.owner x = some id then none else c.byteAt x := by
  rw [byteAt, byteAt, owner, IntervalMap.valueAt, IntervalMap.valueAt, extents,
    IntervalMap.find_filter]
  cases c.extents.find x with
  | none => rfl
  | some e =>
    by_cases own : e.value.objectId = id
    · rw [Option.filter_some_neg (by simpa using own), Option.map_some, own, if_pos rfl]
      rfl
    · have data : c'.objectData e.value.objectId = c.objectData e.value.objectId := by
        rw [objectData, objectData, find _ own]
      rw [Option.filter_some_pos (by simpa using own), Option.map_some, Option.map_some,
        if_neg (fun eq => own (Option.some.inj eq))]
      show (c'.objectData e.value.objectId).bind _ = (c.objectData e.value.objectId).bind _
      rw [data]

lemma Inv.evictObject {c : ReadCache} (h : c.Inv) {id o} (ho : c.objects.find id = some o) :
    ∃ c', c.evictObject id = .ok c' ∧ c'.Inv ∧ c'.lru = c.lru.erase id ∧
      c'.maxBytes = c.maxBytes ∧ c'.extents = c.extents.filter (·.value.objectId ≠ id) ∧
      (∀ i, i ≠ id → c'.objects.find i = c.objects.find i) ∧
      c'.chargedBytes + o.payload.data.length = c.chargedBytes ∧
      ∀ x, c'.byteAt x = if c.owner x = some id then none else c.byteAt x := by
  obtain ⟨starts, -⟩ := h.backrefs id o ho
  have kept : c.extents.filter (·.start ∉ o.extentStarts.sort (· ≤ ·)) =
      c.extents.filter (·.value.objectId ≠ id) := by
    apply IntervalMap.ext_mem
    intro e
    simp only [IntervalMap.filter, List.mem_filter]
    refine and_congr_right ?_
    intro he
    simp only [Finset.mem_sort, starts, mem_startsOf, decide_eq_true_eq, ne_eq]
    refine not_congr ⟨?_, ?_⟩
    · rintro ⟨e', he', hid, hs⟩
      have : e' = e := c.extents.eq_of_has he' he (x := e.start)
        ⟨hs.le, hs ▸ e'.lt⟩ ⟨le_rfl, e.lt⟩
      rw [← this]
      exact hid
    · intro hid
      exact ⟨e, he, hid, rfl⟩
  have sub : ∀ e ∈ (c.extents.filter (·.value.objectId ≠ id)).entries,
      e ∈ c.extents.entries ∧ e.value.objectId ≠ id := by
    intro e he
    simpa [IntervalMap.filter] using he
  have h₁ : Linked { c with extents := c.extents.filter (·.value.objectId ≠ id) } :=
    ⟨fun e he => h.slice e (sub e he).1, h.next_pos, h.ids, h.lru_nodup, h.lru_mem, h.charge,
      h.total⟩
  obtain ⟨run₂, h₂⟩ := h₁.removeObject ho fun e he => (sub e he).2
  refine ⟨_, ?_, ⟨h₂, ?_⟩, rfl, rfl, rfl, ?_, ?_, ?_⟩
  · unfold ReadCache.evictObject
    simp only [ho]
    rw [removeExtents_eq, kept, Res.ok_bind, run₂]
  · intro i o' ho'
    have find : (c.objects.erase id).find i = some o' := ho'
    rw [OrdMap.find_erase] at find
    split at find
    · cases find
    · rename_i ne
      obtain ⟨b₁, b₂⟩ := h.backrefs i o' find
      refine ⟨?_, b₂⟩
      rw [b₁]
      apply Finset.ext
      intro s
      rw [mem_startsOf, mem_startsOf]
      constructor
      · rintro ⟨e, he, hid, hs⟩
        refine ⟨e, ?_, hid, hs⟩
        simp only [IntervalMap.filter, List.mem_filter, decide_eq_true_eq, ne_eq]
        exact ⟨he, by rw [hid]; exact ne⟩
      · rintro ⟨e, he, hid, hs⟩
        exact ⟨e, (sub e he).1, hid, hs⟩
  · intro i ne
    show (c.objects.erase id).find i = _
    rw [OrdMap.find_erase, if_neg ne]
  · have total := OrdMap.total_erase (f := (·.chargedBytes)) ho
    have le := h.total
    have charge := h.charge id o ho
    show c.chargedBytes - o.chargedBytes + _ = _
    omega
  · intro x
    refine byteAt_without rfl (fun i ne => ?_) x
    show (c.objects.erase id).find i = _
    rw [OrdMap.find_erase, if_neg ne]

/-- The bytes the objects with these ids are charged. -/
def chargeOf (c : ReadCache) (ids : List Nat) : Nat :=
  (ids.map fun id => ((c.objectData id).map List.length).getD 0).sum

/-- From `c` to `c'` exactly the objects `evicted` have gone, a suffix of the LRU list. -/
structure Evicts (c c' : ReadCache) (evicted : List Nat) : Prop where
  inv : c'.Inv
  maxBytes_eq : c'.maxBytes = c.maxBytes
  lru_eq : c.lru = c'.lru ++ evicted
  charge_eq : c'.chargedBytes + c.chargeOf evicted = c.chargedBytes
  bytes : ∀ x, c'.byteAt x = if ∃ id ∈ evicted, c.owner x = some id then none else c.byteAt x

lemma Evicts.nil {c : ReadCache} (h : c.Inv) : Evicts c c [] :=
  ⟨h, rfl, (List.append_nil _).symm, rfl, by simp⟩

lemma Evicts.sub {c c' : ReadCache} {evicted : List Nat} (ev : Evicts c c' evicted) (x : Nat)
    (b : UInt8) (hb : c'.byteAt x = some b) : c.byteAt x = some b := by
  rw [ev.bytes] at hb
  split at hb
  · cases hb
  · exact hb

lemma chargeOf_congr {c c' : ReadCache} {ids : List Nat}
    (find : ∀ i ∈ ids, c'.objects.find i = c.objects.find i) :
    c'.chargeOf ids = c.chargeOf ids := by
  unfold chargeOf
  congr 1
  refine List.map_congr_left fun i hi => ?_
  rw [objectData, objectData, find i hi]

lemma Inv.evictTail {c : ReadCache} (h : c.Inv) {front : List Nat} {id : Nat}
    (lru : c.lru = front ++ [id]) :
    ∃ c₁, c.evictObject id = .ok c₁ ∧ Evicts c c₁ [id] ∧
      (∀ ids, ids <:+ front → c₁.chargeOf ids = c.chargeOf ids) ∧
      ∀ c' evicted, Evicts c₁ c' evicted → Evicts c c' (evicted ++ [id]) := by
  have mem : id ∈ c.lru := by
    rw [lru]
    exact List.mem_append_right _ List.mem_cons_self
  have nodup := h.lru_nodup
  rw [lru] at nodup
  have fresh : id ∉ front := fun m =>
    (List.pairwise_append.1 nodup).2.2 id m id List.mem_cons_self rfl
  obtain ⟨o, ho⟩ := Option.isSome_iff_exists.1 ((h.lru_mem id).1 mem)
  obtain ⟨c₁, run, inv, e₁, e₂, e₃, e₄, e₅, e₆⟩ := h.evictObject ho
  have front_eq : c₁.lru = front := by
    rw [e₁, lru, List.erase_append_right _ fresh]
    simp
  have charge : c.chargeOf [id] = o.payload.data.length := by
    simp [chargeOf, objectData, ho]
  have same : ∀ ids, ids <:+ front → c₁.chargeOf ids = c.chargeOf ids := by
    intro ids suffix
    refine chargeOf_congr fun i hi => e₄ i ?_
    rintro rfl
    exact fresh (suffix.subset hi)
  refine ⟨c₁, run, ⟨inv, e₂, by rw [lru, front_eq], by rw [charge, e₅], ?_⟩, same, ?_⟩
  · intro x
    rw [e₆]
    simp
  · intro c' evicted ev
    have suffix : evicted <:+ front := ⟨c'.lru, by rw [← ev.lru_eq, front_eq]⟩
    refine ⟨ev.inv, ev.maxBytes_eq.trans e₂, ?_, ?_, ?_⟩
    · rw [lru, ← front_eq, ev.lru_eq, List.append_assoc]
    · have h₁ := ev.charge_eq
      rw [same _ suffix] at h₁
      have h₂ : c.chargeOf (evicted ++ [id]) = c.chargeOf evicted + c.chargeOf [id] := by
        simp [chargeOf]
      omega
    · intro x
      rw [ev.bytes, e₆]
      have own : ∀ i, i ≠ id → (c₁.owner x = some i ↔ c.owner x = some i) := by
        intro i ne
        rw [owner_eq_some, owner_eq_some, e₃]
        simp only [IntervalMap.filter, List.mem_filter, decide_eq_true_eq]
        constructor
        · rintro ⟨e, ⟨he, -⟩, has, eq⟩
          exact ⟨e, he, has, eq⟩
        · rintro ⟨e, he, has, eq⟩
          exact ⟨e, ⟨he, by rw [eq]; exact ne⟩, has, eq⟩
      have among : (∃ i ∈ evicted, c₁.owner x = some i) ↔ ∃ i ∈ evicted, c.owner x = some i := by
        refine exists_congr fun i => and_congr_right fun hi => own i ?_
        rintro rfl
        exact fresh (suffix.subset hi)
      by_cases hx : ∃ i ∈ evicted, c.owner x = some i
      · rw [if_pos (among.2 hx), if_pos]
        obtain ⟨i, hi, ho⟩ := hx
        exact ⟨i, List.mem_append_left _ hi, ho⟩
      · rw [if_neg (fun m => hx (among.1 m))]
        by_cases last : c.owner x = some id
        · rw [if_pos last, if_pos ⟨id, List.mem_append_right _ List.mem_cons_self, last⟩]
        · rw [if_neg last, if_neg]
          rintro ⟨i, hi, ho⟩
          rcases List.mem_append.1 hi with hi | hi
          · exact hx ⟨i, hi, ho⟩
          · exact last (by rw [ho, List.mem_singleton.1 hi])

lemma Linked.chargedBytes_of_nil {c : ReadCache} (h : c.Linked) (lru : c.lru = []) :
    c.chargedBytes = 0 := by
  have empty : c.objects.entries = [] := by
    refine List.eq_nil_iff_forall_not_mem.2 ?_
    rintro ⟨id, o⟩ mem
    have : id ∈ c.lru := (h.lru_mem id).2 (OrdMap.has_iff.2 ⟨o, mem⟩)
    rw [lru] at this
    cases this
  rw [h.total, OrdMap.total, empty]
  rfl

/-- The eviction loop removes the shortest suffix of the LRU list that brings the charge within the
budget. -/
lemma Inv.evictLoop {fuel : Nat} {c : ReadCache} (h : c.Inv) (enough : c.lru.length ≤ fuel) :
    ∃ c' evicted, ReadCache.evictLoop fuel c = .ok c' ∧ Evicts c c' evicted ∧
      c'.chargedBytes ≤ c'.maxBytes ∧
      ∀ ids, ids <:+ c.lru → c.chargedBytes ≤ c.maxBytes + c.chargeOf ids →
        evicted.length ≤ ids.length := by
  induction fuel generalizing c with
  | zero =>
    have nil : c.lru = [] := List.length_eq_zero_iff.1 (Nat.le_zero.1 enough)
    refine ⟨c, [], rfl, .nil h, ?_, fun _ _ _ => Nat.zero_le _⟩
    rw [h.toLinked.chargedBytes_of_nil nil]
    exact Nat.zero_le _
  | succ fuel ih =>
    rw [ReadCache.evictLoop]
    split
    · rename_i exceeded
      rcases List.eq_nil_or_concat c.lru with nil | ⟨front, id, eq⟩
      · have := h.toLinked.chargedBytes_of_nil nil
        omega
      · rw [List.concat_eq_append] at eq
        have tail : c.lru.tail = some id := by
          show c.lru.getLast? = _
          rw [eq, List.getLast?_concat]
        obtain ⟨c₁, run₁, ev₁, same, chain⟩ := h.evictTail eq
        have front_eq : c₁.lru = front := by
          have := ev₁.lru_eq
          rw [eq] at this
          exact (List.append_inj_left' this rfl).symm
        obtain ⟨c', evicted, run', ev', within, least⟩ := ih ev₁.inv (by
          rw [front_eq]
          rw [eq, List.length_append, List.length_singleton] at enough
          omega)
        refine ⟨c', evicted ++ [id], ?_, chain c' evicted ev', within, ?_⟩
        · simp only [tail, run₁, Res.ok_bind, run']
        · intro ids suffix bound
          -- the suffix is not empty, so it ends with the evicted tail
          rcases List.eq_nil_or_concat ids with none | ⟨ids', i, hi⟩
          · rw [none] at bound
            have : c.chargeOf [] = 0 := rfl
            omega
          · rw [List.concat_eq_append] at hi
            obtain ⟨rest, hrest⟩ := suffix
            rw [hi, eq, ← List.append_assoc] at hrest
            obtain ⟨hfront, hid⟩ := List.append_inj' hrest rfl
            cases hid
            have short : evicted.length ≤ ids'.length := by
              refine least ids' ⟨rest, by rw [front_eq, hfront]⟩ ?_
              have h₁ := ev₁.charge_eq
              have h₂ := ev₁.maxBytes_eq
              have h₃ := same ids' ⟨rest, hfront⟩
              have h₄ : c.chargeOf ids = c.chargeOf ids' + c.chargeOf [id] := by
                simp [hi, chargeOf]
              omega
            rw [hi, List.length_append, List.length_append]
            simpa using short
    · rename_i within
      exact ⟨c, [], rfl, .nil h, by omega, fun _ _ _ => Nat.zero_le _⟩

/-- `evict_to_budget` removes the shortest suffix of the LRU list that brings the charge within the
budget. -/
lemma Inv.evictToBudget {c : ReadCache} (h : c.Inv) :
    ∃ c' evicted, c.evictToBudget = .ok c' ∧ Evicts c c' evicted ∧
      c'.chargedBytes ≤ c'.maxBytes ∧
      ∀ ids, ids <:+ c.lru → c.chargedBytes ≤ c.maxBytes + c.chargeOf ids →
        evicted.length ≤ ids.length := h.evictLoop le_rfl

lemma evictToBudget_of_le {c : ReadCache} (le : c.chargedBytes ≤ c.maxBytes) :
    c.evictToBudget = .ok c := by
  unfold ReadCache.evictToBudget
  cases c.lru.length with
  | zero => rfl
  | succ n => rw [ReadCache.evictLoop, if_neg (by omega)]

lemma Inv.promoteHits {c : ReadCache} (h : c.Inv) (hits : List Nat) :
    (c.promoteHits hits).Inv ∧ (c.promoteHits hits).maxBytes = c.maxBytes ∧
      (c.promoteHits hits).chargedBytes = c.chargedBytes ∧
      ∀ x, (c.promoteHits hits).byteAt x = c.byteAt x := by
  induction hits generalizing c with
  | nil => exact ⟨h, rfl, rfl, fun _ => rfl⟩
  | cons id hits ih =>
    rw [ReadCache.promoteHits, List.foldl_cons]
    split
    · rename_i has
      have mem : id ∈ c.lru := (h.lru_mem id).2 has
      have perm : (c.lru.promote id).Perm c.lru := by
        unfold CacheObjectLru.promote
        rw [if_pos mem]
        exact (List.perm_cons_erase mem).symm
      exact ih ⟨h.toLinked.perm perm, h.backrefs⟩
    · exact ih h

end ReadCache

end NbdServer
