import NbdServer.Lib.System
import NbdServer.View.Read

/-!
# The read view refines a flat byte array

The runs of one read view: reads that are captured, answered by the committed tree and finished at
different moments, records that are applied, compaction snapshots that are taken, roots that are
published for them and installed, and evictions, in any order. `ViewWorld.next` is executable; what
a run assumes of its environment (the tree answers a read with the committed content, a published
root holds the content of its snapshot) is `ViewWorld.Legal`.

Each read returns the bytes of the flat array that the records applied at its capture lead to.
-/

namespace NbdServer

open Lib

/-- A read between its first and its last critical section. `applied` is what had been applied at
the capture; it is not part of the program. -/
structure ReadInFlight where
  capture : Capture
  blocks : List Block
  applied : List WalRecord

structure ReadResult where
  range : ByteRange
  applied : List WalRecord
  outcome : Res Buf

/-- A read view with the reads and compactions that use it. `applied` lists the records that
`apply_wal_record` has installed. -/
structure ViewWorld where
  view : ReadViewState
  applied : List WalRecord
  reads : List ReadInFlight
  snapshots : List CompactionSnapshot
  published : List (RootSnapshot × CompactionSnapshot)
  results : List ReadResult

inductive ViewEvent where
  | beginRead (range : ByteRange)
  | treeRead (read : Nat) (block : Block)
  | treeFail (read : Nat)
  | finishRead (read : Nat)
  | apply (record : WalRecord)
  | captureSnapshot
  | publish (snapshot : Nat) (newRoot : RootSnapshot)
  | advance (publication : Nat)
  | evict (object : Nat)

namespace ViewWorld

def new (root : RootSnapshot) (budget : Nat) : ViewWorld :=
  ⟨ReadViewState.new root budget, [], [], [], [], []⟩

/-- The miss that the next tree read of a read is for. -/
def nextMiss (r : ReadInFlight) : Option ByteRange := r.capture.treeMisses[r.blocks.length]?

/-- The effect of an event, `none` where it cannot happen. -/
def next (w : ViewWorld) : ViewEvent → Option ViewWorld
  | .beginRead range =>
    match w.view.capture range with
    | .ok c => some { w with reads := w.reads ++ [⟨c, [], w.applied⟩] }
    | .error fault => some { w with results := w.results ++ [⟨range, w.applied, .error fault⟩] }
  | .treeRead i block => do
    let r ← w.reads[i]?
    let miss ← nextMiss r
    match ReadViewState.checkBlock miss block with
    | .ok () => some { w with reads := w.reads.set i { r with blocks := r.blocks ++ [block] } }
    | .error fault => some { w with
        reads := w.reads.eraseIdx i
        results := w.results ++ [⟨r.capture.range, r.applied, .error fault⟩] }
  | .treeFail i => do
    -- the read returns the error of its tree read
    let r ← w.reads[i]?
    let _ ← nextMiss r
    some { w with reads := w.reads.eraseIdx i }
  | .finishRead i => do
    let r ← w.reads[i]?
    if nextMiss r = none then
      match ReadViewState.assemble r.capture r.blocks with
      | .error fault => some { w with
          reads := w.reads.eraseIdx i
          results := w.results ++ [⟨r.capture.range, r.applied, .error fault⟩] }
      | .ok data => some { w with
          view := (w.view.finishRead r.capture r.blocks).1
          reads := w.reads.eraseIdx i
          results := w.results ++ [⟨r.capture.range, r.applied,
            (w.view.finishRead r.capture r.blocks).2.map fun _ => data⟩] }
    else none
  | .apply record => some { w with
      view := (w.view.applyWalRecord record).1
      applied := if (w.view.applyWalRecord record).1.lastAppliedSeq = w.view.lastAppliedSeq
        then w.applied else w.applied ++ [record] }
  | .captureSnapshot =>
    w.view.captureCompactionSnapshot.map fun snapshot =>
      { w with snapshots := w.snapshots ++ [snapshot] }
  | .publish i newRoot => do
    let snapshot ← w.snapshots[i]?
    some { w with published := w.published ++ [(newRoot, snapshot)] }
  | .advance i => do
    let (newRoot, snapshot) ← w.published[i]?
    some { w with view := (w.view.advanceAfterCompaction newRoot snapshot).1 }
  | .evict id =>
    match w.view.cache.evictObject id with
    | .ok cache => some { w with view := { w.view with cache := cache } }
    | .error _ => none

/-- The root holds the content of the snapshot's root overlaid by the snapshot's overlay. -/
structure Publishes (committed : RootSnapshot → Nat → UInt8) (snapshot : CompactionSnapshot)
    (newRoot : RootSnapshot) : Prop where
  size_eq : newRoot.sizeBytes = snapshot.root.sizeBytes
  base_eq : newRoot.baseWalSeq = snapshot.targetWalSeq
  content : ∀ x < snapshot.root.sizeBytes, committed newRoot x =
    match snapshot.overlay.writer x with
    | some record => record.value x
    | none => committed snapshot.root x

/-- What is assumed of the environment: a tree read that succeeds answers with the committed content
of what was asked for, and a published root holds what its snapshot says. -/
def Legal (committed : RootSnapshot → Nat → UInt8) (w : ViewWorld) : ViewEvent → Prop
  | .treeRead i block => ∀ r, w.reads[i]? = some r → ∀ miss, nextMiss r = some miss →
      block.range = miss ∧ block.Holds (committed r.capture.root)
  | .publish i newRoot => ∀ snapshot, w.snapshots[i]? = some snapshot →
      Publishes committed snapshot newRoot
  | _ => True

end ViewWorld

/-- The runs of a read view opened on `root` with a cache of `budget` bytes. -/
def viewSystem (committed : RootSnapshot → Nat → UInt8) (root : RootSnapshot) (budget : Nat) :
    System ViewWorld ViewEvent where
  init w := w = .new root budget
  step w e w' := w.Legal committed e ∧ w.next e = some w'

/-! ## The invariant of a run -/

section Invariant

variable (committed : RootSnapshot → Nat → UInt8) (root : RootSnapshot)

/-- The snapshot represents a prefix of the applied records. -/
structure SnapshotOf (applied : List WalRecord) (snapshot : CompactionSnapshot)
    (done pending : List WalRecord) : Prop where
  initial : done ++ pending <+: applied
  size_eq : snapshot.root.sizeBytes = root.sizeBytes
  base_eq : snapshot.root.baseWalSeq = root.baseWalSeq + done.length
  target_eq : snapshot.targetWalSeq = root.baseWalSeq + done.length + pending.length
  content : ∀ x < root.sizeBytes, committed snapshot.root x = contentAfter (committed root) done x
  overlay : ∀ x, snapshot.overlay.writer x = writerIn pending x

structure ReadOk (r : ReadInFlight) : Prop where
  seqs : Consecutive root.baseWalSeq r.applied
  captured : Captured committed root.sizeBytes (contentAfter (committed root) r.applied) r.capture
  answers : List.Forall₂ (fun miss block => block.range = miss ∧
    block.Holds (committed r.capture.root)) (r.capture.treeMisses.take r.blocks.length) r.blocks

/-- What is known of a read that has returned: if it was inside the export, it returned the content
of the moment of its capture. -/
def ResultOk (res : ReadResult) : Prop :=
  res.range.start + res.range.len ≤ root.sizeBytes →
    Consecutive root.baseWalSeq res.applied ∧
    ∃ data, res.outcome = .ok data ∧ data.length = res.range.len ∧
      ∀ i < res.range.len,
        data[i]? = some (contentAfter (committed root) res.applied (res.range.start + i))

structure ViewInv (w : ViewWorld) : Prop where
  view : ∃ done pending, w.applied = done ++ pending ∧
    Represents committed (committed root) root.baseWalSeq root.sizeBytes done pending w.view
  reads : ∀ r ∈ w.reads, ReadOk committed root r
  snapshots : ∀ sn ∈ w.snapshots, ∃ done pending, SnapshotOf committed root w.applied sn done
    pending
  published : ∀ p ∈ w.published, ViewWorld.Publishes committed p.2 p.1 ∧
    ∃ done pending, SnapshotOf committed root w.applied p.2 done pending
  results : ∀ res ∈ w.results, ResultOk committed root res

end Invariant

variable {committed : RootSnapshot → Nat → UInt8} {root : RootSnapshot}

lemma ReadOk.complete {r : ReadInFlight} (h : ReadOk committed root r)
    (all : ViewWorld.nextMiss r = none) : Answers committed r.capture r.blocks := by
  have answers := h.answers
  rwa [List.take_of_length_le (List.getElem?_eq_none_iff.1 all)] at answers

lemma SnapshotOf.mono {applied applied' : List WalRecord} {sn : CompactionSnapshot}
    {done pending : List WalRecord} (h : SnapshotOf committed root applied sn done pending)
    (ext : applied <+: applied') : SnapshotOf committed root applied' sn done pending :=
  ⟨h.initial.trans ext, h.size_eq, h.base_eq, h.target_eq, h.content, h.overlay⟩

lemma SnapshotOf.publishes {applied : List WalRecord} {sn : CompactionSnapshot}
    {done pending : List WalRecord} (h : SnapshotOf committed root applied sn done pending)
    {newRoot : RootSnapshot} (p : ViewWorld.Publishes committed sn newRoot) :
    ∀ x < root.sizeBytes, committed newRoot x =
      contentAfter (committed root) (done ++ pending) x := by
  intro x hx
  rw [p.content x (by rw [h.size_eq]; exact hx), h.overlay, contentAfter, flat_append]
  cases hw : writerIn pending x with
  | some r =>
    rw [flat_of_some hw]
  | none =>
    rw [flat_of_none hw]
    exact h.content x hx

lemma Represents.evict {base : Nat → UInt8} {first size : Nat} {done pending : List WalRecord}
    {s : ReadViewState} (h : Represents committed base first size done pending s) {id : Nat}
    {cache : ReadCache} (run : s.cache.evictObject id = .ok cache) :
    Represents committed base first size done pending { s with cache := cache } := by
  cases ho : s.cache.objects.find id with
  | some o =>
    obtain ⟨cache', run', inv, -, -, -, -, -, bytes⟩ := h.cache.evictObject ho
    rw [run'] at run
    cases run
    refine h.withCache inv fun x b hb => ?_
    rw [bytes] at hb
    split at hb
    · cases hb
    · exact hb
  | none =>
    have absent : id ∉ s.cache.lru := by
      rw [h.cache.lru_mem]
      simp [OrdMap.Has, ho]
    have same : cache = s.cache := by
      unfold ReadCache.evictObject at run
      rw [ho] at run
      have lru : s.cache.lru.remove id = s.cache.lru := List.erase_of_not_mem absent
      rw [lru] at run
      cases run
      rfl
    rw [same]
    exact h

lemma Represents.advance {applied done pending : List WalRecord} {s : ReadViewState}
    {newRoot : RootSnapshot} {sn : CompactionSnapshot} {done' pending' : List WalRecord}
    (hs : root.sizeBytes + CACHE_BLOCK_BYTES < U64) (split : applied = done ++ pending)
    (h : Represents committed (committed root) root.baseWalSeq root.sizeBytes done pending s)
    (snap : SnapshotOf committed root applied sn done' pending')
    (pub : ViewWorld.Publishes committed sn newRoot) :
    (∃ done₁ pending₁, applied = done₁ ++ pending₁ ∧
      Represents committed (committed root) root.baseWalSeq root.sizeBytes done₁ pending₁
        (s.advanceAfterCompaction newRoot sn).1) ∧
      ((s.checkAdvance newRoot sn ≠ .ok true ∧ (s.advanceAfterCompaction newRoot sn).1 = s) ∨
        (s.checkAdvance newRoot sn = .ok true ∧
          (s.advanceAfterCompaction newRoot sn).2 = .ok () ∧
          (s.advanceAfterCompaction newRoot sn).1.root = newRoot ∧
          (s.advanceAfterCompaction newRoot sn).1.walDebtBytes =
            if newRoot.baseWalSeq = s.lastAppliedSeq then 0
            else s.walDebtBytes - sn.walDebtBytes)) := by
  unfold ReadViewState.advanceAfterCompaction
  cases hc : s.checkAdvance newRoot sn with
  | error fault => exact ⟨⟨done, pending, split, h⟩, .inl ⟨nofun, rfl⟩⟩
  | ok proceed =>
    cases proceed with
    | false => exact ⟨⟨done, pending, split, h⟩, .inl ⟨nofun, rfl⟩⟩
    | true =>
      obtain ⟨c₁, c₂, c₃, c₄, c₅, c₆⟩ := Represents.checkAdvance_eq_true.1 hc
      -- the view still stands on the root of the snapshot, so both split the history alike
      obtain ⟨rest, eq⟩ := snap.initial
      have len : done.length = done'.length := by
        have := h.base_eq
        have := snap.base_eq
        omega
      rw [split, List.append_assoc] at eq
      obtain ⟨rfl, rfl⟩ := List.append_inj eq len.symm
      obtain ⟨s', run, h', e₁, e₂, e₃⟩ := h.installRoot hs (c₁.trans h.size_eq)
        (c₄.trans snap.target_eq) (snap.publishes pub)
      have adv : s.advance newRoot sn = .ok { s' with walDebtBytes :=
          if newRoot.baseWalSeq = s'.lastAppliedSeq then 0
          else s'.walDebtBytes - sn.walDebtBytes } := by
        unfold ReadViewState.advance
        rw [run, Res.ok_bind, minus_of_le (by rw [e₃]; exact c₆), Res.ok_bind]
      simp only [adv]
      refine ⟨⟨done' ++ pending', rest, by rw [split, List.append_assoc], ?_⟩,
        .inr ⟨trivial, trivial, e₁, by rw [e₂, e₃]⟩⟩
      exact ⟨h'.size_eq, h'.base_eq, h'.last_eq, h'.seqs, h'.bounds, h'.root, h'.overlay, h'.cache,
        h'.cached⟩

namespace ViewInv

variable {w w' : ViewWorld}

lemma withView (inv : ViewInv committed root w) {view : ReadViewState}
    (h : ∃ done pending, w.applied = done ++ pending ∧
      Represents committed (committed root) root.baseWalSeq root.sizeBytes done pending view) :
    ViewInv committed root { w with view := view } :=
  ⟨h, inv.reads, inv.snapshots, inv.published, inv.results⟩

lemma addResult (inv : ViewInv committed root w) {res : ReadResult}
    (h : ResultOk committed root res) :
    ViewInv committed root { w with results := w.results ++ [res] } := by
  refine ⟨inv.view, inv.reads, inv.snapshots, inv.published, ?_⟩
  intro r hr
  rcases List.mem_append.1 hr with hr | hr
  · exact inv.results r hr
  · cases List.mem_singleton.1 hr
    exact h

lemma eraseRead (inv : ViewInv committed root w) (i : Nat) :
    ViewInv committed root { w with reads := w.reads.eraseIdx i } :=
  ⟨inv.view, fun r hr => inv.reads r (List.mem_of_mem_eraseIdx hr), inv.snapshots, inv.published,
    inv.results⟩

lemma new {budget : Nat} : ViewInv committed root (.new root budget) where
  view := ⟨[], [], rfl, .new⟩
  reads := by simp [ViewWorld.new]
  snapshots := by simp [ViewWorld.new]
  published := by simp [ViewWorld.new]
  results := by simp [ViewWorld.new]

lemma beginRead (inv : ViewInv committed root w) (hs : root.sizeBytes < U64) {range : ByteRange}
    (st : w.next (.beginRead range) = some w') : ViewInv committed root w' := by
  obtain ⟨done, pending, split, rep⟩ := inv.view
  rw [ViewWorld.next] at st
  by_cases inside : range.start + range.len ≤ root.sizeBytes
  · obtain ⟨c, run, -, -, captured⟩ := rep.capture hs inside
    rw [run] at st
    cases st
    refine ⟨inv.view, ?_, inv.snapshots, inv.published, inv.results⟩
    intro r hr
    rcases List.mem_append.1 hr with hr | hr
    · exact inv.reads r hr
    · cases List.mem_singleton.1 hr
      refine ⟨?_, ?_, ?_⟩
      · show Consecutive _ w.applied
        rw [split]
        exact rep.seqs
      · show Captured _ _ (contentAfter _ w.applied) c
        rw [split]
        exact captured
      · exact .nil
  · cases run : w.view.capture range with
    | ok c =>
      unfold ReadViewState.capture at run
      obtain ⟨_, check, -⟩ := Res.bind_eq_ok.1 run
      rw [rep.size_eq, validateRange_eq_ok hs] at check
      exact absurd check inside
    | error fault =>
      rw [run] at st
      cases st
      exact inv.addResult fun h => absurd h inside

lemma treeRead (inv : ViewInv committed root w) {i : Nat} {block : Block}
    (legal : w.Legal committed (.treeRead i block)) (st : w.next (.treeRead i block) = some w') :
    ViewInv committed root w' := by
  rw [ViewWorld.next] at st
  obtain ⟨r, hr, st⟩ := Option.bind_eq_some_iff.1 st
  obtain ⟨miss, hm, st⟩ := Option.bind_eq_some_iff.1 st
  obtain ⟨rfl, holds⟩ := legal r hr miss hm
  have ok : ReadViewState.checkBlock block.range block = .ok () := if_neg (not_not.2 rfl)
  rw [ok] at st
  cases st
  have mem := List.mem_of_getElem? hr
  obtain ⟨seqs, captured, answers⟩ := inv.reads r mem
  refine ⟨inv.view, ?_, inv.snapshots, inv.published, inv.results⟩
  intro r' hr'
  rcases List.mem_or_eq_of_mem_set hr' with hr' | rfl
  · exact inv.reads r' hr'
  · refine ⟨seqs, captured, ?_⟩
    show List.Forall₂ _ (r.capture.treeMisses.take (r.blocks ++ [block]).length)
      (r.blocks ++ [block])
    rw [List.length_append, List.length_singleton, List.take_add_one, show
      r.capture.treeMisses[r.blocks.length]? = some block.range from hm]
    exact List.rel_append answers (.cons ⟨rfl, holds⟩ .nil)

lemma finishRead (inv : ViewInv committed root w) (hs : root.sizeBytes + CACHE_BLOCK_BYTES < U64)
    {i : Nat} (st : w.next (.finishRead i) = some w') : ViewInv committed root w' := by
  rw [ViewWorld.next] at st
  obtain ⟨r, hr, st⟩ := Option.bind_eq_some_iff.1 st
  split at st
  swap
  · cases st
  rename_i all
  have read := inv.reads r (List.mem_of_getElem? hr)
  have complete := read.complete all
  obtain ⟨seqs, captured, -⟩ := read
  obtain ⟨data, run, len, bytes⟩ := captured.assemble (by omega) complete
  obtain ⟨done, pending, split, rep⟩ := inv.view
  obtain ⟨s', fin, rep', -⟩ := rep.finishRead hs captured complete
  rw [run, fin] at st
  cases st
  refine ((inv.eraseRead i).withView ⟨done, pending, split, rep'⟩).addResult ?_
  intro _
  exact ⟨seqs, data, rfl, len, bytes⟩

lemma apply (inv : ViewInv committed root w) (hs : root.sizeBytes < U64) {record : WalRecord}
    (st : w.next (.apply record) = some w') : ViewInv committed root w' := by
  obtain ⟨done, pending, split, rep⟩ := inv.view
  obtain ⟨rep', -⟩ := rep.applyWalRecord hs record
  rw [ViewWorld.next] at st
  cases st
  have ext : w.applied <+: (if (w.view.applyWalRecord record).1.lastAppliedSeq =
      w.view.lastAppliedSeq then w.applied else w.applied ++ [record]) := by
    split
    · exact List.prefix_refl _
    · exact List.prefix_append _ _
  refine ⟨⟨done, _, ?_, rep'⟩, inv.reads, ?_, ?_, inv.results⟩
  · show (if _ then w.applied else w.applied ++ [record]) = _
    split
    · exact split
    · rw [split, List.append_assoc]
  · intro sn hsn
    obtain ⟨d, p, h⟩ := inv.snapshots sn hsn
    exact ⟨d, p, h.mono ext⟩
  · intro pub hpub
    obtain ⟨h₁, d, p, h⟩ := inv.published pub hpub
    exact ⟨h₁, d, p, h.mono ext⟩

lemma captureSnapshot (inv : ViewInv committed root w)
    (st : w.next .captureSnapshot = some w') : ViewInv committed root w' := by
  obtain ⟨done, pending, split, rep⟩ := inv.view
  rw [ViewWorld.next] at st
  obtain ⟨sn, hsn, rfl⟩ := Option.map_eq_some_iff.1 st
  refine ⟨inv.view, inv.reads, ?_, inv.published, inv.results⟩
  intro sn' hsn'
  rcases List.mem_append.1 hsn' with hsn' | hsn'
  · exact inv.snapshots sn' hsn'
  · cases List.mem_singleton.1 hsn'
    unfold ReadViewState.captureCompactionSnapshot at hsn
    split at hsn
    · cases hsn
    · cases hsn
      exact ⟨done, pending, by rw [← split], rep.size_eq, rep.base_eq, rep.last_eq, rep.root,
        rep.overlay⟩

lemma publish (inv : ViewInv committed root w) {i : Nat} {newRoot : RootSnapshot}
    (legal : w.Legal committed (.publish i newRoot)) (st : w.next (.publish i newRoot) = some w') :
    ViewInv committed root w' := by
  rw [ViewWorld.next] at st
  obtain ⟨sn, hsn, st⟩ := Option.bind_eq_some_iff.1 st
  cases st
  refine ⟨inv.view, inv.reads, inv.snapshots, ?_, inv.results⟩
  intro p hp
  rcases List.mem_append.1 hp with hp | hp
  · exact inv.published p hp
  · cases List.mem_singleton.1 hp
    exact ⟨legal sn hsn, inv.snapshots sn (List.mem_of_getElem? hsn)⟩

lemma advance (inv : ViewInv committed root w) (hs : root.sizeBytes + CACHE_BLOCK_BYTES < U64)
    {i : Nat} (st : w.next (.advance i) = some w') : ViewInv committed root w' := by
  obtain ⟨done, pending, split, rep⟩ := inv.view
  rw [ViewWorld.next] at st
  obtain ⟨⟨newRoot, sn⟩, hp, st⟩ := Option.bind_eq_some_iff.1 st
  cases st
  obtain ⟨pub, d, p, snap⟩ := inv.published _ (List.mem_of_getElem? hp)
  exact inv.withView (rep.advance hs split snap pub).1

lemma step (inv : ViewInv committed root w) (hs : root.sizeBytes + CACHE_BLOCK_BYTES < U64)
    {e : ViewEvent} (legal : w.Legal committed e) (st : w.next e = some w') :
    ViewInv committed root w' := by
  cases e with
  | beginRead range => exact inv.beginRead (by omega) st
  | treeRead i block => exact inv.treeRead legal st
  | treeFail i =>
    rw [ViewWorld.next] at st
    obtain ⟨r, -, st⟩ := Option.bind_eq_some_iff.1 st
    obtain ⟨miss, -, st⟩ := Option.bind_eq_some_iff.1 st
    cases st
    exact inv.eraseRead i
  | finishRead i => exact inv.finishRead hs st
  | apply record => exact inv.apply (by omega) st
  | captureSnapshot => exact inv.captureSnapshot st
  | publish i newRoot => exact inv.publish legal st
  | advance i => exact inv.advance hs st
  | evict id =>
    rw [ViewWorld.next] at st
    split at st
    · rename_i cache run
      cases st
      obtain ⟨done, pending, split, rep⟩ := inv.view
      exact inv.withView ⟨done, pending, split, rep.evict run⟩
    · cases st

lemma of_reachable {budget : Nat} (hs : root.sizeBytes + CACHE_BLOCK_BYTES < U64)
    (reach : (viewSystem committed root budget).Reachable w) : ViewInv committed root w := by
  refine System.invariant _ ?_ ?_ reach
  · rintro _ rfl
    exact .new
  · rintro s e s' inv ⟨legal, st⟩
    exact inv.step hs legal st

end ViewInv

lemma sizeBytes_fits (size_le : root.sizeBytes ≤ 2 ^ 63 - 1) :
    root.sizeBytes + CACHE_BLOCK_BYTES < U64 := by
  have : 2 ^ 63 - 1 + CACHE_BLOCK_BYTES < U64 := by decide
  omega

/-- Every read of a range inside the export returns, for each of its bytes, the payload byte of the
applied record with the highest sequence that covers it, among the records applied at the capture of
the read, or the byte of the root the view was opened on where no record covers it. -/
theorem read_refines_flat_array {committed : RootSnapshot → Nat → UInt8} {root : RootSnapshot}
    {budget : Nat} (size_le : root.sizeBytes ≤ 2 ^ 63 - 1) {w : ViewWorld}
    (reach : (viewSystem committed root budget).Reachable w) {res : ReadResult}
    (returned : res ∈ w.results) (inside : res.range.start + res.range.len ≤ root.sizeBytes) :
    ∃ data, res.outcome = .ok data ∧ data.length = res.range.len ∧
      ∀ i < res.range.len,
        (∀ r ∈ res.applied, r.range.Has (res.range.start + i) →
          (∀ r' ∈ res.applied, r'.range.Has (res.range.start + i) → r'.seq ≤ r.seq) →
          data[i]? = r.data[res.range.start + i - r.range.start]?) ∧
        ((∀ r ∈ res.applied, ¬ r.range.Has (res.range.start + i)) →
          data[i]? = some (committed root (res.range.start + i))) := by
  have inv := ViewInv.of_reachable (sizeBytes_fits size_le) reach
  obtain ⟨seqs, data, ok, len, bytes⟩ := inv.results res returned inside
  refine ⟨data, ok, len, ?_⟩
  intro i hi
  refine ⟨?_, ?_⟩
  · intro r hr has highest
    rw [bytes i hi]
    cases hw : writerIn res.applied (res.range.start + i) with
    | none => exact absurd (WalRecord.covers_iff.2 has) (lastWriter_eq_none.1 hw r hr)
    | some r' =>
      -- the last writer has the highest sequence too, and sequences are unique
      have mem := mem_of_lastWriter hw
      have has' := WalRecord.covers_iff.1 mem.2
      have h₁ := highest r' mem.1 has'
      have h₂ := lastWriter_max seqs.pairwise hw r hr
        (WalRecord.covers_iff.2 has)
      have same : r' = r := by
        by_contra ne
        obtain lt | gt := seqs.lt_or_gt mem.1 hr ne <;> omega
      rw [contentAfter, flat_of_some hw, same, ← WalRecord.byteAt_eq has, WalRecord.byteAt]
  · intro none
    rw [bytes i hi, contentAfter, flat_of_none]
    rw [lastWriter_eq_none]
    intro r hr
    exact fun c => none r hr (WalRecord.covers_iff.1 c)

/-- `next` for the events that assume nothing of the environment. -/
def ViewWorld.nextLocal (w : ViewWorld) : ViewEvent → Option ViewWorld
  | .treeRead .. => none
  | .publish .. => none
  | e => w.next e

lemma ViewWorld.nextLocal_legal {w w' : ViewWorld} {e : ViewEvent} (h : w.nextLocal e = some w') :
    w.Legal committed e ∧ w.next e = some w' := by
  cases e with
  | treeRead i block => cases h
  | publish i newRoot => cases h
  | _ => exact ⟨trivial, h⟩

def twoBytes : WalRecord := recordAt 1 1 [7, 9] seq_one (by decide) (by decide)

/-- A read that is captured after one record and finished after a second one that overlaps it. -/
def overtakenRead : Option ViewWorld :=
  [.apply twoBytes, .beginRead (.new 1 2), .apply (.byte 2 2 5 seq_two), .finishRead 0].foldlM
    ViewWorld.nextLocal (.new (.cowHead none 0 8 .bounded32V1) 64)

/-- `read_refines_flat_array` at this read: it returns the bytes of the first record. -/
theorem read_refines_flat_array_overtaken :
    ∃ w res, overtakenRead = some w ∧ res ∈ w.results ∧ w.applied.map (·.seq) = [1, 2] ∧
      res.range.start + res.range.len ≤ 8 ∧ res.outcome = .ok [7, 9] ∧
      ∀ i < res.range.len,
        (∀ r ∈ res.applied, r.range.Has (res.range.start + i) →
          (∀ r' ∈ res.applied, r'.range.Has (res.range.start + i) → r'.seq ≤ r.seq) →
          [7, 9][i]? = r.data[res.range.start + i - r.range.start]?) := by
  have run : overtakenRead.isSome := rfl
  have results : overtakenRead.map (fun w => w.results.map fun r => (r.range, r.outcome)) =
      some [(.new 1 2, .ok [7, 9])] := rfl
  have applied : overtakenRead.map (fun w => w.applied.map (·.seq)) = some [1, 2] := rfl
  obtain ⟨w, hw⟩ := Option.isSome_iff_exists.1 run
  have reach : (viewSystem (fun _ _ => 0) (.cowHead none 0 8 .bounded32V1) 64).Reachable w :=
    .foldlM ViewWorld.nextLocal_legal (.init rfl) hw
  rw [hw] at results applied
  cases hr : w.results with
  | nil =>
    rw [Option.map_some, hr] at results
    cases results
  | cons res rest =>
    rw [Option.map_some, hr, List.map_cons] at results
    have head := (List.cons.inj (Option.some.inj results)).1
    have range : res.range = .new 1 2 := (Prod.mk.inj head).1
    have outcome : res.outcome = .ok [7, 9] := (Prod.mk.inj head).2
    have inside : res.range.start + res.range.len ≤ 8 := by rw [range]; decide
    have mem : res ∈ w.results := by rw [hr]; exact List.mem_cons_self
    obtain ⟨data, ok, -, bytes⟩ := read_refines_flat_array (by decide) reach mem inside
    rw [outcome] at ok
    cases ok
    exact ⟨w, res, hw, mem, Option.some.inj applied, inside, outcome, fun i hi => (bytes i hi).1⟩

end NbdServer
