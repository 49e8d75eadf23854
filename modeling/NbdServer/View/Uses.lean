import NbdServer.View.Debt

/-!
# The roots that a view uses

`ViewInv` speaks of the committed content of the roots that a view, its reads and its snapshots
stand on. The steps of a read and the application of a record use no other roots than before, and
the invariant depends on the content of these roots only (`ViewInv.congr`).
-/

namespace NbdServer

open Lib

/-- A root that a view, one of its reads or one of its snapshots stands on. -/
inductive ViewWorld.Uses (w : ViewWorld) : RootSnapshot → Prop where
  | view : Uses w w.view.root
  | read {r : ReadInFlight} (mem : r ∈ w.reads) : Uses w r.capture.root
  | snapshot {sn : CompactionSnapshot} (mem : sn ∈ w.snapshots) : Uses w sn.root
  | published {p : RootSnapshot × CompactionSnapshot} (mem : p ∈ w.published) : Uses w p.1
  | publishedOf {p : RootSnapshot × CompactionSnapshot} (mem : p ∈ w.published) : Uses w p.2.root

lemma ViewWorld.Uses.imp {w w' : ViewWorld} {P : RootSnapshot → Prop} (h : ∀ r, w.Uses r → P r)
    (view : P w'.view.root) (reads : w'.reads = w.reads)
    (snapshots : ∀ sn ∈ w'.snapshots, sn ∈ w.snapshots ∨ P sn.root)
    (published : ∀ p ∈ w'.published, p ∈ w.published ∨ P p.1 ∧ P p.2.root) (r : RootSnapshot)
    (used : w'.Uses r) :
    P r := by
  cases used with
  | view => exact view
  | read mem => exact h _ (.read (reads ▸ mem))
  | snapshot mem => exact (snapshots _ mem).elim (fun mem => h _ (.snapshot mem)) fun is => is
  | published mem => exact (published _ mem).elim (fun mem => h _ (.published mem)) fun is => is.1
  | publishedOf mem => exact (published _ mem).elim (fun mem => h _ (.publishedOf mem)) fun is =>
    is.2

section Congr

variable {committed committed' : RootSnapshot → Nat → UInt8} {root : RootSnapshot}

lemma SnapshotOf.congr {applied : List WalRecord} {sn : CompactionSnapshot}
    {done pending : List WalRecord} (h : SnapshotOf committed root applied sn done pending)
    (first : committed' root = committed root) (same : committed' sn.root = committed sn.root) :
    SnapshotOf committed' root applied sn done pending :=
  { h with content := by rw [first, same]; exact h.content }

lemma ViewWorld.Publishes.congr {sn : CompactionSnapshot} {newRoot : RootSnapshot}
    (h : Publishes committed sn newRoot) (old : committed' sn.root = committed sn.root)
    (new : committed' newRoot = committed newRoot) : Publishes committed' sn newRoot :=
  { h with content := by rw [old, new]; exact h.content }

lemma ReadOk.congr {r : ReadInFlight} (h : ReadOk committed root r)
    (first : committed' root = committed root)
    (same : committed' r.capture.root = committed r.capture.root) : ReadOk committed' root r where
  seqs := h.seqs
  captured := { h.captured with
    overlay := by rw [first]; exact h.captured.overlay
    cache := by rw [first]; exact h.captured.cache
    misses := by rw [first, same]; exact h.captured.misses }
  answers := by
    rw [same]
    exact h.answers

lemma ViewInv.congr {w : ViewWorld} (inv : ViewInv committed root w)
    (first : committed' root = committed root)
    (agree : ∀ r, w.Uses r → committed' r = committed r) : ViewInv committed' root w where
  view := by
    obtain ⟨done, pending, split, rep⟩ := inv.view
    exact ⟨done, pending, split, { rep with
      root := by rw [first, agree _ .view]; exact rep.root
      cached := by rw [first]; exact rep.cached }⟩
  reads r mem := (inv.reads r mem).congr first (agree _ (.read mem))
  snapshots sn mem := by
    obtain ⟨done, pending, h⟩ := inv.snapshots sn mem
    exact ⟨done, pending, h.congr first (agree _ (.snapshot mem))⟩
  published p mem := by
    obtain ⟨publishes, done, pending, h⟩ := inv.published p mem
    exact ⟨publishes.congr (agree _ (.publishedOf mem)) (agree _ (.published mem)), done, pending,
      h.congr first (agree _ (.publishedOf mem))⟩
  results res mem := by
    have ok := inv.results res mem
    unfold ResultOk at ok ⊢
    rw [first]
    exact ok

end Congr

/-! ## What the parts of a step leave alone -/

namespace ReadViewState

lemma insertPartFills_eq {s s' : ReadViewState} {parts : List BlockPart}
    (run : s.insertPartFills parts = .ok s') : s' = { s with cache := s'.cache } := by
  induction parts generalizing s with
  | nil =>
    cases run
    rfl
  | cons part parts ih =>
    cases part with
    | zero range => exact ih run
    | data range bytes =>
      obtain ⟨s₁, fill, run⟩ := Res.bind_eq_ok.1 run
      unfold insertPartFill at fill
      obtain ⟨_, -, fill⟩ := Res.bind_eq_ok.1 fill
      obtain ⟨_, -, fill⟩ := Res.bind_eq_ok.1 fill
      obtain ⟨_, -, fill⟩ := Res.bind_eq_ok.1 fill
      obtain ⟨_, -, fill⟩ := Res.bind_eq_ok.1 fill
      cases fill
      exact (ih run).trans rfl

lemma insertTreeFills_eq {s s' : ReadViewState} {blocks : List Block}
    (run : s.insertTreeFills blocks = .ok s') : s' = { s with cache := s'.cache } := by
  induction blocks generalizing s with
  | nil =>
    cases run
    rfl
  | cons block blocks ih =>
    obtain ⟨s₁, fills, run⟩ := Res.bind_eq_ok.1 run
    have first := insertPartFills_eq fills
    have rest := ih run
    rw [first] at rest
    exact rest

lemma finishRead_eq (s : ReadViewState) (c : Capture) (blocks : List Block) :
    (s.finishRead c blocks).1 = { s with cache := (s.finishRead c blocks).1.cache } := by
  unfold finishRead
  dsimp only
  split_ifs
  · rfl
  · split
    · rename_i run
      exact (insertTreeFills_eq run).trans rfl
    · rfl
  · rfl

lemma capture_root {s : ReadViewState} {range : ByteRange} {c : Capture}
    (run : s.capture range = .ok c) :
    c.root = s.root := by
  unfold capture at run
  obtain ⟨_, -, run⟩ := Res.bind_eq_ok.1 run
  obtain ⟨_, -, run⟩ := Res.bind_eq_ok.1 run
  obtain ⟨_, -, run⟩ := Res.bind_eq_ok.1 run
  obtain ⟨_, -, run⟩ := Res.bind_eq_ok.1 run
  obtain ⟨_, -, run⟩ := Res.bind_eq_ok.1 run
  cases run
  rfl

lemma applyWalRecord_root (s : ReadViewState) (record : WalRecord) :
    (s.applyWalRecord record).1.root = s.root := by
  have installed : ∀ s', s.installRecord record = .ok s' → s'.root = s.root := by
    intro s' run
    unfold installRecord at run
    obtain ⟨_, -, run⟩ := Res.bind_eq_ok.1 run
    obtain ⟨_, -, run⟩ := Res.bind_eq_ok.1 run
    obtain ⟨_, -, run⟩ := Res.bind_eq_ok.1 run
    cases run
    rfl
  unfold applyWalRecord
  split
  · rfl
  · rename_i s' run
    split
    · exact installed s' run
    · exact installed s' run

end ReadViewState

/-! ## What the steps change -/

namespace ViewWorld

/-- The records that were applied at the captures of the reads come first among those applied. -/
structure Prefixes (w : ViewWorld) : Prop where
  reads : ∀ r ∈ w.reads, r.applied <+: w.applied
  results : ∀ res ∈ w.results, res.applied <+: w.applied

/-- A step of a read: the view changes in its cache only, and no read stands on a root that was not
in use. -/
structure ReadStep (w w' : ViewWorld) : Prop where
  applied : w'.applied = w.applied
  snapshots : w'.snapshots = w.snapshots
  published : w'.published = w.published
  view : w'.view = { w.view with cache := w'.view.cache }
  reads : ∀ r ∈ w'.reads, w.Uses r.capture.root
  prefixes : w.Prefixes → w'.Prefixes

variable {w w' : ViewWorld}

lemma Prefixes.finish (h : w.Prefixes) {i : Nat} {r : ReadInFlight} (found : w.reads[i]? = some r)
    (view : ReadViewState) (outcome : Res Buf) : Prefixes { w with
      view := view
      reads := w.reads.eraseIdx i
      results := w.results ++ [⟨r.capture.range, r.applied, outcome⟩] } := by
  refine ⟨fun r' mem => h.reads r' (List.mem_of_mem_eraseIdx mem), fun res mem => ?_⟩
  rcases List.mem_append.1 mem with mem | mem
  · exact h.results res mem
  · rw [List.mem_singleton.1 mem]
    exact h.reads r (List.mem_of_getElem? found)

namespace ReadStep

lemma quiet (h : w.ReadStep w') : w.Quiet w' :=
  ⟨h.applied, h.snapshots, h.published, by rw [h.view], by rw [h.view]⟩

lemma uses (h : w.ReadStep w') {r : RootSnapshot} (used : w'.Uses r) : w.Uses r := by
  cases used with
  | view =>
    rw [h.view]
    exact .view
  | read mem => exact h.reads _ mem
  | snapshot mem => exact .snapshot (h.snapshots ▸ mem)
  | published mem => exact .published (h.published ▸ mem)
  | publishedOf mem => exact .publishedOf (h.published ▸ mem)

lemma beginRead {range : ByteRange} (st : w.next (.beginRead range) = some w') : w.ReadStep w' := by
  rw [next] at st
  split at st <;> cases st
  · rename_i c run
    refine ⟨rfl, rfl, rfl, rfl, fun read mem => ?_, fun h => ⟨fun read mem => ?_, h.results⟩⟩
    · rcases List.mem_append.1 mem with mem | mem
      · exact .read mem
      · rw [List.mem_singleton.1 mem, ReadViewState.capture_root run]
        exact .view
    · rcases List.mem_append.1 mem with mem | mem
      · exact h.reads read mem
      · rw [List.mem_singleton.1 mem]
  · refine ⟨rfl, rfl, rfl, rfl, fun read mem => .read mem, fun h => ⟨h.reads, fun res mem => ?_⟩⟩
    rcases List.mem_append.1 mem with mem | mem
    · exact h.results res mem
    · rw [List.mem_singleton.1 mem]

lemma treeRead {i : Nat} {block : Block} (st : w.next (.treeRead i block) = some w') :
    w.ReadStep w' := by
  rw [next] at st
  obtain ⟨r₀, found, st⟩ := Option.bind_eq_some_iff.1 st
  obtain ⟨miss, -, st⟩ := Option.bind_eq_some_iff.1 st
  split at st <;> cases st
  · have old := List.mem_of_getElem? found
    refine ⟨rfl, rfl, rfl, rfl, fun read mem => ?_, fun h => ⟨fun read mem => ?_, h.results⟩⟩
    · rcases List.mem_or_eq_of_mem_set mem with mem | rfl
      · exact .read mem
      · exact @Uses.read w r₀ old
    · rcases List.mem_or_eq_of_mem_set mem with mem | rfl
      · exact h.reads read mem
      · exact h.reads r₀ old
  · exact ⟨rfl, rfl, rfl, rfl, fun read mem => .read (List.mem_of_mem_eraseIdx mem),
      fun h => h.finish found _ _⟩

lemma finishRead {i : Nat} (st : w.next (.finishRead i) = some w') : w.ReadStep w' := by
  rw [next] at st
  obtain ⟨r₀, found, st⟩ := Option.bind_eq_some_iff.1 st
  split_ifs at st
  split at st <;> cases st
  · exact ⟨rfl, rfl, rfl, rfl, fun read mem => .read (List.mem_of_mem_eraseIdx mem),
      fun h => h.finish found _ _⟩
  · exact ⟨rfl, rfl, rfl, ReadViewState.finishRead_eq _ _ _,
      fun read mem => .read (List.mem_of_mem_eraseIdx mem),
      fun h => h.finish found _ _⟩

end ReadStep

def withRecord (w : ViewWorld) (record : WalRecord) : ViewWorld :=
  { w with view := (w.view.applyWalRecord record).1, applied := w.applied ++ [record] }

/-- The world after the view was told of a published root. -/
def withPublished (w : ViewWorld) (newRoot : RootSnapshot) (sn : CompactionSnapshot) : ViewWorld :=
  { w with
    view := (w.view.advanceAfterCompaction newRoot sn).1
    published := w.published ++ [(newRoot, sn)] }

end ViewWorld

namespace ViewInv

variable {committed : RootSnapshot → Nat → UInt8} {root : RootSnapshot} {w : ViewWorld}
  (inv : ViewInv committed root w)
include inv

lemma last_eq :
    w.view.lastAppliedSeq = root.baseWalSeq + w.applied.length := by
  obtain ⟨done, pending, split, rep⟩ := inv.view
  rw [rep.last_eq, split, List.length_append, Nat.add_assoc]

lemma target_le {sn : CompactionSnapshot} (mem : sn ∈ w.snapshots) :
    sn.targetWalSeq ≤ w.view.lastAppliedSeq := by
  obtain ⟨done, pending, snap⟩ := inv.snapshots sn mem
  have := snap.initial.length_le
  rw [List.length_append] at this
  rw [snap.target_eq, inv.last_eq]
  omega

lemma apply_ok (debts : DebtInv w) (hs : root.sizeBytes < U64)
    {record : WalRecord} (inside : record.range.start + record.range.len ≤ root.sizeBytes)
    (next : record.seq = root.baseWalSeq + w.applied.length + 1)
    (total : payloadBytes (w.applied ++ [record]) < U64) :
    (w.view.applyWalRecord record).2 = .ok () ∧ w.next (.apply record) =
    some (w.withRecord record) := by
  have last := inv.last_eq
  obtain ⟨done, pending, split, rep⟩ := inv.view
  obtain ⟨s, run, rep', -, debt⟩ := rep.installRecord hs inside (next.trans (by rw [last]))
  have last' := rep'.last_eq
  have before := rep.last_eq
  rw [List.length_append, List.length_singleton] at last'
  have fits : s.walDebtBytes + record.data.length < U64 := by
    have view := debts.view
    rw [split, rep.recordsAbove_eq] at view
    rw [split, payloadBytes_append, payloadBytes_append] at total
    have one : payloadBytes [record] = record.data.length := rfl
    omega
  have applied : w.view.applyWalRecord record =
      ({ s with walDebtBytes := s.walDebtBytes + record.data.length }, .ok ()) := by
    unfold ReadViewState.applyWalRecord
    rw [run]
    dsimp only
    rw [checkedAdd_of_lt fits]
  refine ⟨by rw [applied], ?_⟩
  rw [ViewWorld.next, applied, if_neg (by dsimp only; omega), ViewWorld.withRecord, applied]

/-- The root that was published from a snapshot of a view that still stands on the root of the
snapshot is installed. -/
lemma advance_ok (debts : DebtInv w)
    (hs : root.sizeBytes + CACHE_BLOCK_BYTES < U64) {sn : CompactionSnapshot}
    {newRoot : RootSnapshot} (mem : sn ∈ w.snapshots)
    (pub : ViewWorld.Publishes committed sn newRoot)
    (base : w.view.root.baseWalSeq = sn.root.baseWalSeq)
    (lt : sn.root.baseWalSeq < sn.targetWalSeq) :
    (w.view.advanceAfterCompaction newRoot sn).2 = .ok () ∧
      (w.view.advanceAfterCompaction newRoot sn).1.root = newRoot := by
  have target := inv.target_le mem
  obtain ⟨done, pending, split, rep⟩ := inv.view
  obtain ⟨before, between, snap⟩ := inv.snapshots sn mem
  obtain ⟨-, ⟨refused, -⟩ | ⟨-, ok, installed, -⟩⟩ := rep.advance hs split snap pub
  · refine absurd (Represents.checkAdvance_eq_true.2 ⟨?_, by omega, base, pub.base_eq, ?_, ?_⟩)
      refused
    · rw [pub.size_eq, snap.size_eq, rep.size_eq]
    · rw [pub.base_eq]
      exact target
    · exact debts.snapshot_le mem base
  · exact ⟨ok, installed⟩

lemma withPublished (debts : DebtInv w)
    (hs : root.sizeBytes + CACHE_BLOCK_BYTES < U64) {sn : CompactionSnapshot}
    {newRoot : RootSnapshot} (mem : sn ∈ w.snapshots)
    (pub : ViewWorld.Publishes committed sn newRoot) :
    ViewInv committed root (w.withPublished newRoot sn) ∧ DebtInv (w.withPublished newRoot sn) := by
  obtain ⟨i, found⟩ := List.mem_iff_getElem?.1 mem
  have publish : w.next (.publish i newRoot) =
      some { w with published := w.published ++ [(newRoot, sn)] } := by
    rw [ViewWorld.next, found]
    rfl
  have legal : w.Legal committed (.publish i newRoot) := by
    intro sn' found'
    rw [found] at found'
    cases found'
    exact pub
  have inv₁ := inv.publish legal publish
  have debts₁ := debts.publish publish
  have advance : ViewWorld.next { w with published := w.published ++ [(newRoot, sn)] }
      (.advance w.published.length) = some (w.withPublished newRoot sn) := by
    rw [ViewWorld.next]
    dsimp only
    rw [List.getElem?_concat_length]
    rfl
  exact ⟨inv₁.advance hs advance, debts₁.advance inv₁ hs advance⟩

end ViewInv

lemma ReadViewState.advanceAfterCompaction_last (s : ReadViewState) (newRoot : RootSnapshot)
    (sn : CompactionSnapshot) : (s.advanceAfterCompaction newRoot sn).1.lastAppliedSeq =
    s.lastAppliedSeq := by
  unfold advanceAfterCompaction
  split
  · rfl
  · rfl
  · split
    · rename_i s' run
      unfold advance at run
      obtain ⟨s₁, installed, run⟩ := Res.bind_eq_ok.1 run
      obtain ⟨_, -, run⟩ := Res.bind_eq_ok.1 run
      cases run
      unfold installRoot at installed
      obtain ⟨_, -, installed⟩ := Res.bind_eq_ok.1 installed
      obtain ⟨_, -, installed⟩ := Res.bind_eq_ok.1 installed
      cases installed
      rfl
    · rfl

end NbdServer
