import NbdServer.Compaction.Content
import NbdServer.Engines.WalDurable
import NbdServer.View.Uses

/-!
# The content of an export along its log

An export has one content for each sequence of its log: what it held at its origin, overwritten by
the records up to that sequence (`Origin.contentAt`). A root of the export holds the content at its
base (`RootAt`), and the snapshot of a compaction has the records between the base of its root and
its target (`SnapshotAt`), so that the root published from it holds the content at the target.
-/

namespace NbdServer

open Lib Wal

/-! ## The records of a range -/

namespace Wal

variable {h more : List WalRecord} {a b c : Nat}

lemma recordsIn_eq (cons : Consecutive 0 h) (a b : Nat) : recordsIn h a b = (h.take b).drop a := by
  have split : Consecutive 0 (h.take b ++ h.drop b) := by rwa [List.take_append_drop]
  have above : (h.drop b).filter (fun r => a < r.seq ∧ r.seq ≤ b) = [] := by
    refine List.filter_eq_nil_iff.2 fun r mem => ?_
    have := split.right.bounds mem
    have long : b < h.length := by
      by_contra short
      rw [List.drop_eq_nil_of_le (by omega)] at mem
      cases mem
    rw [List.length_take] at this
    simp only [decide_eq_true_eq]
    omega
  rw [← split.left.filter_eq_drop, recordsIn]
  conv_lhs => rw [← List.take_append_drop b h]
  rw [List.filter_append, above, List.append_nil]
  refine List.filter_congr fun r mem => ?_
  have := split.left.bounds mem
  rw [List.length_take] at this
  exact decide_eq_decide.2 ⟨fun h => h.1, fun h => ⟨h, by omega⟩⟩

lemma recordsIn_self (h : List WalRecord) (a : Nat) : recordsIn h a a = [] := by
  refine List.filter_eq_nil_iff.2 fun r _ => ?_
  simp only [decide_eq_true_eq]
  omega

lemma recordsIn_append (cons : Consecutive 0 (h ++ more)) (le : b ≤ h.length) :
    recordsIn (h ++ more) a b = recordsIn h a b := by
  rw [recordsIn_eq cons, recordsIn_eq cons.left, List.take_append_of_le_length le]

lemma recordsIn_split (cons : Consecutive 0 h) (ab : a ≤ b) (bc : b ≤ c) :
    recordsIn h a c = recordsIn h a b ++ recordsIn h b c := by
  rw [recordsIn_eq cons, recordsIn_eq cons, recordsIn_eq cons]
  have earlier : (h.take b).drop a = ((h.take c).drop a).take (b - a) := by
    rw [← List.drop_take, List.take_take, min_eq_left bc]
  have later : (h.take c).drop b = ((h.take c).drop a).drop (b - a) := by
    rw [List.drop_drop, Nat.add_sub_cancel' ab]
  rw [earlier, later, List.take_append_drop]

lemma recordsIn_concat {r : WalRecord} (cons : Consecutive 0 (h ++ [r])) (le : a ≤ h.length) :
    recordsIn (h ++ [r]) a (h.length + 1) = recordsIn h a h.length ++ [r] := by
  rw [recordsIn_eq cons, recordsIn_eq cons.left, List.take_length, List.take_of_length_le (by simp),
    List.drop_append_of_le_length le]

lemma recordsIn_length (cons : Consecutive 0 h) (le : b ≤ h.length) :
    (recordsIn h a b).length = b - a := by
  rw [recordsIn_eq cons, List.length_drop, List.length_take, min_eq_left le]

lemma recordsIn_consecutive (cons : Consecutive 0 h) (ab : a ≤ b) (le : b ≤ h.length) :
    Consecutive a (recordsIn h a b) := by
  have whole : Consecutive 0 ((h.take b).take a ++ (h.take b).drop a) := by
    have split : Consecutive 0 (h.take b ++ h.drop b) := by rwa [List.take_append_drop]
    rw [List.take_append_drop]
    exact split.left
  have length : 0 + ((h.take b).take a).length = a := by
    rw [List.length_take, List.length_take]
    omega
  have right := whole.right
  rwa [length, ← recordsIn_eq cons] at right

lemma recordsIn_initial {l : List WalRecord} (cons : Consecutive 0 h) (ab : a ≤ b)
    (le : b ≤ h.length) (initial : l <+: recordsIn h a b) :
    a + l.length ≤ b ∧ l = recordsIn h a (a + l.length) := by
  have short : a + l.length ≤ b := by
    have := initial.length_le
    rw [recordsIn_length cons le] at this
    omega
  refine ⟨short, ?_⟩
  obtain ⟨rest, eq⟩ := initial
  rw [recordsIn_split cons (Nat.le_add_right a l.length) short] at eq
  refine (List.append_inj eq ?_).1
  rw [recordsIn_length cons (by omega)]
  omega

lemma mem_recordsIn {r : WalRecord} : r ∈ recordsIn h a b ↔ r ∈ h ∧ a < r.seq ∧ r.seq ≤ b := by
  rw [recordsIn, List.mem_filter, decide_eq_true_eq]

end Wal

lemma contentAfter_congr {base base' : Nat → UInt8} {x : Nat} (same : base x = base' x)
    (l : List WalRecord) :
    contentAfter base l x = contentAfter base' l x := by
  unfold contentAfter flat
  rw [same]

/-! ## The content at a sequence -/

/-- The content of an export after the records of its log up to `seq`. -/
def Origin.contentAt (o : Origin) (h : List WalRecord) (seq : Nat) : Nat → UInt8 :=
  contentAfter o.content (recordsIn h o.base seq)

namespace Origin

variable {o : Origin} {h more : List WalRecord} {a b : Nat}

lemma contentAt_base (o : Origin) (h : List WalRecord) : o.contentAt h o.base = o.content := by
  unfold contentAt
  rw [recordsIn_self]
  rfl

lemma contentAt_append (cons : Consecutive 0 (h ++ more)) (le : b ≤ h.length) :
    o.contentAt (h ++ more) b = o.contentAt h b := by
  unfold contentAt
  rw [recordsIn_append cons le]

lemma contentAt_later (cons : Consecutive 0 h) (first : o.base ≤ a) (le : a ≤ b) (x : Nat) :
    o.contentAt h b x = contentAfter (o.contentAt h a) (recordsIn h a b) x := by
  unfold contentAt
  rw [recordsIn_split cons first le]
  exact flat_append

end Origin

structure RootAt (o : Origin) (h : List WalRecord) (committed : RootSnapshot → Nat → UInt8)
    (root : RootSnapshot) :
    Prop where
  size_eq : root.sizeBytes = o.size
  origin_le : o.base ≤ root.baseWalSeq
  base_le : root.baseWalSeq ≤ h.length
  content : ∀ x < o.size, committed root x = o.contentAt h root.baseWalSeq x

/-- The snapshot has the records of the log between the base of its root and its target. -/
structure SnapshotAt (h : List WalRecord) (sn : CompactionSnapshot) : Prop where
  base_le : sn.root.baseWalSeq ≤ sn.targetWalSeq
  target_le : sn.targetWalSeq ≤ h.length
  overlay : ∀ x, sn.overlay.writer x = writerIn (recordsIn h sn.root.baseWalSeq sn.targetWalSeq) x

section

variable {o : Origin} {h more : List WalRecord} {committed committed' : RootSnapshot → Nat → UInt8}
  {root : RootSnapshot} {sn : CompactionSnapshot}

lemma RootAt.append (ok : RootAt o h committed root) (cons : Consecutive 0 (h ++ more)) :
    RootAt o (h ++ more) committed root :=
  { ok with
    base_le := ok.base_le.trans (by simp)
    content := by rw [Origin.contentAt_append cons ok.base_le]; exact ok.content }

lemma RootAt.congr (ok : RootAt o h committed root) (same : committed' root = committed root) :
    RootAt o h committed' root := { ok with content := by rw [same]; exact ok.content }

lemma SnapshotAt.append (ok : SnapshotAt h sn) (cons : Consecutive 0 (h ++ more)) :
    SnapshotAt (h ++ more) sn :=
  { ok with
    target_le := ok.target_le.trans (by simp)
    overlay := by rw [recordsIn_append cons ok.target_le]; exact ok.overlay }

lemma RootAt.contentAfter (ok : RootAt o h committed root) (cons : Consecutive 0 h) {seq : Nat}
    (le : root.baseWalSeq ≤ seq) {x : Nat} (lt : x < o.size) :
    contentAfter (committed root) (recordsIn h root.baseWalSeq seq) x = o.contentAt h seq x := by
  rw [Origin.contentAt_later cons ok.origin_le le]
  exact contentAfter_congr (ok.content x lt) _

lemma SnapshotAt.published (ok : SnapshotAt h sn) (old : RootAt o h committed sn.root)
    (cons : Consecutive 0 h) (p : ViewWorld.Publishes committed sn root) :
    RootAt o h committed root where
  size_eq := p.size_eq.trans old.size_eq
  origin_le := by
    have := old.origin_le
    have := ok.base_le
    rw [p.base_eq]
    omega
  base_le := by
    rw [p.base_eq]
    exact ok.target_le
  content := by
    intro x lt
    rw [p.content x (by rw [old.size_eq]; exact lt), p.base_eq, ok.overlay,
      ← old.contentAfter cons ok.base_le lt]
    cases writer : writerIn (recordsIn h sn.root.baseWalSeq sn.targetWalSeq) x with
    | some r => rw [NbdServer.contentAfter, flat_of_some writer]
    | none => rw [NbdServer.contentAfter, flat_of_none writer]

lemma SnapshotOf.snapshotAt {first : RootSnapshot} {applied done pending : List WalRecord}
    (snap : SnapshotOf committed first applied sn done pending) (cons : Consecutive 0 h)
    (le : first.baseWalSeq ≤ h.length) (log : applied <+: recordsIn h first.baseWalSeq h.length) :
    SnapshotAt h sn := by
  obtain ⟨short, eq⟩ := recordsIn_initial cons le le_rfl (snap.initial.trans log)
  have base_eq := snap.base_eq
  have target_eq := snap.target_eq
  rw [List.length_append] at short eq
  rw [recordsIn_split cons (Nat.le_add_right _ done.length) (by omega)] at eq
  have parts := List.append_inj eq (by
    rw [recordsIn_length cons (by omega)]
    omega)
  refine ⟨by omega, by omega, fun x => ?_⟩
  rw [snap.overlay, parts.2, base_eq, target_eq, Nat.add_assoc]

end

end NbdServer
