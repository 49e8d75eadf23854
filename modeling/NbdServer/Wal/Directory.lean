import NbdServer.Wal.Layout

/-!
# Effects on the directory of a WAL

What each effect does to a directory that holds a chain of segments, and the state of the WAL that
belongs to a chain (`stateOf`), which is what a scan of the directory returns.
-/

namespace NbdServer

namespace Wal

open Lib

variable {crc : Checksum}

/-- The state of a WAL whose directory holds the chain `segs` after `p`. -/
def stateOf (crc : Checksum) (p : Nat) (segs : List Segment) : LocalWalState :=
  ⟨⟨p, chainLast p segs⟩, segs.getLast?.map fun s => ⟨s.firstSeq, (s.bytes crc).length⟩⟩

lemma stateOf_active (crc : Checksum) (p : Nat) (init : List Segment) (s : Segment) :
    (stateOf crc p (init ++ [s])).active = some ⟨s.firstSeq, (s.bytes crc).length⟩ := by
  rw [stateOf, List.getLast?_concat]
  rfl

lemma entries_write {d : Disk} {l : List (Nat × Buf)} {k : Nat} {data : Buf}
    (h : d.entries = l ++ [(k, data)]) (bytes : Buf) :
    (Effect.apply d (.write k bytes)).entries = l ++ [(k, data ++ bytes)] := by
  have found : d.find k = some data := by
    rw [OrdMap.find_eq_some, h]
    exact List.mem_append_right _ List.mem_cons_self
  rw [Effect.apply, found]
  exact OrdMap.entries_insert_last h

lemma files_write {d : Disk} {init : List Segment} {s : Segment} {tail : Buf} (bytes : Buf)
    (h : d.entries = image crc (init ++ [s]) tail) :
    (Effect.apply d (.write s.firstSeq bytes)).entries = image crc (init ++ [s])
    (tail ++ bytes) := by
  rw [image_concat] at h ⊢
  rw [entries_write h, List.append_assoc]

lemma files_setLen {d : Disk} {init : List Segment} {s : Segment} {tail : Buf}
    (h : d.entries = image crc (init ++ [s]) tail) :
    (Effect.apply d (.setLen s.firstSeq (s.bytes crc).length)).entries =
      image crc (init ++ [s]) [] := by
  rw [image_concat] at h ⊢
  have found : d.find s.firstSeq = some (s.bytes crc ++ tail) := by
    rw [OrdMap.find_eq_some, h]
    exact List.mem_append_right _ List.mem_cons_self
  rw [Effect.apply, found]
  show (d.insert _ _).entries = _
  rw [OrdMap.entries_insert_last h, List.take_left, List.append_nil]

lemma files_remove {d : Disk} {s : Segment} {rest : List Segment}
    (h : d.entries = image crc (s :: rest) []) :
    (Effect.apply d (.remove s.firstSeq)).entries = image crc rest [] := by
  rw [image_nil] at h ⊢
  exact OrdMap.entries_erase (l := []) h

lemma files_remove_last {d : Disk} {s : Segment} {segs : List Segment}
    (h : d.entries = image crc (segs ++ [s]) []) :
    (Effect.apply d (.remove s.firstSeq)).entries = image crc segs [] := by
  rw [image_nil, List.map_append] at h
  rw [image_nil]
  exact (OrdMap.entries_erase h).trans (List.append_nil _)

lemma files_repairLast {d : Disk} {segs : List Segment} {tail : Buf}
    (h : d.entries = image crc segs tail) :
    (replay d (repairLast crc segs tail)).entries = image crc segs [] := by
  rcases List.eq_nil_or_concat' segs with rfl | ⟨init, s, rfl⟩
  · exact h
  · rw [repairLast_concat, repair]
    split
    · rename_i empty
      rw [empty] at h
      exact h
    · exact files_setLen h

lemma scanTail_spec {p : Nat} {segs : List Segment} (c : Chain p segs)
    (active : Option ActiveSegment) :
    scanTail (segs.map (Segment.scan crc)) p active =
      (chainLast p segs, (segs.getLast?.map fun s => ⟨s.firstSeq, (s.bytes crc).length⟩).or
        active) := by
  induction segs generalizing p active with
  | nil => rfl
  | cons s segs ih =>
    obtain ⟨rfl, rest⟩ := c
    have last : ((s.scan crc).records.getLast?.map (·.seq)).getD s.before = s.last := by
      show (s.records.getLast?.map (·.seq)).getD s.before = s.last
      rcases List.eq_nil_or_concat' s.records with h | ⟨rs, r, h⟩
      · simp [h, Segment.last]
      · rw [h, List.getLast?_concat, Option.map_some, Option.getD_some, s.last_eq h]
    rw [List.map_cons, scanTail, last, ih rest]
    cases segs with
    | nil => rfl
    | cons t segs =>
      rw [List.getLast?_cons_cons]
      simp [List.getLast?_cons]
      rfl

lemma prunedThroughOf_scan {p : Nat} {segs : List Segment} (c : Chain p segs)
    (start : segs = [] → p = 0) : prunedThroughOf (segs.map (Segment.scan crc)) = .ok p := by
  cases segs with
  | nil => rw [start rfl]; rfl
  | cons s segs =>
    obtain ⟨rfl, -⟩ := c
    rfl

namespace Holds

variable {d : Disk} {p : Nat} {segs : List Segment} {tail : Buf}

lemma repaired (h : Holds crc d p segs tail) :
    Holds crc (replay d (repairLast crc segs tail)) p segs [] :=
  ⟨h.chain, h.start, files_repairLast h.files, .inl rfl, h.room⟩

lemma scanWalDir {f : Files} (h : Holds crc f.disk p segs tail) (plan : f.plan = []) :
    Wal.scanWalDir crc f = .ok (stateOf crc p segs) (f.issue (repairLast crc segs tail)) := by
  have le : p ≤ chainLast p segs := by
    rw [chainLast_eq h.chain]
    omega
  rw [Wal.scanWalDir, bind_ok (h.scanSegments plan), prunedThroughOf_scan h.chain h.start,
    lift_ok_bind, scanTail_spec h.chain]
  simp only [Option.or_none]
  rw [WalBounds.new, if_neg (by omega), lift_ok_bind]
  rfl

lemma open_ok {f : Files} (h : Holds crc f.disk p segs tail) (plan : f.plan = []) (target : Nat) :
    LocalExportWal.open crc target f =
      .ok ⟨target, f.issue (repairLast crc segs tail), stateOf crc p segs⟩
        (f.issue (repairLast crc segs tail)) := by
  simp only [LocalExportWal.open]
  rw [bind_ok (ask_ok plan _), bind_ok (ask_ok plan _), h.scanWalDir plan]

lemma loadRecords {f : Files} (h : Holds crc f.disk p segs tail) (plan : f.plan = []) :
    Wal.loadRecords crc f = .ok (chainRecords segs) (f.issue (repairLast crc segs tail)) := by
  rw [Wal.loadRecords, bind_ok (h.scanSegments plan), pure_run]
  simp only [List.flatMap_map, chainRecords, Segment.scan]

end Holds

def Segment.empty (before : Nat) : Segment := ⟨before, [], .nil⟩

def Segment.push (s : Segment) (r : WalRecord) (next : r.seq = s.last + 1) : Segment :=
  ⟨s.before, s.records ++ [r], s.consecutive.concat next⟩

def newSegment (crc : Checksum) (k : Nat) : List Effect :=
  [.create k, .write k (encodeSegmentHeader crc k), .sync k]

lemma bytes_empty (before : Nat) :
    (Segment.empty before).bytes crc = encodeSegmentHeader crc (before + 1) := List.append_nil _

lemma bytes_push {s : Segment} {r : WalRecord} (next : r.seq = s.last + 1) :
    (s.push r next).bytes crc = s.bytes crc ++ encodeRecord crc r := by
  simp [Segment.bytes, Segment.push, Segment.firstSeq, frames]

lemma image_push (init : List Segment) {s : Segment} {r : WalRecord} (next : r.seq = s.last + 1) :
    image crc (init ++ [s.push r next]) [] = image crc (init ++ [s]) (encodeRecord crc r) := by
  rw [image_concat, image_concat, bytes_push, List.append_nil]
  rfl

lemma entries_create {d : Disk} {k : Nat} (above : ∀ a ∈ d.entries, a.1 < k) :
    (Effect.apply d (.create k)).entries = d.entries ++ [(k, [])] :=
  OrdMap.entries_insert_above above

lemma files_newSegment {d : Disk} {segs : List Segment} {before : Nat}
    (h : d.entries = image crc segs []) (above : ∀ a ∈ d.entries, a.1 < before + 1) :
    (replay d (newSegment crc (before + 1))).entries = image crc (segs ++ [.empty before]) [] := by
  have created := entries_create above
  rw [h] at created
  rw [image_concat, List.append_nil, bytes_empty, ← image_nil]
  exact entries_write created _

lemma keys_lt {d : Disk} {init : List Segment} {s : Segment} {tail : Buf}
    (h : d.entries = image crc (init ++ [s]) tail) (ne : s.records ≠ []) :
    ∀ a ∈ d.entries, a.1 < s.last + 1 := by
  have ord := d.ordered
  rw [h, image_concat] at ord
  have pos := List.length_pos_of_ne_nil ne
  rw [h, image_concat]
  intro a ha
  rcases List.mem_append.1 ha with ha | ha
  · have : a.1 < s.firstSeq := (List.pairwise_append.1 ord).2.2 a ha _ List.mem_cons_self
    unfold Segment.firstSeq at this
    unfold Segment.last
    omega
  · rw [List.mem_singleton.1 ha]
    show s.before + 1 < _
    unfold Segment.last
    omega

end Wal

end NbdServer
