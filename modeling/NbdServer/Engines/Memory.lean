import NbdServer.Catalog.Types
import NbdServer.Export.Serial

/-!
# The memory engine

Model of `engines/memory.rs`. The storage is shared by all requests without a lock; a request copies
its bytes one at a time (`MemoryTask.step`), and the steps of different requests interleave.
`execute` is what the same functions do when nothing else runs.

`memory_runtime_serializes` says that the concurrent runtime answers every request as if the
requests were executed one after the other, and that no two requests are ever at the same byte at
once if one of them writes it, which is what the `unsafe` shared storage relies on.
-/

namespace NbdServer

open Admission Lib

/-- Rust `MAX_MEMORY_EXPORT_BYTES`. -/
def MAX_MEMORY_EXPORT_BYTES : Nat := 64 * 1024 * 1024

/-- Rust `MemoryExportEngine`, without its storage. -/
structure MemoryExportEngine where
  sizeBytes : Nat
  size_le : sizeBytes ≤ MAX_MEMORY_EXPORT_BYTES

/-- Rust `MemoryStorage` of a given size. -/
@[ext] structure MemoryStorage (sizeBytes : Nat) where
  bytes : Buf
  length : bytes.length = sizeBytes
  deriving DecidableEq

namespace MemoryStorage

variable {n : Nat}

/-- Rust `MemoryStorage::new`. -/
def new (sizeBytes : Nat) : MemoryStorage sizeBytes :=
  ⟨List.replicate sizeBytes 0, List.length_replicate⟩

/-- Rust `MemoryStorage::read`, run alone. A pointer outside the storage is an abort. -/
def read (s : MemoryStorage n) (start len : Nat) : Res Buf :=
  if start + len ≤ n then .ok (slice s.bytes start len)
  else .error (.abort "read outside of the storage")

/-- Rust `MemoryStorage::write`, run alone. -/
def write (s : MemoryStorage n) (start : Nat) (data : Buf) : Res (MemoryStorage n) :=
  if h : start + data.length ≤ n then
    .ok ⟨splice s.bytes start data, by rw [length_splice (by rw [s.length]; exact h), s.length]⟩
  else .error (.abort "write outside of the storage")

def put (s : MemoryStorage n) (i : Nat) (b : UInt8) : MemoryStorage n :=
  ⟨s.bytes.set i b, by rw [List.length_set, s.length]⟩

end MemoryStorage

/-- Rust `MemoryAdmissionPolicy::operation_for`. -/
def MemoryAdmissionPolicy.operationFor (sizeBytes : Nat) : ExportRequest → Res AdmissionOp
  | .read offset len => .ok (.read (.new offset.toNat len.toNat))
  | .write offset data =>
    if data.length < U32 then .ok (.write (.new offset.toNat data.length))
    else fail (.outOfBounds "write" offset.toNat data.length sizeBytes)
  | .flush => .ok .flush

/-- How far `execute_admitted` has come with a request. -/
inductive MemoryTask where
  | start (request : ExportRequest)
  | reading (start len : Nat) (data : Buf)
  | writing (start : Nat) (data : Buf) (copied : Nat)
  | finished (result : ExportResult)

namespace MemoryExportEngine

variable (e : MemoryExportEngine)

/-- Rust `MemoryExportEngine::validate_range`. -/
def validateRange (operation : String) (offset length : Nat) : Res Nat := do
  let error := .outOfBounds operation offset length e.sizeBytes
  let stop ← okOr (checkedAdd offset length) error
  if stop > e.sizeBytes then fail error else .ok offset

/-- Rust `MemoryExportEngine::read`, run alone. -/
def read (s : MemoryStorage e.sizeBytes) (offset len : Nat) : Res Buf := do
  let start ← e.validateRange "read" offset len
  s.read start len

/-- Rust `MemoryExportEngine::write`, run alone. -/
def write (s : MemoryStorage e.sizeBytes) (offset : Nat) (data : Buf) :
    Res (MemoryStorage e.sizeBytes) := do
  let start ← e.validateRange "write" offset data.length
  s.write start data

/-- Rust `MemoryExportEngine::execute_admitted`, run alone. -/
def execute (s : MemoryStorage e.sizeBytes) : ExportRequest →
    ExportResult × MemoryStorage e.sizeBytes
  | .read offset len =>
    match e.read s offset.toNat len.toNat with
    | .ok data => (.ok (.read data), s)
    | .error fault => (.error fault, s)
  | .write offset data =>
    match e.write s offset.toNat data with
    | .ok s' => (.ok .done, s')
    | .error fault => (.error fault, s)
  | .flush => (.ok .done, s)

/-- One step of `execute_admitted`: the range check, one byte, or the end. -/
def step : MemoryTask → MemoryStorage e.sizeBytes → MemoryTask × MemoryStorage e.sizeBytes
  | .start (.read offset len), s =>
    match e.validateRange "read" offset.toNat len.toNat with
    | .ok start => (.reading start len.toNat [], s)
    | .error fault => (.finished (.error fault), s)
  | .start (.write offset data), s =>
    match e.validateRange "write" offset.toNat data.length with
    | .ok start => (.writing start data 0, s)
    | .error fault => (.finished (.error fault), s)
  | .start .flush, s => (.finished (.ok .done), s)
  | .reading start len data, s =>
    if data.length < len then
      match s.bytes[start + data.length]? with
      | some b => (.reading start len (data ++ [b]), s)
      | none => (.finished (.error (.abort "read outside of the storage")), s)
    else (.finished (.ok (.read data)), s)
  | .writing start data copied, s =>
    match data[copied]? with
    | some b =>
      if start + copied < e.sizeBytes then
        (.writing start data (copied + 1), s.put (start + copied) b)
      else (.finished (.error (.abort "write outside of the storage")), s)
    | none => (.finished (.ok .done), s)
  | .finished result, s => (.finished result, s)

/-- The engine as the runtime sees it. It has no tasks of its own. -/
def engine : Engine (MemoryStorage e.sizeBytes) MemoryTask where
  operationFor := MemoryAdmissionPolicy.operationFor e.sizeBytes
  start := .start
  step l s l' s' := e.step l s = (l', s')
  result
    | .finished result => some result
    | _ => none
  background _ _ := False

/-- The runs of the concurrent runtime over the engine. -/
def runtime : System (Runtime (MemoryStorage e.sizeBytes) MemoryTask) RuntimeEvent :=
  runtimeSystem e.engine e.sizeBytes (· = .new e.sizeBytes)

lemma validateRange_eq (operation : String) (offset length : Nat) :
    e.validateRange operation offset length =
      if offset + length ≤ e.sizeBytes then .ok offset
      else fail (.outOfBounds operation offset length e.sizeBytes) := by
  have size := e.size_le
  have small : MAX_MEMORY_EXPORT_BYTES < U64 := by decide
  unfold validateRange checkedAdd
  by_cases fits : offset + length < U64
  · simp only [if_pos fits, okOr_some, Res.ok_bind]
    split_ifs <;> first | rfl | omega
  · rw [if_neg fits, if_neg (by omega)]
    rfl

lemma execute_read (s : MemoryStorage e.sizeBytes) (offset : UInt64) (len : UInt32) :
    e.execute s (.read offset len) =
      if offset.toNat + len.toNat ≤ e.sizeBytes then
        (.ok (.read (slice s.bytes offset.toNat len.toNat)), s)
      else (fail (.outOfBounds "read" offset.toNat len.toNat e.sizeBytes), s) := by
  simp only [execute, read, validateRange_eq]
  by_cases fits : offset.toNat + len.toNat ≤ e.sizeBytes
  · simp [fits, MemoryStorage.read]
  · simp only [if_neg fits]
    rfl

lemma execute_write (s : MemoryStorage e.sizeBytes) (offset : UInt64) (data : Buf) :
    e.execute s (.write offset data) =
      if h : offset.toNat + data.length ≤ e.sizeBytes then
        (.ok .done, ⟨splice s.bytes offset.toNat data, by
          rw [length_splice (by rw [s.length]; exact h), s.length]⟩)
      else (fail (.outOfBounds "write" offset.toNat data.length e.sizeBytes), s) := by
  simp only [execute, write, validateRange_eq]
  by_cases fits : offset.toNat + data.length ≤ e.sizeBytes
  · simp [fits, MemoryStorage.write]
  · simp only [if_neg fits, dif_neg fits]
    rfl

/-- The bytes a request reads and writes; none if it is out of bounds. -/
def foot : ExportRequest → Footprint Nat
  | .read offset len =>
    ⟨{c | offset.toNat ≤ c ∧ c < offset.toNat + len.toNat ∧ offset.toNat + len.toNat ≤ e.sizeBytes},
      ∅⟩
  | .write offset data =>
    ⟨∅, {c | offset.toNat ≤ c ∧ c < offset.toNat + data.length ∧
      offset.toNat + data.length ≤ e.sizeBytes}⟩
  | .flush => ⟨∅, ∅⟩

lemma mem_cells {request : ExportRequest} {op : AdmissionOp}
    (hop : MemoryAdmissionPolicy.operationFor e.sizeBytes request = .ok op) {c : Nat}
    (hc : c ∈ (e.foot request).cells) :
    ∃ range : ByteRange, range.Has c ∧ range.start + range.len < U64 ∧
      (op = .read range ∧ (e.foot request).writes = ∅ ∨ op = .write range) := by
  have size := e.size_le
  have small : MAX_MEMORY_EXPORT_BYTES < U64 := by decide
  cases request with
  | read offset len =>
    cases hop
    have start := ByteRange.new_start (l := len.toNat) offset.toNat_lt
    have length := ByteRange.new_len (s := offset.toNat) len.toNat_lt
    simp only [foot, Footprint.cells, Set.union_empty, Set.mem_ofPred_eq] at hc
    refine ⟨.new offset.toNat len.toNat, ?_, by rw [start, length]; omega, .inl ⟨rfl, rfl⟩⟩
    rw [ByteRange.Has, start, length]
    omega
  | write offset data =>
    by_cases short : data.length < U32
    swap
    · simp [MemoryAdmissionPolicy.operationFor, short, fail] at hop
    simp only [MemoryAdmissionPolicy.operationFor, if_pos short] at hop
    cases hop
    have start := ByteRange.new_start (l := data.length) offset.toNat_lt
    have length := ByteRange.new_len (s := offset.toNat) short
    simp only [foot, Footprint.cells, Set.empty_union, Set.mem_ofPred_eq] at hc
    refine ⟨.new offset.toNat data.length, ?_, by rw [start, length]; omega, .inr rfl⟩
    rw [ByteRange.Has, start, length]
    omega
  | flush => simp [foot, Footprint.cells] at hc

lemma writes_disjoint {request request' : ExportRequest} {op op' : AdmissionOp}
    (hop : MemoryAdmissionPolicy.operationFor e.sizeBytes request = .ok op)
    (hop' : MemoryAdmissionPolicy.operationFor e.sizeBytes request' = .ok op')
    (apart : op.conflicts op' = false) : Disjoint (e.foot request).writes
      (e.foot request').cells := by
  rw [Set.disjoint_left]
  intro c hc hc'
  obtain ⟨r, has, fits, kind⟩ := e.mem_cells hop (.inr hc)
  obtain ⟨r', has', fits', kind'⟩ := e.mem_cells hop' hc'
  have overlaps : r.overlaps r' = false := by
    rcases kind with ⟨-, none⟩ | rfl
    · simp [none] at hc
    · rcases kind' with ⟨rfl, -⟩ | rfl
      · exact apart
      · exact apart
  exact ByteRange.apart_of_overlaps_eq_false overlaps fits fits' has has'

lemma foot_compatible {request request' : ExportRequest} {op op' : AdmissionOp}
    (hop : MemoryAdmissionPolicy.operationFor e.sizeBytes request = .ok op)
    (hop' : MemoryAdmissionPolicy.operationFor e.sizeBytes request' = .ok op')
    (apart : op.conflicts op' = false) : (e.foot request).Compatible (e.foot request') :=
  ⟨e.writes_disjoint hop hop' apart,
    e.writes_disjoint hop' hop (by rw [AdmissionOp.conflicts_comm]; exact apart)⟩

/-- The storage as a store of bytes, with the steps of the requests. -/
def machine : Machine (MemoryStorage e.sizeBytes) Nat (Option UInt8) MemoryTask where
  cell s i := s.bytes[i]?
  ext same := MemoryStorage.ext (List.ext_getElem? same)
  step := e.step

def Own (request : ExportRequest) : MemoryTask → Prop
  | .start r => r = request
  | .reading start len _ => ∃ offset length, request = .read offset length ∧ start = offset.toNat ∧
      len = length.toNat ∧ start + len ≤ e.sizeBytes
  | .writing start data _ => ∃ offset, request = .write offset data ∧ start = offset.toNat ∧
      start + data.length ≤ e.sizeBytes
  | .finished _ => True

lemma own_step {request : ExportRequest} {l : MemoryTask} (s : MemoryStorage e.sizeBytes)
    (own : e.Own request l) : e.Own request (e.step l s).1 := by
  cases l with
  | start r =>
    obtain rfl : r = request := own
    cases r with
    | read offset len =>
      simp only [step, validateRange_eq]
      by_cases fits : offset.toNat + len.toNat ≤ e.sizeBytes
      · rw [if_pos fits]
        exact ⟨offset, len, rfl, rfl, rfl, fits⟩
      · rw [if_neg fits]
        trivial
    | write offset data =>
      simp only [step, validateRange_eq]
      by_cases fits : offset.toNat + data.length ≤ e.sizeBytes
      · rw [if_pos fits]
        exact ⟨offset, rfl, rfl, fits⟩
      · rw [if_neg fits]
        trivial
    | flush => trivial
  | reading start len data =>
    simp only [step]
    split_ifs
    · split
      · exact own
      · trivial
    · trivial
  | writing start data copied =>
    simp only [step]
    split
    · split_ifs
      · exact own
      · trivial
    · trivial
  | finished r => trivial

lemma step_frame {request : ExportRequest} {l : MemoryTask} {s : MemoryStorage e.sizeBytes}
    {c : Nat} (own : e.Own request l) (out : c ∉ (e.foot request).writes) :
    (e.step l s).2.bytes[c]? = s.bytes[c]? := by
  cases l with
  | start r =>
    cases r <;> simp only [step] <;> split <;> rfl
  | reading start len data =>
    simp only [step]
    split_ifs
    · split <;> rfl
    · rfl
  | writing start data copied =>
    obtain ⟨offset, rfl, rfl, fits⟩ := own
    simp only [step]
    split
    · rename_i b hb
      have short := (List.getElem?_eq_some_iff.1 hb).1
      split_ifs
      · refine List.getElem?_set_ne ?_
        rintro rfl
        exact out ⟨by omega, by omega, fits⟩
      · rfl
    · rfl
  | finished r => rfl

lemma step_agree {request : ExportRequest} {l : MemoryTask} {s t : MemoryStorage e.sizeBytes}
    (own : e.Own request l) (same : ∀ c ∈ (e.foot request).cells, s.bytes[c]? = t.bytes[c]?) :
    (e.step l s).1 = (e.step l t).1 ∧
      ∀ c ∈ (e.foot request).writes, (e.step l s).2.bytes[c]? = (e.step l t).2.bytes[c]? := by
  cases l with
  | start r =>
    have inside := fun c hc => same c (.inr hc)
    cases r with
    | read offset len =>
      simp only [step]
      split <;> exact ⟨rfl, inside⟩
    | write offset data =>
      simp only [step]
      split <;> exact ⟨rfl, inside⟩
    | flush => exact ⟨rfl, inside⟩
  | reading start len data =>
    obtain ⟨offset, length, rfl, rfl, rfl, fits⟩ := own
    refine ⟨?_, by simp [foot]⟩
    simp only [step]
    split_ifs with more
    · rw [same _ (.inl ⟨by omega, by omega, fits⟩)]
      split <;> rfl
    · rfl
  | writing start data copied =>
    obtain ⟨offset, rfl, rfl, fits⟩ := own
    have inside := fun c hc => same c (.inr hc)
    simp only [step]
    split
    · split_ifs
      · refine ⟨rfl, fun c hc => ?_⟩
        simp only [MemoryStorage.put, List.getElem?_set, s.length, t.length, inside c hc]
      · exact ⟨rfl, inside⟩
    · exact ⟨rfl, inside⟩
  | finished r => exact ⟨rfl, fun c hc => same c (.inr hc)⟩

def task (request : ExportRequest) : Task e.machine where
  start := .start request
  foot := e.foot request
  Own := e.Own request
  own_start := rfl
  own_step := e.own_step
  frame := e.step_frame
  agree := e.step_agree

lemma steps_read {start len : Nat} (fits : start + len ≤ e.sizeBytes)
    (s : MemoryStorage e.sizeBytes) {n : Nat} (hn : n ≤ len) :
    e.machine.Steps (.reading start len []) s (.reading start len (slice s.bytes start n)) s := by
  induction n with
  | zero => exact .refl
  | succ n ih =>
    have length : (slice s.bytes start n).length = n := length_slice (by rw [s.length]; omega)
    have next := (ih (by omega)).tail
    have at_n : start + n < s.bytes.length := by
      rw [s.length]
      omega
    have grown : slice s.bytes start (n + 1) = slice s.bytes start n ++ [s.bytes[start + n]] := by
      rw [slice, slice, List.take_add_one, List.getElem?_drop, List.getElem?_eq_getElem at_n]
      rfl
    have step : e.step (.reading start len (slice s.bytes start n)) s =
        (.reading start len (slice s.bytes start (n + 1)), s) := by
      simp only [MemoryExportEngine.step, length, List.getElem?_eq_getElem at_n, grown]
      exact if_pos hn
    change e.machine.Steps _ _ (e.step _ _).1 (e.step _ _).2 at next
    rw [step] at next
    exact next

lemma steps_write {start : Nat} {data : Buf} (fits : start + data.length ≤ e.sizeBytes)
    (s : MemoryStorage e.sizeBytes) {n : Nat} (hn : n ≤ data.length) :
    ∃ t : MemoryStorage e.sizeBytes, t.bytes = splice s.bytes start (data.take n) ∧
      e.machine.Steps (.writing start data 0) s (.writing start data n) t := by
  induction n with
  | zero => exact ⟨s, by simp [splice], .refl⟩
  | succ n ih =>
    obtain ⟨t, bytes, steps⟩ := ih (by omega)
    refine ⟨t.put (start + n) (data[n]), ?_, ?_⟩
    · have short : (data.take n).length = n := List.length_take_of_le (by omega)
      have short' : (data.take (n + 1)).length = n + 1 := List.length_take_of_le hn
      have size := s.length
      apply List.ext_getElem?
      intro i
      rw [MemoryStorage.put, List.getElem?_set, bytes, length_splice (by omega),
        getElem?_splice (by omega), getElem?_splice (by omega), short, short']
      by_cases here : start + n = i
      · subst here
        rw [if_pos rfl, if_pos (by omega), if_pos (by omega), Nat.add_sub_cancel_left,
          List.getElem?_take_of_lt (by omega), List.getElem?_eq_getElem]
      · rw [if_neg here]
        by_cases inside : start ≤ i ∧ i < start + n
        · rw [if_pos inside, if_pos (by omega), List.getElem?_take_of_lt (by omega),
            List.getElem?_take_of_lt (by omega)]
        · rw [if_neg inside, if_neg (by omega)]
    · have next := steps.tail
      change e.machine.Steps _ _ (e.step _ _).1 (e.step _ _).2 at next
      have step : e.step (.writing start data n) t =
          (.writing start data (n + 1), t.put (start + n) data[n]) := by
        simp only [MemoryExportEngine.step, List.getElem?_eq_getElem hn]
        rw [if_pos (by omega)]
      rw [step] at next
      exact next

lemma ends (s : MemoryStorage e.sizeBytes) (request : ExportRequest) :
    e.machine.Steps (.start request) s (.finished (e.execute s request).1)
    (e.execute s request).2 := by
  have first : e.machine.Steps (.start request) s (e.step (.start request) s).1
      (e.step (.start request) s).2 := .tail .refl
  cases request with
  | read offset len =>
    rw [execute_read]
    simp only [step, validateRange_eq] at first
    by_cases fits : offset.toNat + len.toNat ≤ e.sizeBytes
    · rw [if_pos fits] at first ⊢
      have copied := (first.trans (e.steps_read fits s le_rfl)).tail
      have length : (slice s.bytes offset.toNat len.toNat).length = len.toNat :=
        length_slice (by rw [s.length]; exact fits)
      change e.machine.Steps _ _ (e.step _ _).1 (e.step _ _).2 at copied
      simp only [step, length, lt_irrefl, if_false] at copied
      exact copied
    · rw [if_neg fits] at first ⊢
      exact first
  | write offset data =>
    rw [execute_write]
    simp only [step, validateRange_eq] at first
    by_cases fits : offset.toNat + data.length ≤ e.sizeBytes
    · rw [if_pos fits] at first
      rw [dif_pos fits]
      obtain ⟨t, bytes, steps⟩ := e.steps_write fits s le_rfl
      rw [List.take_length] at bytes
      obtain ⟨_, _⟩ := t
      cases bytes
      have copied := (first.trans steps).tail
      change e.machine.Steps _ _ (e.step _ _).1 (e.step _ _).2 at copied
      simp only [step, List.getElem?_length] at copied
      exact copied
    · rw [if_neg fits] at first
      rw [dif_neg fits]
      exact first
  | flush => exact first

lemma refused {request : ExportRequest} {fault : Fault}
    (h : Refused e.engine e.sizeBytes request fault) :
    (∀ s, e.execute s request = (.error fault, s)) ∧ (e.foot request).cells = ∅ := by
  have size := e.size_le
  have small : MAX_MEMORY_EXPORT_BYTES < U32 := by decide
  have extent : e.sizeBytes < U64 := by
    have := U32_lt_U64
    omega
  cases request with
  | read offset len =>
    rcases h with hop | ⟨op, hop, invalid⟩
    · cases hop
    · cases hop
      obtain ⟨outside, rfl⟩ := AdmissionState.validateRange_error extent offset.toNat_lt
        len.toNat_lt invalid
      refine ⟨fun s => by rw [execute_read, if_neg outside]; rfl, ?_⟩
      simp [foot, Footprint.cells, outside]
  | write offset data =>
    -- the policy and the controller give the same error
    obtain ⟨outside, rfl⟩ : ¬ offset.toNat + data.length ≤ e.sizeBytes ∧
        fault = .err (.outOfBounds "write" offset.toNat data.length e.sizeBytes) := by
      by_cases short : data.length < U32
      · have hop : e.engine.operationFor (.write offset data) =
            .ok (.write (.new offset.toNat data.length)) := if_pos short
        rcases h with refused | ⟨op, hop', invalid⟩
        · rw [hop] at refused
          cases refused
        · rw [hop] at hop'
          cases hop'
          exact AdmissionState.validateRange_error extent offset.toNat_lt short invalid
      · have hop : e.engine.operationFor (.write offset data) =
            fail (.outOfBounds "write" offset.toNat data.length e.sizeBytes) := if_neg short
        rcases h with refused | ⟨op, hop', -⟩
        · rw [hop] at refused
          cases refused
          exact ⟨by omega, rfl⟩
        · rw [hop] at hop'
          cases hop'
    refine ⟨fun s => by rw [execute_write, dif_neg outside]; rfl, ?_⟩
    simp [foot, Footprint.cells, outside]
  | flush =>
    rcases h with hop | ⟨op, hop, invalid⟩
    · cases hop
    · cases hop
      cases invalid

/-- The memory engine is a machine whose footprints the policy knows. -/
def serializes : Serializes e.engine e.sizeBytes (· = .new e.sizeBytes) e.machine e.execute where
  task := e.task
  fin := .finished
  fin_inj _ _ same := MemoryTask.finished.inj same
  halted _ _ := rfl
  ends := e.ends
  refused := e.refused
  compatible := e.foot_compatible
  abs s := s
  view l := l
  view_start _ := rfl
  view_result {l r} h := by
    cases l with
    | finished result => exact congrArg _ (Option.some.inj h)
    | _ => cases h
  work _ _ _ _ stepped := .inr stepped.symm
  background _ ran := ran.elim

end MemoryExportEngine

def MemoryTask.Accesses : MemoryTask → Nat → Prop
  | .reading first len _, c => first ≤ c ∧ c < first + len
  | .writing first data _, c => first ≤ c ∧ c < first + data.length
  | _, _ => False

def MemoryTask.Writes : MemoryTask → Nat → Prop
  | .writing first data _, c => first ≤ c ∧ c < first + data.length
  | _, _ => False

namespace MemoryExportEngine

variable {e : MemoryExportEngine} {request : ExportRequest} {l : MemoryTask} {c : Nat}

lemma Own.accesses (own : e.Own request l) (h : l.Accesses c) : c ∈ (e.foot request).cells := by
  cases l with
  | reading start len data =>
    obtain ⟨offset, length, rfl, rfl, rfl, fits⟩ := own
    exact .inl ⟨h.1, h.2, fits⟩
  | writing start data copied =>
    obtain ⟨offset, rfl, rfl, fits⟩ := own
    exact .inr ⟨h.1, h.2, fits⟩
  | _ => cases h

lemma Own.writes (own : e.Own request l) (h : l.Writes c) : c ∈ (e.foot request).writes := by
  cases l with
  | writing start data copied =>
    obtain ⟨offset, rfl, rfl, fits⟩ := own
    exact ⟨h.1, h.2, fits⟩
  | _ => cases h

lemma own_of_reachable {w : Runtime (MemoryStorage e.sizeBytes) MemoryTask}
    (reach : e.runtime.Reachable w) {j t : Nat} {job : Job MemoryTask} (hj : w.jobs[j]? = some job)
    (phase : job.phase = .executing t l) : e.Own job.request l := by
  have serial := e.serializes.serial (fun _ same => same) reach
  rw [(e.serializes.entries_set hj job.phase).1] at serial
  have entry : e.serializes.entry job = ⟨e.task job.request, some l⟩ := by
    rw [Serializes.entry, phase]
    rfl
  rw [entry] at serial
  exact serial.own

end MemoryExportEngine

/-- In every run of the concurrent runtime over a memory export: * a request that has been answered
has the result it gets when the submitted requests are executed one after the other in the order of
their submission, from a zeroed storage; * when all requests have been answered, the storage is the
one that this execution leaves; * the copies of two requests are never at the same byte if one of
them writes it; * a run that cannot go on has answered all requests. -/
theorem memory_runtime_serializes (e : MemoryExportEngine)
    {w : Runtime (MemoryStorage e.sizeBytes) MemoryTask} (reach : e.runtime.Reachable w) :
    (∀ (j : Nat) (job : Job MemoryTask) (r : ExportResult), w.jobs[j]? = some job →
      job.result = some r →
      (executeAll e.execute (.new e.sizeBytes) (w.jobs.map Job.request)).1[j]? = some r) ∧
    ((∀ job ∈ w.jobs, job.result.isSome) →
      w.store = (executeAll e.execute (.new e.sizeBytes) (w.jobs.map Job.request)).2) ∧
    (∀ (i j : Nat) (job job' : Job MemoryTask) (t t' : Nat) (l l' : MemoryTask) (c : Nat), i ≠ j →
      w.jobs[i]? = some job → w.jobs[j]? = some job' →
      job.phase = .executing t l → job'.phase = .executing t' l' →
      l.Writes c → ¬ l'.Accesses c) ∧
    ((∀ event w', (∀ request, event ≠ .submit request) → ¬ e.runtime.step w event w') →
      ∀ job ∈ w.jobs, job.result.isSome) := by
  have tracks := Tracks.of_reachable reach
  refine ⟨?_, e.serializes.final (fun _ same => same) reach, ?_, ?_⟩
  · intro j job r hj result
    exact e.serializes.results (fun _ same => same) reach hj result
  · intro i j job job' t t' l l' c ne hi hj pi pj writes accesses
    obtain ⟨x, -, hop, -⟩ := tracks.slot hi (t := t) (by simp [Job.ticket, pi])
    obtain ⟨y, -, hop', -⟩ := tracks.slot hj (t := t') (by simp [Job.ticket, pj])
    have apart := tracks.exclusive ne hi hj pi pj hop hop'
    have disjoint := e.writes_disjoint hop hop' apart
    have written := (MemoryExportEngine.own_of_reachable reach hi pi).writes writes
    have touched := (MemoryExportEngine.own_of_reachable reach hj pj).accesses accesses
    exact disjoint.notMem_of_mem_left written touched
  · exact tracks.completed_of_stuck fun l s _ => ⟨_, _, rfl⟩

def oneByteExport : MemoryExportEngine := ⟨1, by decide⟩

/-- A read that is submitted while a write to its byte is executed waits for it and returns what was
written. -/
theorem memory_runtime_serializes_read_behind_write :
    ∃ w, oneByteExport.runtime.Reachable w ∧
      w.jobs.map Job.result = [some (.ok .done), some (.ok (.read [7]))] ∧
      (executeAll oneByteExport.execute (.new 1) (w.jobs.map Job.request)).1[1]? =
        some (.ok (.read [7])) := by
  have played : ((⟨.new 1, [], .new 1⟩ : Runtime (MemoryStorage 1) MemoryTask).play
      oneByteExport.engine oneByteExport.step
      [.submit (.write 0 [7]), .promote, .promote, .promote, .wait 0, .begin 0, .work 0,
        .submit (.read 0 1), .promote, .promote, .work 0, .work 0, .finish 0, .promote, .promote,
        .promote, .wait 1, .begin 1, .work 1, .work 1, .work 1, .finish 1]).map
      (fun w => w.jobs.map Job.result) = some [some (.ok .done), some (.ok (.read [7]))] := rfl
  obtain ⟨w, ran, results⟩ := Option.map_eq_some_iff.1 played
  have reach : oneByteExport.runtime.Reachable w :=
    Runtime.reachable_of_play (fun _ _ => rfl) ran (.init ⟨rfl, rfl, rfl⟩)
  refine ⟨w, reach, results, ?_⟩
  have second : (w.jobs.map Job.result)[1]? = some (some (.ok (.read [7]))) := by
    rw [results]
    rfl
  rw [List.getElem?_map] at second
  obtain ⟨job, hj, result⟩ := Option.map_eq_some_iff.1 second
  exact (memory_runtime_serializes oneByteExport reach).1 1 job _ hj result

end NbdServer
