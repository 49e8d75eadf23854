import NbdServer.Wal.Faults
import NbdServer.Wal.Ordered

/-!
# Failed prunes of the local WAL

Runs of one WAL in which any file operation of a prune may fail. After some of the failures the WAL
stays open with the bounds and the active segment of a directory that is no longer there. The
condition of the results is on the operation that fails (`PruneOp.Harmless`): it comes before the
first change of the directory, or it is a removal after which the state is reloaded. Then the state
of the WAL is that of its directory (`Agrees`), which has the records above the requested sequence.
-/

namespace NbdServer

namespace Wal

open Lib

variable {crc : Checksum}

/-! ## Scans -/

/-- A computation on files that makes `n` operations, returns `a` unless one of them fails, and
changes nothing. -/
structure Reads {α : Type} (x : FileM α) (n : Nat) (f : Files) (a : α) : Prop where
  ends {Op : Type} {good : Op → Nat → List Outcome → Prop} {op : Op} {ops : List Op}
    {plan : List Outcome}
    (passes : Passes good (List.replicate n op ++ ops) plan) :
    Ends x { f with plan := plan }
      (fun b f' => b = a ∧ ∃ rest, Passes good ops rest ∧ f' = { f with plan := rest })
      fun f' => ∃ n rest, good op n rest ∧ f' = { f with plan := rest }

namespace Reads

variable {α β : Type} {f : Files} {n m : Nat}

lemma bind {x : FileM α} {g : α → FileM β} {a : α} {b : β} (first : Reads x n f a)
    (rest : Reads (g a) m f b) : Reads (x >>= g) (n + m) f b := by
  refine ⟨fun passes => ?_⟩
  rw [List.replicate_add, List.append_assoc] at passes
  refine .bind ((first.ends passes).mono ?_ fun _ failed => failed)
  rintro _ _ ⟨rfl, left, passes, rfl⟩
  exact rest.ends passes

lemma of_run {x : FileM α} {a : α}
    (run : ∀ plan, x { f with plan := plan } = .ok a { f with plan := plan }) : Reads x 0 f a :=
  ⟨fun passes => .of_ok (run _) ⟨rfl, _, passes, rfl⟩⟩

lemma pure (a : α) : Reads (Pure.pure a) 0 f a := of_run fun _ => rfl

lemma lift_bind {g : α → FileM β} {a : α} {b : β} (rest : Reads (g a) n f b) :
    Reads (liftM (Except.ok a : Res α) >>= g) n f b :=
  ⟨fun passes => .bind (.of_ok rfl (rest.ends passes))⟩

lemma get {g : Files → FileM β} {b : β} (rest : ∀ plan, Reads (g { f with plan := plan }) n f b) :
    Reads (MonadState.get >>= g) n f b :=
  ⟨fun passes => .bind (.of_ok rfl ((rest _).ends passes))⟩

lemma ask (context : String) : Reads (Wal.ask context) 1 f () := by
  constructor
  rintro Op good op ops (_ | ⟨_ | n, rest⟩) passes
  · exact .of_ok rfl ⟨rfl, [], passes_nil, rfl⟩
  · exact .of_ok rfl ⟨rfl, rest, passes, rfl⟩
  · exact .of_error rfl ⟨n, rest, passes, rfl⟩

lemma readFile {seq : Nat} {data : Buf} (found : f.disk.find seq = some data) (context : String) :
    Reads (Wal.readFile context seq) 1 f data := by
  have has : f.disk.Has seq := by
    rw [OrdMap.Has, found]
    rfl
  have value : (f.disk.find seq).getD [] = data := by
    rw [found]
    rfl
  have opened : Reads (openSegment context seq) (0 + 1) f () :=
    bind (of_run fun plan => checkExists_ok (f := { f with plan := plan }) has context)
      (ask context)
  refine bind (m := 0) opened (get fun plan => ?_)
  exact value ▸ pure _

lemma listSegments {l : List Nat} (pos : ∀ n ∈ l, n ≠ 0) :
    Reads (Wal.listSegments l) l.length f () := by
  induction l with
  | nil => exact pure ()
  | cons n l ih =>
    rw [List.length_cons, Nat.add_comm]
    refine bind (ask _) (get fun plan => ?_)
    rw [parseSegmentFileName, if_neg (pos n List.mem_cons_self)]
    exact lift_bind (ih fun m hm => pos m (List.mem_cons_of_mem _ hm))

lemma scanSegment {s : Segment} (found : f.disk.find s.firstSeq = some (s.bytes crc))
    (small : s.Small crc) (isNewest : Bool) :
    Reads (Wal.scanSegment crc s.firstSeq s.firstSeq isNewest) 1 f (s.scan crc) := by
  refine bind (m := 0) (readFile found _) (get fun plan => ?_)
  have header := decodeSegmentHeader_encode crc small.first_lt (segmentPath f.dir s.firstSeq)
    (frames crc s.records)
  have records : Reads (scanRecords crc s.firstSeq (s.bytes crc) isNewest ((s.bytes crc).length + 1)
      SEGMENT_HEADER_LEN s.firstSeq []) 0 f ((s.bytes crc).length, s.records) := by
    refine of_run fun plan => ?_
    obtain ⟨fuel, run⟩ := scanRecords_segment small isNewest [] { f with plan := plan }
    rw [List.append_nil, length_encodeSegmentHeader] at run
    rw [run, scanRecords_end]
  show Reads (liftM (decodeSegmentHeader crc (segmentPath f.dir s.firstSeq) (s.bytes crc)) >>= _) 0
    f _
  rw [Segment.bytes, header]
  refine lift_bind ?_
  rw [if_neg (not_not.2 rfl)]
  exact bind (m := 0) records (pure _)

lemma scanEntries {p : Nat} {segs : List Segment} (acc : List SegmentScan) (chain : Chain p segs)
    (found : ∀ s ∈ segs, f.disk.find s.firstSeq = some (s.bytes crc))
    (small : ∀ s ∈ segs, s.Small crc) :
    Reads (Wal.scanEntries crc (segs.map Segment.firstSeq) (p + 1) acc) segs.length f
      (acc ++ segs.map (Segment.scan crc)) := by
  induction segs generalizing p acc with
  | nil => exact (List.append_nil acc).symm ▸ pure acc
  | cons s segs ih =>
    obtain ⟨rfl, later⟩ := chain
    have first : ¬ s.firstSeq ≠ s.before + 1 := not_not.2 rfl
    rw [List.length_cons, Nat.add_comm segs.length]
    refine get fun plan => ?_
    rw [if_neg first]
    refine bind (scanSegment (found s List.mem_cons_self) (small s List.mem_cons_self) _) ?_
    rw [expectedNext_scan (small s List.mem_cons_self)]
    refine lift_bind ?_
    have rest := ih (acc ++ [s.scan crc]) later (fun t ht => found t (List.mem_cons_of_mem _ ht))
      fun t ht => small t (List.mem_cons_of_mem _ ht)
    rwa [List.append_assoc] at rest

end Reads

/-- The number of operations of a scan of `n` segments: the directory, its entries and the files are
read. -/
def scanCount (n : Nat) : Nat := 1 + (n + n)

namespace Holds

variable {f : Files} {p : Nat} {segs : List Segment}

lemma reads_scanSegments (h : Holds crc f.disk p segs []) :
    Reads (Wal.scanSegments crc) (scanCount segs.length) f (segs.map (Segment.scan crc)) := by
  have pos : ∀ n ∈ segs.map Segment.firstSeq, n ≠ 0 := by
    intro n hn
    obtain ⟨s, -, rfl⟩ := List.mem_map.1 hn
    exact Nat.succ_ne_zero _
  have found : ∀ s ∈ segs, f.disk.find s.firstSeq = some (s.bytes crc) := by
    intro s hs
    refine h.found (s.firstSeq, s.bytes crc) ?_
    rw [image_nil]
    exact List.mem_map.2 ⟨s, hs, rfl⟩
  have keys : f.disk.entries.map (·.1) = segs.map Segment.firstSeq := by
    rw [h.files, image_keys]
  have listed : Reads (Wal.listSegments (segs.map Segment.firstSeq)) segs.length f () := by
    have listed : Reads _ (segs.map Segment.firstSeq).length f () := .listSegments pos
    rwa [List.length_map] at listed
  refine .bind (.ask _) (.get fun plan => ?_)
  show Reads (do
    listSegments (f.disk.entries.map (·.1))
    scanEntries crc (f.disk.entries.map (·.1)) ((f.disk.entries.map (·.1)).head?.getD 1) []) _ f _
  rw [keys, h.first_eq]
  exact .bind listed (.scanEntries [] h.chain found (h.chain.small h.room))

lemma reads_scanWalDir (h : Holds crc f.disk p segs []) :
    Reads (Wal.scanWalDir crc) (scanCount segs.length) f (stateOf crc p segs) := by
  have le : p ≤ chainLast p segs := by
    rw [chainLast_eq h.chain]
    omega
  refine .bind (m := 0) h.reads_scanSegments ?_
  rw [prunedThroughOf_scan h.chain h.start]
  refine .lift_bind ?_
  rw [scanTail_spec h.chain]
  simp only [Option.or_none]
  rw [WalBounds.new, if_neg (by omega)]
  exact .lift_bind (.pure _)

end Holds

/-! ## The condition -/

/-- A file operation of a prune, after the removal of some segments. -/
inductive PruneOp where
  | scan
  /-- The removal of a segment other than the active one, when `segments` files are left. -/
  | remove (removed segments : Nat)
  /-- The creation of the replacement of the active segment. -/
  | create (removed : Nat)
  /-- The write of its header, the sync of the header, and the sync of the directory. -/
  | replacement
  /-- The removal of the active segment, when `segments` files are left. -/
  | removeActive (removed segments : Nat)
  /-- The sync of the directory and the scan at the end. -/
  | reload
  deriving DecidableEq

/-- The state is reloaded from `segments` files without a failure. -/
def Reloads (segments : Nat) (plan : List Outcome) : Prop :=
  Passes (fun (_ : Unit) _ _ => False) (List.replicate (1 + scanCount segments) ()) plan

/-- The failure of the operation leaves the state that of the directory. The answers that are left
are those to the reload after a failed removal. -/
def PruneOp.Harmless : PruneOp → Nat → List Outcome → Prop
  | .scan, _, _ => True
  | .remove removed segments, _, rest => removed = 0 ∨ Reloads segments rest
  | .create removed, _, _ => removed = 0
  | .removeActive removed segments, _, rest => removed = 0 ∨ Reloads segments rest
  | .replacement, _, _ => False
  | .reload, _, _ => False

/-- The replacement of the active segment after the removal of others, with `segments` files
left. -/
def replaceOps (removed segments : Nat) : List PruneOp :=
  [.create removed, .replacement, .replacement, .replacement, .removeActive removed (segments + 1)]

/-- The file operations of a prune in their order. A segment that is not the last one is removed
when the next one starts at `seq + 1` at most, and the active one when it has records and all are
pruned. -/
def pruneOps (w : LocalExportWal) (seq : Nat) : List PruneOp :=
  let paths := w.files.disk.entries.map (·.1)
  let retired := (paths.tail.filter (· ≤ seq + 1)).length
  let rolls := w.state.active.any (·.path ≤ w.state.bounds.lastDurable) ∧
    w.state.bounds.lastDurable ≤ seq
  if w.state.bounds.lastDurable < seq then []
  else List.replicate (scanCount paths.length) .scan ++
    ((List.range' 0 retired).map (fun i => .remove i (paths.length - i)) ++
      ((if rolls then replaceOps retired (paths.length - retired) else []) ++
        if retired = 0 ∧ ¬ rolls then []
        else List.replicate (1 + scanCount (paths.length - retired)) .reload))

/-- The files of a WAL with the effects so far as the directory at the start, and no answers
left. -/
def LocalExportWal.settled (w : LocalExportWal) : LocalExportWal :=
  { w with files := ⟨w.files.dir, w.files.disk, [], []⟩ }

/-- A call of the log, or a prune whose file operations are answered by `plan`. -/
inductive PruneEvent where
  | log (c : LogCall)
  | prune (seq : Nat) (plan : List Outcome)

def WalWorld.pruneEvent (crc : Checksum) (w : WalWorld) : PruneEvent → WalWorld
  | .log c => w.logCall crc c
  | .prune seq plan =>
    ⟨(finalState (pruneThrough crc seq (w.wal.withPlan plan))).settled, w.history,
      max w.pruneRequest seq⟩

/-- A prune fails only in an operation whose failure is harmless. -/
def WalWorld.Harmless (w : WalWorld) : PruneEvent → Prop
  | .log _ => True
  | .prune seq plan => Passes PruneOp.Harmless (pruneOps w.wal seq) plan

/-- The runs of a WAL from an empty directory whose steps all meet `safe`. -/
def pruneSystem (crc : Checksum) (target : Nat) (safe : WalWorld → PruneEvent → Prop) :
    System WalWorld PruneEvent where
  init := (crashSystem crc target).init
  step w event w' := safe w event ∧ w' = w.pruneEvent crc event

/-- The log of a WAL is consistent: every scan and every reopening succeeds and finds the records
above the requested sequences, and a replay that succeeds returns every record of its range. -/
structure Consistent (crc : Checksum) (w : WalWorld) : Prop where
  scan : ∃ scans f, scanSegments crc w.wal.files = .ok scans f ∧
    ∀ r ∈ w.history, w.pruneRequest < r.seq → r ∈ scans.flatMap (·.records)
  reopen : ∃ wal f records f', w.wal.reopen crc = .ok wal f ∧
    loadRecords crc wal.files = .ok records f' ∧
    ∀ r ∈ w.history, w.pruneRequest < r.seq → r ∈ records
  replay (after through : Nat) {records wal} (run : replayRange crc after through w.wal =
    .ok records wal) :
    records.map (·.seq) = List.range' (after + 1) (through - after) ∧ ∀ r ∈ records, r ∈ w.history

/-! ## The steps of a prune -/

/-- The chain `segs'` after `p'` has the records of the chain `segs` after `p` above a requested
sequence. -/
def Kept (p : Nat) (segs : List Segment) (seq p' : Nat) (segs' : List Segment) : Prop :=
  p' ≤ max p seq ∧ ∀ history, Logs history p segs → Logs history p' segs'

/-- The state of a WAL is that of its directory, which has the records of a chain above a requested
sequence. -/
def Agrees (crc : Checksum) (target p : Nat) (segs : List Segment) (seq : Nat)
    (w : LocalExportWal) :
    Prop :=
  w.segmentTargetBytes = target ∧ ∃ p' segs', Holds crc w.files.disk p' segs' [] ∧
    w.state = stateOf crc p' segs' ∧ Kept p segs seq p' segs'

lemma Kept.drop {p seq p' : Nat} {segs segs' : List Segment} {t : Segment}
    (h : Kept p segs seq p' (t :: segs')) (chain : Chain p' (t :: segs')) (retired : t.last ≤ seq) :
    Kept p segs seq (chainLast p' [t]) segs' :=
  ⟨le_max_of_le_right retired,
    fun history logs => @Logs.drop _ _ [t] _ (h.2 history logs) chain⟩

lemma Kept.newSegment {p seq p' : Nat} {segs segs' : List Segment} (h : Kept p segs seq p' segs') :
    Kept p segs seq p' (segs' ++ [.empty (chainLast p' segs')]) := by
  refine ⟨h.1, fun history logs => ⟨?_, (h.2 history logs).le⟩⟩
  rw [← (h.2 history logs).records]
  simp [chainRecords, Segment.empty]

section Rules

variable {Op : Type} {good : Op → Nat → List Outcome → Prop} {op : Op} {ops : List Op}
  {w : LocalExportWal} {plan : List Outcome} {effects : List Effect} {st : LocalWalState}
  {p p₀ seq : Nat} {segs segs₀ : List Segment}

lemma mid_files_disk (w : LocalExportWal) (plan : List Outcome) (effects : List Effect)
    (st : LocalWalState) : (w.mid plan effects st).files.disk = replay w.files.disk effects :=
  mid_disk _ _ _

lemma Agrees.mid (h : Holds crc (replay w.files.disk effects) p segs [])
    (kept : Kept p₀ segs₀ seq p segs) (plan : List Outcome) :
    Agrees crc w.segmentTargetBytes p₀ segs₀ seq (w.mid plan effects (stateOf crc p segs)) := by
  refine ⟨rfl, p, segs, ?_, rfl, kept⟩
  rw [mid_files_disk]
  exact h

lemma ends_reads {α : Type} {x : FileM α} {n : Nat} {a : α}
    (reads : Reads x n (w.files.issue effects) a)
    (passes : Passes good (List.replicate n op ++ ops) plan) :
    Ends (onFiles x) (w.mid plan effects st)
      (fun b w' => b = a ∧ ∃ rest, Passes good ops rest ∧ w' = w.mid rest effects st)
      fun w' => ∃ n rest, good op n rest ∧ w' = w.mid rest effects st := by
  refine ends_onFiles ((reads.ends passes).mono ?_ ?_)
  · rintro _ _ ⟨rfl, rest, passes, rfl⟩
    exact ⟨rfl, rest, passes, rfl⟩
  · rintro _ ⟨n, rest, bad, rfl⟩
    exact ⟨n, rest, bad, rfl⟩

lemma ends_reload (h : Holds crc (replay w.files.disk effects) p segs [])
    (passes : Passes good (List.replicate (1 + scanCount segs.length) op ++ ops) plan) :
    Ends (syncAndReloadWalState crc) (w.mid plan effects st)
      (fun _ w' => ∃ rest, w' = w.mid rest (effects ++ [.syncDir]) (stateOf crc p segs))
      fun w' => (∃ n rest, good op n rest) ∧
        ∃ rest effects', replay w.files.disk effects' = replay w.files.disk effects ∧
          w' = w.mid rest effects' st := by
  have same : replay w.files.disk (effects ++ [.syncDir]) = replay w.files.disk effects := by
    rw [replay_append]
    rfl
  have synced : Holds crc (w.files.issue (effects ++ [.syncDir])).disk p segs [] := by
    rw [Files.disk_issue, same]
    exact h
  rw [Nat.add_comm, List.replicate_succ, List.cons_append] at passes
  refine .bind (ends_onFiles (ends_perform passes (fun rest passes => ?_) fun n rest bad => ?_))
  · refine .bind ((ends_reads synced.reads_scanWalDir passes).mono ?_ ?_)
    · rintro _ _ ⟨rfl, rest, -, rfl⟩
      exact .of_ok rfl ⟨rest, rfl⟩
    · rintro _ ⟨n, rest, bad, rfl⟩
      exact ⟨⟨n, rest, bad⟩, rest, _, same, rfl⟩
  · refine ⟨⟨n, rest, bad⟩, rest, _, ?_, rfl⟩
    rw [replay_append]
    rfl

lemma Reloads.agrees (h : Holds crc (replay w.files.disk effects) p segs [])
    (kept : Kept p₀ segs₀ seq p segs) (reloads : Reloads segs.length plan) (e : Fault) :
    Ends (syncAndReloadWalState crc >>= fun _ => throw e : WalM Unit) (w.mid plan effects st)
      (fun _ _ => False) (Agrees crc w.segmentTargetBytes p₀ segs₀ seq) := by
  unfold Reloads at reloads
  rw [← List.append_nil (List.replicate _ _)] at reloads
  refine .bind ((ends_reload h reloads).mono ?_ ?_)
  · rintro _ _ ⟨rest, rfl⟩
    refine .of_error rfl (.mid ?_ kept rest)
    rw [replay_append]
    exact h
  · rintro _ ⟨⟨_, _, bad⟩, -⟩
    exact bad.elim

lemma ends_removeOrReload {path : Nat} {err : LocalExportWal → Prop} (context : String)
    (changed : Bool) (has : (replay w.files.disk effects).Has path)
    (passes : Passes good (op :: ops) plan) (failed : ∀ n rest e, good op n rest →
      Ends ((if changed then syncAndReloadWalState crc else pure ()) >>= fun _ => throw e :
      WalM Unit)
        (w.mid rest effects st) (fun _ _ => False) err) :
    Ends (removeOrReload crc context path changed) (w.mid plan effects st)
      (fun _ w' => ∃ rest, Passes good ops rest ∧ w' = w.mid rest (effects ++ [.remove path]) st)
      err := by
  have removing : Ends (onFiles (removeFile context path)) (w.mid plan effects st)
      (fun _ w' => ∃ rest, Passes good ops rest ∧ w' = w.mid rest (effects ++ [.remove path]) st)
      fun w' => ∃ n rest, good op n rest ∧ w' = w.mid rest effects st := by
    refine ends_onFiles (.bind ?_)
    rw [← mid_disk w.files plan effects] at has
    refine .of_ok (checkExists_ok has context)
      (ends_perform passes (fun rest passes => ⟨rest, passes, rfl⟩) fun n rest bad => ?_)
    have none : Effect.part n (.remove path) = [] := rfl
    rw [none, List.append_nil]
    exact ⟨n, rest, bad, rfl⟩
  cases run : onFiles (removeFile context path) (w.mid plan effects st) with
  | ok u w' =>
    rw [Ends, run] at removing
    have done : removeOrReload crc context path changed (w.mid plan effects st) = .ok () w' := by
      rw [removeOrReload, run]
    exact .of_ok done removing
  | error e w' =>
    rw [Ends, run] at removing
    obtain ⟨n, rest, bad, rfl⟩ := removing
    have reload : removeOrReload crc context path changed (w.mid plan effects st) =
        ((if changed then syncAndReloadWalState crc else pure ()) >>= fun _ => throw e : WalM Unit)
          (w.mid rest effects st) := by
      rw [removeOrReload, run]
    rw [Ends, reload]
    exact (failed n rest e bad).mono (fun _ _ no => no.elim) fun _ err => err

end Rules

section Prune

variable {w : LocalExportWal} {plan : List Outcome} {effects : List Effect} {st : LocalWalState}
  {ops : List PruneOp} {p p₀ seq : Nat} {segs₀ : List Segment} {s : Segment}

lemma ends_removeRetired {n a total : Nat} {gone stay : List Segment}
    (h : Holds crc (replay w.files.disk effects) p (gone ++ stay ++ [s]) [])
    (retired : ∀ t ∈ gone, t.last ≤ seq) (ne : ∀ t ∈ gone, t.firstSeq ≠ a)
    (later : ∀ t ∈ stay ++ [s], t.firstSeq = a ∨ seq < t.last)
    (fresh : n = 0 → st = stateOf crc p (gone ++ stay ++ [s]))
    (kept : Kept p₀ segs₀ seq p (gone ++ stay ++ [s]))
    (count : total = n + (gone ++ stay ++ [s]).length)
    (passes : Passes PruneOp.Harmless
      ((List.range' n gone.length).map (fun i => .remove i (total - i)) ++ ops) plan) :
    Ends (removeRetired crc (some a) seq ((gone ++ (stay ++ [s])).map (Segment.scan crc)) n)
      (w.mid plan effects st)
      (fun m w' => m = n + gone.length ∧ ∃ rest, Passes PruneOp.Harmless ops rest ∧
        w' = w.mid rest (effects ++ gone.map fun t => .remove t.firstSeq) st)
      (Agrees crc w.segmentTargetBytes p₀ segs₀ seq) := by
  -- `n` segments are gone; the induction is on those that are still to go
  induction gone generalizing p n plan effects with
  | nil =>
    refine .of_ok (removeRetired_kept later) ⟨rfl, plan, passes, ?_⟩
    rw [List.map_nil, List.append_nil]
  | cons t gone ih =>
    have has : (replay w.files.disk effects).Has t.firstSeq := by
      rw [OrdMap.has_iff, h.files, image_nil]
      exact ⟨_, List.mem_cons_self⟩
    have path : ¬ some (t.scan crc).path = some a := fun e =>
      ne t List.mem_cons_self (Option.some.inj e)
    have dropped : Holds crc (replay w.files.disk (effects ++ [.remove t.firstSeq]))
      (chainLast p [t])
        (gone ++ stay ++ [s]) [] := by
      rw [replay_append]
      exact Holds.drop (show Holds crc _ p ([t] ++ (gone ++ stay) ++ [s]) [] from h)
    rw [List.length_cons, List.range'_succ, List.map_cons, List.cons_append] at passes
    rw [List.cons_append, List.map_cons, removeRetired, if_neg path, maxSeq_scan]
    refine .congr lift_ok_bind ?_
    rw [if_pos (retired t List.mem_cons_self)]
    refine .bind ((ends_removeOrReload _ _ has passes fun _ rest e harmless => ?_).mono ?_
      fun _ err => err)
    · -- the state is reloaded only after a removal
      by_cases zero : n = 0
      · subst zero
        rw [fresh rfl]
        exact .of_error rfl (.mid h kept rest)
      · have left : total - n = (t :: gone ++ stay ++ [s]).length := by omega
        rw [decide_eq_true (Nat.pos_of_ne_zero zero), if_pos rfl]
        exact (left ▸ harmless.resolve_left zero : Reloads _ rest).agrees h kept e
    · rintro _ _ ⟨rest, passes, rfl⟩
      refine (ih dropped (fun u hu => retired u (List.mem_cons_of_mem _ hu))
        (fun u hu => ne u (List.mem_cons_of_mem _ hu)) (fun zero => absurd zero n.succ_ne_zero)
        (kept.drop h.chain (retired t List.mem_cons_self)) ?_ passes).mono ?_ fun _ err => err
      · rw [count]
        simp only [List.cons_append, List.length_cons]
        omega
      · rintro m _ ⟨rfl, rest, passes, rfl⟩
        refine ⟨?_, rest, passes, ?_⟩
        · rw [List.length_cons]
          omega
        · rw [List.append_assoc]
          rfl

lemma ends_rollActive {n : Nat} (h : Holds crc (replay w.files.disk effects) p [s] [])
    (ne : s.records ≠ []) (bounds : st.bounds.lastDurable = s.last)
    (fresh : n = 0 → st = stateOf crc p [s]) (kept : Kept p₀ segs₀ seq p [s])
    (passes : Passes PruneOp.Harmless (replaceOps n 1 ++ ops) plan) :
    Ends (rollActive crc s.firstSeq) (w.mid plan effects st)
      (fun _ w' => ∃ rest st', Passes PruneOp.Harmless ops rest ∧ w' = w.mid rest
        (effects ++ (newSegment crc (s.last + 1) ++ [.syncDir, .remove s.firstSeq])) st')
      (Agrees crc w.segmentTargetBytes p₀ segs₀ seq) := by
  have above : ∀ a ∈ (replay w.files.disk effects).entries, a.1 < s.last + 1 :=
    keys_lt (h.files.trans (congrArg (image crc · []) (List.nil_append [s]).symm)) ne
  have created :
    Holds crc (replay w.files.disk (effects ++ newSegment crc (s.last + 1) ++ [.syncDir])) p
      [s, .empty s.last] [] := by
    rw [replay_append, replay_append]
    exact h.newSegment above
  have has : (replay w.files.disk (effects ++ newSegment crc (s.last + 1) ++ [.syncDir])).Has
      s.firstSeq := by
    rw [OrdMap.has_iff, created.files]
    exact ⟨_, List.mem_cons_self⟩
  have lt : s.last + 1 < U64 := h.last_lt
  have start : rollActive crc s.firstSeq (w.mid plan effects st) =
      (do
        onFiles (writeNewSegment crc (s.last + 1))
        onFiles syncDirectory
        setState { st with active := some ⟨s.last + 1, SEGMENT_HEADER_LEN⟩ }
        removeOrReload crc "remove active WAL segment" s.firstSeq true : WalM Unit)
        (w.mid plan effects st) := by
    have last : (w.mid plan effects st).state.bounds.lastDurable = s.last := bounds
    rw [rollActive, get_bind, last, nextSeqAfter_eq lt, lift_ok_bind]
    rfl
  have replaced : n = 0 → { st with active := some ⟨s.last + 1, SEGMENT_HEADER_LEN⟩ } =
      stateOf crc p [s, .empty s.last] := by
    intro zero
    rw [fresh zero]
    exact (stateOf_empty p [s]).symm
  refine .congr start (.bind (ends_onFiles (ends_writeNewSegment (not_has_of_above above) passes
    (fun _ _ bad => bad) (fun rest passes => ?_) (fun _ rest zero => ?_) fun _ _ bad => bad.elim)))
  · refine .bind
      (ends_onFiles (ends_perform passes (fun rest passes => ?_) fun _ _ bad => bad.elim))
    refine .bind
      (.of_ok rfl ((ends_removeOrReload _ _ has passes fun _ rest e harmless => ?_).mono ?_
        fun _ err => err))
    · rcases harmless with zero | reloads
      · -- the state is that of the directory, also when it is not reloaded
        rw [if_pos rfl, replaced zero]
        have any : Passes (fun (_ : Unit) _ _ => True) (List.replicate (1 + scanCount 2) () ++ [])
            rest :=
          passes_true
        refine .bind ((ends_reload created any).mono ?_ ?_)
        · rintro _ _ ⟨rest, rfl⟩
          refine .of_error rfl (.mid ?_ kept.newSegment rest)
          rw [replay_append]
          exact created
        · rintro _ ⟨-, rest, effects', same, rfl⟩
          exact .mid (same ▸ created) kept.newSegment rest
      · exact reloads.agrees created kept.newSegment e
    · rintro _ _ ⟨rest, passes, rfl⟩
      refine ⟨rest, { st with active := some ⟨s.last + 1, SEGMENT_HEADER_LEN⟩ }, passes, ?_⟩
      simp only [List.append_assoc]
      rfl
  · rw [fresh zero]
    exact .mid h kept rest

lemma ends_pruneActive {n m : Nat} {scans : List SegmentScan} {stay : List Segment}
    (found : scans.find? (some ·.path = some s.firstSeq) = some (s.scan crc))
    (h : Holds crc (replay w.files.disk effects) p (stay ++ [s]) [])
    (empty : RollsOver s seq → stay = []) (bounds : st.bounds.lastDurable = s.last)
    (fresh : n = 0 → st = stateOf crc p (stay ++ [s])) (kept : Kept p₀ segs₀ seq p (stay ++ [s]))
    (one : RollsOver s seq → m = 1)
    (passes : Passes PruneOp.Harmless
      ((if RollsOver s seq then replaceOps n m else []) ++ ops) plan) :
    let roll := if RollsOver s seq then
      newSegment crc (s.last + 1) ++ [.syncDir, .remove s.firstSeq] else []
    Ends (pruneActive crc (some s.firstSeq) seq scans n) (w.mid plan effects st)
      (fun k w' => k = n + (if RollsOver s seq then 1 else 0) ∧
        ∃ rest st', Passes PruneOp.Harmless ops rest ∧ w' = w.mid rest (effects ++ roll) st' ∧
          (¬ RollsOver s seq → st' = st))
      (Agrees crc w.segmentTargetBytes p₀ segs₀ seq) := by
  intro roll
  rw [pruneActive, found]
  simp only [maxSeq_scan]
  by_cases rolls : RollsOver s seq
  · obtain ⟨ne, le⟩ := rolls
    obtain rfl := empty ⟨ne, le⟩
    obtain rfl := one ⟨ne, le⟩
    have isEmpty : ¬ (s.scan crc).records.isEmpty = true := by simpa [Segment.scan] using ne
    have eq : roll = newSegment crc (s.last + 1) ++ [.syncDir, .remove s.firstSeq] :=
      if_pos ⟨ne, le⟩
    rw [if_pos ⟨ne, le⟩] at passes
    rw [if_neg isEmpty, eq, if_pos ⟨ne, le⟩]
    refine .congr lift_ok_bind ?_
    rw [if_pos le]
    refine .bind ((ends_rollActive h ne bounds fresh kept passes).mono ?_ fun _ err => err)
    rintro _ _ ⟨rest, st', passes, rfl⟩
    exact .of_ok rfl ⟨rfl, rest, st', passes, rfl, fun no => absurd ⟨ne, le⟩ no⟩
  · have eq : roll = [] := if_neg rolls
    rw [if_neg rolls] at passes
    have same : Ends (pure n : WalM Nat) (w.mid plan effects st) (fun k w' => k = n ∧
        ∃ rest st', Passes PruneOp.Harmless ops rest ∧ w' = w.mid rest effects st' ∧
          (¬ RollsOver s seq → st' = st)) (Agrees crc w.segmentTargetBytes p₀ segs₀ seq) :=
      .of_ok rfl ⟨rfl, plan, st, passes, rfl, fun _ => rfl⟩
    rw [eq, if_neg rolls, List.append_nil, Nat.add_zero]
    split
    · exact same
    · rename_i isEmpty
      have ne : s.records ≠ [] := by simpa [Segment.scan] using isEmpty
      refine .congr lift_ok_bind ?_
      rw [if_neg fun le => rolls ⟨ne, le⟩]
      exact same

end Prune

lemma Chain.paths {p : Nat} {init : List Segment} {s : Segment} (chain : Chain p (init ++ [s])) :
    (init ++ [s]).map Segment.firstSeq = (p + 1) :: init.map (·.last + 1) := by
  induction init generalizing p with
  | nil =>
    obtain ⟨rfl, -⟩ := chain
    rfl
  | cons t init ih =>
    obtain ⟨rfl, later⟩ := chain
    rw [List.cons_append, List.map_cons, ih later]
    rfl

section Whole

variable {w : LocalExportWal} {p seq : Nat} {gone stay : List Segment} {s : Segment}

lemma Ready.pruneOps_eq (h : Ready crc w p (gone ++ stay ++ [s]))
    (retired : ∀ t ∈ gone, t.last ≤ seq) (later : ∀ t ∈ stay, seq < t.last) (le : seq ≤ s.last) :
    pruneOps w seq = List.replicate (scanCount (gone ++ stay ++ [s]).length) .scan ++
      ((List.range' 0 gone.length).map (fun i => .remove i ((gone ++ stay ++ [s]).length - i)) ++
        ((if RollsOver s seq then replaceOps gone.length (stay.length + 1) else []) ++
          if gone.length = 0 ∧ ¬ RollsOver s seq then []
          else List.replicate (1 + scanCount (stay.length + 1)) .reload)) := by
  have durable : w.state.bounds.lastDurable = s.last := by
    rw [h.state]
    exact chainLast_append p (gone ++ stay) [s]
  have active : w.state.active = some ⟨s.firstSeq, _⟩ :=
    h.state ▸ stateOf_active crc p (gone ++ stay) s
  have paths : w.files.disk.entries.map (·.1) = (gone ++ stay ++ [s]).map Segment.firstSeq := by
    rw [h.holds.files, image_keys]
  have count : ((((gone ++ stay ++ [s]).map Segment.firstSeq).tail).filter (· ≤ seq + 1)).length =
      gone.length := by
    have all : (gone.map (·.last + 1)).filter (· ≤ seq + 1) = gone.map (·.last + 1) := by
      simpa using retired
    have none : (stay.map (·.last + 1)).filter (· ≤ seq + 1) = [] := by
      simpa using later
    rw [h.holds.chain.paths, List.tail_cons, List.map_append, List.filter_append, all, none,
      List.append_nil, List.length_map]
  have rest : (gone ++ stay ++ [s]).length - gone.length = stay.length + 1 := by
    simp only [List.length_append, List.length_singleton]
    omega
  have rolls : ((some (⟨s.firstSeq, (s.bytes crc).length⟩ : ActiveSegment)).any (·.path ≤ s.last) =
      true ∧ s.last ≤ seq) ↔ RollsOver s seq := by
    rw [RollsOver, ← List.length_pos_iff, Option.any_some, decide_eq_true_iff]
    show s.before + 1 ≤ s.before + s.records.length ∧ _ ↔ _
    omega
  unfold pruneOps
  simp only [paths, count, durable, active, rolls, List.length_map, rest, if_neg (not_lt.2 le)]

/-- A prune whose failures are harmless: the state is that of the directory, whether it returns or
fails. -/
lemma Ready.ends_pruneThrough (h : Ready crc w p (gone ++ stay ++ [s]))
    (retired : ∀ t ∈ gone, t.last ≤ seq) (later : ∀ t ∈ stay, seq < t.last) (le : seq ≤ s.last)
    {plan : List Outcome} (passes : Passes PruneOp.Harmless (pruneOps w seq) plan) :
    Ends (Wal.pruneThrough crc seq) (w.withPlan plan)
      (fun _ => Agrees crc w.segmentTargetBytes p (gone ++ stay ++ [s]) seq)
      (Agrees crc w.segmentTargetBytes p (gone ++ stay ++ [s]) seq) := by
  have chain := h.holds.chain
  have empty : RollsOver s seq → stay = [] := chain.stay_eq_nil later
  have durable : (w.mid plan [] w.state).state.bounds.lastDurable = s.last := by
    show w.state.bounds.lastDurable = _
    rw [h.state]
    exact chainLast_append p (gone ++ stay) [s]
  have active : (w.mid plan [] w.state).state.active.map (·.path) = some s.firstSeq := by
    show w.state.active.map (·.path) = _
    rw [h.state, stateOf_active]
    rfl
  have start : Holds crc (replay w.files.disk []) p (gone ++ stay ++ [s]) [] := h.holds
  have scanning := Holds.reads_scanSegments (f := w.files.issue [])
    (by rw [Files.issue_nil]; exact h.holds)
  have same : Kept p (gone ++ stay ++ [s]) seq p (gone ++ stay ++ [s]) :=
    ⟨le_max_left _ _, fun _ logs => logs⟩
  obtain ⟨ne, found⟩ := find_active h.holds.files
  have assoc : (gone ++ stay ++ [s]).map (Segment.scan crc) = (gone ++ (stay ++ [s])).map
      (Segment.scan crc) := by
    rw [List.append_assoc]
  rw [assoc] at found
  have kept : ∀ t ∈ stay ++ [s], t.firstSeq = s.firstSeq ∨ seq < t.last := by
    intro t ht
    rcases List.mem_append.1 ht with ht | ht
    · exact .inr (later t ht)
    · exact .inl (by rw [List.mem_singleton.1 ht])
  have dropped : Kept p (gone ++ stay ++ [s]) seq (chainLast p gone) (stay ++ [s]) := by
    refine ⟨chain.append_left.append_left.last_le retired le_rfl, fun history logs => ?_⟩
    rw [List.append_assoc] at logs chain
    exact logs.drop chain
  -- each part of the prune passes on the operations it leaves
  rw [h.pruneOps_eq retired later le] at passes
  rw [withPlan_eq]
  refine .bind (.of_ok rfl ?_)
  rw [durable, if_neg (not_lt.2 le), active]
  refine .bind ((ends_reads scanning passes).mono ?_ ?_)
  · rintro _ _ ⟨rfl, rest, passes, rfl⟩
    rw [assoc]
    refine .bind
      ((ends_removeRetired start retired (fun t ht => ne t (List.mem_append_left _ ht)) kept
        (fun _ => h.state) same (Nat.zero_add _).symm passes).mono ?_ fun _ err => err)
    rintro _ _ ⟨rfl, rest, passes, rfl⟩
    rw [Nat.zero_add]
    refine .bind ((ends_pruneActive found h.holds.drop empty durable (fun zero => ?_) dropped
      (fun rolls => by rw [empty rolls]; rfl) passes).mono ?_ fun _ err => err)
    · obtain rfl := List.length_eq_zero_iff.1 zero
      exact h.state
    · rintro _ _ ⟨rfl, rest, st', passes, rfl, still⟩
      change Ends _ (w.mid rest (pruneEffects crc gone s seq) st') _ _
      -- a prune that removed nothing does not reload
      by_cases none : pruneEffects crc gone s seq = []
      · have zero := pruneEffects_eq_nil.1 none
        have stays : ¬ RollsOver s seq := fun rolls => by
          rw [if_pos rolls] at zero
          omega
        rw [if_neg (by omega)]
        refine .of_ok rfl ?_
        rw [none, still stays]
        show Agrees crc _ _ _ _ (w.mid rest [] w.state)
        rw [h.state]
        exact .mid start same rest
      · have changed : 0 < gone.length + if RollsOver s seq then 1 else 0 :=
          Nat.pos_of_ne_zero fun zero => none (pruneEffects_eq_nil.2 zero)
        have holds := h.holds.pruned empty
        have count : (Wal.pruned p gone stay s seq).2.length = stay.length + 1 := by
          unfold Wal.pruned
          split
          · rename_i rolls
            rw [empty rolls]
            rfl
          · exact List.length_append
        rw [if_neg, ← count, ← List.append_nil (List.replicate _ _)] at passes
        · rw [if_pos changed]
          refine .bind ((ends_reload holds passes).mono ?_ ?_)
          · rintro _ _ ⟨rest, rfl⟩
            refine .of_ok rfl
              (.mid ?_ ⟨chain.pruned_le le_rfl retired, fun _ logs => logs.pruned chain⟩ rest)
            rw [replay_append]
            exact holds
          · rintro _ ⟨⟨_, _, bad⟩, -⟩
            exact bad.elim
        · rintro ⟨zero, stays⟩
          rw [zero, if_neg stays] at changed
          exact absurd changed (Nat.lt_irrefl 0)
  · rintro _ ⟨_, rest, -, rfl⟩
    rw [h.state]
    exact .mid start same rest

end Whole

lemma Ready.ends_prune {wal : LocalExportWal} {p seq : Nat} {segs : List Segment}
    (h : Ready crc wal p segs) {plan : List Outcome}
    (passes : Passes PruneOp.Harmless (pruneOps wal seq) plan) :
    Ends (Wal.pruneThrough crc seq) (wal.withPlan plan)
      (fun _ => Agrees crc wal.segmentTargetBytes p segs seq)
      (Agrees crc wal.segmentTargetBytes p segs seq) := by
  have durable : (wal.mid plan [] wal.state).state.bounds.lastDurable = chainLast p segs := by
    show wal.state.bounds.lastDurable = _
    rw [h.state]
    rfl
  have same : ∀ rest, Agrees crc wal.segmentTargetBytes p segs seq (wal.mid rest [] wal.state) := by
    intro rest
    rw [h.state]
    exact .mid h.holds ⟨le_max_left _ _, fun _ logs => logs⟩ rest
  by_cases beyond : chainLast p segs < seq
  · rw [withPlan_eq]
    refine .bind (.of_ok rfl ?_)
    rw [durable, if_pos beyond]
    exact .of_error rfl (same plan)
  rcases List.eq_nil_or_concat' segs with rfl | ⟨init, s, rfl⟩
  · have scanning := Holds.reads_scanSegments (f := wal.files.issue [])
      (by rw [Files.issue_nil]; exact h.holds)
    have any : Passes (fun (_ : Unit) _ _ => True) (List.replicate (scanCount 0) () ++ []) plan :=
      passes_true
    rw [withPlan_eq]
    refine .bind (.of_ok rfl ?_)
    rw [durable, if_neg beyond]
    refine .bind ((ends_reads scanning any).mono ?_ ?_)
    · rintro _ _ ⟨rfl, rest, -, rfl⟩
      exact .of_ok rfl (same rest)
    · rintro _ ⟨_, rest, -, rfl⟩
      exact same rest
  · obtain ⟨gone, stay, rfl, retired, later⟩ := h.holds.chain.append_left.split seq
    rw [chainLast_append] at beyond
    exact h.ends_pruneThrough retired later (not_lt.1 beyond) passes

variable {target : Nat} {w : WalWorld}

lemma WalInv.prunes (inv : WalInv crc target w) {seq : Nat} {plan : List Outcome}
    (safe : w.Harmless (.prune seq plan)) :
    WalInv crc target (w.pruneEvent crc (.prune seq plan)) := by
  obtain ⟨p, segs, ready, logs, bounded⟩ := inv.ready
  have ends := ready.ends_prune safe
  have settled : ∀ wal, Agrees crc w.wal.segmentTargetBytes p segs seq wal →
      WalInv crc target ⟨wal.settled, w.history, max w.pruneRequest seq⟩ := by
    rintro wal ⟨same, p', segs', holds, state, le, kept⟩
    exact ⟨same.trans inv.target, .inl rfl, inv.consecutive, p', segs', ⟨rfl, holds, state⟩,
      kept _ logs, le.trans (max_le_max bounded le_rfl)⟩
  show WalInv crc target ⟨(finalState (pruneThrough crc seq (w.wal.withPlan plan))).settled,
    w.history, max w.pruneRequest seq⟩
  cases run : pruneThrough crc seq (w.wal.withPlan plan) with
  | ok result wal =>
    rw [Ends, run] at ends
    exact settled wal ends
  | error e wal =>
    rw [Ends, run] at ends
    exact settled wal ends

lemma pruneInv_of_reachable (ht : SEGMENT_HEADER_LEN < target)
    (h : (pruneSystem crc target WalWorld.Harmless).Reachable w) :
    Room w → WalInv crc target w := by
  refine System.invariant _ (P := fun w => Room w → WalInv crc target w) ?_ ?_ h
  · exact fun h _ => .init h
  · rintro w event _ inv ⟨safe, rfl⟩ room
    cases event with
    | log c =>
      have before := room.of_logCall
      exact (inv before).logCall ht before c
    | prune seq plan => exact (inv room).prunes safe

/-- A failed prune leaves the log consistent in every run in which a prune fails only in an
operation whose failure is harmless. -/
theorem failed_prune_consistent (ht : SEGMENT_HEADER_LEN < target)
    (reachable : (pruneSystem crc target WalWorld.Harmless).Reachable w) (room : Room w) :
    Consistent crc w := by
  have inv := pruneInv_of_reachable ht reachable room
  obtain ⟨p, segs, ready, logs, bounded⟩ := inv.ready
  have found : ∀ r ∈ w.history, w.pruneRequest < r.seq → r ∈ chainRecords segs := by
    intro r hr above
    rw [logs.records, ← inv.consecutive.filter_eq_drop]
    exact List.mem_filter.2 ⟨hr, decide_eq_true (bounded.trans_lt above)⟩
  refine ⟨⟨_, _, ready.holds.scanSegments ready.plan, ?_⟩, ?_, ?_⟩
  · rw [List.flatMap_map]
    exact found
  · obtain ⟨wal, run, -, -, opened, loaded⟩ :=
      ready.holds.reopen w.wal.segmentTargetBytes w.wal.files.dir
    exact ⟨wal, _, _, _, run, loaded, found⟩
  · intro after through records wal run
    cases valid : validateReplayRange w.wal.state.bounds after through with
    | error e =>
      rw [Wal.replayRange, get_bind, valid, lift_error_bind] at run
      cases run
    | ok u =>
      obtain ⟨-, le, durable⟩ := validateReplayRange_ok.1 valid
      rw [ready.state] at durable
      change through ≤ chainLast p segs at durable
      rw [logs.last ready.holds.chain] at durable
      rw [ready.replayRange logs inv.consecutive valid] at run
      cases run
      exact ⟨recordsIn_seqs inv.consecutive le durable, fun r hr => List.mem_of_mem_filter hr⟩

lemma pruneEvents_reachable {safe : WalWorld → PruneEvent → Prop}
    (h : (pruneSystem crc target safe).Reachable w) {events : List PruneEvent}
    (all : ∀ w, ∀ event ∈ events, safe w event) :
    (pruneSystem crc target safe).Reachable (events.foldl (WalWorld.pruneEvent crc) w) := by
  induction events generalizing w with
  | nil => exact h
  | cons event events ih =>
    exact ih (.step h ⟨all w event List.mem_cons_self, rfl⟩) fun w e he =>
      all w e (List.mem_cons_of_mem _ he)

def threeAppends : List PruneEvent :=
  [.log (.call (.append (byteRequest 1))), .log (.call (.append (byteRequest 2))),
    .log (.call (.append (byteRequest 3)))]

/-- A WAL with full segments after one record: three appends. -/
def threeSegments : WalWorld := threeAppends.foldl (WalWorld.pruneEvent crc32c) freshWorld

/-- A prune of all records that cannot remove the second segment. -/
def keptSegment : WalWorld :=
  threeSegments.pruneEvent crc32c (.prune 3 (List.replicate 8 .done ++ [.fails 0]))

/-- The prune has reloaded its state, and the log of the last two records is consistent. -/
theorem failed_prune_consistent_kept : keptSegment.bounds = ⟨1, 3⟩ ∧
    Consistent crc32c keptSegment := by
  have init : (pruneSystem crc32c 25 WalWorld.Harmless).init freshWorld := ⟨"wal", _, rfl, rfl, rfl⟩
  have appended : (pruneSystem crc32c 25 WalWorld.Harmless).Reachable threeSegments := by
    refine pruneEvents_reachable (.init init) fun w event mem => ?_
    simp only [threeAppends, List.mem_cons, List.not_mem_nil, or_false] at mem
    rcases mem with rfl | rfl | rfl <;> trivial
  have ops : pruneOps threeSegments.wal 3 = List.replicate 7 .scan ++ ([.remove 0 3, .remove 1 2] ++
      (replaceOps 2 1 ++ List.replicate 4 .reload)) := by decide +kernel
  have harmless : threeSegments.Harmless (.prune 3 (List.replicate 8 .done ++ [.fails 0])) := by
    show Passes PruneOp.Harmless (pruneOps threeSegments.wal 3) _
    rw [ops]
    exact .inr passes_nil
  refine ⟨by decide +kernel, failed_prune_consistent (by
    decide) (.step appended ⟨harmless, rfl⟩) ?_⟩
  show logBytes keptSegment.history + 2 ^ 35 ≤ U64
  decide +kernel

/-- A prune of all records that cannot create the replacement of the third segment. -/
def staleBounds : WalWorld :=
  threeSegments.pruneEvent crc32c (.prune 3 (List.replicate 9 .done ++ [.fails 0]))

def roomyWorld : WalWorld := ⟨⟨1000, ⟨"wal", .empty, [], []⟩, ⟨⟨0, 0⟩, none⟩⟩, [], 0⟩

/-- An append, a prune that cannot sync the header of the replacement segment, and another
append. -/
def leftSegment : WalWorld :=
  [PruneEvent.log (.call (.append (byteRequest 1))),
    .prune 1 (List.replicate 5 .done ++ [.fails 0]), .log (.call (.append (byteRequest 2)))].foldl
      (WalWorld.pruneEvent crc32c) roomyWorld

/-- An append and a prune whose write of the header of the replacement segment fails. -/
def cutReplacement : WalWorld :=
  [PruneEvent.log (.call (.append (byteRequest 1))),
    .prune 1 (List.replicate 4 .done ++ [.fails 10])].foldl
    (WalWorld.pruneEvent crc32c) roomyWorld

/-- After the first failed prune two segments are gone and the bounds still admit them: a replay of
all records returns the third one alone. After the second failed prune the append goes to the old
segment beside the new one, and the acknowledged second record is in a directory that cannot be
opened. The third prune goes on after the failed write and fails in its reload, with a cut header
alone in the directory. -/
theorem failed_prune_inconsistent :
    ((pruneSystem crc32c 25 fun _ _ => True).Reachable staleBounds ∧
      (outcome (replayRange crc32c 0 3 staleBounds.wal)).toOption.map (·.map (·.seq)) = some [3]) ∧
    ((pruneSystem crc32c 1000 fun _ _ => True).Reachable leftSegment ∧
      leftSegment.history.map (·.seq) = [1, 2] ∧ leftSegment.pruneRequest = 1 ∧
      (outcome (leftSegment.wal.reopen crc32c)).isOk = false) ∧
    ((pruneSystem crc32c 1000 fun _ _ => True).Reachable cutReplacement ∧
      (outcome (cutReplacement.wal.reopen crc32c)).isOk = false) := by
  have fresh : (pruneSystem crc32c 25 fun _ _ => True).init freshWorld := ⟨"wal", _, rfl, rfl, rfl⟩
  have roomy : (pruneSystem crc32c 1000 fun _ _ => True).init roomyWorld :=
    ⟨"wal", _, rfl, rfl, rfl⟩
  have appended : (pruneSystem crc32c 25 fun _ _ => True).Reachable threeSegments :=
    pruneEvents_reachable (.init fresh) fun _ _ _ => trivial
  exact ⟨⟨.step appended ⟨trivial, rfl⟩, by decide +kernel⟩,
    ⟨pruneEvents_reachable (.init roomy) fun _ _ _ => trivial, by decide +kernel, by decide +kernel,
      by decide +kernel⟩,
    pruneEvents_reachable (.init roomy) fun _ _ _ => trivial, by decide +kernel⟩

end Wal

end NbdServer
