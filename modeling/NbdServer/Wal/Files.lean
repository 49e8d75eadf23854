import NbdServer.Core.Bytes
import NbdServer.Lib.OrdMap
import NbdServer.Lib.Stateful

/-!
# The file system under the local WAL

The directory of one export's WAL as the segment files in it, the effects that change it, and the
file operations of `wal/local.rs`. A segment file is named by its first sequence
(`segment_path`, `parse_segment_file_name`), so the directory is a map from sequences to contents.
The effects issued so far are kept in order, and the directory is what they make of the directory at
the start. Each operation asks the operating system, whose answers are a list in the state: an
operation that fails has no effect, except that a failed write may have written a part of its bytes,
and that the program may not be told of it (`writeAll`).
-/

namespace NbdServer

namespace Wal

open Lib

/-- The segment files of a WAL directory by their first sequence. -/
abbrev Disk := OrdMap Nat Buf

/-- A change of the directory, or a sync that makes the earlier changes durable. -/
inductive Effect where
  | create (seq : Nat)
  | write (seq : Nat) (bytes : Buf)
  | sync (seq : Nat)
  | syncDir
  | remove (seq : Nat)
  | setLen (seq len : Nat)
  deriving DecidableEq

namespace Effect

/-- The directory after an effect. Writes go to the end of the file. -/
def apply (d : Disk) : Effect → Disk
  | .create seq => d.insert seq []
  | .write seq bytes =>
    match d.find seq with
    | some data => d.insert seq (data ++ bytes)
    | none => d
  | .sync _ => d
  | .syncDir => d
  | .remove seq => d.erase seq
  | .setLen seq len =>
    match d.find seq with
    | some data => d.insert seq (data.take len)
    | none => d

/-- What is left of a failed operation: a write may have reached the file in part. -/
def part (n : Nat) : Effect → List Effect
  | .write seq bytes => [.write seq (bytes.take n)]
  | _ => []

def isSync : Effect → Bool
  | .sync _ => true
  | .syncDir => true
  | _ => false

end Effect

def replay (d : Disk) (log : List Effect) : Disk := log.foldl Effect.apply d

@[simp] lemma replay_nil (d : Disk) : replay d [] = d := rfl

@[simp] lemma replay_cons (d : Disk) (e : Effect) (log : List Effect) :
    replay d (e :: log) = replay (e.apply d) log := rfl

@[simp] lemma replay_append (d : Disk) (log log' : List Effect) :
    replay d (log ++ log') = replay (replay d log) log' := List.foldl_append

@[simp] lemma Effect.apply_sync (d : Disk) (seq : Nat) : (Effect.sync seq).apply d = d := rfl

@[simp] lemma Effect.apply_syncDir (d : Disk) : Effect.syncDir.apply d = d := rfl

/-- How the operating system answers an operation. A failed write has written `written` bytes. -/
inductive Outcome where
  | done
  | fails (written : Nat)
  deriving DecidableEq

/-- A WAL directory in use: its content at the start, the effects issued since, and the answers of
the operating system to the next operations (all succeed when the list has run out). -/
structure Files where
  dir : String
  base : Disk
  log : List Effect
  plan : List Outcome
  deriving DecidableEq

namespace Files

def disk (f : Files) : Disk := replay f.base f.log

def issue (f : Files) (effects : List Effect) : Files := { f with log := f.log ++ effects }

@[simp] lemma disk_issue (f : Files) (effects : List Effect) :
    (f.issue effects).disk = replay f.disk effects := replay_append _ _ _

@[simp] lemma issue_nil (f : Files) : f.issue [] = f := by simp [issue]

@[simp] lemma issue_issue (f : Files) (e e' : List Effect) :
    (f.issue e).issue e' = f.issue (e ++ e') := by simp [issue]

@[simp] lemma issue_plan (f : Files) (e : List Effect) : (f.issue e).plan = f.plan := rfl

@[simp] lemma issue_log (f : Files) (e : List Effect) : (f.issue e).log = f.log ++ e := rfl

@[simp] lemma issue_dir (f : Files) (e : List Effect) : (f.issue e).dir = f.dir := rfl

@[simp] lemma issue_base (f : Files) (e : List Effect) : (f.issue e).base = f.base := rfl

end Files

abbrev FileM := EStateM Fault Files

def ioError (context message : String) : Fault := .err (.io context message)

/-- An operation without effect (opening or reading a file). -/
def ask (context : String) : FileM Unit := fun f =>
  match f.plan with
  | [] => .ok () f
  | .done :: plan => .ok () { f with plan := plan }
  | .fails _ :: plan => .error (ioError context "the operation failed") { f with plan := plan }

def perform (context : String) (e : Effect) : FileM Unit := fun f =>
  match f.plan with
  | [] => .ok () (f.issue [e])
  | .done :: plan => .ok () ({ f with plan := plan }.issue [e])
  | .fails n :: plan =>
    .error (ioError context "the operation failed") ({ f with plan := plan }.issue (e.part n))

/-- The most bytes that a `tokio::fs::File` takes in one write. -/
def MAX_BUF_SIZE : Nat := 2 * 1024 * 1024

/-- A write of `len` bytes that failed after `n` of them failed in its last piece. -/
def FailsLast (len n : Nat) : Prop := (len - 1) / MAX_BUF_SIZE ≤ n / MAX_BUF_SIZE

instance (len n : Nat) : Decidable (FailsLast len n) := inferInstanceAs (Decidable (_ ≤ _))

/-- Rust `write_all` on a `tokio::fs::File`, which writes pieces of `MAX_BUF_SIZE` in the
background. A failed piece is reported when the next one is written. Nothing reports the failure of
the last piece: the file is not flushed, and `sync_all` waits for the piece and drops its result. -/
def writeAll (context : String) (seq : Nat) (bytes : Buf) : FileM Unit := fun f =>
  match f.plan with
  | .fails n :: plan =>
    let f' := { f with plan := plan }.issue [.write seq (bytes.take n)]
    if FailsLast bytes.length n then .ok () f'
    else .error (ioError context "the operation failed") f'
  | _ => perform context (.write seq bytes) f

def checkExists (context : String) (seq : Nat) : FileM Unit := fun f =>
  if f.disk.Has seq then .ok () f
  else .error (ioError context "No such file or directory (os error 2)") f

/-- Open with `create_new`: fails when the file exists. -/
def createNew (context : String) (seq : Nat) : FileM Unit := fun f =>
  if f.disk.Has seq then .error (ioError context "File exists (os error 17)") f
  else perform context (.create seq) f

def openSegment (context : String) (seq : Nat) : FileM Unit := do
  checkExists context seq
  ask context

/-- Rust `fs::remove_file`. -/
def removeFile (context : String) (seq : Nat) : FileM Unit := do
  checkExists context seq
  perform context (.remove seq)

/-- Rust `fs::read`. -/
def readFile (context : String) (seq : Nat) : FileM Buf := do
  openSegment context seq
  let f ← get
  pure ((f.disk.find seq).getD [])

/-- Rust `sync_directory`. -/
def syncDirectory : FileM Unit := perform "sync WAL directory" .syncDir

section NoFailure

variable {f : Files}

lemma ask_ok (h : f.plan = []) (context : String) : ask context f = .ok () f := by
  rw [ask, h]

lemma perform_ok (h : f.plan = []) (context : String) (e : Effect) :
    perform context e f = .ok () (f.issue [e]) := by
  rw [perform, h]

lemma writeAll_ok (h : f.plan = []) (context : String) (seq : Nat) (bytes : Buf) :
    writeAll context seq bytes f = .ok () (f.issue [.write seq bytes]) := by
  rw [writeAll, h]
  exact perform_ok h context _

lemma checkExists_ok {seq : Nat} (has : f.disk.Has seq) (context : String) :
    checkExists context seq f = .ok () f := if_pos has

lemma createNew_ok {seq : Nat} (h : f.plan = []) (new : ¬ f.disk.Has seq) (context : String) :
    createNew context seq f = .ok () (f.issue [.create seq]) := by
  rw [createNew, if_neg new, perform_ok h]

lemma openSegment_ok {seq : Nat} (h : f.plan = []) (has : f.disk.Has seq) (context : String) :
    openSegment context seq f = .ok () f := by
  rw [openSegment, bind_ok (checkExists_ok has context), ask_ok h]

lemma removeFile_ok {seq : Nat} (h : f.plan = []) (has : f.disk.Has seq) (context : String) :
    removeFile context seq f = .ok () (f.issue [.remove seq]) := by
  rw [removeFile, bind_ok (checkExists_ok has context), perform_ok h]

lemma readFile_ok {seq : Nat} {data : Buf} (h : f.plan = []) (found : f.disk.find seq = some data)
    (context : String) : readFile context seq f = .ok data f := by
  have has : f.disk.Has seq := by rw [OrdMap.Has, found]; rfl
  rw [readFile, bind_ok (openSegment_ok h has context)]
  show EStateM.Result.ok ((f.disk.find seq).getD []) f = _
  rw [found]
  rfl

end NoFailure

end Wal

end NbdServer
