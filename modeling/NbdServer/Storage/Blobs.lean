import NbdServer.Catalog.Types
import NbdServer.Core.Bytes

/-!
# Blobs

Model of the blob stores of `storage/`, as the engines see them: bytes by key. The texts of the
operating system in the errors are abbreviated.
-/

namespace NbdServer

open Lib

abbrev Blobs := BlobKey → Option Buf

namespace Blobs

/-- Rust `BlobStore::get_blob`. -/
def getBlob (blobs : Blobs) (key : BlobKey) (offset len : Nat) : Res Buf :=
  match blobs key with
  | none => fail (.io "open blob for get" "entity not found")
  | some bytes =>
    if offset + len ≤ bytes.length then .ok (slice bytes offset len)
    else fail (.io "read blob" "failed to fill whole buffer")

/-- Rust `BlobStore::put_blob`: a key is written once. -/
def putBlob (blobs : Blobs) (key : BlobKey) (data : Buf) : Res Blobs :=
  if (blobs key).isSome then fail (.blobAlreadyExists "put blob" s!"{key}")
  else .ok (Function.update blobs key (some data))

/-- The loop of `put_random_blob` over the keys that it draws. -/
def putFirst (blobs : Blobs) (data : Buf) : List BlobKey → Res (Blobs × BlobKey)
  | [] => fail (.io "put random blob" "failed to allocate unique blob key")
  | key :: keys =>
    match blobs.putBlob key data with
    | .ok blobs => .ok (blobs, key)
    | .error (.err (.blobAlreadyExists _ _)) => putFirst blobs data keys
    | .error fault => .error fault

/-- Rust `put_random_blob`. -/
def putRandomBlob (blobs : Blobs) (draw : Nat → BlobKey) (data : Buf) : Res (Blobs × BlobKey) :=
  blobs.putFirst data ((List.range 16).map draw)

lemma putFirst_eq_ok {blobs blobs' : Blobs} {data : Buf} {keys : List BlobKey} {key : BlobKey}
    (run : blobs.putFirst data keys = .ok (blobs', key)) :
    blobs key = none ∧ blobs' = Function.update blobs key (some data) := by
  induction keys with
  | nil => cases run
  | cons k keys ih =>
    rw [putFirst, putBlob] at run
    by_cases taken : (blobs k).isSome
    · rw [if_pos taken] at run
      exact ih run
    · rw [if_neg taken] at run
      cases run
      exact ⟨Option.not_isSome_iff_eq_none.1 taken, rfl⟩

lemma putRandomBlob_error {blobs : Blobs} {draw : Nat → BlobKey} {data : Buf} {fault : Fault}
    (run : blobs.putRandomBlob draw data = .error fault) : ∃ e, fault = .err e := by
  unfold putRandomBlob at run
  generalize (List.range 16).map draw = keys at run
  induction keys with
  | nil =>
    cases run
    exact ⟨_, rfl⟩
  | cons k keys ih =>
    rw [putFirst, putBlob] at run
    by_cases taken : (blobs k).isSome
    · rw [if_pos taken] at run
      exact ih run
    · rw [if_neg taken] at run
      cases run

lemma putRandomBlob_kept {blobs blobs' : Blobs} {draw : Nat → BlobKey} {data : Buf} {key : BlobKey}
    (run : blobs.putRandomBlob draw data = .ok (blobs', key)) {k : BlobKey} {bytes : Buf}
    (stored : blobs k = some bytes) : blobs' k = some bytes := by
  obtain ⟨free, rfl⟩ := putFirst_eq_ok run
  rw [Function.update_of_ne, stored]
  rintro rfl
  rw [free] at stored
  cases stored

lemma getBlob_eq {blobs : Blobs} {key : BlobKey} {bytes : Buf} {offset len : Nat}
    (stored : blobs key = some bytes) (inside : offset + len ≤ bytes.length) :
    blobs.getBlob key offset len = .ok (slice bytes offset len) := by
  rw [getBlob, stored]
  exact if_pos inside

end Blobs

end NbdServer
