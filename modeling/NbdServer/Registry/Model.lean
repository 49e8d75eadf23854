import NbdServer.Core.Error
import NbdServer.Lib.Trace

/-!
# The local export registry

Model of `LocalExportRegistry` in `registry/mod.rs`. A call of `open` or `close` takes the lock of
the map for each of its atomic parts and releases it across `create_runtime` and `runtime.close`.
All that a call touches belongs to its export name, so the state is a `Desk` for each name: the
entry of the map, the calls made for the name and the runtimes created for it. `create_runtime` (the
catalog load and the factory) and the close of a runtime succeed or fail as the environment wants.
-/

namespace NbdServer.Registry

open Lib

/-- Rust `ExportOwner`. -/
abbrev ExportOwner := Nat

/-- Rust `ActiveExportState`; `opened` is its `Open` with the fields of `ActiveExport`. A runtime is
its index among those created for the name. -/
inductive ActiveExportState where
  | opening (owner : ExportOwner)
  | opened (owner : ExportOwner) (runtime connections : Nat)
  | closing (owner : ExportOwner)
  deriving DecidableEq

/-- How far a call of `open` is: before the lock, inside `create_runtime`, back from it with a
runtime or an error, or returned. -/
inductive OpenPhase where
  | called
  | creating
  | created (runtime : Nat)
  | failed (error : Fault)
  | returned (result : Res Nat)

/-- A call of `open`. -/
structure OpenCall where
  owner : ExportOwner
  phase : OpenPhase

/-- How far a call of `close` is: before the lock, about to call `runtime.close`, inside of it, back
from it, or returned. -/
inductive ClosePhase where
  | called
  | closing (runtime : Nat)
  | awaiting (runtime : Nat)
  | closed (runtime : Nat) (result : Res Unit)
  | returned (result : Res Unit)

/-- A call of `close`; `released` is the runtime whose `connections` it has lowered. -/
structure CloseCall where
  owner : ExportOwner
  released : Option Nat
  phase : ClosePhase

/-- A created runtime: how often its `close` was called, and whether such a call has returned. -/
structure Runtime where
  closeCalls : Nat
  closed : Bool
  deriving DecidableEq

structure Desk where
  entry : Option ActiveExportState
  opens : List OpenCall
  closes : List CloseCall
  runtimes : List Runtime

inductive Event where
  | openCall (owner : ExportOwner)
  | openStep (call : Nat)
  | created (call : Nat) (result : Res Unit)
  | closeCall (owner : ExportOwner)
  | closeStep (call : Nat)
  | runtimeClosed (call : Nat) (result : Res Unit)

namespace Desk

def new : Desk := ⟨none, [], [], []⟩

/-- Another phase of a call of `open`. -/
def setOpen (d : Desk) (i : Nat) (call : OpenCall) (phase : OpenPhase) : Desk :=
  { d with opens := d.opens.set i { call with phase } }

/-- Another phase of a call of `close`. -/
def setClose (d : Desk) (i : Nat) (call : CloseCall) (phase : ClosePhase) : Desk :=
  { d with closes := d.closes.set i { call with phase } }

/-- A step of `open` under the lock. -/
def openStep (name : ExportName) (d : Desk) (i : Nat) (call : OpenCall) : Option Desk :=
  match call.phase with
  | .called =>
    match d.entry with
    | some (.opened owner runtime connections) =>
      if owner = call.owner then
        some { d.setOpen i call (.returned (.ok runtime)) with
          entry := some (.opened owner runtime (connections + 1)) }
      else some (d.setOpen i call (.returned (fail (.exportBusy name))))
    | some _ => some (d.setOpen i call (.returned (fail (.exportBusy name))))
    | none => some { d.setOpen i call .creating with entry := some (.opening call.owner) }
  | .created runtime =>
    some { d.setOpen i call (.returned (.ok runtime)) with
      entry := some (.opened call.owner runtime 1) }
  | .failed error =>
    -- Rust `remove_opening`
    some { d.setOpen i call (.returned (.error error)) with
      entry := if d.entry = some (.opening call.owner) then none else d.entry }
  | _ => none

/-- `create_runtime` returns. -/
def created (d : Desk) (i : Nat) (call : OpenCall) (result : Res Unit) : Option Desk :=
  match call.phase with
  | .creating =>
    match result with
    | .ok () =>
      some { d.setOpen i call (.created d.runtimes.length) with
        runtimes := d.runtimes ++ [⟨0, false⟩] }
    | .error error => some (d.setOpen i call (.failed error))
  | _ => none

/-- A step of `close`: under the lock, or the call of `runtime.close`. The subtraction would abort
at zero. -/
def closeStep (name : ExportName) (d : Desk) (i : Nat) (call : CloseCall) : Option Desk :=
  match call.phase with
  | .called =>
    match d.entry with
    | none => some (d.setClose i call (.returned (.ok ())))
    | some (.opened owner runtime connections) =>
      if owner = call.owner then do
        let connections ← checkedSub connections 1
        let call := { call with released := some runtime }
        if connections > 0 then
          some { d.setClose i call (.returned (.ok ())) with
            entry := some (.opened owner runtime connections) }
        else
          some { d.setClose i call (.closing runtime) with entry := some (.closing call.owner) }
      else some (d.setClose i call (.returned (fail (.exportOwnerMismatch name))))
    | some (.opening owner) | some (.closing owner) =>
      if owner = call.owner then some (d.setClose i call (.returned (.ok ())))
      else some (d.setClose i call (.returned (fail (.exportOwnerMismatch name))))
  | .closing runtime =>
    some { d.setClose i call (.awaiting runtime) with
      runtimes := d.runtimes.modify runtime fun r => { r with closeCalls := r.closeCalls + 1 } }
  | .closed _ result =>
    some { d.setClose i call (.returned result) with
      entry := if d.entry = some (.closing call.owner) then none else d.entry }
  | _ => none

def runtimeClosed (d : Desk) (i : Nat) (call : CloseCall) (result : Res Unit) : Option Desk :=
  match call.phase with
  | .awaiting runtime =>
    some { d.setClose i call (.closed runtime result) with
      runtimes := d.runtimes.modify runtime ({ · with closed := true }) }
  | _ => none

/-- The effect of an event, `none` where it cannot happen. -/
def next (name : ExportName) (d : Desk) : Event → Option Desk
  | .openCall owner => some { d with opens := d.opens ++ [⟨owner, .called⟩] }
  | .openStep i => do d.openStep name i (← d.opens[i]?)
  | .created i result => do d.created i (← d.opens[i]?) result
  | .closeCall owner => some { d with closes := d.closes ++ [⟨owner, none, .called⟩] }
  | .closeStep i => do d.closeStep name i (← d.closes[i]?)
  | .runtimeClosed i result => do d.runtimeClosed i (← d.closes[i]?) result

end Desk

abbrev World := ExportName → Desk

/-- The runs of the registry: each event is one of a call for some name. -/
def system : System World (ExportName × Event) where
  init w := w = fun _ => .new
  step w e w' := ∃ d, (w e.1).next e.1 e.2 = some d ∧ w' = Function.update w e.1 d

end NbdServer.Registry
