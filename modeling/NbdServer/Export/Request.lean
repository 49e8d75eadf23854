import NbdServer.Core.Bytes
import NbdServer.Admission.Model

/-!
# Export requests

Model of `export/request.rs` and of the interface of `export/engine.rs`: the requests and replies of
an export, and an engine as the steps its `execute_admitted` takes on the state it shares with the
other requests and with its own background tasks.
-/

namespace NbdServer

open Admission

/-- Rust `ExportRequest`. -/
inductive ExportRequest where
  | read (offset : UInt64) (len : UInt32)
  | write (offset : UInt64) (data : Buf)
  | flush
  deriving DecidableEq

/-- Rust `ExportReply`. -/
inductive ExportReply where
  | read (data : Buf)
  | done
  deriving DecidableEq

/-- Rust `ExportResult`. -/
abbrev ExportResult := Res ExportReply

/-- Rust `ExportEngine` with its `ExportAdmissionPolicy`. `execute_admitted` runs from `start
request` by `step` until `result` has its value; `background` are the steps of the engine's own
tasks. -/
structure Engine (σ L : Type) where
  operationFor : ExportRequest → Res AdmissionOp
  start : ExportRequest → L
  step : L → σ → L → σ → Prop
  result : L → Option ExportResult
  background : σ → σ → Prop

end NbdServer
