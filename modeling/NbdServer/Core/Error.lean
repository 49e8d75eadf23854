import NbdServer.Protocol.Error

/-!
# Errors and fallible results

Model of `error.rs`: the `ServerError` variants that the modelled functions return, with their
contexts and message texts. A Rust function that returns `Result` and may also abort (a slice index
out of range, an `expect`) is modelled in `Res`: an `Err` is `Fault.err`, an abort is `Fault.abort`,
so that a theorem saying a call is `.ok` excludes both.
-/

namespace NbdServer

/-- Rust `ExportName`, an opaque string that is compared and never inspected. -/
abbrev ExportName := Nat

/-- Rust `ServerError`, the variants the modelled code builds. -/
inductive ServerError where
  | wal (context message : String)
  | io (context message : String)
  | catalog (message : String)
  | outOfBounds (operation : String) (offset length sizeBytes : Nat)
  | blobAlreadyExists (context key : String)
  | runtimeClosed (resource : String)
  | exportTooLarge (name : ExportName) (sizeBytes maxSizeBytes : Nat)
  | exportBusy (name : ExportName)
  | exportOwnerMismatch (name : ExportName)
  | protocol (source : ProtocolError)
  deriving DecidableEq, Repr

/-- Why a call did not return a value: a Rust `Err`, or an abort of the running task. -/
inductive Fault where
  | err (error : ServerError)
  | abort (reason : String)
  deriving DecidableEq, Repr

abbrev Res (α : Type) := Except Fault α

/-- Return the error `e`. -/
def fail {α} (e : ServerError) : Res α := .error (.err e)

/-- `u64` arithmetic is done in `Nat`; this is the first value that does not fit. -/
def U64 : Nat := 2 ^ 64

/-- The first value that does not fit in `u32`. -/
def U32 : Nat := 2 ^ 32

/-- Rust `u64::checked_add`. -/
def checkedAdd (a b : Nat) : Option Nat := if a + b < U64 then some (a + b) else none

/-- Rust `u64::checked_sub`. -/
def checkedSub (a b : Nat) : Option Nat := if b ≤ a then some (a - b) else none

/-- Rust `u64::checked_mul`. -/
def checkedMul (a b : Nat) : Option Nat := if a * b < U64 then some (a * b) else none

/-- Rust `a + b` on `u64`, which aborts at the end of the type. -/
def plus (a b : Nat) : Res Nat :=
  if a + b < U64 then .ok (a + b) else .error (.abort "attempt to add with overflow")

/-- Rust `a - b` on unsigned integers, which aborts below zero. -/
def minus (a b : Nat) : Res Nat :=
  if b ≤ a then .ok (a - b) else .error (.abort "attempt to subtract with overflow")

/-- Rust `Option::expect`. -/
def expect {α} (o : Option α) (reason : String) : Res α :=
  match o with
  | some a => .ok a
  | none => .error (.abort reason)

/-- Rust `Option::ok_or`. -/
def okOr {α} (o : Option α) (e : ServerError) : Res α :=
  match o with
  | some a => .ok a
  | none => fail e

lemma checkedAdd_of_lt {a b : Nat} (h : a + b < U64) : checkedAdd a b = some (a + b) := if_pos h

lemma checkedAdd_eq_some {a b c : Nat} : checkedAdd a b = some c ↔ a + b < U64 ∧ c = a + b := by
  unfold checkedAdd
  split <;> simp_all [eq_comm]

lemma checkedSub_of_le {a b : Nat} (h : b ≤ a) : checkedSub a b = some (a - b) := if_pos h

lemma checkedMul_of_lt {a b : Nat} (h : a * b < U64) : checkedMul a b = some (a * b) := if_pos h

lemma plus_of_lt {a b : Nat} (h : a + b < U64) : plus a b = .ok (a + b) := if_pos h

lemma minus_of_le {a b : Nat} (h : b ≤ a) : minus a b = .ok (a - b) := if_pos h

@[simp] lemma expect_some {α} (a : α) (reason : String) : expect (some a) reason = .ok a := rfl

@[simp] lemma okOr_some {α} (a : α) (e : ServerError) : okOr (some a) e = .ok a := rfl

@[simp] lemma okOr_none {α} (e : ServerError) : okOr (none : Option α) e = fail e := rfl

lemma U32_lt_U64 : U32 < U64 := by decide

lemma Res.bind_eq_ok {α β} {x : Res α} {f : α → Res β} {b : β} :
    x >>= f = .ok b ↔ ∃ a, x = .ok a ∧ f a = .ok b := by
  cases x with
  | error e => simp [bind, Except.bind]
  | ok a => simp [bind, Except.bind]

@[simp] lemma Res.ok_bind {α β} (a : α) (f : α → Res β) : (Except.ok a : Res α) >>= f = f a := rfl

lemma Res.mapM_forall₂ {α β} {f : α → Res β} {p : α → β → Prop} {l : List α}
    (h : ∀ a ∈ l, ∃ b, f a = .ok b ∧ p a b) : ∃ bs, l.mapM f = .ok bs ∧ List.Forall₂ p l bs := by
  induction l with
  | nil => exact ⟨[], rfl, .nil⟩
  | cons a l ih =>
    obtain ⟨b, run, hb⟩ := h a List.mem_cons_self
    obtain ⟨bs, runs, hbs⟩ := ih fun a' ha' => h a' (List.mem_cons_of_mem _ ha')
    refine ⟨b :: bs, ?_, .cons hb hbs⟩
    rw [List.mapM_cons, run, Res.ok_bind, runs, Res.ok_bind]
    rfl

lemma forall₂_right {α β} {p : α → β → Prop} {l : List α} {bs : List β} (h : List.Forall₂ p l bs) :
    ∀ b ∈ bs, ∃ a ∈ l, p a b := by
  induction h with
  | nil => simp
  | cons hb _ ih =>
    intro b' hb'
    rcases List.mem_cons.1 hb' with rfl | hb'
    · exact ⟨_, List.mem_cons_self, hb⟩
    · obtain ⟨a', ha', hp⟩ := ih b' hb'
      exact ⟨a', List.mem_cons_of_mem _ ha', hp⟩

lemma forall₂_left {α β} {p : α → β → Prop} {l : List α} {bs : List β} (h : List.Forall₂ p l bs) :
    ∀ a ∈ l, ∃ b ∈ bs, p a b := forall₂_right h.flip

lemma forall₂_pairwise {α β} {p : α → β → Prop} {r : α → α → Prop} {q : β → β → Prop} {l : List α}
    {bs : List β} (h : List.Forall₂ p l bs) (ordered : l.Pairwise r)
    (step : ∀ a a' b b', r a a' → p a b → p a' b' → q b b') : bs.Pairwise q := by
  induction h with
  | nil => exact .nil
  | cons hb rest ih =>
    obtain ⟨first, later⟩ := List.pairwise_cons.1 ordered
    refine List.pairwise_cons.2 ⟨?_, ih later⟩
    intro b' hb'
    obtain ⟨a', ha', hp⟩ := forall₂_right rest b' hb'
    exact step _ _ _ _ (first a' ha') hb hp

end NbdServer
