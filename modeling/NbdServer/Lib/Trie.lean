import Mathlib

/-!
# Tries in a store of nodes

A trie whose nodes are rows of a store: a node stands at a position, which is the list of slots on
the way to it, and has at most one edge for each slot. `Finds` is what a walk along a path finds, a
leaf or that an edge is missing on the way. The rules of this module say which walks a change of the
store leaves alone (`Finds.grows`), what the other ones find from the changed edge on
(`Finds.graft`), and what is found through a node with the edges of another one (`Finds.copy`) or
with no edges (`Finds.bare`).
-/

namespace Lib.Trie

universe u v w
variable {N : Type u} {S : Type v} {A : Type w}

/-- Nodes with the positions they stand at, their edges and their leaves. -/
structure Store (N : Type u) (S : Type v) (A : Type w) where
  fits : N → List S → Prop
  edge : N → S → Option N
  leaf : N → Option A

/-- What the walk from the node at the first list along the second one finds. -/
inductive Finds (t : Store N S A) : N → List S → List S → Option A → Prop where
  | leaf {n p a} : t.fits n p → t.leaf n = some a → Finds t n p [] (some a)
  | stop {n p s path} : t.fits n p → t.edge n s = none → Finds t n p (s :: path) none
  | step {n p s path c r} : t.fits n p → t.edge n s = some c → Finds t c (p ++ [s]) path r →
    Finds t n p (s :: path) r

/-- The store has all nodes and leaves of another one, and the same edges except at the given
positions. -/
structure Grows (t t' : Store N S A) (changed : List S → Prop) : Prop where
  fits : ∀ {n p}, t.fits n p → t'.fits n p
  edge : ∀ {n p s}, t.fits n p → ¬ changed (p ++ [s]) → t'.edge n s = t.edge n s
  leaf : ∀ {n p a}, t.fits n p → t.leaf n = some a → t'.leaf n = some a

variable {t t' t'' : Store N S A} {n c : N} {p path : List S} {s : S} {r r' : Option A}

/-- A way along edges is one along more edges. -/
lemma lead_mono {edge edge' : N → S → Option N}
    (sub : ∀ n s c, edge n s = some c → edge' n s = some c) {q : List S} {m : N}
    (lead : q.foldlM edge m = some n) : q.foldlM edge' m = some n := by
  induction q generalizing m with
  | nil => exact lead
  | cons x q ih =>
    obtain ⟨c, first, rest⟩ := Option.bind_eq_some_iff.1 lead
    exact Option.bind_eq_some_iff.2 ⟨c, sub m x c first, ih rest⟩

/-- One edge more at the end of a way. -/
lemma lead_concat {edge : N → S → Option N} {q : List S} {m : N} :
    (q ++ [s]).foldlM edge m = some c ↔ ∃ n, q.foldlM edge m = some n ∧ edge n s = some c := by
  rw [List.foldlM_append]
  simp only [List.foldlM_cons, List.foldlM_nil, Option.bind_eq_bind, Option.bind_eq_some_iff]
  simp

namespace Finds

lemma fits (h : Finds t n p path r) : t.fits n p := by
  cases h with
  | leaf fits _ => exact fits
  | stop fits _ => exact fits
  | step fits _ _ => exact fits

/-- A walk finds one thing. -/
lemma unique (h : Finds t n p path r) (h' : Finds t n p path r') : r = r' := by
  induction h with
  | leaf _ leaf =>
    cases h' with
    | leaf _ leaf' => exact leaf.symm.trans leaf'
  | stop _ edge =>
    cases h' with
    | stop _ _ => rfl
    | step _ edge' _ => exact absurd (edge.symm.trans edge') (by simp)
  | step _ edge _ ih =>
    cases h' with
    | stop _ edge' => exact absurd (edge.symm.trans edge') (by simp)
    | step _ edge' rest =>
      cases edge.symm.trans edge'
      exact ih rest

/-- The rest of a walk along an edge. -/
lemma along (h : Finds t n p (s :: path) r) (edge : t.edge n s = some c) :
    Finds t c (p ++ [s]) path r := by
  cases h with
  | stop _ edge' => exact absurd (edge.symm.trans edge') (by simp)
  | step _ edge' rest =>
    cases edge.symm.trans edge'
    exact rest

/-- A walk that does not pass a changed position finds what it found before. -/
lemma grows {changed : List S → Prop} (g : Grows t t' changed) (h : Finds t n p path r)
    (off : ∀ q, q ≠ [] → q <+: path → ¬ changed (p ++ q)) : Finds t' n p path r := by
  induction h with
  | leaf fits leaf => exact .leaf (g.fits fits) (g.leaf fits leaf)
  | @stop n p s path fits edge =>
    have same := g.edge fits (off [s] (by simp) (by simp))
    exact .stop (g.fits fits) (same.trans edge)
  | @step n p s path c r fits edge rest ih =>
    have same := g.edge fits (off [s] (by simp) (by simp))
    refine .step (g.fits fits) (same.trans edge) (ih ?_)
    intro q some_slot start
    have long := off (s :: q) (by simp) (List.cons_prefix_cons.2 ⟨rfl, start⟩)
    rwa [List.append_assoc, List.singleton_append]

/-- A walk in a store that only grew finds what it found before. -/
lemma kept (g : Grows t t' fun _ => False) (h : Finds t n p path r) : Finds t' n p path r :=
  h.grows g fun _ _ _ => id

/-- A walk goes through the nodes that the edges lead to. -/
lemma arrive {q : List S} {m : N} (h : Finds t m p (q ++ path) r)
    (lead : q.foldlM t.edge m = some n) :
    Finds t n (p ++ q) path r := by
  induction q generalizing m p with
  | nil =>
    cases lead
    rwa [List.append_nil]
  | cons s q ih =>
    obtain ⟨c, edge, lead⟩ := Option.bind_eq_some_iff.1 lead
    have rest := ih (h.along edge) lead
    rwa [List.append_assoc, List.singleton_append] at rest

/-- The edges that lead to a node are not the changed one below it. -/
lemma lead_kept {q : List S} {m : N} (g : Grows t t' fun x => x = p ++ q ++ [s])
    (h : Finds t m p (q ++ path) r) (lead : q.foldlM t.edge m = some n) :
    q.foldlM t'.edge m = some n := by
  induction q generalizing m p with
  | nil => exact lead
  | cons x q ih =>
    obtain ⟨c, edge, lead⟩ := Option.bind_eq_some_iff.1 lead
    have early : ¬ p ++ [x] = p ++ x :: q ++ [s] := by
      intro same
      have := congrArg List.length same
      simp at this
    have same := g.edge h.fits early
    have shift : p ++ x :: q = p ++ [x] ++ q := by simp
    rw [shift] at g
    exact Option.bind_eq_some_iff.2 ⟨c, same.trans edge, ih g (h.along edge) lead⟩

/-- A walk through the one changed edge finds what is found from there on now. -/
lemma graft {q : List S} {m : N} (g : Grows t t' fun x => x = p ++ q ++ [s])
    (h : Finds t m p (q ++ s :: path) r) (lead : q.foldlM t.edge m = some n)
    (below : Finds t' n (p ++ q) (s :: path) r') : Finds t' m p (q ++ s :: path) r' := by
  induction q generalizing m p with
  | nil =>
    cases lead
    rwa [List.append_nil] at below
  | cons x q ih =>
    obtain ⟨c, edge, lead⟩ := Option.bind_eq_some_iff.1 lead
    have early : ¬ p ++ [x] = p ++ x :: q ++ [s] := by
      intro same
      have := congrArg List.length same
      simp at this
    have same := g.edge h.fits early
    have shift : p ++ x :: q = p ++ [x] ++ q := by simp
    refine .step (g.fits h.fits) (same.trans edge) ?_
    rw [shift] at g below
    exact ih g (h.along edge) lead below

/-- A node with the edges of another one at its position finds the same. -/
lemma copy (h : Finds t n p (s :: path) r) (fits : t.fits c p) (edges : t.edge c s = t.edge n s) :
    Finds t c p (s :: path) r := by
  cases h with
  | stop _ edge => exact .stop fits (edges.trans edge)
  | step _ edge rest => exact .step fits (edges.trans edge) rest

/-- Nothing is found below a node without edges. -/
lemma bare (fits : t.fits n p) (edges : ∀ s, t.edge n s = none) (some_slot : path ≠ []) :
    Finds t n p path none := by
  cases path with
  | nil => exact absurd rfl some_slot
  | cons s path => exact .stop fits (edges s)

end Finds

namespace Grows

variable {changed : List S → Prop}

lemma refl (t : Store N S A) (changed : List S → Prop) : Grows t t changed :=
  ⟨id, fun _ _ => rfl, fun _ leaf => leaf⟩

lemma trans (g : Grows t t' changed) (g' : Grows t' t'' changed) : Grows t t'' changed where
  fits h := g'.fits (g.fits h)
  edge h off := (g'.edge (g.fits h) off).trans (g.edge h off)
  leaf h leaf := g'.leaf (g.fits h) (g.leaf h leaf)

lemma mono {changed' : List S → Prop} (g : Grows t t' changed) (le : ∀ p, changed p → changed' p) :
    Grows t t' changed' where
  fits := g.fits
  edge h off := g.edge h fun is => off (le _ is)
  leaf := g.leaf

end Grows

end Lib.Trie
