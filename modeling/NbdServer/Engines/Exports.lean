import NbdServer.Engines.Contents

/-!
# The exports under the steps of the stores

What is known of an export, whether an engine has it open or not (`ExportOk`): all roots that it has
had hold the content at their base, the root of the catalog has the highest base, all its
compactions stand on its log, and the log still has the records above the root. A step of the stores
keeps this, since the only step that changes the root of an export is the publish of a compaction
that has read the root it replaces (`StoreStep.head_cases`).
-/

namespace NbdServer

open Lib Wal

lemma ExportRecord.cowRoot_congr {e e' : ExportRecord} (same : e'.head = e.head) :
    e'.cowRoot = e.cowRoot := by
  unfold cowRoot
  rw [same]

lemma Compaction.start_of (id : ExportId) (sn : CompactionSnapshot) (tables : TreeTables)
    (blobs : Blobs) :
    (start id sn tables blobs).exportId = id ∧ (start id sn tables blobs).snapshot = sn := by
  unfold start
  dsimp only
  split_ifs <;> exact ⟨rfl, rfl⟩

def StoreWorld.Kept (w : StoreWorld) (id : ExportId) (w' : StoreWorld) : Prop :=
  ∀ c ∈ w'.compactions, c.exportId = id → ∃ c₀ ∈ w.compactions, c₀.exportId = id ∧ c₀.snapshot =
    c.snapshot

namespace StoreStep

variable {w w' : StoreWorld}

lemma roots_subset (st : StoreStep w w') : w.roots ⊆ w'.roots := by
  cases st with
  | insert => exact List.subset_append_left _ _
  | publish => exact List.subset_append_left _ _
  | _ => exact List.Subset.refl _

lemma publications_subset (st : StoreStep w w') : w.publications ⊆ w'.publications := by
  cases st with
  | publish => exact List.subset_append_left _ _
  | _ => exact List.Subset.refl _

lemma publications_cases (st : StoreStep w w') {p : Publication} (mem : p ∈ w'.publications) :
    p ∈ w.publications ∨ (p.exportId, p.root) ∈ w'.roots := by
  cases st with
  | publish =>
    rcases List.mem_append.1 mem with mem | mem
    · exact .inl mem
    · rw [List.mem_singleton.1 mem]
      exact .inr (List.mem_append_right _ List.mem_cons_self)
  | _ => exact .inl mem

lemma committed (content : ContentInv w) (st : StoreStep w w') {p : ExportId × RootSnapshot}
    (mem : p ∈ w.roots) : w'.stores.committed p.2 = w.stores.committed p.2 := by
  have grows : w.stores.Grows w'.stores := by
    cases st with
    | same => exact .refl _
    | @insert db record inserted _ =>
      have tables := (Catalog.insertExport_eq_ok inserted).2.1
      show w.stores.Grows ⟨db.tables.toTreeRows, w.blobs⟩
      rw [tables]
      exact .refl _
    | @delete db f tables _ _ =>
      show w.stores.Grows ⟨db.tables.toTreeRows, w.blobs⟩
      rw [tables]
      exact .refl _
    | start _ => exact .refl _
    | move found moves => exact ((content.compactions _ (List.mem_of_getElem? found)).moves moves).1
    | publish _ _ _ replaces _ => exact ⟨replaces.later, fun _ _ h => h⟩
  obtain ⟨g, stored⟩ := content.roots p mem
  exact funext fun x => stored.committed_grows grows x

lemma head_cases (st : StoreStep w w') {id : ExportId} {e : ExportRecord} {root : RootSnapshot}
    (found : w.db.find id = some e) (is_root : e.cowRoot = some root) :
    (∃ e', w'.db.find id = some e' ∧ e'.cowRoot = some root ∧ ∀ r, (id, r) ∈ w'.roots →
    (id, r) ∈ w.roots) ∨
    ∃ e' new, ∃ c ∈ w.compactions, w'.db.find id = some e' ∧ e'.cowRoot = some new ∧
    c.exportId = id ∧
      c.snapshot.root = root ∧ root.baseWalSeq < new.baseWalSeq ∧ new.baseWalSeq =
      c.snapshot.targetWalSeq ∧
      ⟨id, c.snapshot, new⟩ ∈ w'.publications ∧ ∀ r, (id, r) ∈ w'.roots → (id, r) ∈ w.roots ∨
      r = new := by
  obtain ⟨mem, is⟩ := Catalog.find_eq_some.1 found
  cases st with
  | same | start _ | move _ _ => exact .inl ⟨e, found, is_root, fun r h => h⟩
  | @insert db record inserted _ =>
    obtain ⟨exports, -, fresh, -⟩ := Catalog.insertExport_eq_ok inserted
    refine .inl ⟨e, Catalog.find_eq_some.2 ⟨?_, is⟩, is_root, fun r h => ?_⟩
    · show e ∈ db.exports
      rw [exports]
      exact List.mem_append_left _ mem
    · rcases List.mem_append.1 h with h | h
      · exact h
      · obtain ⟨e', mem', -, is'⟩ := StoreWorld.mem_rootsOf.1 h
        rw [List.mem_singleton.1 mem'] at is'
        exact absurd (is.trans is'.symm) (fresh e mem)
  | @delete db f _ exports same =>
    refine .inl ⟨f e, Catalog.find_eq_some.2 ⟨?_, (same e).1.trans is⟩, ?_, fun r h => h⟩
    · show f e ∈ db.exports
      rw [exports]
      exact List.mem_map_of_mem mem
    · rw [ExportRecord.cowRoot_congr (same e).2, is_root]
  | @publish i c chunks refs seen db new reported c_found phase lt replaces _ =>
    obtain ⟨⟨request, record, published, is_id, expected, is_next⟩, -, base, -⟩ := replaces
    by_cases same : id = c.exportId
    · subst same
      obtain ⟨current, is_current, -, is_head, is_record⟩ := published.was
      rw [is_id, found] at is_current
      cases is_current
      have old : root = c.snapshot.root := by
        rw [ExportRecord.cowRoot, is_head, expected] at is_root
        exact (Option.some.inj is_root).symm
      refine .inr ⟨record, new, c, List.mem_of_getElem? c_found, ?_, ?_, rfl, old.symm, ?_, base,
        ?_, fun r h => ?_⟩
      · rw [← is_id]
        exact published.find_self
      · rw [is_record, ExportRecord.cowRoot]
        show (RootSnapshot.fromHead request.nextHead).toOption = _
        rw [is_next]
        rfl
      · rw [old, base]
        exact lt
      · exact List.mem_append_right _ List.mem_cons_self
      · rcases List.mem_append.1 h with h | h
        · exact .inl h
        · exact .inr (congrArg (·.2) (List.mem_singleton.1 h))
    · refine .inl ⟨e, ?_, is_root, fun r h => ?_⟩
      · rw [← found]
        exact published.find_other (is_id.symm ▸ same)
      · rcases List.mem_append.1 h with h | h
        · exact h
        · exact absurd (congrArg (·.1) (List.mem_singleton.1 h)) same

/-- What becomes of a compaction in a step from `w`: only one that has read the root of its export
is published. -/
structure Follows (w : StoreWorld) (c c' : Compaction) : Prop where
  exportId : c'.exportId = c.exportId
  snapshot : c'.snapshot = c.snapshot
  done : ∀ result, c'.phase = .done (.ok result) → result.outcome = .published →
    c.phase = c'.phase ∨
    ∃ e, w.db.find c.exportId = some e ∧ e.cowRoot = some c.snapshot.root

lemma compaction_at (st : StoreStep w w') {i : Nat} {c : Compaction}
    (found : w.compactions[i]? = some c) :
    ∃ c', w'.compactions[i]? = some c' ∧ Follows w c c' := by
  have set_at {j : Nat} {c₀ : Compaction} {phase : CompactionPhase}
    (at_j : w.compactions[j]? = some c₀)
      (ends : ∀ result, phase = .done (.ok result) → result.outcome = .published →
        ∃ e, w.db.find c₀.exportId = some e ∧ e.cowRoot = some c₀.snapshot.root) :
      ∃ c', (w.setPhase j c₀ phase).compactions[i]? = some c' ∧ Follows w c c' := by
    by_cases same : j = i
    · subst same
      rw [at_j] at found
      cases found
      refine ⟨_, List.getElem?_set_self (List.getElem?_eq_some_iff.1 at_j).1, rfl, rfl, ?_⟩
      exact fun result done published => .inr (ends result done published)
    · exact ⟨c, (List.getElem?_set_ne same).trans found, rfl, rfl, fun _ _ _ => .inl rfl⟩
  cases st with
  | same | insert _ _ | delete _ _ _ => exact ⟨c, found, rfl, rfl, fun _ _ _ => .inl rfl⟩
  | start _ =>
    refine ⟨c, ?_, rfl, rfl, fun _ _ _ => .inl rfl⟩
    exact (List.getElem?_append_left (List.getElem?_eq_some_iff.1 found).1).trans found
  | move at_j moves =>
    refine set_at at_j fun result done published => ?_
    cases moves with
    | unpublished other _ =>
      cases done
      exact absurd published (other _ rfl)
    | _ => cases done
  | publish at_j _ _ replaces _ =>
    refine set_at at_j fun result done published => ?_
    obtain ⟨⟨request, record, published, is_id, expected, -⟩, -, -, -⟩ := replaces
    obtain ⟨current, is_current, -, is_head, -⟩ := published.was
    refine ⟨current, is_id ▸ is_current, ?_⟩
    rw [ExportRecord.cowRoot, is_head, expected]
    rfl

end StoreStep

/-- What is known of an export with the root `root` in the catalog. -/
structure ExportOk (crc : Checksum) (target : Nat) (id : ExportId) (o : Origin) (wal : WalWorld)
    (w : StoreWorld) (root : RootSnapshot) : Prop where
  header : SEGMENT_HEADER_LEN < target
  log : WalInv crc target wal
  room : Room wal
  store : StoreInv w
  content : ContentInv w
  head : ∃ e, w.db.find id = some e ∧ e.cowRoot = some root
  pruned : wal.pruneRequest ≤ root.baseWalSeq
  inside : ∀ r ∈ wal.history, o.base < r.seq → r.range.start + r.range.len ≤ o.size
  roots : ∀ r, (id, r) ∈ w.roots → RootAt o wal.history w.stores.committed r ∧
    (r.baseWalSeq < root.baseWalSeq ∨ r = root)
  compactions : ∀ c ∈ w.compactions, c.exportId = id →
    (id, c.snapshot.root) ∈ w.roots ∧ SnapshotAt wal.history c.snapshot
  publications : ∀ p ∈ w.publications, p.exportId = id → (id, p.root) ∈ w.roots

namespace ExportOk

variable {crc : Checksum} {target : Nat} {id : ExportId} {o : Origin} {wal : WalWorld}
    {w w' : StoreWorld}
  {root : RootSnapshot} (ok : ExportOk crc target id o wal w root)
include ok

lemma root_mem : (id, root) ∈ w.roots := by
  obtain ⟨e, found, is_root⟩ := ok.head
  obtain ⟨mem, is⟩ := Catalog.find_eq_some.1 found
  exact is ▸ ok.store.current e mem root is_root

lemma root_at :
    RootAt o wal.history w.stores.committed root := (ok.roots _ ok.root_mem).1

lemma root_eq {e : ExportRecord} {root' : RootSnapshot}
    (found : w.db.find id = some e) (is_root : e.cowRoot = some root') : root' = root := by
  obtain ⟨e', found', is_root'⟩ := ok.head
  rw [found] at found'
  cases found'
  rw [is_root] at is_root'
  exact Option.some.inj is_root'

lemma base_le {r : RootSnapshot} (mem : (id, r) ∈ w.roots) :
    r.baseWalSeq ≤ root.baseWalSeq := by
  rcases (ok.roots r mem).2 with lt | rfl
  · exact lt.le
  · exact le_rfl

lemma size_fits : o.size + CACHE_BLOCK_BYTES < U64 := by
  rw [← ok.root_at.size_eq]
  obtain ⟨e, found, is_root⟩ := ok.head
  obtain ⟨size, rootNodeId, base, format, is_head, rfl⟩ := ExportRecord.cowRoot_eq_some.1 is_root
  have lt := (w.db.heads e (Catalog.find_eq_some.1 found).1).size
  rw [is_head] at lt
  have : I64 + CACHE_BLOCK_BYTES < U64 := by decide
  have lt : size < I64 := lt
  show size + CACHE_BLOCK_BYTES < U64
  omega

/-- A step of the stores that starts no compaction of the export. A root that is new in the catalog
was published by one of its compactions. -/
lemma step (st : StoreStep w w')
    (kept : w.Kept id w') :
    ∃ root', ExportOk crc target id o wal w' root' ∧
      (root' = root ∨ ∃ c ∈ w.compactions, c.exportId = id ∧ root'.baseWalSeq =
      c.snapshot.targetWalSeq) := by
  obtain ⟨e, found, is_root⟩ := ok.head
  have subset := st.roots_subset
  have store := ok.store.step st
  have content := ok.content.step ok.store st
  have old : ∀ r, (id, r) ∈ w.roots → RootAt o wal.history w'.stores.committed r :=
    fun r mem => (ok.roots r mem).1.congr (st.committed ok.content mem)
  have compactions : ∀ c ∈ w'.compactions, c.exportId = id →
      (id, c.snapshot.root) ∈ w'.roots ∧ SnapshotAt wal.history c.snapshot := by
    intro c mem is
    obtain ⟨c₀, mem₀, is₀, same⟩ := kept c mem is
    obtain ⟨at_root, snap⟩ := ok.compactions c₀ mem₀ is₀
    exact same ▸ ⟨subset at_root, snap⟩
  have publications : ∀ p ∈ w'.publications, p.exportId = id → (id, p.root) ∈ w'.roots := by
    intro p mem is
    rcases st.publications_cases mem with mem | mem
    · exact subset (ok.publications p mem is)
    · exact is ▸ mem
  rcases st.head_cases found is_root with
    ⟨e', found', is_root', roots⟩ | ⟨e', new, c, mem, found', is_root', is_id, is_old, lt, base,
      published, roots⟩
  · exact ⟨root, { ok with
      store, content, compactions, publications, head := ⟨e', found', is_root'⟩
      roots := fun r mem => ⟨old r (roots r mem), (ok.roots r (roots r mem)).2⟩ }, .inl rfl⟩
  · obtain ⟨at_root, snap⟩ := ok.compactions c mem is_id
    have new_at : RootAt o wal.history w'.stores.committed new :=
      snap.published (old _ at_root) ok.log.consecutive (content.publications _ published).publishes
    refine ⟨new, { ok with
      store, content, compactions, publications, head := ⟨e', found', is_root'⟩, pruned :=
        ok.pruned.trans lt.le
      roots := fun r mem' => ?_ }, .inr ⟨c, mem, is_id, base⟩⟩
    rcases roots r mem' with mem' | rfl
    · exact ⟨old r mem', .inl ((ok.base_le mem').trans_lt lt)⟩
    · exact ⟨new_at, .inr rfl⟩

lemma withWal {more : List WalRecord} {wal' : WalWorld}
    (history : wal'.history = wal.history ++ more) (log : WalInv crc target wal') (room : Room wal')
    (pruned : wal'.pruneRequest ≤ root.baseWalSeq)
    (inside : ∀ r ∈ more, r.range.start + r.range.len ≤ o.size) :
    ExportOk crc target id o wal' w root := by
  have cons := log.consecutive
  rw [history] at cons
  refine { ok with
    log, room, pruned, inside := fun r mem above => ?_, roots := fun r mem => ?_, compactions :=
      fun c mem is => ?_ }
  · rw [history] at mem
    rcases List.mem_append.1 mem with mem | mem
    · exact ok.inside r mem above
    · exact inside r mem
  · rw [history]
    exact ⟨(ok.roots r mem).1.append cons, (ok.roots r mem).2⟩
  · rw [history]
    exact ⟨(ok.compactions c mem is).1, (ok.compactions c mem is).2.append cons⟩

end ExportOk

end NbdServer
