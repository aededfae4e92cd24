import Fastetcd.Laws.Mvcc.KeyIndex
import Fastetcd.Laws.Mvcc.Reference

/-!
# What the tables say

`Content` is the part of the store that writes and reads are about: the records, every key's
generations and the lease attachments. A commit leaves one, an overlay over a store is one, and the
two ways to look at it are the ones readers have: the records live at a revision (`readAt`) and the
cells of the reference interpreter (`cells`).

`Content.Inv` is the agreement between the three parts. A `Write` that fits a content appends one
entry to one key's timeline; it keeps the agreement, it is the reference interpreter's write on the
cells, and it changes no reader at an earlier revision.
-/

namespace Fastetcd.Mvcc

open Timeline Reference KeyIndex Std

structure Content where
  kv : Table KvKey KvRecord
  index : ResidentIndex
  leaseKeys : Table Bytes Unit

namespace Content

/-- A key's generations; none for a key that is not in the index. -/
def gens (C : Content) (key : Bytes) : List Generation := C.index[key]?.getD []

/-- A key's timeline. -/
def life (C : Content) (key : Bytes) : Timeline Revision := lifeOf (C.gens key)

/-- The records live at `t`. -/
def readAt (C : Content) (t : Revision) : Table Bytes KvRecord :=
  C.index.filterMap fun key gens =>
    (liveAt (lifeOf gens) t).bind fun rev => C.kv[KvKey.mk key rev]?

/-- A key's cell: its newest record if it is live. -/
def cell (C : Content) (key : Bytes) (gens : List Generation) : Option Row :=
  (live (lifeOf gens)).bind fun rev => C.kv[KvKey.mk key rev]?.map fun rec => ⟨rec, openPuts gens⟩

/-- The state the reference interpreter runs on. -/
def cells (C : Content) : Cells := C.index.map C.cell

/-- The agreement between the index, the records and the lease attachments. -/
structure Inv (C : Content) : Prop where
  wellFormed : ∀ {key : Bytes} {gens}, C.index[key]? = some gens → gens ≠ [] ∧ WellFormed gens
  rows : ∀ key rev deleted, (rev, deleted) ∈ C.life key ↔
    C.kv[KvKey.mk key rev]?.map KvRecord.deleted = some deleted
  record : ∀ {key rev rec}, C.kv[KvKey.mk key rev]? = some rec →
    rec.key = key ∧ rec.modRevision = rev.main
  created : ∀ {key rev rec}, live (C.life key) = some rev → C.kv[KvKey.mk key rev]? = some rec →
    ∀ r, rec.createRevision = (openCreated (C.gens key) r).main
  attached : ∀ row, row ∈ C.leaseKeys ↔ ∃ key r, liveRow C.cells key = some r ∧
    r.record.lease ≠ 0 ∧ row = leaseKeyIndex r.record.lease key

/-! ## Looking things up -/

theorem getElem?_readAt (C : Content) (t : Revision) (key : Bytes) :
    (C.readAt t)[key]? = (liveAt (C.life key) t).bind fun rev => C.kv[KvKey.mk key rev]? := by
  rw [readAt, ExtTreeMap.getElem?_filterMap', life, gens]
  cases C.index[key]? with
  | none => rfl
  | some gens => rfl

theorem liveRow_cells (C : Content) (key : Bytes) :
    liveRow C.cells key = C.cell key (C.gens key) := by
  rw [liveRow, cells, ExtTreeMap.getElem?_map, gens]
  cases C.index[key]? with
  | none => rfl
  | some gens => rfl

/-- A live key's newest record. -/
theorem map_record_liveRow (C : Content) (key : Bytes) :
    (liveRow C.cells key).map Row.record =
      (live (C.life key)).bind fun rev => C.kv[KvKey.mk key rev]? := by
  rw [liveRow_cells, cell, life]
  cases live (lifeOf (C.gens key)) with
  | none => rfl
  | some rev => cases found : C.kv[KvKey.mk key rev]? <;> simp [found]

namespace Inv

variable {C : Content}

theorem wellFormed_gens (inv : C.Inv) (key : Bytes) : WellFormed (C.gens key) := by
  rw [gens]
  cases h : C.index[key]? with
  | none => exact WellFormed.nil
  | some gens => exact (inv.wellFormed h).2

theorem ascending (inv : C.Inv) (key : Bytes) : Timeline.Ascending (C.life key) :=
  (inv.wellFormed_gens key).ascending

/-- Every write the index names has its record. -/
theorem exists_record (inv : C.Inv) {key : Bytes} {rev : Revision} {deleted : Bool}
    (named : (rev, deleted) ∈ C.life key) :
    ∃ rec, C.kv[KvKey.mk key rev]? = some rec ∧ rec.deleted = deleted := by
  obtain ⟨rec, found, flag⟩ := Option.map_eq_some_iff.mp ((inv.rows key rev deleted).mp named)
  exact ⟨rec, found, flag⟩

/-- The row of a live key. -/
theorem liveRow_of_live (inv : C.Inv) {key : Bytes} {rev : Revision}
    (isLive : live (C.life key) = some rev) :
    ∃ rec, C.kv[KvKey.mk key rev]? = some rec ∧ rec.deleted = false ∧
      liveRow C.cells key = some ⟨rec, openPuts (C.gens key)⟩ := by
  obtain ⟨rec, found, flag⟩ := inv.exists_record (mem_of_live isLive)
  refine ⟨rec, found, flag, ?_⟩
  rw [life] at isLive
  rw [liveRow_cells, cell, isLive, Option.bind_some, found, Option.map_some]

theorem live_of_liveRow {key : Bytes} {row : Row}
    (h : liveRow C.cells key = some row) :
    ∃ rev, live (C.life key) = some rev ∧ C.kv[KvKey.mk key rev]? = some row.record ∧
      row.puts = openPuts (C.gens key) := by
  rw [liveRow_cells, cell] at h
  obtain ⟨rev, isLive, h⟩ := Option.bind_eq_some_iff.mp h
  obtain ⟨rec, found, rfl⟩ := Option.map_eq_some_iff.mp h
  exact ⟨rev, isLive, found, rfl⟩

theorem liveRow_eq_none (inv : C.Inv) {key : Bytes} :
    liveRow C.cells key = none ↔ live (C.life key) = none := by
  cases isLive : live (C.life key) with
  | none =>
    rw [life] at isLive
    simp [liveRow_cells, cell, isLive]
  | some rev =>
    obtain ⟨rec, -, -, row⟩ := inv.liveRow_of_live isLive
    simp [row]

/-- The version of a key's next put. -/
theorem putsAfter_liveRow (inv : C.Inv) (key : Bytes) :
    putsAfter (liveRow C.cells key) = openPuts (C.gens key) + 1 := by
  rw [putsAfter]
  cases row : liveRow C.cells key with
  | none =>
    have dead := inv.liveRow_eq_none.mp row
    rw [(open_of_not_live (inv.wellFormed_gens key).nonempty dead).1]
    rfl
  | some r =>
    obtain ⟨-, -, -, count⟩ := live_of_liveRow row
    rw [← count]
    rfl

/-- The creation revision of a key's next put. -/
theorem openCreated_liveRow (inv : C.Inv) (key : Bytes) (rev : Revision) :
    (openCreated (C.gens key) rev).main =
      ((liveRow C.cells key).map fun row => row.record.createRevision).getD rev.main := by
  cases row : liveRow C.cells key with
  | none =>
    have dead := inv.liveRow_eq_none.mp row
    rw [(open_of_not_live (inv.wellFormed_gens key).nonempty dead).2]
    rfl
  | some r =>
    obtain ⟨rev', isLive, found, -⟩ := live_of_liveRow row
    exact (inv.created isLive found rev).symm

/-- A live key's row is keyed by itself. -/
theorem key_of_liveRow (inv : C.Inv) {key : Bytes} {row : Row}
    (h : liveRow C.cells key = some row) : row.record.key = key ∧ row.record.deleted = false := by
  obtain ⟨rev, isLive, found, -⟩ := live_of_liveRow h
  refine ⟨(inv.record found).1, ?_⟩
  have flag := (inv.rows key rev false).mp (mem_of_live isLive)
  rw [found] at flag
  simpa using flag

/-- A reader after every write sees the live rows. -/
theorem readAt_eq_live {t : Revision} (earlier : ∀ key, ∀ w ∈ C.life key, w.1 ≤ t) :
    C.readAt t = (liveRows C.cells).map fun _ row => row.record := by
  refine ExtTreeMap.ext_getElem? fun key => ?_
  rw [getElem?_readAt, liveAt_eq_live (earlier key), ExtTreeMap.getElem?_map, getElem?_liveRows,
    ← map_record_liveRow]

end Inv

/-! ## Writes -/

/-- The attachments after `key` moves from one lease to another. -/
def moveLease (t : Table Bytes Unit) (key : Bytes) (old new : LeaseId) : Table Bytes Unit :=
  if old = new then t
  else
    let detached := if old = 0 then t else t.erase (leaseKeyIndex old key)
    if new = 0 then detached else detached.insert (leaseKeyIndex new key) ()

theorem mem_moveLease {t : Table Bytes Unit} {key row : Bytes} {old new : LeaseId} :
    row ∈ moveLease t key old new ↔
      (row = leaseKeyIndex new key ∧ new ≠ 0 ∧ old ≠ new) ∨
        (row ∈ t ∧ ¬(row = leaseKeyIndex old key ∧ old ≠ 0 ∧ old ≠ new)) := by
  have differ {a b : LeaseId} (ne : a ≠ b) : leaseKeyIndex a key ≠ leaseKeyIndex b key :=
    fun h => ne (leaseKeyIndex_inj.mp h).1
  unfold moveLease
  by_cases same : old = new
  · simp [same]
  by_cases detach : old = 0 <;> by_cases attach : new = 0 <;>
    simp only [same, detach, attach, if_true, if_false, ExtTreeMap.mem_insert,
      ExtTreeMap.mem_erase, LawfulEqCmp.compare_eq_iff_eq, ne_eq] <;> grind

/-- A key's generations after a write. -/
def writeGens (gens : List Generation) (rev : Revision) : EventKind → List Generation
  | .put => (recordPut ⟨[], gens⟩ rev).1.generations
  | .delete => (recordDelete ⟨[], gens⟩ rev).1.generations

theorem recordPut_eq (key : Bytes) (gens : List Generation) (rev : Revision) :
    recordPut ⟨key, gens⟩ rev =
      (KeyIndex.mk key (writeGens gens rev .put), (openPuts gens + 1 : Int),
        openCreated gens rev) := by
  simp only [writeGens, recordPut, openPuts, openCreated]
  cases gens.getLast? with
  | none => rfl
  | some g => cases opened : g.isOpen <;> simp [opened]

theorem recordDelete_eq (key : Bytes) (gens : List Generation) (rev : Revision) :
    recordDelete ⟨key, gens⟩ rev =
      (KeyIndex.mk key (writeGens gens rev .delete), KeyIndex.isLive ⟨key, gens⟩) := by
  simp only [writeGens, recordDelete, KeyIndex.isLive]
  cases gens.getLast? with
  | none => rfl
  | some g => cases opened : g.isOpen <;> simp [opened]

/-- The lease of the record an event replaced. -/
def oldLease (event : MvccEvent) : LeaseId := (event.prevKv.map KvRecord.lease).getD 0

def write (C : Content) (w : Write) : Content where
  kv := C.kv.insert ⟨w.event.kv.key, w.rev⟩ w.event.kv
  index := C.index.insert w.event.kv.key (writeGens (C.gens w.event.kv.key) w.rev w.event.kind)
  leaseKeys := moveLease C.leaseKeys w.event.kv.key (oldLease w.event) w.event.kv.lease

/-- A write that the write path makes on this content: later than the key's other writes, told
with the record it replaces, and a delete only of a live key. -/
structure Fits (C : Content) (w : Write) : Prop where
  later : ∀ x ∈ C.life w.event.kv.key, x.1 < w.rev
  modRevision : w.event.kv.modRevision = w.rev.main
  deleted : w.event.kv.deleted = decide (w.event.kind = .delete)
  prev : w.event.prevKv = (liveRow C.cells w.event.kv.key).map Row.record
  create : w.event.kind = .put →
    w.event.kv.createRevision = (w.event.prevKv.map KvRecord.createRevision).getD w.rev.main
  version : w.event.kind = .put →
    w.event.kv.version = putsAfter (liveRow C.cells w.event.kv.key)
  live : w.event.kind = .delete →
    (liveRow C.cells w.event.kv.key).isSome ∧ w.event.kv.lease = 0

/-- What a fitting write does to its key's generations. -/
theorem Fits.gens_spec {C : Content} (inv : C.Inv) {w : Write} (fits : C.Fits w) :
    let before := C.gens w.event.kv.key
    let after := writeGens before w.rev w.event.kind
    after ≠ [] ∧ WellFormed after ∧ lifeOf after = lifeOf before ++ [(w.rev, w.event.kv.deleted)] ∧
      (w.event.kind = .put → openPuts after = openPuts before + 1 ∧
        ∀ r, openCreated after r = openCreated before w.rev) := by
  have wf := inv.wellFormed_gens w.event.kv.key
  have flag := fits.deleted
  cases kind : w.event.kind with
  | put =>
    obtain ⟨gens, put, ne, wf', life, puts, created⟩ :=
      recordPut_spec ⟨[], C.gens w.event.kv.key⟩ wf fits.later
    simp only [writeGens, put, flag, kind]
    exact ⟨ne, wf', life, fun _ => ⟨puts, created⟩⟩
  | delete =>
    have isLive : KeyIndex.isLive ⟨[], C.gens w.event.kv.key⟩ = true := by
      obtain ⟨row, found⟩ := Option.isSome_iff_exists.mp (fits.live kind).1
      obtain ⟨rev, isLive, -⟩ := Inv.live_of_liveRow found
      rw [isLive_eq wf.nonempty, currentOf_eq_live wf.nonempty]
      exact Option.isSome_iff_exists.mpr ⟨rev, isLive⟩
    obtain ⟨gens, deleted, ne, wf', life⟩ :=
      recordDelete_spec ⟨[], C.gens w.event.kv.key⟩ wf isLive fits.later
    simp only [writeGens, deleted, flag, kind]
    exact ⟨ne, wf', life, fun h => nomatch h⟩

section Write

variable {C : Content} {w : Write}

theorem gens_write (key : Bytes) :
    (C.write w).gens key = if w.event.kv.key = key then
      writeGens (C.gens w.event.kv.key) w.rev w.event.kind else C.gens key := by
  simp only [gens, write, ExtTreeMap.getElem?_insert, LawfulEqCmp.compare_eq_iff_eq]
  split <;> rfl

theorem getElem?_kv_write (key : Bytes) (rev : Revision) :
    (C.write w).kv[KvKey.mk key rev]? =
      if w.event.kv.key = key ∧ w.rev = rev then some w.event.kv else C.kv[KvKey.mk key rev]? := by
  simp [write, ExtTreeMap.getElem?_insert]

/-- A write appends one entry to its key's timeline and leaves the others. -/
theorem life_write (inv : C.Inv) (fits : C.Fits w) (key : Bytes) :
    (C.write w).life key = if w.event.kv.key = key then
      C.life key ++ [(w.rev, w.event.kv.deleted)] else C.life key := by
  rw [life, gens_write]
  split
  · next same => rw [(fits.gens_spec inv).2.2.1, same, life]
  · rfl

/-- An old record of a key is not the one being written. -/
theorem getElem?_kv_write_of_mem (fits : C.Fits w) {key : Bytes} {rev : Revision} {deleted : Bool}
    (named : (rev, deleted) ∈ C.life key) :
    (C.write w).kv[KvKey.mk key rev]? = C.kv[KvKey.mk key rev]? := by
  rw [getElem?_kv_write, if_neg]
  rintro ⟨rfl, rfl⟩
  exact lt_irrefl _ (fits.later _ named)

/-- A write changes no reader at an earlier revision. -/
theorem readAt_write (inv : C.Inv) (fits : C.Fits w) {t : Revision} (earlier : t < w.rev) :
    (C.write w).readAt t = C.readAt t := by
  refine ExtTreeMap.ext_getElem? fun key => ?_
  have same : liveAt ((C.write w).life key) t = liveAt (C.life key) t := by
    rw [life_write inv fits]
    split
    · exact liveAt_append (by simpa using earlier)
    · rfl
  rw [getElem?_readAt, getElem?_readAt, same]
  cases seen : liveAt (C.life key) t with
  | none => rfl
  | some rev => exact getElem?_kv_write_of_mem fits (mem_of_liveAt seen).1

/-- On the cells a write is the reference interpreter's. -/
theorem cells_write (inv : C.Inv) (fits : C.Fits w) :
    (C.write w).cells = Reference.write C.cells w := by
  refine ExtTreeMap.ext_getElem? fun key => ?_
  obtain ⟨-, -, life', opened⟩ := fits.gens_spec inv
  by_cases same : w.event.kv.key = key
  · subst same
    simp only [cells, write, Reference.write, ExtTreeMap.getElem?_map, ExtTreeMap.getElem?_insert,
      ReflCmp.compare_self, if_true, Option.map_some, cell, life', live_append_singleton,
      fits.deleted]
    cases kind : w.event.kind with
    | delete => simp
    | put =>
      obtain ⟨puts, -⟩ := opened kind
      have counted := inv.putsAfter_liveRow w.event.kv.key
      rw [cells] at counted
      rw [kind] at puts
      simp [puts, counted]
  · have untouched : (C.write w).index[key]? = C.index[key]? := by
      simp [write, ExtTreeMap.getElem?_insert, same]
    simp only [cells, Reference.write, ExtTreeMap.getElem?_map, untouched,
      ExtTreeMap.getElem?_insert, LawfulEqCmp.compare_eq_iff_eq, same, if_false]
    congr 1
    funext gens
    simp [cell, getElem?_kv_write, same]

theorem liveRow_write (inv : C.Inv) (fits : C.Fits w) (key : Bytes) :
    liveRow (C.write w).cells key =
      if w.event.kv.key = key then
        match w.event.kind with
        | .put => some ⟨w.event.kv, putsAfter (liveRow C.cells key)⟩
        | .delete => none
      else liveRow C.cells key := by
  rw [cells_write inv fits]
  exact Reference.liveRow_write C.cells w key

/-- The attachments follow the live rows. -/
theorem attached_write (inv : C.Inv) (fits : C.Fits w) (row : Bytes) :
    row ∈ (C.write w).leaseKeys ↔ ∃ key r, liveRow (C.write w).cells key = some r ∧
      r.record.lease ≠ 0 ∧ row = leaseKeyIndex r.record.lease key := by
  have old : oldLease w.event =
      ((liveRow C.cells w.event.kv.key).map fun r => r.record.lease).getD 0 := by
    rw [oldLease, fits.prev, Option.map_map]
    rfl
  have written {r : Row} (isLive : liveRow (C.write w).cells w.event.kv.key = some r) :
      r.record = w.event.kv := by
    rw [liveRow_write inv fits, if_pos rfl] at isLive
    cases kind : w.event.kind with
    | put => rw [kind] at isLive; rw [← Option.some.inj isLive]
    | delete => rw [kind] at isLive; cases isLive
  have leased (nonzero : w.event.kv.lease ≠ 0) :
      ∃ r, liveRow (C.write w).cells w.event.kv.key = some r ∧ r.record = w.event.kv := by
    rw [liveRow_write inv fits, if_pos rfl]
    cases kind : w.event.kind with
    | put => exact ⟨_, rfl, rfl⟩
    | delete => exact absurd (fits.live kind).2 nonzero
  have others {key : Bytes} (ne : w.event.kv.key ≠ key) :
      liveRow (C.write w).cells key = liveRow C.cells key := by
    rw [liveRow_write inv fits, if_neg ne]
  have moved : row ∈ (C.write w).leaseKeys ↔ _ := mem_moveLease
  rw [moved, inv.attached]
  constructor
  · rintro (⟨rfl, nonzero, -⟩ | ⟨⟨key, r, isLive, nonzero, rfl⟩, kept⟩)
    · obtain ⟨r, isLive, record⟩ := leased nonzero
      exact ⟨_, r, isLive, record ▸ nonzero, by rw [record]⟩
    · by_cases same : w.event.kv.key = key
      · -- The key's own row is kept only when the write keeps its lease.
        subst same
        have lease : oldLease w.event = r.record.lease := by rw [old, isLive]; rfl
        have stays : oldLease w.event = w.event.kv.lease := by
          by_contra moves
          exact kept ⟨by rw [lease], lease ▸ nonzero, moves⟩
        have same : r.record.lease = w.event.kv.lease := by rw [← lease, stays]
        obtain ⟨r', isLive', record⟩ := leased (same ▸ nonzero)
        exact ⟨_, r', isLive', by rw [record, ← same]; exact nonzero, by rw [record, same]⟩
      · exact ⟨key, r, by rw [others same]; exact isLive, nonzero, rfl⟩
  · rintro ⟨key, r, isLive, nonzero, rfl⟩
    by_cases same : w.event.kv.key = key
    · subst same
      have record := written isLive
      by_cases stays : oldLease w.event = w.event.kv.lease
      · refine .inr ⟨?_, fun h => h.2.2 stays⟩
        rw [old] at stays
        cases before : liveRow C.cells w.event.kv.key with
        | none =>
          rw [before] at stays
          exact absurd stays.symm (record ▸ nonzero)
        | some b =>
          rw [before] at stays
          have lease : b.record.lease = w.event.kv.lease := stays
          exact ⟨_, b, before, by rw [lease, ← record]; exact nonzero, by rw [record, lease]⟩
      · exact .inl ⟨by rw [record], record ▸ nonzero, stays⟩
    · rw [others same] at isLive
      refine .inr ⟨⟨key, r, isLive, nonzero, rfl⟩, fun h => same ?_⟩
      exact (leaseKeyIndex_inj.mp h.1).2.symm

/-- A fitting write keeps the agreement. -/
theorem Inv.write (inv : C.Inv) (fits : C.Fits w) : (C.write w).Inv where
  wellFormed {key gens} found := by
    by_cases same : w.event.kv.key = key
    · have : gens = writeGens (C.gens w.event.kv.key) w.rev w.event.kind := by
        simpa [Content.write, ExtTreeMap.getElem?_insert, same, eq_comm] using found
      obtain ⟨ne, wf, -⟩ := fits.gens_spec inv
      rw [this]
      exact ⟨ne, wf⟩
    · exact inv.wellFormed (by simpa [Content.write, ExtTreeMap.getElem?_insert, same] using found)
  rows key rev deleted := by
    rw [life_write inv fits, getElem?_kv_write]
    by_cases same : w.event.kv.key = key
    · subst same
      by_cases now : w.rev = rev
      · subst now
        have fresh : ∀ d, (w.rev, d) ∉ C.life w.event.kv.key :=
          fun d named => lt_irrefl _ (fits.later _ named)
        simp [fresh, eq_comm]
      · simp [now, Ne.symm now, inv.rows]
    · simp [same, inv.rows]
  record {key rev rec} found := by
    rw [getElem?_kv_write] at found
    split at found
    · next here =>
      obtain ⟨rfl, rfl⟩ := here
      rw [← Option.some.inj found]
      exact ⟨rfl, fits.modRevision⟩
    · exact inv.record found
  created {key rev rec} isLive found r := by
    rw [life_write inv fits] at isLive
    rw [getElem?_kv_write] at found
    rw [gens_write]
    by_cases same : w.event.kv.key = key
    · subst same
      rw [if_pos rfl, live_append_singleton, fits.deleted] at isLive
      cases kind : w.event.kind with
      | delete => simp [kind] at isLive
      | put =>
        obtain rfl : w.rev = rev := by simpa [kind] using isLive
        rw [if_pos ⟨rfl, rfl⟩] at found
        obtain rfl := Option.some.inj found
        have opened := ((fits.gens_spec inv).2.2.2 kind).2 r
        rw [kind] at opened
        rw [if_pos rfl, opened, fits.create kind, fits.prev, Option.map_map,
          inv.openCreated_liveRow]
        rfl
    · rw [if_neg same] at isLive ⊢
      rw [if_neg fun h => same h.1] at found
      exact inv.created isLive found r
  attached := attached_write inv fits

end Write

/-! ## Sequences of writes -/

def writes (C : Content) (ws : List Write) : Content := ws.foldl write C

@[simp]
theorem writes_nil (C : Content) : C.writes [] = C := rfl

@[simp]
theorem writes_cons (C : Content) (w : Write) (ws : List Write) :
    C.writes (w :: ws) = (C.write w).writes ws := rfl

theorem writes_append (C : Content) (a b : List Write) :
    C.writes (a ++ b) = (C.writes a).writes b :=
  List.foldl_append

/-- Each write fits the content the ones before it leave. -/
def FitsAll : Content → List Write → Prop
  | _, [] => True
  | C, w :: ws => C.Fits w ∧ FitsAll (C.write w) ws

theorem fitsAll_append {a b : List Write} :
    ∀ {C : Content}, C.FitsAll (a ++ b) ↔ C.FitsAll a ∧ (C.writes a).FitsAll b := by
  induction a with
  | nil => simp [FitsAll]
  | cons w a ih => simp [FitsAll, ih, and_assoc]

theorem Inv.writes {C : Content} {ws : List Write} (inv : C.Inv) (fits : C.FitsAll ws) :
    (C.writes ws).Inv := by
  induction ws generalizing C with
  | nil => exact inv
  | cons w ws ih => exact ih (inv.write fits.1) fits.2

theorem cells_writes {C : Content} {ws : List Write} (inv : C.Inv) (fits : C.FitsAll ws) :
    (C.writes ws).cells = ws.foldl Reference.write C.cells := by
  induction ws generalizing C with
  | nil => rfl
  | cons w ws ih =>
    rw [writes_cons, ih (inv.write fits.1) fits.2, cells_write inv fits.1, List.foldl_cons]

/-- A key's timeline after `ws`: its own before, then those of `ws` that write it. -/
theorem life_writes {C : Content} {ws : List Write} (inv : C.Inv) (fits : C.FitsAll ws)
    (key : Bytes) :
    (C.writes ws).life key = C.life key ++
      (ws.filter fun w => w.event.kv.key = key).map fun w => (w.rev, w.event.kv.deleted) := by
  induction ws generalizing C with
  | nil => simp
  | cons w ws ih =>
    rw [writes_cons, ih (inv.write fits.1) fits.2, life_write inv fits.1]
    split
    · next same => simp [same]
    · next other => simp [other]

theorem mem_life_writes {C : Content} {ws : List Write} (inv : C.Inv) (fits : C.FitsAll ws)
    {key : Bytes} {x : Revision × Bool} :
    x ∈ (C.writes ws).life key ↔ x ∈ C.life key ∨
      ∃ w ∈ ws, w.event.kv.key = key ∧ x = (w.rev, w.event.kv.deleted) := by
  rw [life_writes inv fits, List.mem_append, List.mem_map]
  simp only [List.mem_filter, decide_eq_true_eq, and_assoc, @eq_comm _ x]

theorem readAt_writes {C : Content} {ws : List Write} (inv : C.Inv) (fits : C.FitsAll ws)
    {t : Revision} (earlier : ∀ w ∈ ws, t < w.rev) : (C.writes ws).readAt t = C.readAt t := by
  induction ws generalizing C with
  | nil => rfl
  | cons w ws ih =>
    rw [writes_cons, ih (inv.write fits.1) fits.2 fun v hv => earlier v (by simp [hv]),
      readAt_write inv fits.1 (earlier w (by simp))]

end Content

end Fastetcd.Mvcc
