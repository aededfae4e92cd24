import Fastetcd.Storage.KvStore

/-!
# Write-behind in front of an engine (`storage/src/write_behind.rs`)

A commit with `sync = false` becomes a layer in memory and returns. A snapshot is the list of layers
with a snapshot of the engine, taken under one lock, and every read merges the layers, the newest
first, over the engine.

The source keeps a layer's tables in a hash map, whose order no read depends on; the model keeps them
by name.
-/

namespace Fastetcd.Storage

open Mvcc (Bytes Bound inBounds)

/-! ## Layers -/

/-- What one batch says of one table. Point results, a value or a deletion, win over the range
deletes, which cover only what was there before the batch. -/
structure TableLayer where
  entries : Table Bytes (Option Bytes) := ∅
  rangeDels : List (Bytes × Bytes) := []

def TableLayer.covered (t : TableLayer) (key : Bytes) : Bool :=
  t.rangeDels.any fun del => covers del.1 del.2 key

/-- One committed batch, normalized. -/
structure Layer where
  tables : Table String TableLayer := ∅
  bytes : Nat := 0

namespace Layer

/-- The table's part of the layer, made on first use. -/
def tableOf (layer : Layer) (table : String) : TableLayer := layer.tables[table]?.getD {}

def setTable (layer : Layer) (table : String) (t : TableLayer) (more : Nat) : Layer :=
  ⟨layer.tables.insert table t, layer.bytes + more⟩

def push (layer : Layer) : BatchOp → Layer
  | .put table key value =>
    let t := layer.tableOf table
    layer.setTable table { t with entries := t.entries.insert key (some value) }
      (key.length + value.length + 64)
  | .delete table key =>
    let t := layer.tableOf table
    layer.setTable table { t with entries := t.entries.insert key none } (key.length + 64)
  | .deleteRange table start stop =>
    let t := layer.tableOf table
    let t :=
      if start < stop then
        -- Earlier point writes in the range are gone; later ones go back into `entries`.
        { entries := t.entries.filter fun key _ => !covers start stop key
          rangeDels := t.rangeDels ++ [(start, stop)] }
      else t
    layer.setTable table t (start.length + stop.length + 64)

def fromBatch (batch : WriteBatch) : Layer := batch.foldl push {}

/-- The op of one point result. -/
def entryOp (table : String) : Bytes × Option Bytes → BatchOp
  | (key, some value) => .put table key value
  | (key, none) => .delete table key

/-- The ops of one table of a layer: its range deletes, then its point results. -/
def tableOps (table : String) (t : TableLayer) : WriteBatch :=
  t.rangeDels.map (fun del => .deleteRange table del.1 del.2) ++
    t.entries.toList.map (entryOp table)

/-- The same effect as one batch of engine ops. -/
def toOps (layer : Layer) : WriteBatch := layer.tables.toList.flatMap fun row => tableOps row.1 row.2

end Layer

/-! ## Views -/

/-- What the layers say of a table's keys in a range: point results, the newest layer winning, and
range deletes. An engine key under one of those, and not in `entries`, is gone. -/
structure TableView where
  entries : Table Bytes (Option Bytes) := ∅
  dels : List (Bytes × Bytes) := []

def TableView.hides (v : TableView) (key : Bytes) : Bool :=
  v.entries.contains key || v.dels.any fun del => covers del.1 del.2 key

/-- The layer rows of a view, in order. -/
def TableView.pending (v : TableView) : List Row :=
  v.entries.toList.filterMap fun row => row.2.map (row.1, ·)

/-- One range delete of a layer: the point results it covers are gone. -/
def TableView.drop (v : TableView) (del : Bytes × Bytes) : TableView :=
  ⟨v.entries.map fun key value => if covers del.1 del.2 key then none else value, v.dels ++ [del]⟩

/-- One point result of a layer, if it is in the range. -/
def TableView.take (start stop : Bound) (v : TableView) (row : Bytes × Option Bytes) : TableView :=
  if inBounds start stop row.1 then { v with entries := v.entries.insert row.1 row.2 } else v

/-- One layer of a view. -/
def TableView.layer (start stop : Bound) (v : TableView) (t : TableLayer) : TableView :=
  t.entries.toList.foldl (TableView.take start stop) (t.rangeDels.foldl TableView.drop v)

/-! ## Snapshots -/

/-- The engine as of the snapshot, and the layers not yet in it, the oldest first. -/
structure OverlaySnapshot where
  base : Db
  layers : List Layer

/-- Merge one page of engine rows with the pending layer rows. -/
def mergePage (v : TableView) (limit : Nat) :
    List Row → List Row → List Row → Except (List Row) (List Row × List Row)
  | [], pending, out => .ok (pending, out)
  | row :: rows, pending, out => do
    let (pending, out) ← emitWhile (·.1 < row.1) limit pending out
    if v.hides row.1 then mergePage v limit rows pending out
    else do
      let out ← emit limit out row
      mergePage v limit rows pending out

namespace OverlaySnapshot

def touches (s : OverlaySnapshot) (table : String) : Bool :=
  s.layers.any fun layer => layer.tables.contains table

def view (s : OverlaySnapshot) (table : String) (start stop : Bound) : TableView :=
  s.layers.foldl (fun v layer =>
    match layer.tables[table]? with
    | none => v
    | some t => v.layer start stop t) {}

/-- The pages of the engine's rows from `cursor` on, merged with the pending layer rows. Layer rows
up to a page's last key belong before the next page. -/
def mergePages (base : Db) (table : String) (v : TableView) (stop : Bound) (limit page : Nat)
    (cursor : Bound) (pending out : List Row) : Except (List Row) (List Row × List Row) :=
  match mergePage v limit (base.range table cursor stop page) pending out with
  | .error out => .error out
  | .ok (pending, out) =>
    if page = 0 ∨ (base.range table cursor stop page).length < page then .ok (pending, out)
    else
      match _last : (base.range table cursor stop page).getLast? with
      | none => .ok (pending, out)
      | some hi =>
        match emitWhile (·.1 ≤ hi.1) limit pending out with
        | .error out => .error out
        | .ok (pending, out) =>
          mergePages base table v stop limit page (.excluded hi.1) pending out
termination_by ((base table).scan (inBounds cursor stop)).length
decreasing_by exact fewer_rows _last

/-- The engine's rows between the bounds merged with the layers, up to `limit` rows. The page is
twice the limit, as a `usize`, and at least 256. -/
def merged (s : OverlaySnapshot) (table : String) (start stop : Bound) (limit : Nat) : List Row :=
  if !s.touches table then s.base.range table start stop limit
  else
    let v := s.view table start stop
    let page := if limit = 0 then 0 else max (limit * 2 % 2 ^ 64) 256
    emitted do
      let (pending, out) ← mergePages s.base table v stop limit page start v.pending []
      let (_, out) ← emitWhile (fun _ => true) limit pending out
      return out

/-- The newest layer that says anything of the key, else the engine. -/
def getIn (base : Db) (table : String) (key : Bytes) : List Layer → Option Bytes
  | [] => base.get table key
  | layer :: older =>
    match layer.tables[table]? with
    | none => getIn base table key older
    | some t =>
      match t.entries[key]? with
      | some value => value
      | none => if t.covered key then none else getIn base table key older

def get (s : OverlaySnapshot) (table : String) (key : Bytes) : Option Bytes :=
  getIn s.base table key s.layers.reverse

def range (s : OverlaySnapshot) (table : String) (start stop : Bound) (limit : Nat) : List Row :=
  s.merged table start stop limit

def count (s : OverlaySnapshot) (table : String) (start stop : Bound) : Nat :=
  if !s.touches table then s.base.count table start stop
  else (s.merged table start stop 0).length

def last (s : OverlaySnapshot) (table : String) : Option Row :=
  if !s.touches table then s.base.last table
  else
    let v := s.view table .unbounded .unbounded
    let top := v.entries.toList.reverse.findSome? fun row => row.2.map (row.1, ·)
    match s.base.last table with
    | none => top
    | some row =>
      if !v.hides row.1 then
        match top with
        | some t => if t.1 > row.1 then some t else some row
        | none => some row
      -- The engine's last key is overwritten or deleted: merge it all.
      else (s.merged table .unbounded .unbounded 0).getLast?

end OverlaySnapshot

end Fastetcd.Storage
