import Fastetcd.Data.Patch
import Fastetcd.Storage.WriteBehind

/-!
# What layers say, and what a snapshot reads

A batch op is a patch of each table, and a batch a stack of them. A layer is the same stack
normalized (`Layer.patch_fromBatch`), its ops put back into the engine are the same stack again
(`Layer.patch_toOps`), and a view is the stack of all layers within its bounds
(`OverlaySnapshot.patch_view`). So every read of a snapshot is the read of one ordered map, the
engine's with the layers' ops committed to it (`OverlaySnapshot.contents`).
-/

namespace Fastetcd.Storage

open Mvcc (Bytes Bound inBounds)
open Patch (point stacked stacked_append stacked_toList)

/-! ## Patches -/

/-- Every key in `[start, stop)` is gone. -/
def cover (del : Bytes × Bytes) : Patch Bytes Bytes :=
  fun key => if covers del.1 del.2 key then some none else none

/-- Every key in one of the ranges is gone. -/
def coverAny (dels : List (Bytes × Bytes)) : Patch Bytes Bytes :=
  fun key => if dels.any fun del => covers del.1 del.2 key then some none else none

theorem stacked_cover (dels : List (Bytes × Bytes)) : stacked (dels.map cover) = coverAny dels := by
  funext key
  induction dels with
  | nil => rfl
  | cons del dels ih =>
    simp only [List.map_cons, stacked, Patch.atop, ih, coverAny, cover, List.any_cons]
    by_cases here : covers del.1 del.2 key = true <;>
      by_cases later : (dels.any fun del => covers del.1 del.2 key) = true <;> simp [here, later]

theorem coverAny_concat (dels : List (Bytes × Bytes)) (del : Bytes × Bytes) :
    coverAny (dels ++ [del]) = (cover del).atop (coverAny dels) := by
  rw [← stacked_cover, List.map_append, stacked_append, List.map_singleton, stacked, stacked,
    Patch.none_atop, stacked_cover]

/-- What one op says of a table. -/
def BatchOp.patch (table : String) : BatchOp → Patch Bytes Bytes
  | .put t key value => if t = table then point key (some value) else fun _ => none
  | .delete t key => if t = table then point key none else fun _ => none
  | .deleteRange t start stop => if t = table then cover (start, stop) else fun _ => none

/-- What a batch says of a table. -/
def batchPatch (table : String) (batch : WriteBatch) : Patch Bytes Bytes :=
  stacked (batch.map (BatchOp.patch table))

theorem batchPatch_append (table : String) (a b : WriteBatch) :
    batchPatch table (a ++ b) = (batchPatch table b).atop (batchPatch table a) := by
  rw [batchPatch, List.map_append, stacked_append]
  rfl

namespace Db

/-- A table as a map. -/
def map (db : Db) (table : String) : Bytes → Option Bytes := fun key => (db table)[key]?

theorem ext_map {a b : Db} (same : ∀ table, a.map table = b.map table) : a = b := by
  funext table
  exact Std.ExtTreeMap.ext_getElem? fun key => congrFun (same table) key

theorem map_apply (db : Db) (op : BatchOp) (table : String) :
    (db.apply op).map table = (op.patch table).apply (db.map table) := by
  funext key
  cases op with
  | put t k v =>
    by_cases here : t = table
    · subst here
      simp only [map, apply, set, Function.update_self, Std.ExtTreeMap.getElem?_insert,
        BatchOp.patch, if_pos, Patch.apply, point, Std.LawfulEqCmp.compare_eq_iff_eq]
      split <;> rfl
    · simp [map, apply, set, BatchOp.patch, here, Ne.symm here]
  | delete t k =>
    by_cases here : t = table
    · subst here
      simp only [map, apply, set, Function.update_self, Std.ExtTreeMap.getElem?_erase,
        BatchOp.patch, if_pos, Patch.apply, point, Std.LawfulEqCmp.compare_eq_iff_eq]
      split <;> rfl
    · simp [map, apply, set, BatchOp.patch, here, Ne.symm here]
  | deleteRange t start stop =>
    by_cases here : t = table
    · subst here
      simp only [map, apply, set, Function.update_self, Table.getElem?_filter_key,
        BatchOp.patch, if_pos, Patch.apply, cover]
      by_cases reached : covers start stop key = true <;> simp [reached]
    · simp [map, apply, set, BatchOp.patch, here, Ne.symm here]

theorem map_commit (db : Db) (batch : WriteBatch) (table : String) :
    (db.commit batch).map table = (batchPatch table batch).apply (db.map table) := by
  induction batch generalizing db with
  | nil => rfl
  | cons op batch ih =>
    rw [commit, List.foldl_cons, ← commit, ih, map_apply, ← Patch.apply_atop]
    rfl

end Db

/-! ## Layers -/

def TableLayer.patch (t : TableLayer) : Patch Bytes Bytes :=
  Patch.atop (fun key => t.entries[key]?) (coverAny t.rangeDels)

def Layer.patch (layer : Layer) (table : String) : Patch Bytes Bytes := (layer.tableOf table).patch

@[simp]
theorem TableLayer.patch_empty : TableLayer.patch {} = fun _ => none := by
  funext key
  simp [patch, Patch.atop, coverAny]

namespace Layer

theorem patch_of_none {layer : Layer} {table : String} (h : layer.tables[table]? = none) :
    layer.patch table = fun _ => none := by
  rw [patch, tableOf, h, Option.getD_none, TableLayer.patch_empty]

theorem patch_of_some {layer : Layer} {table : String} {t : TableLayer}
    (h : layer.tables[table]? = some t) : layer.patch table = t.patch := by
  rw [patch, tableOf, h, Option.getD_some]

theorem tableOf_setTable (layer : Layer) (t : String) (part : TableLayer) (more : Nat)
    (table : String) :
    (layer.setTable t part more).tableOf table = if t = table then part else layer.tableOf table := by
  simp only [tableOf, setTable, Std.ExtTreeMap.getElem?_insert,
    Std.LawfulEqCmp.compare_eq_iff_eq]
  split <;> rfl

/-- An op pushed on a layer is an op on top of it. -/
theorem patch_push (layer : Layer) (op : BatchOp) (table : String) :
    (layer.push op).patch table = (op.patch table).atop (layer.patch table) := by
  funext key
  cases op with
  | put t k v =>
    rw [patch, push, tableOf_setTable, BatchOp.patch]
    by_cases here : t = table
    · subst here
      simp only [if_pos, TableLayer.patch, patch, Patch.atop, point,
        Std.ExtTreeMap.getElem?_insert, Std.LawfulEqCmp.compare_eq_iff_eq]
      split <;> rfl
    · simp [here, patch]
  | delete t k =>
    rw [patch, push, tableOf_setTable, BatchOp.patch]
    by_cases here : t = table
    · subst here
      simp only [if_pos, TableLayer.patch, patch, Patch.atop, point,
        Std.ExtTreeMap.getElem?_insert, Std.LawfulEqCmp.compare_eq_iff_eq]
      split <;> rfl
    · simp [here, patch]
  | deleteRange t start stop =>
    rw [patch, push, tableOf_setTable, BatchOp.patch]
    by_cases here : t = table
    · subst here
      rw [if_pos rfl, if_pos rfl]
      split
      · -- Earlier points in the range are dropped, so the new range shows; others stay.
        simp only [TableLayer.patch, patch, coverAny_concat, Patch.atop, cover,
          Table.getElem?_filter_key]
        by_cases reached : covers start stop key = true <;> simp [reached]
      · next empty =>
        have none : covers start stop key = false := by
          by_contra reached
          simp only [Bool.not_eq_false, covers, Bool.and_eq_true, decide_eq_true_eq] at reached
          exact empty (Std.lt_of_le_of_lt reached.1 reached.2)
        simp [Patch.atop, cover, none, patch]
    · simp [here, patch]

theorem patch_foldl (batch : WriteBatch) (layer : Layer) (table : String) :
    (batch.foldl push layer).patch table = (batchPatch table batch).atop (layer.patch table) := by
  induction batch generalizing layer with
  | nil => exact (Patch.none_atop _).symm
  | cons op batch ih =>
    rw [List.foldl_cons, ih, patch_push, ← Patch.atop_assoc]
    rfl

/-- A layer says what its batch says. -/
theorem patch_fromBatch (batch : WriteBatch) (table : String) :
    (fromBatch batch).patch table = batchPatch table batch := by
  have silent : Layer.patch {} table = fun _ => none :=
    patch_of_none Std.ExtTreeMap.getElem?_empty
  rw [fromBatch, patch_foldl, silent, Patch.atop_none]

theorem batchPatch_tableOps (t table : String) (part : TableLayer) :
    batchPatch table (tableOps t part) = if t = table then part.patch else fun _ => none := by
  have dels : (part.rangeDels.map fun del => BatchOp.deleteRange t del.1 del.2).map
      (BatchOp.patch table) = part.rangeDels.map fun del =>
        if t = table then cover del else fun _ => none := by
    rw [List.map_map]
    rfl
  have entries : (part.entries.toList.map (entryOp t)).map (BatchOp.patch table) =
      part.entries.toList.map fun row => if t = table then point row.1 row.2 else fun _ => none := by
    rw [List.map_map]
    refine List.map_congr_left fun row _ => ?_
    obtain ⟨key, value⟩ := row
    cases value <;> rfl
  rw [tableOps, batchPatch_append, batchPatch, batchPatch, dels, entries]
  by_cases here : t = table
  · simp only [here, if_true, stacked_toList, stacked_cover]
    rfl
  · have silent {α : Type} (rows : List α) :
        stacked (rows.map fun _ => (fun _ => none : Patch Bytes Bytes)) = fun _ => none := by
      induction rows with
      | nil => rfl
      | cons _ rows ih => rw [List.map_cons, stacked, ih, Patch.none_atop]
    simp only [here, if_false, silent, Patch.none_atop]

/-- Tables with different names, each with its own ops. -/
theorem batchPatch_flatMap {rows : List (String × TableLayer)}
    (distinct : (rows.map Prod.fst).Nodup) (table : String) :
    (∀ t, (table, t) ∈ rows →
      batchPatch table (rows.flatMap fun row => tableOps row.1 row.2) = t.patch) ∧
    ((∀ t, (table, t) ∉ rows) →
      batchPatch table (rows.flatMap fun row => tableOps row.1 row.2) = fun _ => none) := by
  induction rows with
  | nil => exact ⟨nofun, fun _ => rfl⟩
  | cons row rows ih =>
    obtain ⟨fresh, distinct⟩ := List.nodup_cons.mp distinct
    obtain ⟨found, absent⟩ := ih distinct
    rw [List.flatMap_cons, batchPatch_append, batchPatch_tableOps]
    constructor
    · intro t mem
      rcases List.mem_cons.mp mem with rfl | mem
      · rw [absent fun t mem => fresh (List.mem_map.mpr ⟨_, mem, rfl⟩), if_pos rfl, Patch.none_atop]
      · have other : row.1 ≠ table := fun same => fresh (List.mem_map.mpr ⟨_, mem, same.symm⟩)
        rw [found t mem, if_neg other, Patch.atop_none]
    · intro none
      have other : row.1 ≠ table := fun same => none row.2 (by simp [← same])
      rw [absent fun t mem => none t (List.mem_cons_of_mem _ mem), if_neg other, Patch.atop_none]

/-- A layer's ops say what the layer says. -/
theorem patch_toOps (layer : Layer) (table : String) :
    batchPatch table layer.toOps = layer.patch table := by
  have sorted : SortedRows layer.tables.toList := layer.tables.ordered_keys_toList
  obtain ⟨found, absent⟩ := batchPatch_flatMap sorted.nodup_keys table
  cases h : layer.tables[table]? with
  | some t =>
    rw [patch_of_some h]
    exact found t (Std.ExtTreeMap.mem_toList_iff_getElem?_eq_some.mpr h)
  | none =>
    rw [patch_of_none h]
    refine absent fun t mem => ?_
    rw [Std.ExtTreeMap.mem_toList_iff_getElem?_eq_some, h] at mem
    cases mem

end Layer

/-- What a list of layers says of a table, the oldest first. -/
def layersPatch (table : String) (layers : List Layer) : Patch Bytes Bytes :=
  stacked (layers.map (Layer.patch · table))

theorem layersPatch_concat (table : String) (layers : List Layer) (layer : Layer) :
    layersPatch table (layers ++ [layer]) = (layer.patch table).atop (layersPatch table layers) := by
  rw [layersPatch, List.map_append, stacked_append]
  simp [stacked, layersPatch]

/-- The ops of a list of layers, as one batch. -/
def flushOps (layers : List Layer) : WriteBatch := layers.flatMap Layer.toOps

theorem patch_flushOps (table : String) (layers : List Layer) :
    batchPatch table (flushOps layers) = layersPatch table layers := by
  induction layers with
  | nil => rfl
  | cons layer layers ih =>
    rw [flushOps, List.flatMap_cons, batchPatch_append, ← flushOps, ih, Layer.patch_toOps]
    rfl

/-! ## Views -/

def TableView.patch (v : TableView) : Patch Bytes Bytes :=
  Patch.atop (fun key => v.entries[key]?) (coverAny v.dels)

namespace TableView

theorem patch_drop (v : TableView) (del : Bytes × Bytes) :
    (v.drop del).patch = (cover del).atop v.patch := by
  funext key
  simp only [patch, drop, coverAny_concat, Patch.atop, cover, Std.ExtTreeMap.getElem?_map]
  cases v.entries[key]? <;> cases covers del.1 del.2 key <;> simp

theorem patch_drops (dels : List (Bytes × Bytes)) (v : TableView) :
    (dels.foldl drop v).patch = (coverAny dels).atop v.patch := by
  rw [← stacked_cover]
  induction dels generalizing v with
  | nil => exact (Patch.none_atop _).symm
  | cons del dels ih =>
    rw [List.foldl_cons, ih, patch_drop, ← Patch.atop_assoc]
    rfl

variable {start stop : Bound} {key : Bytes}

theorem patch_take (v : TableView) (row : Bytes × Option Bytes) (inside : inBounds start stop key) :
    (v.take start stop row).patch key = ((point row.1 row.2).atop v.patch) key := by
  rw [take]
  split
  · simp only [patch, Patch.atop, point, Std.ExtTreeMap.getElem?_insert,
      Std.LawfulEqCmp.compare_eq_iff_eq]
    split <;> rfl
  · next outside =>
    have other : row.1 ≠ key := fun same => outside (same ▸ inside)
    simp [Patch.atop, point, other]

theorem patch_takes (rows : List (Bytes × Option Bytes)) (v : TableView)
    (inside : inBounds start stop key) :
    (rows.foldl (take start stop) v).patch key =
      ((stacked (rows.map fun row => point row.1 row.2)).atop v.patch) key := by
  induction rows generalizing v with
  | nil => simp [stacked, Patch.atop]
  | cons row rows ih =>
    rw [List.foldl_cons, ih, List.map_cons, stacked, Patch.atop_assoc, Patch.atop, Patch.atop,
      patch_take v row inside]

/-- A layer of a view is on top of what the view had, within its bounds. -/
theorem patch_layer (v : TableView) (t : TableLayer) (inside : inBounds start stop key) :
    (v.layer start stop t).patch key = (t.patch.atop v.patch) key := by
  rw [layer, patch_takes _ _ inside, stacked_toList, patch_drops, TableLayer.patch, Patch.atop_assoc]

/-- A view holds points within its bounds only. -/
def Within (start stop : Bound) (v : TableView) : Prop :=
  ∀ key, key ∈ v.entries → inBounds start stop key = true

theorem within_drop {v : TableView} (within : v.Within start stop) (del : Bytes × Bytes) :
    (v.drop del).Within start stop := by
  intro key mem
  exact within key (by simpa [drop] using mem)

theorem within_take {v : TableView} (within : v.Within start stop) (row : Bytes × Option Bytes) :
    (v.take start stop row).Within start stop := by
  intro key mem
  rw [take] at mem
  split at mem
  · next inside =>
    rcases Std.ExtTreeMap.mem_insert.mp mem with same | mem
    · rw [Std.LawfulEqCmp.compare_eq_iff_eq] at same
      exact same ▸ inside
    · exact within key mem
  · exact within key mem

theorem within_layer {v : TableView} (within : v.Within start stop) (t : TableLayer) :
    (v.layer start stop t).Within start stop := by
  have drops : (t.rangeDels.foldl drop v).Within start stop :=
    List.foldlRecOn _ _ within fun _ within del _ => within_drop within del
  exact List.foldlRecOn _ _ drops fun _ within row _ => within_take within row

end TableView

end Fastetcd.Storage
