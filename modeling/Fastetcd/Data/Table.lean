import Mathlib

/-!
# Ordered tables

A table is a finite map whose rows are read in key order: the standard library's
extensional tree map at the key type's own comparison. Two tables with the same rows are
equal, so an equation between tables says everything about their content.

What this module adds is the reading side of an ordered store: a scan of the rows whose key
passes a test, in key order (`Table.scan`), one table written over another
(`Table.overwrite`), a sum over the rows (`Table.total`), and the two ways a list of rows is
recognised as a scan: it ascends, or it is sorted by key after being collected in any order.
Nothing here mentions what is stored.
-/

namespace Fastetcd

open Std

/-- Every item is answered, so the list is. -/
theorem mapM_eq_pure {α β : Type} {m : Type → Type} [Monad m] [LawfulMonad m] {f : α → m β}
    {g : α → β} {items : List α} (each : ∀ a ∈ items, f a = pure (g a)) :
    items.mapM f = pure (items.map g) := by
  induction items with
  | nil => simp
  | cons a items ih =>
    have rest := ih fun a mem => each a (List.mem_cons_of_mem _ mem)
    rw [List.mapM_cons, each a List.mem_cons_self, rest]
    simp

/-! ## Sorting -/

section Sorting

variable {α : Type} {cmp : α → α → Ordering} [TransCmp cmp]

omit [TransCmp cmp] in
/-- Strictly ascending elements that compare equal are the same. -/
theorem eq_of_ascending [OrientedCmp cmp] {sorted : List α}
    (ascending : sorted.Pairwise (cmp · · = .lt)) {a b : α}
    (ha : a ∈ sorted) (hb : b ∈ sorted) (eq : cmp a b = .eq) : a = b := by
  have symmetric : Std.Symm (fun a b => cmp a b = .eq → a = b) :=
    ⟨fun x y h eq => (h (OrientedCmp.eq_symm eq)).symm⟩
  have distinct : sorted.Pairwise (fun a b => cmp a b = .eq → a = b) :=
    ascending.imp fun lt eq => by rw [lt] at eq; cases eq
  exact distinct.forall_of_forall (fun _ _ _ => rfl) ha hb eq

/-- Strictly ascending elements are distinct. -/
theorem nodup_of_ascending {sorted : List α} (ascending : sorted.Pairwise (cmp · · = .lt)) :
    sorted.Nodup := by
  have irrefl (x : α) : cmp x x = .eq := ReflCmp.compare_self
  refine ascending.imp fun {x y} lt eq => ?_
  rw [eq, irrefl] at lt
  cases lt

/-- Two strictly ascending lists with the same elements are the same list. -/
theorem ascending_eq_of_mem_iff {a b : List α} (ha : a.Pairwise (cmp · · = .lt))
    (hb : b.Pairwise (cmp · · = .lt)) (mem : ∀ x, x ∈ a ↔ x ∈ b) : a = b := by
  have swap (x y : α) : cmp x y = (cmp y x).swap := OrientedCmp.eq_swap
  have perm := (List.perm_ext_iff_of_nodup (nodup_of_ascending ha) (nodup_of_ascending hb)).mpr mem
  refine perm.eq_of_pairwise
    (fun x y _ _ xy yx => ?_) ha hb
  rw [swap, yx] at xy
  cases xy

/-- Sorting any arrangement of strictly ascending elements gives them back in order. -/
theorem mergeSort_eq_of_perm {rows sorted : List α} (perm : rows.Perm sorted)
    (ascending : sorted.Pairwise (cmp · · = .lt)) :
    rows.mergeSort (fun a b => (cmp a b).isLE) = sorted := by
  have total : ∀ a b, (cmp a b).isLE || (cmp b a).isLE := by
    intro a b
    have swap : cmp b a = (cmp a b).swap := OrientedCmp.eq_swap
    rw [swap]
    cases cmp a b <;> rfl
  have arranged := (List.mergeSort_perm rows (fun a b => (cmp a b).isLE)).trans perm
  have inOrder : (rows.mergeSort (fun a b => (cmp a b).isLE)).Pairwise
      (fun a b => (cmp a b).isLE = true) :=
    List.pairwise_mergeSort (fun _ _ _ => TransCmp.isLE_trans) total rows
  refine arranged.eq_of_pairwise (fun a b ha hb ab ba => ?_) inOrder
    (ascending.imp fun h => by rw [h]; rfl)
  exact eq_of_ascending ascending (arranged.mem_iff.mp ha) hb (OrientedCmp.isLE_antisymm ab ba)

/-- Ascending elements with others added to them, sorted again only if there are any. -/
theorem merge_eq_of_ascending {found extra sorted : List α}
    (ascending : found.Pairwise (cmp · · = .lt)) (distinct : extra.Nodup)
    (fresh : ∀ x ∈ extra, x ∉ found) (target : sorted.Pairwise (cmp · · = .lt))
    (mem : ∀ x, x ∈ sorted ↔ x ∈ found ∨ x ∈ extra) :
    (if extra.isEmpty then found else (found ++ extra).mergeSort fun a b => (cmp a b).isLE) =
      sorted := by
  split
  · next none =>
    have none : extra = [] := List.isEmpty_iff.mp none
    exact ascending_eq_of_mem_iff ascending target fun x => by simp [mem, none]
  · refine mergeSort_eq_of_perm ?_ target
    refine (List.perm_ext_iff_of_nodup ?_ (nodup_of_ascending target)).mpr fun x => by simp [mem]
    exact (nodup_of_ascending ascending).append distinct fun x hf he => fresh x he hf

end Sorting

/-! ## Scans -/

/-- Rows keyed by `K`, read in `compare` order. -/
abbrev Table (K V : Type) [Ord K] := ExtTreeMap K V compare

variable {K V W : Type} [Ord K] [TransOrd K]

/-- Row order: by key. -/
def keyCmp (a b : K × V) : Ordering := compare a.1 b.1

instance : TransCmp (keyCmp : K × V → K × V → Ordering) :=
  inferInstanceAs (TransCmp (compareOn Prod.fst))

/-- Rows whose keys strictly ascend. -/
abbrev SortedRows (rows : List (K × V)) : Prop := rows.Pairwise (keyCmp · · = .lt)

/-- Ascending keys are distinct keys. -/
theorem SortedRows.nodup_keys {rows : List (K × V)} (h : SortedRows rows) :
    (rows.map Prod.fst).Nodup := by
  refine List.pairwise_map.mpr (h.imp fun {a b} lt eq => ?_)
  rw [keyCmp, eq, ReflOrd.compare_self] at lt
  cases lt

/-- The rows whose key passes `p`, in key order. -/
def Table.scan (t : Table K V) (p : K → Bool) : List (K × V) :=
  t.toList.filter fun row => p row.1

theorem Table.scan_ascending (t : Table K V) (p : K → Bool) : SortedRows (t.scan p) :=
  t.ordered_keys_toList.filter _

/-- Keys after `start`, or all of them. -/
def after (start : Option K) (k : K) : Bool := start.all fun s => (compare s k).isLT

/-- Rows read in chunks of `size`, each from after the last key of the one before it, until a chunk
is not full. `fuel` bounds the chunks. -/
def Table.readChunks (t : Table K V) (size : Nat) : (fuel : Nat) → Option K → List (K × V)
  | 0, _ => []
  | fuel + 1, start =>
    let chunk := (t.scan (after start)).take size
    match chunk.getLast? with
    | some row =>
      if chunk.length = size then chunk ++ t.readChunks size fuel (some row.1) else chunk
    | none => chunk

variable [LawfulEqOrd K]

@[simp]
theorem Table.mem_scan {t : Table K V} {p : K → Bool} {k : K} {v : V} :
    (k, v) ∈ t.scan p ↔ t[k]? = some v ∧ p k = true := by
  simp [Table.scan]

/-- An ascending list with a scan's rows is the scan. -/
theorem Table.eq_scan_of_ascending {t : Table K V} {p : K → Bool} {rows : List (K × V)}
    (ascending : SortedRows rows)
    (mem : ∀ k v, (k, v) ∈ rows ↔ t[k]? = some v ∧ p k = true) : rows = t.scan p :=
  ascending_eq_of_mem_iff ascending (t.scan_ascending p)
    fun row => (mem row.1 row.2).trans mem_scan.symm

/-- What a scan finds after one of its rows is the scan from there on. -/
theorem Table.scan_after_row {t : Table K V} {start : Option K} {before rest : List (K × V)}
    {row : K × V} (rows : t.scan (after start) = before ++ row :: rest) :
    t.scan (after (some row.1)) = rest := by
  have ascending := t.scan_ascending (after start)
  rw [rows] at ascending
  obtain ⟨-, tail, early⟩ := List.pairwise_append.mp ascending
  obtain ⟨late, rest_ascending⟩ := List.pairwise_cons.mp tail
  have isLT {a b : K} : (compare a b).isLT = true ↔ compare a b = .lt := by
    cases compare a b <;> simp
  refine (Table.eq_scan_of_ascending rest_ascending fun k v => ⟨fun mem => ?_, ?_⟩).symm
  · have found : (k, v) ∈ t.scan (after start) := by
      rw [rows]
      exact List.mem_append_right _ (List.mem_cons_of_mem _ mem)
    exact ⟨(Table.mem_scan.mp found).1, isLT.mpr (late (k, v) mem)⟩
  · rintro ⟨there, later⟩
    have later : compare row.1 k = .lt := isLT.mp later
    have passes : after start row.1 = true := by
      have mem : row ∈ t.scan (after start) := by
        rw [rows]
        exact List.mem_append_right _ List.mem_cons_self
      exact (Table.mem_scan.mp mem).2
    have found : (k, v) ∈ t.scan (after start) := by
      refine Table.mem_scan.mpr ⟨there, ?_⟩
      cases start with
      | none => rfl
      | some s => exact isLT.mpr (TransCmp.lt_trans (isLT.mp passes) later)
    rw [rows] at found
    obtain mem | mem := List.mem_append.mp found
    · have earlier : compare k row.1 = .lt := early (k, v) mem row List.mem_cons_self
      have swapped : compare row.1 k = (compare k row.1).swap := OrientedCmp.eq_swap
      rw [swapped, earlier] at later
      cases later
    · obtain same | mem := List.mem_cons.mp mem
      · rw [← same, ReflOrd.compare_self] at later
        cases later
      · exact mem

/-- Reading in chunks reads the whole table. -/
theorem Table.readChunks_eq (t : Table K V) {size : Nat} (some_ : 0 < size) {fuel : Nat}
    {start : Option K} (enough : (t.scan (after start)).length < fuel) :
    t.readChunks size fuel start = t.scan (after start) := by
  induction fuel generalizing start with
  | zero => cases enough
  | succ fuel ih =>
    generalize rows_eq : t.scan (after start) = rows at enough
    unfold readChunks
    simp only [rows_eq]
    by_cases full : size ≤ rows.length
    · have split : rows.take size = rows.take (size - 1) ++ [rows.get ⟨size - 1, by omega⟩] := by
        conv => lhs; rw [show size = size - 1 + 1 by omega]
        exact List.take_succ_eq_append_getElem (by omega)
      rw [split, List.getLast?_concat]
      have length : (rows.take (size - 1) ++ [rows.get ⟨size - 1, by omega⟩]).length = size := by
        rw [← split, List.length_take]
        omega
      have whole : rows = rows.take (size - 1) ++ rows.get ⟨size - 1, by omega⟩ :: rows.drop size := by
        rw [List.append_cons, ← split, List.take_append_drop]
      have next := Table.scan_after_row (rows_eq.trans whole)
      dsimp only
      rw [if_pos length, ih (by rw [next, List.length_drop]; omega), next, ← split,
        List.take_append_drop]
    · rw [List.take_of_length_le (by omega)]
      split
      · rw [if_neg (by omega)]
      · rfl

/-- A scan of a mapped table is the mapped scan. -/
theorem Table.scan_map (t : Table K V) (f : K → V → W) (p : K → Bool) :
    Table.scan (t.map f) p = (t.scan p).map fun row => (row.1, f row.1 row.2) := by
  refine (Table.eq_scan_of_ascending ?_ fun k w => ?_).symm
  · exact List.pairwise_map.mpr (t.scan_ascending p)
  · simp only [List.mem_map, Prod.mk.injEq, Prod.exists, mem_scan, ExtTreeMap.getElem?_map,
      Option.map_eq_some_iff]
    constructor
    · rintro ⟨k, v, ⟨found, pass⟩, rfl, rfl⟩
      exact ⟨⟨v, found, rfl⟩, pass⟩
    · rintro ⟨⟨v, found, rfl⟩, pass⟩
      exact ⟨k, v, ⟨found, pass⟩, rfl, rfl⟩

theorem Table.getElem?_filter_key (t : Table K V) (p : K → Bool) (k : K) :
    (t.filter fun key _ => p key)[k]? = if p k then t[k]? else none := by
  rw [ExtTreeMap.getElem?_filter']
  cases t[k]? <;> cases p k <;> simp

/-! ## Sums over the rows -/

/-- The sum of `f` over the rows. -/
def Table.total (t : Table K V) (f : V → Nat) : Nat := (t.toList.map fun row => f row.2).sum

section Total

variable (t : Table K V) (f : V → Nat)

omit [LawfulEqOrd K] in
theorem Table.nodup_toList : t.toList.Nodup := by
  have sorted : SortedRows t.toList := t.ordered_keys_toList
  exact nodup_of_ascending sorted

/-- The rows that pass a test, and the others. -/
theorem Table.total_filter (p : K → Bool) :
    Table.total (t.filter fun k _ => p k) f + Table.total (t.filter fun k _ => !p k) f =
      t.total f := by
  have rows (q : K → Bool) :
      (ExtTreeMap.filter (fun k _ => q k) t).toList = t.toList.filter fun row => q row.1 := by
    refine Table.eq_scan_of_ascending ExtTreeMap.ordered_keys_toList fun k v => ?_
    rw [ExtTreeMap.mem_toList_iff_getElem?_eq_some, Table.getElem?_filter_key]
    split <;> simp_all
  rw [total, total, total, rows, rows, ← List.sum_append_nat, ← List.map_append]
  exact ((List.filter_append_perm (fun row : K × V => p row.1) t.toList).map _).sum_nat

theorem Table.total_erase (k : K) :
    Table.total (t.erase k) f + t[k]?.elim 0 f = t.total f := by
  cases held : t[k]? with
  | none =>
    have same : t.erase k = t := by
      refine ExtTreeMap.ext_getElem? fun key => ?_
      rw [ExtTreeMap.getElem?_erase]
      split
      · next eq => rw [← LawfulEqCmp.eq_of_compare eq, held]
      · rfl
    rw [same]
    rfl
  | some v =>
    have rows : ((k, v) :: (t.erase k).toList).Perm t.toList := by
      refine (List.perm_ext_iff_of_nodup ?_ t.nodup_toList).mpr fun row => ?_
      · refine List.nodup_cons.mpr ⟨fun mem => ?_, Table.nodup_toList _⟩
        rw [ExtTreeMap.mem_toList_iff_getElem?_eq_some] at mem
        simp at mem
      · obtain ⟨key, w⟩ := row
        simp only [List.mem_cons, Prod.mk.injEq, ExtTreeMap.mem_toList_iff_getElem?_eq_some,
          ExtTreeMap.getElem?_erase]
        by_cases same : compare k key = .eq
        · rw [LawfulEqCmp.eq_of_compare same] at held
          simp [LawfulEqCmp.eq_of_compare same, held, eq_comm]
        · have other : key ≠ k := fun eq => same (eq ▸ ReflOrd.compare_self)
          simp [same, other]
    have sums := (rows.map fun row : K × V => f row.2).sum_nat
    rw [List.map_cons, List.sum_cons] at sums
    rw [total, total, ← sums, Nat.add_comm]
    rfl

/-- A row written, over another or not. -/
theorem Table.total_insert (k : K) (v : V) :
    Table.total (t.insert k v) f + t[k]?.elim 0 f = t.total f + f v := by
  have same : (t.insert k v).erase k = t.erase k := by
    refine ExtTreeMap.ext_getElem? fun key => ?_
    rw [ExtTreeMap.getElem?_erase, ExtTreeMap.getElem?_erase, ExtTreeMap.getElem?_insert]
    split <;> rfl
  have new := Table.total_erase (t.insert k v) f k
  rw [same, ExtTreeMap.getElem?_insert_self] at new
  have old := t.total_erase f k
  simp only [Option.elim_some] at new
  omega

end Total

/-! ## Folding one table over another -/

section Fold

variable {step : Table K V → K × W → Table K V} {result : K × W → Option V}

omit [LawfulEqOrd K] in
/-- A row no later row shares its key with decides what a fold leaves under that key. -/
theorem getElem?_foldl_of_mem [DecidableEq K]
    (steps : ∀ t row k, (step t row)[k]? = if row.1 = k then result row else t[k]?) {k : K} :
    ∀ {rows : List (K × W)} {t : Table K V}, (rows.map Prod.fst).Nodup →
      (∀ w, (k, w) ∈ rows → (rows.foldl step t)[k]? = result (k, w)) ∧
        ((∀ w, (k, w) ∉ rows) → (rows.foldl step t)[k]? = t[k]?) := by
  intro rows
  induction rows with
  | nil => intro t _; simp
  | cons row rows ih =>
    intro t distinct
    obtain ⟨fresh, distinct⟩ := List.nodup_cons.mp distinct
    obtain ⟨found, absent⟩ := ih (t := step t row) distinct
    rw [List.foldl_cons]
    constructor
    · intro w mem
      rcases List.mem_cons.mp mem with rfl | mem
      · rw [absent fun w mem => fresh (List.mem_map.mpr ⟨_, mem, rfl⟩), steps, if_pos rfl]
      · exact found w mem
    · intro none
      have other : row.1 ≠ k := fun same => none row.2 (by simp [← same])
      rw [absent fun w mem => none w (List.mem_cons_of_mem _ mem), steps, if_neg other]

/-- Folding some of a table's rows over another, each row changing its own key only. -/
theorem Table.getElem?_foldl_filter [DecidableEq K]
    (steps : ∀ t row k, (step t row)[k]? = if row.1 = k then result row else t[k]?)
    (t : Table K V) (u : Table K W) (p : K × W → Bool) (k : K) :
    ((u.toList.filter p).foldl step t)[k]? =
      match u[k]? with
      | some w => if p (k, w) then result (k, w) else t[k]?
      | none => t[k]? := by
  have sorted : SortedRows (u.toList.filter p) := u.ordered_keys_toList.filter p
  have mem {w : W} : (k, w) ∈ u.toList.filter p ↔ u[k]? = some w ∧ p (k, w) = true := by
    rw [List.mem_filter, ExtTreeMap.mem_toList_iff_getElem?_eq_some]
  obtain ⟨found, absent⟩ := getElem?_foldl_of_mem steps (k := k) (t := t) sorted.nodup_keys
  cases h : u[k]? with
  | none => exact absent fun w row => by simp [mem, h] at row
  | some w =>
    by_cases pass : p (k, w) = true
    · rw [found w (mem.mpr ⟨h, pass⟩)]
      simp [pass]
    · rw [absent fun w' row => ?_]
      · simp [pass]
      · obtain ⟨same, pass'⟩ := mem.mp row
        rw [h, Option.some.injEq] at same
        exact pass (same ▸ pass')

theorem Table.getElem?_foldl [DecidableEq K]
    (steps : ∀ t row k, (step t row)[k]? = if row.1 = k then result row else t[k]?)
    (t : Table K V) (u : Table K W) (k : K) :
    (u.toList.foldl step t)[k]? =
      match u[k]? with
      | some w => result (k, w)
      | none => t[k]? := by
  simpa using Table.getElem?_foldl_filter steps t u (fun _ => true) k

theorem Table.getElem?_foldl_erase [DecidableEq K] (keys : List K) (t : Table K V)
    (k : K) : (keys.foldl ExtTreeMap.erase t)[k]? = if k ∈ keys then none else t[k]? := by
  induction keys generalizing t with
  | nil => simp
  | cons key keys ih =>
    simp only [List.foldl_cons, ih, ExtTreeMap.getElem?_erase, LawfulEqCmp.compare_eq_iff_eq,
      List.mem_cons]
    by_cases later : k ∈ keys <;> by_cases same : k = key <;> simp [later, same, eq_comm]

end Fold

/-- `t` with every row of `u`, read through `f`, written over it. -/
def Table.overwrite (t : Table K V) (u : Table K W) (f : W → V) : Table K V :=
  u.toList.foldl (fun t row => t.insert row.1 (f row.2)) t

@[simp]
theorem Table.getElem?_overwrite [DecidableEq K] {t : Table K V} {u : Table K W} {f : W → V}
    {k : K} : (t.overwrite u f)[k]? = (u[k]?.map f).or t[k]? := by
  have steps (t : Table K V) (row : K × W) (k : K) :
      (t.insert row.1 (f row.2))[k]? = if row.1 = k then some (f row.2) else t[k]? := by
    simp [ExtTreeMap.getElem?_insert]
  rw [Table.overwrite, Table.getElem?_foldl steps]
  cases u[k]? <;> rfl

/-- A table written over another is all there is iff the other has no key of its own. -/
theorem Table.overwrite_eq_iff [DecidableEq K] {t u : Table K V} :
    t.overwrite u id = u ↔ ∀ k ∈ t, k ∈ u := by
  constructor
  · intro eq k mem
    rw [← eq, ExtTreeMap.mem_iff_isSome_getElem?, Table.getElem?_overwrite]
    have there := ExtTreeMap.isSome_getElem?_iff_mem.mpr mem
    cases u[k]? <;> simp [there]
  · intro sub
    refine ExtTreeMap.ext_getElem? fun k => ?_
    rw [Table.getElem?_overwrite]
    cases found : u[k]? with
    | some v => rfl
    | none =>
      have absent : k ∉ t := fun mem => by
        have there := ExtTreeMap.isSome_getElem?_iff_mem.mpr (sub k mem)
        rw [found] at there
        cases there
      exact ExtTreeMap.getElem?_eq_none absent

end Fastetcd
