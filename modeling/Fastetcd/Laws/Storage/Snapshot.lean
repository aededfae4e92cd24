import Fastetcd.Laws.Storage.Overlay

/-!
# Reads of an overlay snapshot

A snapshot's contents are the engine's with the layers' ops committed to it. Every read of the
snapshot, `get`, `range` with any bounds and limit, `count` and `last`, is that read of its contents.
-/

namespace Fastetcd.Storage

open Mvcc (Bytes Bound inBounds)
open Patch (stacked)

/-! ## The merge loop -/

section Merge

variable {v : TableView} {limit : Nat} {pending out : List Row}

/-- One page is one pass. -/
theorem mergePage_eq (rows : List Row) :
    mergePage v limit rows pending out =
      (emitAll limit out (Merge.pass v.hides rows pending)).map
        fun out => (Merge.rest rows pending, out) := by
  induction rows generalizing pending out with
  | nil => rfl
  | cons row rows ih =>
    rw [mergePage, emitWhile_eq, Merge.pass, Merge.rest, emitAll_append]
    cases emitAll limit out (pending.takeWhile (·.1 < row.1)) with
    | error out => rfl
    | ok out =>
      show (if v.hides row.1 then mergePage v limit rows _ out
        else emit limit out row >>= fun out => mergePage v limit rows _ out) =
          (emitAll limit out ((if v.hides row.1 then [] else [row]) ++ _)).map _
      by_cases hidden : v.hides row.1 = true
      · rw [if_pos hidden, if_pos hidden, List.nil_append]
        exact ih
      · rw [if_neg hidden, if_neg hidden, List.singleton_append, emitAll_cons]
        cases emit limit out row with
        | error out => rfl
        | ok out => exact ih

open OverlaySnapshot (mergePages)

variable {base : Db} {table : String} {stop cursor : Bound} {page : Nat}

/-- The last page is short. -/
theorem mergePages_short (short : page = 0 ∨ (base.range table cursor stop page).length < page) :
    mergePages base table v stop limit page cursor pending out =
      mergePage v limit (base.range table cursor stop page) pending out := by
  rw [mergePages]
  cases mergePage v limit (base.range table cursor stop page) pending out with
  | error out => rfl
  | ok left => exact if_pos short

/-- A full page, the pending rows up to its last key, and the pages from there on. -/
theorem mergePages_full (full : ¬(page = 0 ∨ (base.range table cursor stop page).length < page))
    {hi : Row} (last : (base.range table cursor stop page).getLast? = some hi) :
    mergePages base table v stop limit page cursor pending out = (do
      let (pending, out) ← mergePage v limit (base.range table cursor stop page) pending out
      let (pending, out) ← emitWhile (·.1 ≤ hi.1) limit pending out
      mergePages base table v stop limit page (.excluded hi.1) pending out) := by
  rw [mergePages]
  cases mergePage v limit (base.range table cursor stop page) pending out with
  | error out => rfl
  | ok left =>
    show (if _ then _ else _) = _
    rw [if_neg full]
    split
    · next none =>
      rw [last] at none
      cases none
    · next hi' last' =>
      obtain rfl : hi' = hi := Option.some.inj (last'.symm.trans last)
      show _ = emitWhile (·.1 ≤ hi'.1) limit left.1 left.2 >>= _
      cases emitWhile (·.1 ≤ hi'.1) limit left.1 left.2 <;> rfl

/-- The pages, one after the other and then what is pending still, are one merge of the table. -/
theorem mergePages_eq :
    (mergePages base table v stop limit page cursor pending out >>=
        fun (pending, out) => emitAll limit out pending) =
      emitAll limit out
        (Merge.all v.hides ((base table).scan (inBounds cursor stop)) pending) := by
  induction size : ((base table).scan (inBounds cursor stop)).length using Nat.strong_induction_on
    generalizing cursor pending out with
  | _ n ih =>
  by_cases done : page = 0 ∨ (base.range table cursor stop page).length < page
  · -- The page is the whole rest of the table.
    have whole : base.range table cursor stop page = (base table).scan (inBounds cursor stop) := by
      rw [Db.range, limited] at done ⊢
      split at done
      · next none => rw [if_pos none]
      · next some =>
        rw [if_neg some]
        refine List.take_of_length_le ?_
        rw [List.length_take] at done
        omega
    rw [mergePages_short done, mergePage_eq, whole, Merge.all, emitAll_append]
    cases emitAll limit out (Merge.pass v.hides ((base table).scan (inBounds cursor stop)) pending)
      <;> rfl
  · obtain ⟨hi, last⟩ : ∃ hi, (base.range table cursor stop page).getLast? = some hi := by
      rw [← Option.isSome_iff_exists, List.getLast?_isSome]
      intro none
      rw [none] at done
      simp only [List.length_nil] at done
      omega
    have smaller (p : Row) (le : decide (p.1 ≤ hi.1) = true)
        (row : Row) (mem : row ∈ (base table).scan (inBounds (.excluded hi.1) stop)) :
        p.1 < row.1 := by
      have above : decide (hi.1 < row.1) = true :=
        (Bool.and_eq_true_iff.mp (Table.mem_scan.mp mem).2).1
      exact Std.lt_of_le_of_lt (of_decide_eq_true le) (of_decide_eq_true above)
    have split := scan_page last
    rw [← Db.range] at split
    rw [mergePages_full done last, mergePage_eq, split, Merge.all_append, emitAll_append,
      Merge.all_after smaller]
    cases emitAll limit out (Merge.pass v.hides (base.range table cursor stop page) pending) with
    | error out => rfl
    | ok out =>
      show (emitWhile (·.1 ≤ hi.1) limit _ out >>= _) >>= _ = emitAll limit out _
      rw [emitWhile_eq, emitAll_append]
      cases emitAll limit out ((Merge.rest (base.range table cursor stop page) pending).takeWhile
        (·.1 ≤ hi.1)) with
      | error out => rfl
      | ok out => exact ih _ (size ▸ fewer_rows last) rfl

end Merge

namespace OverlaySnapshot

/-! ## Contents -/

/-- The engine with the layers' ops committed to it. -/
def contents (s : OverlaySnapshot) : Db := s.base.commit (flushOps s.layers)

variable (s : OverlaySnapshot) (table : String)

theorem map_contents :
    s.contents.map table = (layersPatch table s.layers).apply (s.base.map table) := by
  rw [contents, Db.map_commit, patch_flushOps]

/-- The newest layer that says anything of a key decides. -/
theorem get_contents (key : Bytes) : s.get table key = s.contents.get table key := by
  show getIn s.base table key s.layers.reverse = s.contents.map table key
  rw [map_contents]
  generalize s.layers = layers
  induction layers using List.reverseRecOn with
  | nil => rfl
  | append_singleton layers layer ih =>
    rw [List.reverse_append, List.reverse_singleton, List.singleton_append, getIn,
      layersPatch_concat, Patch.apply_atop, ih]
    cases h : layer.tables[table]? with
    | none => rw [Layer.patch_of_none h, Patch.apply_none]
    | some t =>
      rw [Layer.patch_of_some h]
      simp only [Patch.apply, TableLayer.patch, Patch.atop, coverAny, TableLayer.covered]
      cases t.entries[key]? with
      | some value => rfl
      | none =>
        by_cases gone : (t.rangeDels.any fun del => covers del.1 del.2 key) = true <;> simp [gone]

theorem layersPatch_of_not_touches (untouched : s.touches table = false) :
    layersPatch table s.layers = fun _ => none := by
  rw [touches, List.any_eq_false] at untouched
  generalize s.layers = layers at untouched
  induction layers with
  | nil => rfl
  | cons layer layers ih =>
    have absent : layer.tables[table]? = none :=
      Std.ExtTreeMap.getElem?_eq_none (by simpa using untouched layer List.mem_cons_self)
    rw [layersPatch, List.map_cons, stacked, Layer.patch_of_none absent, Patch.atop_none]
    exact ih fun layer mem => untouched layer (List.mem_cons_of_mem _ mem)

/-- A table no layer touches is the engine's. -/
theorem contents_of_not_touches (untouched : s.touches table = false) :
    s.contents table = s.base table := by
  refine Std.ExtTreeMap.ext_getElem? fun key => ?_
  show s.contents.map table key = s.base.map table key
  rw [map_contents, layersPatch_of_not_touches s table untouched, Patch.apply_none]

variable (start stop : Bound)

/-- A view says what the layers say, within its bounds, and has points there only. -/
theorem patch_view :
    (s.view table start stop).Within start stop ∧
      ∀ key, inBounds start stop key →
        (s.view table start stop).patch key = layersPatch table s.layers key := by
  rw [view]
  generalize s.layers = layers
  induction layers using List.reverseRecOn with
  | nil =>
    refine ⟨fun key mem => ?_, fun key _ => ?_⟩
    · simp at mem
    · simp [TableView.patch, Patch.atop, coverAny, layersPatch, stacked]
  | append_singleton layers layer ih =>
    obtain ⟨within, agree⟩ := ih
    rw [List.foldl_concat, layersPatch_concat]
    cases h : layer.tables[table]? with
    | none =>
      rw [Layer.patch_of_none h, Patch.none_atop]
      exact ⟨within, agree⟩
    | some t =>
      refine ⟨TableView.within_layer within t, fun key inside => ?_⟩
      show (TableView.layer start stop _ t).patch key = _
      rw [Layer.patch_of_some h, TableView.patch_layer _ t inside, Patch.atop, agree key inside]
      rfl

/-! ## Ranges -/

variable {v : TableView}

theorem mem_pending {row : Row} : row ∈ v.pending ↔ v.entries[row.1]? = some (some row.2) := by
  obtain ⟨key, value⟩ := row
  simp only [TableView.pending, List.mem_filterMap, Option.map_eq_some_iff, Prod.mk.injEq, Prod.exists,
    Std.ExtTreeMap.mem_toList_iff_getElem?_eq_some]
  constructor
  · rintro ⟨k, v', held, v, rfl, rfl, rfl⟩
    exact held
  · intro held
    exact ⟨key, some value, held, value, rfl, rfl, rfl⟩

theorem pending_sorted : (v.pending).Pairwise (·.1 < ·.1) := by
  refine List.pairwise_filterMap.mpr (v.entries.ordered_keys_toList.imp ?_)
  intro a b lt x hx y hy
  obtain ⟨-, -, rfl⟩ := Option.map_eq_some_iff.mp hx
  obtain ⟨-, -, rfl⟩ := Option.map_eq_some_iff.mp hy
  exact Mvcc.Bytes.compare_eq_lt.mp lt

theorem hides_eq_false {key : Bytes} : v.hides key = false ↔ v.patch key = none := by
  rw [TableView.hides, Bool.or_eq_false_iff, TableView.patch, Patch.atop, Option.or_eq_none_iff,
    coverAny]
  refine and_congr ?_ ?_
  · rw [Std.ExtTreeMap.contains_eq_isSome_getElem?, Option.isSome_eq_false_iff, Option.isNone_iff_eq_none]
  · cases v.dels.any fun del => covers del.1 del.2 key <;> simp

theorem patch_of_entry {key : Bytes} {value : Option Bytes} (h : v.entries[key]? = some value) :
    v.patch key = some value := by
  simp [TableView.patch, Patch.atop, h]

theorem entry_of_patch {key value : Bytes} (h : v.patch key = some (some value)) :
    v.entries[key]? = some (some value) := by
  simp only [TableView.patch, Patch.atop, coverAny] at h
  cases held : v.entries[key]? with
  | some found => simpa [held] using h
  | none =>
    rw [held, Option.none_or] at h
    split at h <;> cases h

/-- The merge of the engine's rows with a view's is a scan of the contents. -/
theorem all_eq_scan :
    Merge.all (s.view table start stop).hides ((s.base table).scan (inBounds start stop))
        ((s.view table start stop).pending) =
      (s.contents table).scan (inBounds start stop) := by
  obtain ⟨within, agree⟩ := s.patch_view table start stop
  generalize s.view table start stop = v at within agree
  have sorted := Merge.all_sorted v.hides
    (scan_sorted (s.base table) (inBounds start stop)) pending_sorted
    fun row _ visible p pending same => by
      have silent := hides_eq_false.mp visible
      rw [← same, patch_of_entry (mem_pending.mp pending)] at silent
      cases silent
  refine Table.eq_scan_of_ascending (sorted.imp Mvcc.Bytes.compare_eq_lt.mpr) fun key value => ?_
  have holds (inside : inBounds start stop key = true) :
      (s.contents table)[key]? = (v.patch key).getD (s.base table)[key]? := by
    rw [agree key inside]
    exact congrFun (s.map_contents table) key
  rw [Merge.mem_all, mem_pending, Table.mem_scan, hides_eq_false]
  constructor
  · rintro (pending | ⟨⟨held, inside⟩, silent⟩)
    · have inside := within key (Std.ExtTreeMap.mem_iff_isSome_getElem?.mpr (by simp [pending]))
      rw [holds inside, patch_of_entry pending]
      exact ⟨rfl, inside⟩
    · rw [holds inside, silent]
      exact ⟨held, inside⟩
  · rintro ⟨held, inside⟩
    rw [holds inside] at held
    cases h : v.patch key with
    | none => exact Or.inr ⟨⟨by simpa [h] using held, inside⟩, rfl⟩
    | some found =>
      rw [h] at held
      exact Or.inl (entry_of_patch (h.trans (congrArg some held)))

/-- A limited merge is a limited scan of the contents. -/
theorem range_contents (limit : Nat) :
    s.range table start stop limit = s.contents.range table start stop limit := by
  rw [range, merged]
  by_cases touched : s.touches table = true
  · have rest (pending out : List Row) :
        (emitWhile (fun _ => true) limit pending out >>= fun left => pure left.2) =
          emitAll limit out pending := by
      rw [emitWhile_eq, List.takeWhile_eq_self_iff.mpr fun _ _ => rfl]
      cases emitAll limit out pending <;> rfl
    simp only [touched, Bool.not_true, Bool.false_eq_true, if_false, rest]
    rw [mergePages_eq, emitted_emitAll (by simpa using Nat.eq_zero_or_pos limit), List.nil_append,
      s.all_eq_scan table start stop]
    rfl
  · rw [Bool.not_eq_true] at touched
    rw [touched, Db.range, Db.range, s.contents_of_not_touches table touched]
    rfl

theorem count_contents : s.count table start stop = s.contents.count table start stop := by
  rw [count]
  by_cases touched : s.touches table = true
  · rw [touched, ← range, range_contents]
    rfl
  · rw [Bool.not_eq_true] at touched
    rw [touched, Db.count, Db.count, s.contents_of_not_touches table touched]
    rfl

/-! ## The last row -/

/-- The last point of a view that is a value is the last of its rows. -/
theorem findSome?_reverse_pending (v : TableView) :
    (v.entries.toList.reverse.findSome? fun row => row.2.map (row.1, ·)) = v.pending.getLast? := by
  rw [TableView.pending, List.getLast?_eq_head?_reverse, ← List.filterMap_reverse,
    List.head?_filterMap]

theorem toList_eq_scan (rows : Table Bytes Bytes) :
    rows.toList = rows.scan (inBounds .unbounded .unbounded) :=
  (List.filter_eq_self.mpr fun _ _ => rfl).symm

theorem last_contents : s.last table = s.contents.last table := by
  rw [last]
  by_cases touched : s.touches table = true
  · simp only [touched, Bool.not_true, Bool.false_eq_true, if_false]
    have merge := s.all_eq_scan table .unbounded .unbounded
    have sorted := merge ▸ scan_sorted (s.contents table) (inBounds .unbounded .unbounded)
    have whole : s.merged table .unbounded .unbounded 0 =
        (s.contents table).scan (inBounds .unbounded .unbounded) :=
      s.range_contents table .unbounded .unbounded 0
    rw [findSome?_reverse_pending, Db.last, Db.last, toList_eq_scan, toList_eq_scan, whole]
    cases found : ((s.base table).scan (inBounds .unbounded .unbounded)).getLast? with
    | none =>
      rw [← merge, List.getLast?_eq_none_iff.mp found]
      rfl
    | some row =>
      by_cases hidden : (s.view table .unbounded .unbounded).hides row.1 = true
      · simp only [hidden, Bool.not_true, Bool.false_eq_true, if_false]
      · rw [Bool.not_eq_true] at hidden
        simp only [hidden, Bool.not_false, if_true]
        rw [← merge, Merge.getLast?_all sorted pending_sorted (scan_sorted _ _) found hidden]
        cases (s.view table .unbounded .unbounded).pending.getLast? <;> rfl
  · rw [Bool.not_eq_true] at touched
    rw [touched, Db.last, Db.last, s.contents_of_not_touches table touched]
    rfl

/-- Every read of the snapshot is that read of `db`. -/
structure AnswersAs (db : Db) : Prop where
  get : ∀ table key, s.get table key = db.get table key
  range : ∀ table start stop limit,
    s.range table start stop limit = db.range table start stop limit
  count : ∀ table start stop, s.count table start stop = db.count table start stop
  last : ∀ table, s.last table = db.last table

theorem answersAs_contents : s.AnswersAs s.contents :=
  ⟨s.get_contents, s.range_contents, s.count_contents, s.last_contents⟩

end OverlaySnapshot

end Fastetcd.Storage
