import Fastetcd.Server.Fragments
import Fastetcd.Server.Watch

/-!
# Fragments of a watch response are the response

A part is either a single event or was measured below the limit when its last event was pushed;
dropping the fragment mark of the last part makes it shorter. The split itself is that of the watch
stream's model (`parts_eq_splitParts`).
-/

namespace Fastetcd.Server.Pb

section Loops

variable {α : Type} {tooLong : List α → Bool}

/-- A part that grew past one event was not too long. -/
theorem fillPart_fits {cur queue : List α} (fits : 1 < cur.length → tooLong cur = false) :
    1 < (fillPart tooLong cur queue).1.length → tooLong (fillPart tooLong cur queue).1 = false := by
  induction queue generalizing cur with
  | nil => exact fits
  | cons ev queue ih =>
    rw [fillPart]
    split
    · exact fits
    · rename_i goesOn
      refine ih fun several => ?_
      cases long : tooLong (cur ++ [ev]) with
      | false => rfl
      | true => exact absurd ⟨several, long⟩ goesOn

theorem splitParts_flatten (queue : List α) :
    ((splitParts tooLong queue).map Prod.fst).flatten = queue := by
  induction queue using splitParts.induct tooLong with
  | case1 => rw [splitParts]; rfl
  | case2 ev queue filled ih =>
    rw [splitParts, List.map_cons, List.flatten_cons, ih]
    exact fillPart_append [] (ev :: queue)

/-- Every part but the last is followed by another. -/
theorem splitParts_marks (queue : List α) (some : queue ≠ []) :
    (splitParts tooLong queue).map Prod.snd =
      List.replicate ((splitParts tooLong queue).length - 1) true ++ [false] := by
  induction queue using splitParts.induct tooLong with
  | case1 => exact absurd rfl some
  | case2 ev queue filled ih =>
    rw [splitParts, List.map_cons, List.length_cons, Nat.add_sub_cancel]
    show (!filled.2.isEmpty) :: (splitParts tooLong filled.2).map Prod.snd = _
    cases left : filled.2 with
    | nil => rw [splitParts]; rfl
    | cons e rest =>
      have others := ih (by rw [left]; exact List.cons_ne_nil _ _)
      rw [left] at others
      rw [others]
      obtain ⟨n, length⟩ : ∃ n, (splitParts tooLong (e :: rest)).length = n + 1 := by
        rw [splitParts]
        exact ⟨_, rfl⟩
      rw [length, Nat.add_sub_cancel]
      rfl

/-- A part has an event, and is not too long when it has more than one. -/
theorem splitParts_fits {queue part : List α} {more : Bool}
    (mem : (part, more) ∈ splitParts tooLong queue) :
    part ≠ [] ∧ (1 < part.length → tooLong part = false) := by
  induction queue using splitParts.induct tooLong with
  | case1 =>
    rw [splitParts] at mem
    cases mem
  | case2 ev queue filled ih =>
    rw [splitParts] at mem
    rcases List.mem_cons.mp mem with first | other
    · cases first
      have nonempty := List.length_pos_iff.mp (@fillPart_pos _ tooLong ev queue)
      exact ⟨nonempty, fillPart_fits (by simp)⟩
    · exact ih other

/-- The watch stream's model splits a response in one pass over its events. -/
theorem parts_eq_fillPart {tooLong : List Mvcc.MvccEvent → Bool} (cur queue : List Mvcc.MvccEvent)
    (some : cur ≠ []) :
    Watch.parts tooLong cur queue =
      (fillPart tooLong cur queue).1 :: Watch.parts tooLong [] (fillPart tooLong cur queue).2 := by
  induction queue generalizing cur with
  | nil => simp [Watch.parts, fillPart, some]
  | cons ev queue ih =>
    rw [Watch.parts, fillPart]
    by_cases long : 1 < (cur ++ [ev]).length ∧ tooLong (cur ++ [ev])
    · rw [if_pos (by simpa using long), if_pos long]
      simp [Watch.parts]
    · rw [if_neg (by simpa using long), if_neg long]
      exact ih (cur ++ [ev]) (by simp)

theorem parts_eq_splitParts {tooLong : List Mvcc.MvccEvent → Bool} (events : List Mvcc.MvccEvent) :
    Watch.parts tooLong [] events = (splitParts tooLong events).map Prod.fst := by
  induction events using splitParts.induct tooLong with
  | case1 => rw [splitParts]; rfl
  | case2 ev events filled ih =>
    have first : fillPart tooLong [] (ev :: events) = fillPart tooLong [ev] events := by
      rw [fillPart, if_neg (by simp)]
      rfl
    have start : Watch.parts tooLong [] (ev :: events) = Watch.parts tooLong [ev] events := by
      rw [Watch.parts, if_neg (by simp)]
      rfl
    rw [splitParts, List.map_cons, ← ih, start, parts_eq_fillPart [ev] events (List.cons_ne_nil _ _)]
    show _ = (fillPart tooLong [] (ev :: events)).1 ::
      Watch.parts tooLong [] (fillPart tooLong [] (ev :: events)).2
    rw [first]

end Loops

/-! ## Responses -/

/-- Without its fragment mark a response is not longer. -/
theorem encodedLen_unmarked (r : WatchResponse) :
    { r with fragment := false }.encodedLen ≤ { r with fragment := true }.encodedLen := by
  simp only [WatchResponse.encodedLen, boolLen]
  split <;> simp

/-- The parts of a response: together they are its events in order, each with the rest of the
response; of a response that is no fragment itself, exactly the parts before the last are marked; no
part is empty unless the response was; and each is below the limit unless it has at most one
event. -/
theorem fragments_whole (resp : WatchResponse) (max : Nat) :
    fragments resp max ≠ [] ∧
      (fragments resp max).flatMap WatchResponse.events = resp.events ∧
      (∀ part ∈ fragments resp max,
        { part with events := resp.events, fragment := resp.fragment } = resp) ∧
      (resp.fragment = false → (fragments resp max).map WatchResponse.fragment =
        List.replicate ((fragments resp max).length - 1) true ++ [false]) ∧
      (∀ part ∈ fragments resp max, part.events = [] → resp.events = []) ∧
      ∀ part ∈ fragments resp max, part.encodedLen < max ∨ part.events.length ≤ 1 := by
  by_cases short : resp.encodedLen < max ∨ resp.events.length < 2
  · have single : fragments resp max = [resp] := if_pos short
    rw [single]
    refine ⟨List.cons_ne_nil _ _, by simp, ?_, ?_, ?_, ?_⟩
    · intro part mem
      rw [List.mem_singleton.mp mem]
    · intro unmarked
      simp [unmarked]
    · intro part mem
      rw [List.mem_singleton.mp mem]
      exact id
    · intro part mem
      rw [List.mem_singleton.mp mem]
      omega
  · have several : resp.events ≠ [] := by
      intro none
      rw [none] at short
      exact short (.inr (by decide))
    have split : fragments resp max = _ := if_neg short
    have whole : (fragments resp max).flatMap WatchResponse.events = resp.events := by
      rw [split, List.flatMap_map]
      exact splitParts_flatten resp.events
    refine ⟨?_, whole, ?_⟩
    · intro none
      rw [none] at whole
      exact several whole.symm
    rw [split]
    refine ⟨?_, ?_, ?_, ?_⟩
    · intro part mem
      obtain ⟨⟨events, more⟩, -, rfl⟩ := List.mem_map.mp mem
      rfl
    · intro _
      rw [List.map_map, List.length_map]
      exact splitParts_marks resp.events several
    · intro part mem none
      obtain ⟨⟨events, more⟩, held, rfl⟩ := List.mem_map.mp mem
      exact absurd none (splitParts_fits held).1
    · intro part mem
      obtain ⟨⟨events, more⟩, held, rfl⟩ := List.mem_map.mp mem
      refine or_iff_not_imp_right.mpr fun several => ?_
      have fits := of_decide_eq_false ((splitParts_fits held).2 (Nat.not_le.mp several))
      cases more with
      | true => exact Nat.not_le.mp fits
      | false => exact (encodedLen_unmarked { resp with events }).trans_lt (Nat.not_le.mp fits)

/-- A response that is marked as a fragment and has no events is sent as it is, at any limit: its only
part is marked, and is longer than the limit with no event in it. -/
theorem fragments_marked_empty :
    fragments { fragment := true } 1 = [{ fragment := true }] ∧
      1 ≤ ({ fragment := true } : WatchResponse).encodedLen := by
  decide

/-- Two events that do not fit together. -/
theorem fragments_whole_two :
    (fragments { events := [{ type := 1 }, { type := 2 }] } 7).map WatchResponse.fragment =
      List.replicate
        ((fragments { events := [{ type := 1 }, { type := 2 }] } 7).length - 1) true ++ [false] :=
  (fragments_whole { events := [{ type := 1 }, { type := 2 }] } 7).2.2.2.1 rfl

end Fastetcd.Server.Pb
