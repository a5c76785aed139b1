import WebServer.DataRefinement
import Mathlib.Data.List.ReduceOption

/-!
# Logs kept in segments

Chunks are appended to a current segment. When it has reached the limit it is closed, and only
the newest of the closed segments are kept. Chunks are never split; a limit of zero and a bound
of zero segments are allowed where nothing else is said.
-/

universe u

/-- The newest closed segment is the first of those kept. -/
structure SegmentedLog (α : Type u) where
  kept : List (List α) := []
  current : List α := []

namespace SegmentedLog

open DataRefinement

variable {α : Type u}

/-- The next log, and the segment that was closed. -/
def write (limit bound : Nat) (log : SegmentedLog α) (chunk : List α) :
    SegmentedLog α × Option (List α) :=
  let current := log.current ++ chunk
  if limit ≤ current.length then ({ kept := (current :: log.kept).take bound }, some current)
  else ({ log with current := current }, none)

variable {limit bound : Nat}

theorem write_closes {log : SegmentedLog α} {chunk : List α}
    (h : limit ≤ (log.current ++ chunk).length) : write limit bound log chunk =
      ({ kept := ((log.current ++ chunk) :: log.kept).take bound },
        some (log.current ++ chunk)) :=
  if_pos h

theorem write_appends {log : SegmentedLog α} {chunk : List α}
    (h : ¬limit ≤ (log.current ++ chunk).length) :
    write limit bound log chunk = ({ log with current := log.current ++ chunk }, none) :=
  if_neg h

/-- The segments closed in a run, oldest first. -/
def closed (limit bound : Nat) (log : SegmentedLog α) (chunks : List (List α)) : List (List α) :=
  (run (write limit bound) log chunks).2.reduceOption

theorem closed_cons (log : SegmentedLog α) (chunk : List α) (chunks : List (List α)) :
    closed limit bound log (chunk :: chunks) = (write limit bound log chunk).2.toList ++
      closed limit bound (write limit bound log chunk).1 chunks := by
  rw [closed, run_cons, ← List.singleton_append, List.reduceOption_append, ← closed]
  cases (write limit bound log chunk).2 <;> rfl

/-- What is kept are the newest segments. -/
theorem run_kept (log : SegmentedLog α) (few : log.kept.length ≤ bound) (chunks : List (List α)) :
    (run (write limit bound) log chunks).1.kept =
      ((closed limit bound log chunks).reverse ++ log.kept).take bound := by
  induction chunks generalizing log with
  | nil => exact (List.take_of_length_le few).symm
  | cons chunk chunks ih =>
    rw [run_cons, closed_cons]
    by_cases full : limit ≤ (log.current ++ chunk).length
    · rw [write_closes full]
      have hfew : (((log.current ++ chunk) :: log.kept).take bound).length ≤ bound :=
        List.length_take_le _ _
      rw [ih _ hfew]
      simp only [Option.toList_some, List.singleton_append, List.reverse_cons, List.append_assoc]
      rw [List.take_append, List.take_take, List.take_append]
      congr 2
      omega
    · rw [write_appends full]
      have hrest := ih { log with current := log.current ++ chunk } few
      simpa using hrest

/-- The chunks of a run, divided into those of each closed segment and those of the current one:
a closed segment reached the limit with its last chunk and not before. -/
structure Divided (limit : Nat) (groups : List (List (List α))) (rest : List (List α))
    (chunks segments : List (List α)) (current : List α) : Prop where
  chunks_eq : chunks = groups.flatten ++ rest
  segments_eq : segments = groups.map List.flatten
  current_eq : current = rest.flatten
  reached : ∀ g ∈ groups, ∃ before last, g = before ++ [last] ∧ before.flatten.length < limit ∧
    limit ≤ g.flatten.length

/-- Every run divides its chunks, behind those that the current segment began with. -/
theorem run_divided (log : SegmentedLog α) {opened : List (List α)}
    (begun : log.current = opened.flatten) (below : log.current.length < limit)
    (chunks : List (List α)) :
    ∃ groups rest, Divided limit groups rest (opened ++ chunks) (closed limit bound log chunks)
      (run (write limit bound) log chunks).1.current := by
  induction chunks generalizing log opened with
  | nil =>
    refine ⟨[], opened, ?_, rfl, begun, ?_⟩
    · simp
    · simp
  | cons chunk chunks ih =>
    have hlimit : 0 < limit := by omega
    have hjoined : (opened ++ [chunk]).flatten = log.current ++ chunk := by
      rw [List.flatten_append, begun, List.flatten_singleton]
    rw [run_cons, closed_cons]
    by_cases full : limit ≤ (log.current ++ chunk).length
    · rw [write_closes full]
      obtain ⟨groups, rest, h⟩ := ih { kept := ((log.current ++ chunk) :: log.kept).take bound }
        (List.flatten_nil).symm hlimit
      refine ⟨(opened ++ [chunk]) :: groups, rest, ?_, ?_, h.current_eq, ?_⟩
      · have hchunks : chunks = groups.flatten ++ rest := h.chunks_eq
        rw [hchunks]
        simp
      · rw [List.map_cons, hjoined, ← h.segments_eq]
        rfl
      · intro g hg
        rcases List.mem_cons.mp hg with rfl | hg
        · refine ⟨opened, chunk, rfl, ?_, ?_⟩
          · rwa [← begun]
          · rwa [hjoined]
        · exact h.reached g hg
    · rw [write_appends full]
      obtain ⟨groups, rest, h⟩ := ih { log with current := log.current ++ chunk } hjoined.symm
        (Nat.not_le.mp full)
      refine ⟨groups, rest, ?_, h.segments_eq, h.current_eq, h.reached⟩
      rw [← h.chunks_eq, List.append_assoc, List.singleton_append]

/-! ## Runs from the empty log -/

theorem kept_of_run (chunks : List (List α)) : (run (write limit bound) {} chunks).1.kept =
    (closed limit bound {} chunks).reverse.take bound := by
  have hkept := @run_kept α limit bound {} (Nat.zero_le _) chunks
  rwa [List.append_nil] at hkept

theorem divided_of_run (positive : 0 < limit) (chunks : List (List α)) :
    ∃ groups rest, Divided limit groups rest chunks (closed limit bound {} chunks)
      (run (write limit bound) {} chunks).1.current := by
  have hrun := @run_divided α limit bound {} [] rfl positive chunks
  rwa [List.nil_append] at hrun

namespace Divided

variable {groups : List (List (List α))} {rest chunks segments : List (List α)} {current : List α}

/-- Nothing is lost or doubled by the division. -/
theorem content (h : Divided limit groups rest chunks segments current) :
    segments.flatten ++ current = chunks.flatten := by
  rw [h.chunks_eq, h.segments_eq, h.current_eq, List.flatten_append, List.flatten_flatten]

/-- The newest segments, read from the oldest of them to the current one, end what was written. -/
theorem newest_suffix (h : Divided limit groups rest chunks segments current) (n : Nat) :
    (segments.reverse.take n).reverse.flatten ++ current <:+ chunks.flatten := by
  have hnewest : (segments.reverse.take n).reverse <:+ segments := by
    rw [← List.reverse_prefix, List.reverse_reverse]
    exact List.take_prefix n _
  obtain ⟨older, holder⟩ := hnewest
  refine ⟨older.flatten, ?_⟩
  rw [← h.content, ← List.append_assoc, ← List.flatten_append, holder]

end Divided

/-! ## What is retained -/

/-- Of its chunks the log still has all behind the old ones: the kept segments are groups of
whole chunks that reached the limit, and nothing is gone before as many as the bound are kept. -/
structure Retains (limit bound : Nat) (log : SegmentedLog α) (old : List (List α))
    (groups : List (List (List α))) (last : List (List α)) : Prop where
  kept_eq : log.kept = (groups.map List.flatten).reverse
  current_eq : log.current = last.flatten
  reached : ∀ g ∈ groups, limit ≤ g.flatten.length
  gone : old = [] ∨ bound ≤ groups.length

section
variable {log : SegmentedLog α} {old last : List (List α)} {groups : List (List (List α))}

theorem retains_empty : Retains limit bound ({} : SegmentedLog α) [] [] [] :=
  ⟨rfl, rfl, by simp, .inl rfl⟩

/-- Chunks may come behind the current segment without closing it. -/
theorem retains_append (h : Retains limit bound log old groups last) (chunks : List (List α)) :
    Retains limit bound { log with current := log.current ++ chunks.flatten } old groups
      (last ++ chunks) where
  kept_eq := h.kept_eq
  current_eq := by
    rw [List.flatten_append, ← h.current_eq]
  reached := h.reached
  gone := h.gone

/-- Closing the current segment drops the oldest of those kept when there are too many. -/
theorem retains_close (h : Retains limit bound log old groups last)
    (full : limit ≤ log.current.length) : ∃ old' groups',
      old' ++ groups'.flatten = old ++ groups.flatten ++ last ∧
        Retains limit bound { kept := (log.current :: log.kept).take bound } old' groups' [] := by
  let dropped := (groups ++ [last]).length - bound
  refine ⟨old ++ ((groups ++ [last]).take dropped).flatten, (groups ++ [last]).drop dropped,
    ?_, ?_, rfl, ?_, ?_⟩
  · rw [List.append_assoc, ← List.flatten_append, List.take_append_drop, List.flatten_append,
      List.flatten_singleton, List.append_assoc]
  · have hall : log.current :: log.kept = ((groups ++ [last]).map List.flatten).reverse := by
      rw [List.map_append, List.reverse_append, ← h.kept_eq, h.current_eq]
      rfl
    rw [hall, List.take_reverse, List.length_map, List.map_drop]
  · intro g hg
    rcases List.mem_append.mp (List.mem_of_mem_drop hg) with hgroup | hlast
    · exact h.reached g hgroup
    · rw [List.mem_singleton.mp hlast, ← h.current_eq]
      exact full
  · rw [List.length_drop]
    have hgone := h.gone
    by_cases hnone : dropped = 0
    · rw [hnone, List.take_zero, List.flatten_nil, List.append_nil]
      refine hgone.imp_right fun hlong => ?_
      rw [List.length_append]
      omega
    · right
      omega

theorem retains_write (h : Retains limit bound log old groups last) (chunk : List α) :
    ∃ old' groups' last', old' ++ groups'.flatten ++ last' =
        old ++ groups.flatten ++ last ++ [chunk] ∧
      Retains limit bound (write limit bound log chunk).1 old' groups' last' := by
  have hmore := retains_append h [chunk]
  rw [List.flatten_singleton] at hmore
  by_cases full : limit ≤ (log.current ++ chunk).length
  · rw [write_closes full]
    obtain ⟨old', groups', hchunks, hretains⟩ := retains_close hmore full
    refine ⟨old', groups', [], ?_, hretains⟩
    rw [List.append_nil, hchunks, List.append_assoc _ last]
  · rw [write_appends full]
    exact ⟨old, groups, last ++ [chunk], (List.append_assoc _ _ _).symm, hmore⟩

end

end SegmentedLog
