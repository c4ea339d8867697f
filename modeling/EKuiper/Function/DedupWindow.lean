import EKuiper.Function.Dedup

/-!
# `dedup` as a window grows

A rule evaluates `deduplicate(r, col, all)` over the tuples its window holds so far, so the
window's history is a sequence of prefixes of one pair of parallel lists. This module reads
both modes of `dedup` along that sequence.

With `all` unset, `dedup` on the first `i + 1` tuples answers for the newest tuple alone: it
returns `r[i]` exactly when the key of `col[i]` occurs for the first time, and `nil`
otherwise (`dedup_prefix_false`), whatever the earlier tuples were. With `all` set, one more
tuple appends its `r` entry to the result exactly when its key is new, and leaves the result
as it was otherwise (`dedup_append_true`): the result of the whole window is maintained
tuple by tuple.
-/

namespace EKuiper

open Value

/-! ### Keys of a prefix and of an extension -/

theorem keyAt_take {col : List Value} {k j : Nat} (hj : j < k) :
    keyAt (col.take k) j = keyAt col j := by
  simp [keyAt, List.getElem?_take, hj]

theorem isFirstKey_take {col : List Value} {k i : Nat} (hi : i < k) :
    IsFirstKey (col.take k) i ↔ IsFirstKey col i := by
  simp only [IsFirstKey, keyAt_take hi]
  exact forall₂_congr fun j hj => by rw [keyAt_take (hj.trans hi)]

theorem keyAt_append {col : List Value} {j : Nat} (l : List Value) (hj : j < col.length) :
    keyAt (col ++ l) j = keyAt col j := by
  simp [keyAt, List.getElem?_append_left hj]

/-- A key occurs in `col` exactly when some position of `col` holds it. -/
theorem mem_map_sprintfV {col : List Value} {k : String} :
    k ∈ col.map sprintfV ↔ ∃ j < col.length, keyAt col j = k := by
  constructor
  · intro h
    obtain ⟨v, hv, rfl⟩ := List.mem_map.mp h
    obtain ⟨j, hj, rfl⟩ := List.getElem_of_mem hv
    exact ⟨j, hj, by simp [keyAt, hj]⟩
  · rintro ⟨j, hj, rfl⟩
    exact List.mem_map.mpr ⟨_, List.getElem_mem hj, by simp [keyAt, hj]⟩

/-- The first occurrences of a column one entry longer: those of `col`, and the new
position when its key is new. -/
theorem firstKeyIdx_append_singleton (col : List Value) (x : Value) :
    firstKeyIdx (col ++ [x]) =
      firstKeyIdx col ++ if x.sprintfV ∈ col.map sprintfV then [] else [col.length] := by
  have hlast : keyAt (col ++ [x]) col.length = x.sprintfV := by simp [keyAt]
  have hold : ∀ j < col.length, IsFirstKey (col ++ [x]) j ↔ IsFirstKey col j := fun j hj =>
    forall₂_congr fun i hi => by rw [keyAt_append _ (hi.trans hj), keyAt_append _ hj]
  have hnew : IsFirstKey (col ++ [x]) col.length ↔ x.sprintfV ∉ col.map sprintfV := by
    simp only [IsFirstKey, hlast, mem_map_sprintfV, not_exists, not_and]
    exact forall₂_congr fun j hj => by rw [keyAt_append _ hj]
  have hfilter : (List.range col.length).filter (fun j => decide (IsFirstKey (col ++ [x]) j)) =
      (List.range col.length).filter (fun j => decide (IsFirstKey col j)) :=
    List.filter_congr fun j hj => decide_eq_decide.mpr (hold j (List.mem_range.mp hj))
  rw [firstKeyIdx, firstKeyIdx, List.length_append, List.length_singleton, List.range_succ,
    List.filter_append, hfilter]
  by_cases h : x.sprintfV ∈ col.map sprintfV <;> simp [h, hnew]

/-! ### The two modes along the window -/

/-- `dedup` with `!all`, for `r` at least as long as `col`. -/
theorem dedup_false_eq_of_le {r col : List Value} (hr : col.length ≤ r.length) :
    dedup r col false =
      some (if 0 < col.length ∧ IsFirstKey col (col.length - 1)
        then r.getD (col.length - 1) .null else .null) := by
  obtain ⟨st, hrun, hinv⟩ := @dedupLoop_run_of_le r col false hr
  simp only [dedup, hrun, Option.map_some', Bool.not_false, if_true, hinv.result,
    keptIdx_false_length]
  split_ifs <;> rfl

/-- **`dedup` with `!all` reports whether the newest key is new.** On the first `i + 1`
tuples of a window, `dedup` with `all` unset returns `r[i]` when the key of `col[i]` occurs
there for the first time, and `nil` when an earlier tuple has it. -/
theorem dedup_prefix_false (r col : List Value) (hr : col.length ≤ r.length) {i : Nat}
    (hi : i < col.length) :
    dedup (r.take (i + 1)) (col.take (i + 1)) false =
      some (if IsFirstKey col i then r.getD i .null else .null) := by
  have hlen : (col.take (i + 1)).length = i + 1 := by simp; omega
  rw [dedup_false_eq_of_le (by simp; omega)]
  simp only [hlen, Nat.add_sub_cancel, isFirstKey_take (Nat.lt_succ_self i), Nat.succ_pos,
    true_and]
  simp [List.getElem?_take]

/-- On the window `"a", "b", "a"` the third key repeats the first, so `dedup` reports `nil`. -/
theorem dedup_prefix_false_aba :
    [Value.string "a", .string "b", .string "a"].length ≤
        [Value.string "a", .string "b", .string "a"].length ∧
      2 < [Value.string "a", .string "b", .string "a"].length ∧
      dedup ([Value.string "a", .string "b", .string "a"].take (2 + 1))
          ([Value.string "a", .string "b", .string "a"].take (2 + 1)) false =
        some (if IsFirstKey [Value.string "a", .string "b", .string "a"] 2
          then [Value.string "a", .string "b", .string "a"].getD 2 .null else .null) :=
  ⟨le_rfl, by decide, dedup_prefix_false _ _ le_rfl (by decide)⟩

/-- **`dedup` with `all` is maintained tuple by tuple.** For parallel `r` and `col`, one more
tuple `(y, x)` appends `y` to the result of `dedup` when the key of `x` is new in `col`, and
leaves the result unchanged otherwise. -/
theorem dedup_append_true (r col : List Value) (hr : r.length = col.length) (y x : Value) :
    ∃ out, dedup r col true = some (.array out) ∧
      dedup (r ++ [y]) (col ++ [x]) true =
        some (.array (if x.sprintfV ∈ col.map sprintfV then out else out ++ [y])) := by
  refine ⟨_, dedup_all_eq hr.ge, ?_⟩
  rw [dedup_all_eq (by simp [hr]), firstKeyIdx_append_singleton]
  have hold : ∀ i ∈ firstKeyIdx col, (r ++ [y]).getD i .null = r.getD i .null := fun i hi => by
    have := (mem_firstKeyIdx.mp hi).1
    simp [List.getElem?_append_left (hr ▸ this : i < r.length)]
  rw [List.map_append, List.map_congr_left hold]
  by_cases h : x.sprintfV ∈ col.map sprintfV <;> simp [h, ← hr]

/-- The tuple `(2, "a")` joins a window holding `(1, "a")`: its key is not new. -/
theorem dedup_append_true_repeat :
    [Value.int 1].length = [Value.string "a"].length ∧
      ∃ out, dedup [.int 1] [.string "a"] true = some (.array out) ∧
        dedup ([.int 1] ++ [.int 2]) ([.string "a"] ++ [.string "a"]) true =
          some (.array (if (Value.string "a").sprintfV ∈ [Value.string "a"].map sprintfV
            then out else out ++ [.int 2])) :=
  ⟨rfl, dedup_append_true [.int 1] [.string "a"] rfl (.int 2) (.string "a")⟩

end EKuiper
