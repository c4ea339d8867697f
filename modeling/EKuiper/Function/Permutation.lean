import EKuiper.Function.Flag
import EKuiper.Function.Total

/-!
# Aggregates do not depend on the order of a group or on its nils

Two groups with the same non-nil entries up to order, each with at least one, give the same
ok flag under `count`, `sum`, `avg`, `max` and `min`; on `int` groups they give the same
value under all five; on `string` groups they give the same value under `count`, `max` and
`min`.

Under `sum` and `avg` a `string` group fails, and the error names the group's first non-nil
entry (`aggSum_aggAvg_string`), so its text follows the order.

The argument is the one the code suggests: every helper reads a group only through its
non-nil entries (`getCount_eq`, `getFirstValidArg_eq`, `sliceLoop_eq`); the flags depend
only on which types occur (`Flag.lean`); the 64-bit sum is a fold of a commutative,
associative addition; and a maximum or minimum is determined by the set of entries.
-/

namespace EKuiper

open Value

variable {l l' : List Value}

theorem all_eq_of_perm {L L' : List Value} (hp : L.Perm L') (p : Value → Bool) :
    L.all p = L'.all p := by
  rw [Bool.eq_iff_iff, List.all_eq_true, List.all_eq_true]
  exact ⟨fun h v hv => h v (hp.mem_iff.mpr hv), fun h v hv => h v (hp.mem_iff.mp hv)⟩

/-- A non-nil entry of one group is an entry of any group with the same non-nil entries. -/
theorem mem_iff_of_perm (hp : (nonNull l).Perm (nonNull l')) {v : Value}
    (hv : v.isNull = false) : v ∈ l ↔ v ∈ l' := by
  exact ⟨fun h => (mem_nonNull.mp (hp.subset (mem_nonNull.mpr ⟨h, hv⟩))).1,
    fun h => (mem_nonNull.mp (hp.symm.subset (mem_nonNull.mpr ⟨h, hv⟩))).1⟩

/-- The 64-bit sums of the `int` entries of the two groups agree. -/
theorem foldl_add_perm (hp : (nonNull l).Perm (nonNull l')) :
    (l.filterMap asInt).foldl (· + ·) 0 = (l'.filterMap asInt).foldl (· + ·) 0 := by
  rw [← filterMap_nonNull asInt rfl l, ← filterMap_nonNull asInt rfl l']
  exact (hp.filterMap asInt).foldl_eq' (fun _ _ _ _ _ => add_right_comm _ _ _) 0

/-- On a group of strings `sum` and `avg` fail, naming the group's first non-nil entry. -/
theorem aggSum_aggAvg_string (hne : nonNull l ≠ []) (hS : (nonNull l).all isString) :
    aggSum l = invalidArg "sum" (getFirstValidArg l) ∧
      aggAvg l = invalidArg "avg" (getFirstValidArg l) := by
  obtain ⟨v, rest, hvr, -⟩ := exists_first_nonNull hne
  have hs : v.isString := List.all_eq_true.mp hS v (hvr ▸ List.mem_cons_self v rest)
  have hc : getCount l > 0 := by simp [getCount_eq, hvr]
  cases v <;> simp only [isString, asString, Option.isSome_none, Bool.false_eq_true] at hs
  simp only [aggSum, aggAvg, if_pos (length_pos_of_nonNull hne), if_pos hc,
    getFirstValidArg_of_nonNull hvr, and_self]

/-- **Order and nil independence of the aggregates.** Two groups with the same non-nil
entries up to order give the same ok flag, and the same value on `int` groups. On `string`
groups `count`, `max` and `min` give the same value, while `sum` and `avg` fail with the error
naming each group's own first non-nil entry. -/
theorem aggCall_perm (name : String) (hname : name ∈ ["count", "sum", "avg", "max", "min"])
    (l l' : List Value) (hne : nonNull l ≠ []) (hne' : nonNull l' ≠ [])
    (hp : (nonNull l).Perm (nonNull l')) :
    (aggCall name [.array l]).map Prod.snd = (aggCall name [.array l']).map Prod.snd ∧
      ((nonNull l).all isInt → aggCall name [.array l] = aggCall name [.array l']) ∧
      ((nonNull l).all isString → name ≠ "sum" → name ≠ "avg" →
        aggCall name [.array l] = aggCall name [.array l']) ∧
      ((nonNull l).all isString → name = "sum" ∨ name = "avg" →
        aggCall name [.array l] = some (invalidArg name (getFirstValidArg l)) ∧
          aggCall name [.array l'] = some (invalidArg name (getFirstValidArg l'))) := by
  have hall := all_eq_of_perm hp
  have hcount : getCount l = getCount l' := by rw [getCount_eq, getCount_eq, hp.length_eq]
  have hiffI : ∀ x, Value.int x ∈ l ↔ Value.int x ∈ l' := fun x => mem_iff_of_perm hp rfl
  have hiffS : ∀ x, Value.string x ∈ l ↔ Value.string x ∈ l' := fun x => mem_iff_of_perm hp rfl
  simp only [List.mem_cons, List.mem_singleton, List.not_mem_nil, or_false] at hname
  rcases hname with rfl | rfl | rfl | rfl | rfl
  · exact ⟨by simp, by simp [hcount], fun _ _ _ => by simp [hcount], fun _ h => by simp at h⟩
  · refine ⟨by simp [aggSum_ok hne, aggSum_ok hne', hall], fun hI => ?_, fun _ h => absurd rfl h,
      fun hS _ => ?_⟩
    · rw [aggCall_sum, aggCall_sum, (aggSum_aggAvg_int hne hI).1,
        (aggSum_aggAvg_int hne' (hall isInt ▸ hI)).1, foldl_add_perm hp]
    · rw [aggCall_sum, aggCall_sum, (aggSum_aggAvg_string hne hS).1,
        (aggSum_aggAvg_string hne' (hall isString ▸ hS)).1]
      exact ⟨rfl, rfl⟩
  · refine ⟨by simp [aggAvg_ok hne, aggAvg_ok hne', hall], fun hI => ?_,
      fun _ _ h => absurd rfl h, fun hS _ => ?_⟩
    · rw [aggCall_avg, aggCall_avg, (aggSum_aggAvg_int hne hI).2,
        (aggSum_aggAvg_int hne' (hall isInt ▸ hI)).2, foldl_add_perm hp, hcount]
    · rw [aggCall_avg, aggCall_avg, (aggSum_aggAvg_string hne hS).2,
        (aggSum_aggAvg_string hne' (hall isString ▸ hS)).2]
      exact ⟨rfl, rfl⟩
  · refine ⟨by simp [aggMax_ok hne, aggMax_ok hne', hall], fun hI => ?_, fun hS _ _ => ?_,
      fun _ h => by simp at h⟩
    · obtain ⟨m, hm, hmem, hle⟩ := aggMax_int hne hI
      obtain ⟨m', hm', hmem', hle'⟩ := aggMax_int hne' (hall isInt ▸ hI)
      have : m = m' := BitVec.eq_of_toInt_eq
        (le_antisymm (hle' m ((hiffI m).mp hmem)) (hle m' ((hiffI m').mpr hmem')))
      rw [aggCall_max, aggCall_max, hm, hm', this]
    · obtain ⟨m, hm, hmem, hle⟩ := aggMax_string hne hS
      obtain ⟨m', hm', hmem', hle'⟩ := aggMax_string hne' (hall isString ▸ hS)
      have : m = m' := le_antisymm (hle' m ((hiffS m).mp hmem)) (hle m' ((hiffS m').mpr hmem'))
      rw [aggCall_max, aggCall_max, hm, hm', this]
  · refine ⟨by simp [aggMin_ok hne, aggMin_ok hne', hall], fun hI => ?_, fun hS _ _ => ?_,
      fun _ h => by simp at h⟩
    · obtain ⟨m, hm, hmem, hle⟩ := aggMin_int hne hI
      obtain ⟨m', hm', hmem', hle'⟩ := aggMin_int hne' (hall isInt ▸ hI)
      have : m = m' := BitVec.eq_of_toInt_eq
        (le_antisymm (hle m' ((hiffI m').mpr hmem')) (hle' m ((hiffI m).mp hmem)))
      rw [aggCall_min, aggCall_min, hm, hm', this]
    · obtain ⟨m, hm, hmem, hle⟩ := aggMin_string hne hS
      obtain ⟨m', hm', hmem', hle'⟩ := aggMin_string hne' (hall isString ▸ hS)
      have : m = m' := le_antisymm (hle' m ((hiffS m).mp hmem)) (hle m' ((hiffS m').mpr hmem'))
      rw [aggCall_min, aggCall_min, hm, hm', this]

/-- Two orders of the group `1, 2`, one with a nil, under `max`. -/
theorem aggCall_perm_max_ints :
    "max" ∈ ["count", "sum", "avg", "max", "min"] ∧ nonNull [.int 1, .null, .int 2] ≠ [] ∧
      nonNull [.int 2, .int 1] ≠ [] ∧
      (nonNull [.int 1, .null, .int 2]).Perm (nonNull [.int 2, .int 1]) ∧
      ((aggCall "max" [.array [.int 1, .null, .int 2]]).map Prod.snd =
          (aggCall "max" [.array [.int 2, .int 1]]).map Prod.snd ∧
        ((nonNull [.int 1, .null, .int 2]).all isInt →
          aggCall "max" [.array [.int 1, .null, .int 2]] =
            aggCall "max" [.array [.int 2, .int 1]]) ∧
        ((nonNull [.int 1, .null, .int 2]).all isString → "max" ≠ "sum" → "max" ≠ "avg" →
          aggCall "max" [.array [.int 1, .null, .int 2]] =
            aggCall "max" [.array [.int 2, .int 1]]) ∧
        ((nonNull [.int 1, .null, .int 2]).all isString → "max" = "sum" ∨ "max" = "avg" →
          aggCall "max" [.array [.int 1, .null, .int 2]] =
              some (invalidArg "max" (getFirstValidArg [.int 1, .null, .int 2])) ∧
            aggCall "max" [.array [.int 2, .int 1]] =
              some (invalidArg "max" (getFirstValidArg [.int 2, .int 1])))) := by
  have hmem : "max" ∈ ["count", "sum", "avg", "max", "min"] := by simp
  have hne : nonNull [.int 1, .null, .int 2] ≠ [] := by simp [nonNull, isNull]
  have hne' : nonNull [.int 2, .int 1] ≠ [] := by simp [nonNull, isNull]
  have hp : (nonNull [.int 1, .null, .int 2]).Perm (nonNull [.int 2, .int 1]) :=
    List.Perm.swap (Value.int 2) (Value.int 1) []
  exact ⟨hmem, hne, hne', hp, aggCall_perm "max" hmem _ _ hne hne' hp⟩

/-- `sum` over the strings `"a"`, `"b"` fails naming `"a"`, and over `"b"`, `"a"` naming
`"b"`. -/
theorem aggCall_sum_strings_order :
    [Value.string "a", .string "b"].Perm [.string "b", .string "a"] ∧
      aggCall "sum" [.array [.string "a", .string "b"]] =
        some (.error "run sum function error: found invalid arg string(a)", false) ∧
      aggCall "sum" [.array [.string "b", .string "a"]] =
        some (.error "run sum function error: found invalid arg string(b)", false) :=
  ⟨List.Perm.swap _ _ _, rfl, rfl⟩

end EKuiper
