import EKuiper.Function.AggCall

/-!
# When an aggregate succeeds

On a group with a non-nil entry, the ok flag of `avg` and `sum` is set exactly when the
non-nil entries are all `int` or all `float64`, and that of `max` and `min` when they are all
`int`, all `float64` or all `string`. The first non-nil entry picks the branch, and the
branch's helper then checks every other entry, so the flag depends only on the set of types
present; in particular a group that mixes two types fails in every order.

An `int64` entry fails every one of these functions: the `case int, int64` branches of
`avg` and `sum` and the `case int64` branches of `max` and `min` pass the group to helpers
that assert `int` (`int64_entry_fails`).
-/

namespace EKuiper

open Value

variable {l : List Value}

/-- The ok flag of `avg` on a group with a non-nil entry. -/
theorem aggAvg_ok (hne : nonNull l ≠ []) :
    (aggAvg l).2 = ((nonNull l).all isInt || (nonNull l).all isFloat64) := by
  obtain ⟨v, rest, hvr, -, hv⟩ := exists_first_nonNull hne
  have hc : getCount l > 0 := by simp [getCount_eq, hvr]
  have hI : (sliceIntTotal l).isOk = (nonNull l).all isInt := sliceLoop_isOk _ _ _ rfl _ _
  have hF : (sliceFloatTotal l).isOk = (nonNull l).all isFloat64 := sliceLoop_isOk _ _ _ rfl _ _
  simp only [aggAvg, if_pos hc, getFirstValidArg_of_nonNull hvr]
  cases v <;> simp_all [invalidArg, isNull]

/-- The ok flag of `sum` on a group with a non-nil entry. -/
theorem aggSum_ok (hne : nonNull l ≠ []) :
    (aggSum l).2 = ((nonNull l).all isInt || (nonNull l).all isFloat64) := by
  obtain ⟨v, rest, hvr, -, hv⟩ := exists_first_nonNull hne
  have hI : (sliceIntTotal l).isOk = (nonNull l).all isInt := sliceLoop_isOk _ _ _ rfl _ _
  have hF : (sliceFloatTotal l).isOk = (nonNull l).all isFloat64 := sliceLoop_isOk _ _ _ rfl _ _
  simp only [aggSum, if_pos (length_pos_of_nonNull hne), getFirstValidArg_of_nonNull hvr]
  cases v <;> simp_all [invalidArg, isNull]

/-- The ok flag of the `max`/`min` case on a group with a non-nil entry, for helpers that
succeed exactly on groups of their own type. -/
theorem aggExtremum_ok (fn : String)
    (sliceInt : List Value → BitVec 64 → Except String (BitVec 64))
    (sliceFloat : List Value → Float → Except String Float)
    (sliceString : List Value → String → Except String String)
    (hInt : ∀ t, (sliceInt l t).isOk = (nonNull l).all isInt)
    (hFloat : ∀ t, (sliceFloat l t).isOk = (nonNull l).all isFloat64)
    (hString : ∀ t, (sliceString l t).isOk = (nonNull l).all isString) (hne : nonNull l ≠ []) :
    (aggExtremum fn sliceInt sliceFloat sliceString l).2 =
      ((nonNull l).all isInt || (nonNull l).all isFloat64 || (nonNull l).all isString) := by
  obtain ⟨v, rest, hvr, -, hv⟩ := exists_first_nonNull hne
  simp only [aggExtremum, if_pos (length_pos_of_nonNull hne), getFirstValidArg_of_nonNull hvr]
  cases v <;> simp_all [invalidArg, isNull]

/-- The ok flag of `max` on a group with a non-nil entry. -/
theorem aggMax_ok (hne : nonNull l ≠ []) :
    (aggMax l).2 =
      ((nonNull l).all isInt || (nonNull l).all isFloat64 || (nonNull l).all isString) :=
  aggExtremum_ok _ _ _ _ (fun _ => sliceLoop_isOk _ _ _ rfl _ _)
    (fun _ => sliceLoop_isOk _ _ _ rfl _ _) (fun _ => sliceLoop_isOk _ _ _ rfl _ _) hne

/-- The ok flag of `min` on a group with a non-nil entry. -/
theorem aggMin_ok (hne : nonNull l ≠ []) :
    (aggMin l).2 =
      ((nonNull l).all isInt || (nonNull l).all isFloat64 || (nonNull l).all isString) :=
  aggExtremum_ok _ _ _ _ (fun _ => sliceLoop_isOk _ _ _ rfl _ _)
    (fun _ => sliceLoop_isOk _ _ _ rfl _ _) (fun _ => sliceLoop_isOk _ _ _ rfl _ _) hne

/-- **When an aggregate succeeds.** On a group with a non-nil entry, `sum` and `avg` succeed
exactly when the non-nil entries are all `int` or all `float64`, and `max` and `min` exactly
when they are all `int`, all `float64` or all `string`. -/
theorem aggCall_flag (l : List Value) (hne : nonNull l ≠ []) :
    (aggCall "sum" [.array l]).map Prod.snd =
        some ((nonNull l).all isInt || (nonNull l).all isFloat64) ∧
      (aggCall "avg" [.array l]).map Prod.snd =
        some ((nonNull l).all isInt || (nonNull l).all isFloat64) ∧
      (aggCall "max" [.array l]).map Prod.snd =
        some ((nonNull l).all isInt || (nonNull l).all isFloat64 || (nonNull l).all isString) ∧
      (aggCall "min" [.array l]).map Prod.snd =
        some ((nonNull l).all isInt || (nonNull l).all isFloat64 || (nonNull l).all isString) := by
  simp only [aggCall_sum, aggCall_avg, aggCall_max, aggCall_min, Option.map_some', aggSum_ok hne,
    aggAvg_ok hne, aggMax_ok hne, aggMin_ok hne, and_self]

/-- A group of an `int` and a string fails all four. -/
theorem aggCall_flag_mixed :
    nonNull [.int 1, .string "a"] ≠ [] ∧
      (aggCall "sum" [.array [.int 1, .string "a"]]).map Prod.snd =
          some ((nonNull [.int 1, .string "a"]).all isInt ||
            (nonNull [.int 1, .string "a"]).all isFloat64) ∧
        (aggCall "avg" [.array [.int 1, .string "a"]]).map Prod.snd =
          some ((nonNull [.int 1, .string "a"]).all isInt ||
            (nonNull [.int 1, .string "a"]).all isFloat64) ∧
        (aggCall "max" [.array [.int 1, .string "a"]]).map Prod.snd =
          some ((nonNull [.int 1, .string "a"]).all isInt ||
            (nonNull [.int 1, .string "a"]).all isFloat64 ||
            (nonNull [.int 1, .string "a"]).all isString) ∧
        (aggCall "min" [.array [.int 1, .string "a"]]).map Prod.snd =
          some ((nonNull [.int 1, .string "a"]).all isInt ||
            (nonNull [.int 1, .string "a"]).all isFloat64 ||
            (nonNull [.int 1, .string "a"]).all isString) := by
  have hne : nonNull [.int 1, .string "a"] ≠ [] := by simp [nonNull, isNull]
  exact ⟨hne, aggCall_flag _ hne⟩

/-- A group holding an `int64` entry fails `avg`, `sum`, `max` and `min`. -/
theorem int64_entry_fails {i : BitVec 64} (h : Value.int64 i ∈ l) :
    (aggAvg l).2 = false ∧ (aggSum l).2 = false ∧ (aggMax l).2 = false ∧ (aggMin l).2 = false := by
  have hmem : Value.int64 i ∈ nonNull l := mem_nonNull.mpr ⟨h, rfl⟩
  have hne : nonNull l ≠ [] := List.ne_nil_of_mem hmem
  have hall : ∀ p : Value → Bool, p (.int64 i) = false → (nonNull l).all p = false :=
    fun p hp => List.all_eq_false.mpr ⟨_, hmem, by simp [hp]⟩
  simp [aggAvg_ok hne, aggSum_ok hne, aggMax_ok hne, aggMin_ok hne, hall]

/-- A group of one `int64` makes `max` and `sum` fail on the `int` assertion. -/
theorem aggCall_int64_group :
    aggCall "max" [.array [.int64 5]] = some (.error "requires int but found int64(5)", false) ∧
      aggCall "sum" [.array [.int64 5]] = some (.error "requires int but found int64(5)", false) :=
  ⟨rfl, rfl⟩

end EKuiper
