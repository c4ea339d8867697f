import EKuiper.Function.AggCall
import Mathlib.Order.Lattice

/-!
# `max` and `min`

On a group whose non-nil entries are all `int`, `max` returns an entry of greatest value and
`min` one of least value, in the signed order of Go's `int`; on a group of strings, `max`
returns a greatest string. All of them are `sliceLoop` runs whose update moves the
accumulator to a strictly better entry, seeded with the group's first entry, and
`sliceLoop_argmax` says once what such a run returns.

`min` on a group of strings returns a greatest string too: `sliceStringMin` moves to `vs`
when `min < vs`, so on such a group `min` is `max` (`aggMin_eq_aggMax_of_string`).
-/

namespace EKuiper

open Value

theorem mem_filterMap_asInt {l : List Value} {x : BitVec 64} :
    x ∈ l.filterMap asInt ↔ Value.int x ∈ l := by
  refine ⟨fun h => ?_, fun h => List.mem_filterMap.mpr ⟨_, h, rfl⟩⟩
  obtain ⟨a, ha, hax⟩ := List.mem_filterMap.mp h
  cases a <;> simp_all

theorem mem_filterMap_asString {l : List Value} {x : String} :
    x ∈ l.filterMap asString ↔ Value.string x ∈ l := by
  refine ⟨fun h => ?_, fun h => List.mem_filterMap.mpr ⟨_, h, rfl⟩⟩
  obtain ⟨a, ha, hax⟩ := List.mem_filterMap.mp h
  cases a <;> simp_all

/-- **Running maximum of a group.** A `slice*` loop whose update moves to an entry of strictly
higher rank, seeded with one of the group's own entries, returns an entry of maximal rank. -/
theorem sliceLoop_argmax {α β : Type} [LinearOrder β] (ty : String) (cast : Value → Option α)
    (step : α → α → α) (ρ : α → β) (hnull : cast .null = none)
    (hstep : ∀ m x, step m x = if ρ m < ρ x then x else m) {l : List Value}
    (hall : ∀ v ∈ nonNull l, (cast v).isSome) {t : α} (ht : t ∈ l.filterMap cast) :
    ∃ m, sliceLoop ty cast step t l = .ok m ∧ m ∈ l.filterMap cast ∧
      ∀ x ∈ l.filterMap cast, ρ x ≤ ρ m := by
  obtain ⟨hmem, hle⟩ := foldl_argmax ρ step hstep t (l.filterMap cast)
  refine ⟨_, sliceLoop_eq_ok ty cast step hnull t l hall, ?_,
    fun x hx => hle x (List.mem_cons_of_mem t hx)⟩
  rcases List.mem_cons.mp hmem with h | h
  · rw [h]
    exact ht
  · exact h

section Family

variable {l : List Value} {fn : String}
  {sliceInt : List Value → BitVec 64 → Except String (BitVec 64)}
  {sliceFloat : List Value → Float → Except String Float}
  {sliceString : List Value → String → Except String String}

/-- On an `int` group the `max`/`min` case runs its `int` helper from the first entry. -/
theorem aggExtremum_int (hne : nonNull l ≠ []) (hall : (nonNull l).all isInt) :
    ∃ t, Value.int t ∈ l ∧
      aggExtremum fn sliceInt sliceFloat sliceString l = ret .int (sliceInt l t) := by
  obtain ⟨v, rest, hvr, hv, -⟩ := exists_first_nonNull hne
  have hi : v.isInt := List.all_eq_true.mp hall v (hvr ▸ List.mem_cons_self v rest)
  cases v <;> simp only [isInt, asInt, Option.isSome_none, Bool.false_eq_true] at hi
  refine ⟨_, hv, ?_⟩
  simp only [aggExtremum, if_pos (length_pos_of_nonNull hne), getFirstValidArg_of_nonNull hvr]

/-- A `string` group's first non-nil entry is a string. -/
theorem getFirstValidArg_string (hne : nonNull l ≠ []) (hall : (nonNull l).all isString) :
    ∃ t, getFirstValidArg l = .string t ∧ Value.string t ∈ l := by
  obtain ⟨v, rest, hvr, hv, -⟩ := exists_first_nonNull hne
  have hs : v.isString := List.all_eq_true.mp hall v (hvr ▸ List.mem_cons_self v rest)
  cases v <;> simp only [isString, asString, Option.isSome_none, Bool.false_eq_true] at hs
  exact ⟨_, getFirstValidArg_of_nonNull hvr, hv⟩

/-- On a `string` group the `max`/`min` case runs its `string` helper from the first entry. -/
theorem aggExtremum_string (hne : nonNull l ≠ []) (hall : (nonNull l).all isString) :
    ∃ t, Value.string t ∈ l ∧
      aggExtremum fn sliceInt sliceFloat sliceString l = ret .string (sliceString l t) := by
  obtain ⟨t, ht, hmem⟩ := getFirstValidArg_string hne hall
  refine ⟨t, hmem, ?_⟩
  simp only [aggExtremum, if_pos (length_pos_of_nonNull hne), ht]

end Family

variable {l : List Value}

theorem all_isSome_of_all {p : Value → Bool} {cast : Value → Option α}
    (hp : ∀ v, p v = (cast v).isSome) (hall : (nonNull l).all p) :
    ∀ v ∈ nonNull l, (cast v).isSome :=
  fun v hv => hp v ▸ List.all_eq_true.mp hall v hv

/-- **`max` of integers.** On a group whose non-nil entries are all `int`, `max` returns one
of them, and no entry is greater. -/
theorem aggMax_int (hne : nonNull l ≠ []) (hall : (nonNull l).all isInt) :
    ∃ m, aggMax l = (.int m, true) ∧ Value.int m ∈ l ∧
      ∀ x, Value.int x ∈ l → x.toInt ≤ m.toInt := by
  obtain ⟨t, ht, heq⟩ := @aggExtremum_int l "max" sliceIntMax sliceFloatMax sliceStringMax hne hall
  obtain ⟨m, hm, hmem, hle⟩ := sliceLoop_argmax "int" asInt
    (fun max vi => if max.slt vi then vi else max) BitVec.toInt rfl
    (fun _ _ => by simp [BitVec.slt]) (all_isSome_of_all (fun _ => rfl) hall)
    (mem_filterMap_asInt.mpr ht)
  refine ⟨m, ?_, mem_filterMap_asInt.mp hmem, fun x hx => hle x (mem_filterMap_asInt.mpr hx)⟩
  rw [aggMax, heq, sliceIntMax, hm, ret_ok]

/-- **`min` of integers.** On a group whose non-nil entries are all `int`, `min` returns one
of them, and no entry is smaller. -/
theorem aggMin_int (hne : nonNull l ≠ []) (hall : (nonNull l).all isInt) :
    ∃ m, aggMin l = (.int m, true) ∧ Value.int m ∈ l ∧
      ∀ x, Value.int x ∈ l → m.toInt ≤ x.toInt := by
  obtain ⟨t, ht, heq⟩ := @aggExtremum_int l "min" sliceIntMin sliceFloatMin sliceStringMin hne hall
  obtain ⟨m, hm, hmem, hle⟩ := sliceLoop_argmax "int" asInt
    (fun min vi => if vi.slt min then vi else min) (fun x => OrderDual.toDual x.toInt) rfl
    (fun _ _ => by simp [BitVec.slt]) (all_isSome_of_all (fun _ => rfl) hall)
    (mem_filterMap_asInt.mpr ht)
  refine ⟨m, ?_, mem_filterMap_asInt.mp hmem,
    fun x hx => OrderDual.toDual_le_toDual.mp (hle x (mem_filterMap_asInt.mpr hx))⟩
  rw [aggMin, heq, sliceIntMin, hm, ret_ok]

/-- **`max` of strings.** On a group whose non-nil entries are all `string`, `max` returns
one of them, and no entry is greater. -/
theorem aggMax_string (hne : nonNull l ≠ []) (hall : (nonNull l).all isString) :
    ∃ m, aggMax l = (.string m, true) ∧ Value.string m ∈ l ∧
      ∀ x, Value.string x ∈ l → x ≤ m := by
  obtain ⟨t, ht, heq⟩ :=
    @aggExtremum_string l "max" sliceIntMax sliceFloatMax sliceStringMax hne hall
  obtain ⟨m, hm, hmem, hle⟩ := sliceLoop_argmax "string" asString
    (fun max vs => if max < vs then vs else max) id rfl (fun _ _ => by simp only [id]; split_ifs <;> rfl)
    (all_isSome_of_all (fun _ => rfl) hall) (mem_filterMap_asString.mpr ht)
  refine ⟨m, ?_, mem_filterMap_asString.mp hmem,
    fun x hx => hle x (mem_filterMap_asString.mpr hx)⟩
  rw [aggMax, heq, sliceStringMax, hm, ret_ok]

/-- **`min` of strings is `max`.** `sliceStringMin` runs the update of `sliceStringMax`
(`sliceStringMin_eq_sliceStringMax`), so on a group whose first non-nil entry is a string,
`min` returns whatever `max` returns. -/
theorem aggMin_eq_aggMax_of_string {t : String} (h : getFirstValidArg l = .string t) :
    aggMin l = aggMax l := by
  have hl : l.length > 0 := by
    cases l with
    | nil => simp [getFirstValidArg] at h
    | cons _ _ => exact Nat.succ_pos _
  simp only [aggMin, aggMax, aggExtremum, if_pos hl, h, sliceStringMin_eq_sliceStringMax]

/-- **`min` of strings returns a greatest string.** On a group whose non-nil entries are all
`string`, `min` returns one of them, and no entry is greater. -/
theorem aggMin_string (hne : nonNull l ≠ []) (hall : (nonNull l).all isString) :
    ∃ m, aggMin l = (.string m, true) ∧ Value.string m ∈ l ∧
      ∀ x, Value.string x ∈ l → x ≤ m := by
  obtain ⟨t, ht, -⟩ := getFirstValidArg_string hne hall
  rw [aggMin_eq_aggMax_of_string ht]
  exact aggMax_string hne hall

/-- **`max` and `min` of integers.** On a group whose non-nil entries are all `int`, with at
least one, `max` returns an entry that no entry exceeds and `min` one that exceeds no entry,
in the signed order of Go's `int`. -/
theorem aggCall_extrema_ints (l : List Value) (hne : nonNull l ≠ []) (hall : (nonNull l).all isInt) :
    (∃ m, aggCall "max" [.array l] = some (.int m, true) ∧ Value.int m ∈ l ∧
        ∀ x, Value.int x ∈ l → x.toInt ≤ m.toInt) ∧
      ∃ m, aggCall "min" [.array l] = some (.int m, true) ∧ Value.int m ∈ l ∧
        ∀ x, Value.int x ∈ l → m.toInt ≤ x.toInt := by
  obtain ⟨hi, hhi, hhimem, hhile⟩ := aggMax_int hne hall
  obtain ⟨lo, hlo, hlomem, hlole⟩ := aggMin_int hne hall
  exact ⟨⟨hi, by rw [aggCall_max, hhi], hhimem, hhile⟩, lo, by rw [aggCall_min, hlo], hlomem, hlole⟩

/-- The group `3, nil, -1`. -/
theorem aggCall_extrema_ints_small :
    nonNull [.int 3, .null, .int (-1)] ≠ [] ∧ (nonNull [.int 3, .null, .int (-1)]).all isInt ∧
      (∃ m, aggCall "max" [.array [.int 3, .null, .int (-1)]] = some (.int m, true) ∧
          Value.int m ∈ [Value.int 3, .null, .int (-1)] ∧
          ∀ x, Value.int x ∈ [Value.int 3, .null, .int (-1)] → x.toInt ≤ m.toInt) ∧
        ∃ m, aggCall "min" [.array [.int 3, .null, .int (-1)]] = some (.int m, true) ∧
          Value.int m ∈ [Value.int 3, .null, .int (-1)] ∧
          ∀ x, Value.int x ∈ [Value.int 3, .null, .int (-1)] → m.toInt ≤ x.toInt := by
  have hne : nonNull [.int 3, .null, .int (-1)] ≠ [] := by simp [nonNull, isNull]
  have hall : (nonNull [.int 3, .null, .int (-1)]).all isInt := rfl
  exact ⟨hne, hall, aggCall_extrema_ints _ hne hall⟩

/-- **`max` of strings.** On a group whose non-nil entries are all strings, with at least one,
`max` returns an entry that no entry exceeds in Go's byte-wise string order. -/
theorem aggCall_max_strings (l : List Value) (hne : nonNull l ≠ []) (hall : (nonNull l).all isString) :
    ∃ m, aggCall "max" [.array l] = some (.string m, true) ∧ Value.string m ∈ l ∧
      ∀ x, Value.string x ∈ l → x ≤ m := by
  obtain ⟨m, hm, hmem, hle⟩ := aggMax_string hne hall
  exact ⟨m, by rw [aggCall_max, hm], hmem, hle⟩

/-- The group `"b", nil, "a"`. -/
theorem aggCall_max_strings_ba :
    nonNull [.string "b", .null, .string "a"] ≠ [] ∧
      (nonNull [.string "b", .null, .string "a"]).all isString ∧
      ∃ m, aggCall "max" [.array [.string "b", .null, .string "a"]] = some (.string m, true) ∧
        Value.string m ∈ [Value.string "b", .null, .string "a"] ∧
        ∀ x, Value.string x ∈ [Value.string "b", .null, .string "a"] → x ≤ m := by
  have hne : nonNull [.string "b", .null, .string "a"] ≠ [] := by simp [nonNull, isNull]
  have hall : (nonNull [.string "b", .null, .string "a"]).all isString := rfl
  exact ⟨hne, hall, aggCall_max_strings _ hne hall⟩

/-- `min` of the strings `"a"` and `"b"` is `"b"`, which is not below `"a"`. -/
theorem aggCall_min_strings :
    aggCall "min" [.array [.string "a", .string "b"]] = some (.string "b", true) ∧
      ¬("b" ≤ "a") := by
  have hab : "a" < "b" := by rw [String.lt_iff_toList_lt]; decide
  refine ⟨?_, not_le.mpr hab⟩
  simp [aggMin, aggExtremum, getFirstValidArg, isNull, sliceStringMin, sliceLoop, hab]

end EKuiper
