import EKuiper.Function.Total

/-!
# Aggregating a group from its parts

A group that is cut in two, as a window is cut into panes, can be aggregated from the parts:
on `int` groups, `sum` of the whole is the 64-bit sum of the parts' sums, `count` the sum of
their counts, and `avg` the first over the second; `max` of the whole is the parts' maxima
combined by `sliceIntMax`'s own update, and likewise `min` by `sliceIntMin`'s.

The extremum case rests on one fact about the update of a running maximum: it moves to the
candidate of strictly higher rank, and when the rank is injective that update is
associative (`step_assoc`), as it is for `int` words under their signed value. A loop that
runs over the second part from the first part's result therefore ends where the update of
the two parts' results does (`foldl_append_seed`).
-/

namespace EKuiper

open Value

/-! ### The update of a running maximum -/

section Update

variable {α β : Type} [LinearOrder β] {ρ : α → β} {step : α → α → α}

theorem rank_step (hstep : ∀ m x, step m x = if ρ m < ρ x then x else m) (m x : α) :
    ρ (step m x) = max (ρ m) (ρ x) := by
  rw [hstep]
  split_ifs with h
  · exact (max_eq_right h.le).symm
  · exact (max_eq_left (not_lt.mp h)).symm

/-- With an injective rank the update is associative. -/
theorem step_assoc (hρ : Function.Injective ρ)
    (hstep : ∀ m x, step m x = if ρ m < ρ x then x else m) (a b c : α) :
    step (step a b) c = step a (step b c) :=
  hρ (by simp only [rank_step hstep, max_assoc])

theorem foldl_step_step (hρ : Function.Injective ρ)
    (hstep : ∀ m x, step m x = if ρ m < ρ x then x else m) (a b : α) (xs : List α) :
    xs.foldl step (step a b) = step a (xs.foldl step b) := by
  induction xs generalizing b with
  | nil => rfl
  | cons x xs ih => rw [List.foldl_cons, List.foldl_cons, step_assoc hρ hstep, ih]

/-- **Splitting a running maximum.** Folding a concatenation whose second part starts with
its own seed gives the update of the two parts' results. -/
theorem foldl_append_seed (hρ : Function.Injective ρ)
    (hstep : ∀ m x, step m x = if ρ m < ρ x then x else m) (a t : α) (xs rest : List α) :
    (xs ++ t :: rest).foldl step a = step (xs.foldl step a) ((t :: rest).foldl step t) := by
  have hself : step t t = t := by rw [hstep, if_neg (lt_irrefl _)]
  rw [List.foldl_append, List.foldl_cons, List.foldl_cons, hself, ← foldl_step_step hρ hstep]

end Update

/-! ### `int` groups and their parts -/

theorem nonNull_append (l₁ l₂ : List Value) :
    nonNull (l₁ ++ l₂) = nonNull l₁ ++ nonNull l₂ :=
  List.filter_append _ _

theorem getCount_append (l₁ l₂ : List Value) :
    getCount (l₁ ++ l₂) = getCount l₁ + getCount l₂ := by
  simp only [getCount_eq, nonNull_append, List.length_append]

variable {l l₁ l₂ : List Value}

/-- A concatenation of `int` groups, the first with a non-nil entry, is an `int` group whose
first entry is the first part's. -/
theorem int_group_append (h₁ : nonNull l₁ ≠ []) (hI₁ : (nonNull l₁).all isInt)
    (hI₂ : (nonNull l₂).all isInt) :
    nonNull (l₁ ++ l₂) ≠ [] ∧ (nonNull (l₁ ++ l₂)).all isInt ∧
      getFirstValidArg (l₁ ++ l₂) = getFirstValidArg l₁ := by
  refine ⟨by simp [nonNull_append, h₁], by simp [nonNull_append, hI₁, hI₂], ?_⟩
  obtain ⟨v, rest, hvr, -⟩ := exists_first_nonNull h₁
  rw [getFirstValidArg_of_nonNull hvr,
    getFirstValidArg_of_nonNull (by rw [nonNull_append, hvr, List.cons_append])]

/-- An `int` group's `int` entries start with the entry its first non-nil position holds. -/
theorem int_group_first (hne : nonNull l ≠ []) (hall : (nonNull l).all isInt) :
    ∃ t rest, getFirstValidArg l = .int t ∧ l.filterMap asInt = t :: rest := by
  obtain ⟨v, rest, hvr, -⟩ := exists_first_nonNull hne
  have hi : v.isInt := List.all_eq_true.mp hall v (hvr ▸ List.mem_cons_self v rest)
  cases v <;> simp only [isInt, asInt, Option.isSome_none, Bool.false_eq_true] at hi
  exact ⟨_, _, getFirstValidArg_of_nonNull hvr, by
    rw [← filterMap_nonNull asInt rfl l, hvr]
    rfl⟩

theorem foldl_add_eq (a : BitVec 64) (xs : List (BitVec 64)) :
    xs.foldl (· + ·) a = a + xs.foldl (· + ·) 0 := by
  induction xs generalizing a with
  | nil => simp
  | cons x xs ih => rw [List.foldl_cons, List.foldl_cons, ih, ih (0 + x), zero_add, add_assoc]

/-! ### `max` and `min` -/

section Extremum

variable {β : Type} [LinearOrder β] (fn : String)
  (sliceInt : List Value → BitVec 64 → Except String (BitVec 64))
  (sliceFloat : List Value → Float → Except String Float)
  (sliceString : List Value → String → Except String String)
  (step : BitVec 64 → BitVec 64 → BitVec 64)

/-- On an `int` group the `max`/`min` case folds its update over the group's `int` entries,
seeded with the first. -/
theorem aggExtremum_int_eq (hint : ∀ s t, sliceInt s t = sliceLoop "int" asInt step t s)
    (hne : nonNull l ≠ []) (hall : (nonNull l).all isInt) :
    ∃ t rest, l.filterMap asInt = t :: rest ∧
      aggExtremum fn sliceInt sliceFloat sliceString l =
        (.int ((t :: rest).foldl step t), true) := by
  obtain ⟨t, rest, hfirst, hmap⟩ := int_group_first hne hall
  refine ⟨t, rest, hmap, ?_⟩
  simp only [aggExtremum, if_pos (length_pos_of_nonNull hne), hfirst, hint,
    sliceLoop_eq_ok _ _ _ rfl _ _ (all_isSome_of_all (fun _ => rfl) hall), hmap, ret_ok]

/-- The `max`/`min` case of a concatenation of `int` groups is its update applied to the
parts' results, when the update moves to a candidate of strictly higher injective rank. -/
theorem aggExtremum_int_append {ρ : BitVec 64 → β} (hρ : Function.Injective ρ)
    (hstep : ∀ m x, step m x = if ρ m < ρ x then x else m)
    (hint : ∀ s t, sliceInt s t = sliceLoop "int" asInt step t s)
    (h₁ : nonNull l₁ ≠ []) (h₂ : nonNull l₂ ≠ []) (hI₁ : (nonNull l₁).all isInt)
    (hI₂ : (nonNull l₂).all isInt) :
    ∃ M₁ M₂, aggExtremum fn sliceInt sliceFloat sliceString l₁ = (.int M₁, true) ∧
      aggExtremum fn sliceInt sliceFloat sliceString l₂ = (.int M₂, true) ∧
      aggExtremum fn sliceInt sliceFloat sliceString (l₁ ++ l₂) =
        (.int (step M₁ M₂), true) := by
  have heq := fun l => @aggExtremum_int_eq l fn sliceInt sliceFloat sliceString step hint
  obtain ⟨t₁, rest₁, hm₁, he₁⟩ := heq _ h₁ hI₁
  obtain ⟨t₂, rest₂, hm₂, he₂⟩ := heq _ h₂ hI₂
  obtain ⟨hne, hall, -⟩ := int_group_append h₁ hI₁ hI₂
  obtain ⟨t, rest, hm, he⟩ := heq _ hne hall
  rw [List.filterMap_append, hm₁, hm₂, List.cons_append, List.cons.injEq] at hm
  obtain ⟨rfl, rfl⟩ := hm
  refine ⟨_, _, he₁, he₂, ?_⟩
  rw [he, ← List.cons_append, foldl_append_seed hρ hstep]

end Extremum

/-- **`max` and `min` of a group from its parts.** For two `int` groups, each with a non-nil
entry, `max` of their concatenation is the parts' maxima combined by `sliceIntMax`'s update,
the greater in the signed order, and `min` the parts' minima combined by `sliceIntMin`'s,
the lesser. -/
theorem aggCall_extrema_append (l₁ l₂ : List Value) (h₁ : nonNull l₁ ≠ [])
    (h₂ : nonNull l₂ ≠ []) (hI₁ : (nonNull l₁).all isInt)
    (hI₂ : (nonNull l₂).all isInt) :
    (∃ M₁ M₂, aggCall "max" [.array l₁] = some (.int M₁, true) ∧
        aggCall "max" [.array l₂] = some (.int M₂, true) ∧
        aggCall "max" [.array (l₁ ++ l₂)] =
          some (.int (if M₁.slt M₂ then M₂ else M₁), true)) ∧
      ∃ m₁ m₂, aggCall "min" [.array l₁] = some (.int m₁, true) ∧
        aggCall "min" [.array l₂] = some (.int m₂, true) ∧
        aggCall "min" [.array (l₁ ++ l₂)] =
          some (.int (if m₂.slt m₁ then m₂ else m₁), true) := by
  obtain ⟨M₁, M₂, hM₁, hM₂, hM⟩ := aggExtremum_int_append "max" sliceIntMax
    sliceFloatMax sliceStringMax _ (ρ := BitVec.toInt) (fun _ _ => BitVec.eq_of_toInt_eq)
    (fun _ _ => by simp [BitVec.slt]) (fun _ _ => rfl) h₁ h₂ hI₁ hI₂
  obtain ⟨m₁, m₂, hm₁, hm₂, hm⟩ := aggExtremum_int_append "min" sliceIntMin
    sliceFloatMin sliceStringMin _ (ρ := fun x => OrderDual.toDual x.toInt)
    (fun _ _ => BitVec.eq_of_toInt_eq)
    (fun _ _ => by simp [BitVec.slt]) (fun _ _ => rfl) h₁ h₂ hI₁ hI₂
  exact ⟨⟨M₁, M₂, congrArg some hM₁, congrArg some hM₂, congrArg some hM⟩,
    m₁, m₂, congrArg some hm₁, congrArg some hm₂, congrArg some hm⟩

/-- The parts `3, nil` and `-1, 5`. -/
theorem aggCall_extrema_append_small :
    nonNull [Value.int 3, .null] ≠ [] ∧ nonNull [Value.int (-1), .int 5] ≠ [] ∧
      (nonNull [Value.int 3, .null]).all isInt ∧ (nonNull [Value.int (-1), .int 5]).all isInt ∧
      ((∃ M₁ M₂, aggCall "max" [.array [Value.int 3, .null]] = some (.int M₁, true) ∧
          aggCall "max" [.array [Value.int (-1), .int 5]] = some (.int M₂, true) ∧
          aggCall "max" [.array ([Value.int 3, .null] ++ [Value.int (-1), .int 5])] =
            some (.int (if M₁.slt M₂ then M₂ else M₁), true)) ∧
        ∃ m₁ m₂, aggCall "min" [.array [Value.int 3, .null]] = some (.int m₁, true) ∧
          aggCall "min" [.array [Value.int (-1), .int 5]] = some (.int m₂, true) ∧
          aggCall "min" [.array ([Value.int 3, .null] ++ [Value.int (-1), .int 5])] =
            some (.int (if m₂.slt m₁ then m₂ else m₁), true)) := by
  have h₁ : nonNull [Value.int 3, .null] ≠ [] := by simp [nonNull, isNull]
  have h₂ : nonNull [Value.int (-1), .int 5] ≠ [] := by simp [nonNull, isNull]
  exact ⟨h₁, h₂, rfl, rfl, aggCall_extrema_append _ _ h₁ h₂ rfl rfl⟩

/-! ### `sum`, `count` and `avg` -/

/-- **`sum`, `count` and `avg` of a group from its parts.** For two `int` groups, each with a
non-nil entry, `sum` of their concatenation is the 64-bit sum of their sums, `count` the sum
of their counts, and `avg` the first divided by the second, as `avg` divides. -/
theorem aggCall_totals_append (l₁ l₂ : List Value) (h₁ : nonNull l₁ ≠ [])
    (h₂ : nonNull l₂ ≠ []) (hI₁ : (nonNull l₁).all isInt)
    (hI₂ : (nonNull l₂).all isInt) :
    ∃ s₁ s₂ c₁ c₂ : BitVec 64,
      aggCall "sum" [.array l₁] = some (.int s₁, true) ∧
      aggCall "sum" [.array l₂] = some (.int s₂, true) ∧
      aggCall "count" [.array l₁] = some (.int c₁, true) ∧
      aggCall "count" [.array l₂] = some (.int c₂, true) ∧
      aggCall "sum" [.array (l₁ ++ l₂)] = some (.int (s₁ + s₂), true) ∧
      aggCall "count" [.array (l₁ ++ l₂)] = some (.int (c₁ + c₂), true) ∧
      aggCall "avg" [.array (l₁ ++ l₂)] =
        some (.int ((s₁ + s₂).sdiv (c₁ + c₂)), true) := by
  obtain ⟨hne, hall, -⟩ := int_group_append h₁ hI₁ hI₂
  obtain ⟨hs₁, -⟩ := aggSum_aggAvg_int h₁ hI₁
  obtain ⟨hs₂, -⟩ := aggSum_aggAvg_int h₂ hI₂
  obtain ⟨hs, ha⟩ := aggSum_aggAvg_int hne hall
  refine ⟨_, _, _, _, by rw [aggCall_sum, hs₁], by rw [aggCall_sum, hs₂], aggCall_count l₁,
    aggCall_count l₂, ?_, ?_, ?_⟩
  · rw [aggCall_sum, hs, List.filterMap_append, List.foldl_append, foldl_add_eq]
  · rw [aggCall_count, getCount_append, BitVec.ofNat_add]
  · rw [aggCall_avg, ha, List.filterMap_append, List.foldl_append, foldl_add_eq, getCount_append,
      BitVec.ofNat_add]

/-- The parts `3, nil` and `-1, 5`. -/
theorem aggCall_totals_append_small :
    nonNull [Value.int 3, .null] ≠ [] ∧ nonNull [Value.int (-1), .int 5] ≠ [] ∧
      (nonNull [Value.int 3, .null]).all isInt ∧ (nonNull [Value.int (-1), .int 5]).all isInt ∧
      ∃ s₁ s₂ c₁ c₂ : BitVec 64,
        aggCall "sum" [.array [Value.int 3, .null]] = some (.int s₁, true) ∧
        aggCall "sum" [.array [Value.int (-1), .int 5]] = some (.int s₂, true) ∧
        aggCall "count" [.array [Value.int 3, .null]] = some (.int c₁, true) ∧
        aggCall "count" [.array [Value.int (-1), .int 5]] = some (.int c₂, true) ∧
        aggCall "sum" [.array ([Value.int 3, .null] ++ [Value.int (-1), .int 5])] =
          some (.int (s₁ + s₂), true) ∧
        aggCall "count" [.array ([Value.int 3, .null] ++ [Value.int (-1), .int 5])] =
          some (.int (c₁ + c₂), true) ∧
        aggCall "avg" [.array ([Value.int 3, .null] ++ [Value.int (-1), .int 5])] =
          some (.int ((s₁ + s₂).sdiv (c₁ + c₂)), true) := by
  have h₁ : nonNull [Value.int 3, .null] ≠ [] := by simp [nonNull, isNull]
  have h₂ : nonNull [Value.int (-1), .int 5] ≠ [] := by simp [nonNull, isNull]
  exact ⟨h₁, h₂, rfl, rfl, aggCall_totals_append _ _ h₁ h₂ rfl rfl⟩

end EKuiper
