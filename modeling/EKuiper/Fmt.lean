import EKuiper.Function.Dedup
import Mathlib.Data.Nat.Digits

/-!
# The `%v` key of a scalar value

`dedup` remembers a column value by its text `fmt.Sprintf("%v", v)`, so it tells two values
apart exactly when their texts differ. Across types the text loses information: the string
`"1"`, the `int` `1` and the `int64` `1` print alike, and so do the string `"<nil>"` and `nil`.
Within one scalar type it does not. This module proves it for the types a column of tuple
values carries: an `int` or `int64` prints as its signed decimal numeral, which reads back
to the number (`toString_int_injective`), a `bool` as `true` or `false`, and a string as
itself; `nil` prints as `<nil>`, which is no numeral and no boolean.

**A column of one scalar type** (`isScalarColumn`) is one whose entries are all `int` or
`nil`, all `int64` or `nil`, all `string`, or all `bool` or `nil`; on such a column the key
is injective (`sprintfV_inj_of_isScalarColumn`). Nothing is claimed for `float64`: its text
(`Strconv.formatFloat`) reads the float through the runtime, and Go prints the `float64` `1`
as `1`, like the `int` `1`.

**`dedup` on such a column** therefore compares values themselves: a position is a first
occurrence of its key exactly when no earlier position holds the same value
(`isFirstKey_iff_of_isScalarColumn`), and deduplicating the column by itself keeps each
distinct value once, at its first occurrence (`dedup_self_scalar`).
-/

namespace EKuiper

open Value

/-! ### Decimal numerals -/

/-- The number that the decimal digits `cs` spell, read on from `acc`. -/
def decimalValue (cs : List Char) (acc : Nat) : Nat :=
  cs.foldl (fun a c => 10 * a + (c.toNat - 48)) acc

theorem digitChar_spec : ∀ k, k < 10 →
    (Nat.digitChar k).toNat - 48 = k ∧ (Nat.digitChar k).isDigit := by
  decide

/-- `Nat.toDigitsCore`, with enough fuel, spells its number and starts with a digit. -/
theorem toDigitsCore_spec : ∀ (fuel n : Nat) (ds : List Char), n < fuel →
    decimalValue (Nat.toDigitsCore 10 fuel n ds) 0 = decimalValue ds n ∧
      ∃ c cs, Nat.toDigitsCore 10 fuel n ds = c :: cs ∧ c.isDigit
  | 0, n, _, h => absurd h (Nat.not_lt_zero n)
  | fuel + 1, n, ds, h => by
    obtain ⟨hval, hdig⟩ := digitChar_spec _ (Nat.mod_lt n (by decide : 10 > 0))
    simp only [Nat.toDigitsCore]
    split_ifs with h0
    · refine ⟨?_, _, _, rfl, hdig⟩
      simp only [decimalValue, List.foldl_cons, hval]
      rw [Nat.mod_eq_of_lt (by omega)]
      simp
    · obtain ⟨ih, hcs⟩ := toDigitsCore_spec fuel (n / 10) _ (by omega)
      refine ⟨?_, hcs⟩
      rw [ih]
      simp only [decimalValue, List.foldl_cons, hval, Nat.div_add_mod]

theorem decimalValue_toString (n : Nat) : decimalValue (toString n).data 0 = n :=
  (toDigitsCore_spec (n + 1) n [] (Nat.lt_succ_self n)).1

theorem toString_nat_head (n : Nat) : ∃ c cs, (toString n).data = c :: cs ∧ c.isDigit :=
  (toDigitsCore_spec (n + 1) n [] (Nat.lt_succ_self n)).2

theorem toString_nat_injective : Function.Injective (toString : Nat → String) := fun a b h => by
  rw [← decimalValue_toString a, ← decimalValue_toString b, h]

/-- A numeral starts with a digit, or with `-` when negative. -/
theorem toString_int_head (z : Int) :
    ∃ c cs, (toString z).data = c :: cs ∧ (c.isDigit ∨ c = '-') := by
  rcases z with n | n
  · obtain ⟨c, cs, h, hd⟩ := toString_nat_head n
    exact ⟨c, cs, h, .inl hd⟩
  · exact ⟨'-', (toString (n + 1)).data, rfl, .inr rfl⟩

/-- **Signed decimal numerals read back.** Two integers with the same text are equal. -/
theorem toString_int_injective : Function.Injective (toString : Int → String) := by
  have hneg : ∀ a b : Nat, toString (Int.ofNat a) ≠ toString (Int.negSucc b) := fun a b h => by
    obtain ⟨c, cs, hc, hd⟩ := toString_nat_head a
    have h' : (toString a).data = '-' :: (toString (b + 1)).data := congrArg String.data h
    rw [hc, List.cons.injEq] at h'
    rw [h'.1] at hd
    exact absurd hd (by decide)
  intro a b h
  rcases a with a | a <;> rcases b with b | b
  · exact congrArg _ (toString_nat_injective h)
  · exact absurd h (hneg a b)
  · exact absurd h.symm (hneg b a)
  · have h' : (toString (a + 1)).data = (toString (b + 1)).data :=
      (List.cons.inj (congrArg String.data h)).2
    exact congrArg Int.negSucc (Nat.succ.inj (toString_nat_injective (String.ext h')))

/-! ### Keys of scalar values -/

/-- The text of a 64-bit word read as a signed integer determines the word. -/
theorem toString_toInt_injective {a b : BitVec 64} (h : toString a.toInt = toString b.toInt) :
    a = b :=
  BitVec.eq_of_toInt_eq (toString_int_injective h)

/-- No numeral is `<nil>`. -/
theorem toString_int_ne_nil (z : Int) : toString z ≠ "<nil>" := fun h => by
  obtain ⟨c, cs, hc, hd⟩ := toString_int_head z
  have h' : (toString z).data = "<nil>".data := congrArg String.data h
  rw [hc] at h'
  have hc' : c = '<' := (List.cons.inj h').1
  subst hc'
  exact absurd hd (by decide)

/-- The values of a class whose keys are `<nil>` and the numerals of a constructor's words:
the key tells them apart. -/
theorem sprintfV_inj_numeral {mk : BitVec 64 → Value}
    (hmk : ∀ i, (mk i).sprintfV = toString i.toInt) {v w : Value}
    (hv : v = .null ∨ ∃ i, v = mk i) (hw : w = .null ∨ ∃ i, w = mk i)
    (h : v.sprintfV = w.sprintfV) : v = w := by
  have hnil : Value.null.sprintfV = "<nil>" := by simp [sprintfV]
  rcases hv with rfl | ⟨a, rfl⟩ <;> rcases hw with rfl | ⟨b, rfl⟩
  · rfl
  · rw [hnil, hmk] at h
    exact absurd h.symm (toString_int_ne_nil _)
  · rw [hnil, hmk] at h
    exact absurd h (toString_int_ne_nil _)
  · rw [hmk, hmk] at h
    rw [toString_toInt_injective h]

/-- The values `nil`, `true` and `false` have distinct keys. -/
theorem sprintfV_inj_bool {v w : Value} (hv : v = .null ∨ ∃ b, v = .bool b)
    (hw : w = .null ∨ ∃ b, w = .bool b) (h : v.sprintfV = w.sprintfV) : v = w := by
  have hb : ∀ a b : Bool, toString a = toString b → a = b := by decide
  have hnil : ∀ b : Bool, toString b ≠ "<nil>" := by decide
  rcases hv with rfl | ⟨a, rfl⟩ <;> rcases hw with rfl | ⟨b, rfl⟩ <;>
    simp only [sprintfV] at h
  · rfl
  · exact absurd h.symm (hnil b)
  · exact absurd h (hnil a)
  · rw [hb a b h]

/-- Every entry of `col` has one scalar type: all are `int` or `nil`, all `int64` or `nil`,
all `string`, or all `bool` or `nil`. -/
def isScalarColumn (col : List Value) : Bool :=
  col.all (fun v => v.isInt || v.isNull) || col.all (fun v => v.isInt64 || v.isNull) ||
    col.all isString || col.all (fun v => v.isBool || v.isNull)

/-! The entries each disjunct of `isScalarColumn` admits. -/

theorem eq_null_or_int :
    ∀ {u : Value}, (u.isInt || u.isNull) = true → u = .null ∨ ∃ i, u = .int i
  | .null, _ => .inl rfl
  | .int i, _ => .inr ⟨i, rfl⟩

theorem eq_null_or_int64 :
    ∀ {u : Value}, (u.isInt64 || u.isNull) = true → u = .null ∨ ∃ i, u = .int64 i
  | .null, _ => .inl rfl
  | .int64 i, _ => .inr ⟨i, rfl⟩

theorem eq_string : ∀ {u : Value}, u.isString = true → ∃ s, u = .string s
  | .string s, _ => ⟨s, rfl⟩

theorem eq_null_or_bool :
    ∀ {u : Value}, (u.isBool || u.isNull) = true → u = .null ∨ ∃ b, u = .bool b
  | .null, _ => .inl rfl
  | .bool b, _ => .inr ⟨b, rfl⟩

/-- **On a column of one scalar type the key is injective.** -/
theorem sprintfV_inj_of_isScalarColumn {col : List Value} (hcol : isScalarColumn col = true)
    {v w : Value} (hv : v ∈ col) (hw : w ∈ col) (h : v.sprintfV = w.sprintfV) : v = w := by
  simp only [isScalarColumn, Bool.or_eq_true] at hcol
  rcases hcol with ((hc | hc) | hc) | hc <;> have hc := List.all_eq_true.mp hc
  · exact @sprintfV_inj_numeral .int (fun _ => rfl) v w (eq_null_or_int (hc v hv))
      (eq_null_or_int (hc w hw)) h
  · exact @sprintfV_inj_numeral .int64 (fun _ => rfl) v w (eq_null_or_int64 (hc v hv))
      (eq_null_or_int64 (hc w hw)) h
  · obtain ⟨s, rfl⟩ := eq_string (hc v hv)
    obtain ⟨t, rfl⟩ := eq_string (hc w hw)
    exact congrArg Value.string h
  · exact sprintfV_inj_bool (eq_null_or_bool (hc v hv)) (eq_null_or_bool (hc w hw)) h

/-! ### `dedup` on a column of one scalar type -/

/-- On a column of one scalar type, first occurrences of keys are first occurrences of
values. -/
theorem isFirstKey_iff_of_isScalarColumn {col : List Value} (hcol : isScalarColumn col = true)
    {i : Nat} (hi : i < col.length) :
    IsFirstKey col i ↔ ∀ j < i, col.getD j .null ≠ col.getD i .null := by
  have hmem : ∀ j < col.length, col.getD j .null ∈ col := fun j hj => by
    simp [hj, List.getElem_mem]
  refine ⟨fun h j hj he => h j hj (by rw [keyAt, keyAt, he]), fun h j hj hk => h j hj ?_⟩
  exact sprintfV_inj_of_isScalarColumn hcol (hmem j (hj.trans hi)) (hmem i hi) hk

theorem firstByKey_sublist (r : List Value) : (firstByKey r).Sublist r := by
  have := ((List.range r.length).filter_sublist (p := fun i => decide (IsFirstKey r i))).map
    fun i => r.getD i .null
  rwa [map_getD_range] at this

/-- **Deduplicating a column of one scalar type by itself keeps each distinct value once.**
When the entries of `r` are all `int` or `nil`, all `int64` or `nil`, all strings, or all
`bool` or `nil`, `dedup r r true` returns the entries of `r` at the positions where their
value occurs first, in order: a sublist of `r` without repeated values that holds every
value of `r`. -/
theorem dedup_self_scalar (r : List Value) (hr : isScalarColumn r = true) :
    dedup r r true = some (.array (firstByKey r)) ∧
      (∀ i, i ∈ firstKeyIdx r ↔
        i < r.length ∧ ∀ j < i, r.getD j .null ≠ r.getD i .null) ∧
      (firstByKey r).Sublist r ∧ (firstByKey r).Nodup ∧ ∀ v ∈ r, v ∈ firstByKey r := by
  have hkeys : (firstByKey r).map sprintfV = (firstKeyIdx r).map (keyAt r) := by
    simp only [firstByKey, List.map_map]
    rfl
  have hsub := firstByKey_sublist r
  refine ⟨dedup_all_eq le_rfl, fun i => ?_, hsub,
    (hkeys ▸ firstKeyIdx_keys_nodup r).of_map sprintfV, fun v hv => ?_⟩
  · rw [mem_firstKeyIdx]
    exact and_congr_right (isFirstKey_iff_of_isScalarColumn hr)
  · have hk : v.sprintfV ∈ (firstByKey r).map sprintfV :=
      hkeys ▸ mem_firstKeyIdx_keys.mpr (List.mem_map_of_mem _ hv)
    obtain ⟨w, hw, hwv⟩ := List.mem_map.mp hk
    rwa [← sprintfV_inj_of_isScalarColumn hr (hsub.subset hw) hv hwv]

/-- The column `1, nil, 1, 2` keeps `1`, `nil` and `2`. -/
theorem dedup_self_scalar_ints :
    isScalarColumn [.int 1, .null, .int 1, .int 2] = true ∧
      (dedup [.int 1, .null, .int 1, .int 2] [.int 1, .null, .int 1, .int 2] true =
          some (.array (firstByKey [.int 1, .null, .int 1, .int 2])) ∧
        (∀ i, i ∈ firstKeyIdx [.int 1, .null, .int 1, .int 2] ↔
          i < ([.int 1, .null, .int 1, .int 2] : List Value).length ∧
            ∀ j < i, ([.int 1, .null, .int 1, .int 2] : List Value).getD j .null ≠
              ([.int 1, .null, .int 1, .int 2] : List Value).getD i .null) ∧
        (firstByKey [.int 1, .null, .int 1, .int 2]).Sublist [.int 1, .null, .int 1, .int 2] ∧
        (firstByKey [.int 1, .null, .int 1, .int 2]).Nodup ∧
        ∀ v ∈ ([.int 1, .null, .int 1, .int 2] : List Value),
          v ∈ firstByKey [.int 1, .null, .int 1, .int 2]) :=
  ⟨rfl, dedup_self_scalar _ rfl⟩

end EKuiper
