import EKuiper.Function.Extremum
import Mathlib.Algebra.Order.BigOperators.Group.List
import Mathlib.Data.BitVec
import Mathlib.Data.Nat.Cast.Basic

/-!
# `sum` and `avg`

`sliceIntTotal` adds the `int` entries of a group in Go's 64-bit `int`, so `sum` returns the
exact sum `intSum l` reduced to the signed 64-bit range, and `avg` returns that reduced sum
divided by the number of non-nil entries, truncated toward zero as Go's `/` does
(`toInt_sdiv_ofNat`). When the exact sum fits in 64 bits, `sum` is exact and `avg` lies
between the least and the greatest entry; past the bound the accumulator wraps, and `sum`
and `avg` of `[2^63 - 1, 1]` are negative.
-/

namespace EKuiper

open Value

/-- The exact sum of the `int` entries of a group. -/
def intSum (l : List Value) : Int :=
  ((l.filterMap asInt).map BitVec.toInt).sum

/-- The 64-bit running sum, read as a signed integer: the exact sum reduced modulo `2^64`. -/
theorem toInt_foldl_add (acc : BitVec 64) (xs : List (BitVec 64)) :
    (xs.foldl (· + ·) acc).toInt = (acc.toInt + (xs.map BitVec.toInt).sum).bmod (2 ^ 64) := by
  induction xs generalizing acc with
  | nil => simp [BitVec.toInt_eq_toNat_bmod]
  | cons x xs ih =>
    rw [List.foldl_cons, ih, BitVec.toInt_add, Int.bmod_add_bmod_congr, List.map_cons,
      List.sum_cons, add_assoc]

/-- Go's `x / c` for a count `0 < c < 2^63`: truncated division of the signed value. -/
theorem toInt_sdiv_ofNat (x : BitVec 64) {c : Nat} (hc : 0 < c) (hc' : c < 2 ^ 63) :
    (x.sdiv (BitVec.ofNat 64 c)).toInt = x.toInt.tdiv c := by
  have hct : (BitVec.ofNat 64 c).toNat = c := by simp; omega
  have hcm : (BitVec.ofNat 64 c).msb = false := by
    rw [BitVec.msb_eq_decide, hct]; simp; omega
  have hx := x.isLt
  rw [BitVec.sdiv_eq, hcm]
  cases hm : x.msb
  · have hlt : 2 * x.toNat < 2 ^ 64 := BitVec.msb_eq_false_iff_two_mul_lt.mp hm
    have hq : 2 * (x.toNat / c) < 2 ^ 64 := by have := Nat.div_le_self x.toNat c; omega
    simp only [BitVec.toInt_eq_toNat_cond, BitVec.udiv, BitVec.toNat_ofNatLt, hct, hlt, hq, if_true]
    rw [Int.tdiv_eq_ediv (Int.ofNat_nonneg _) (Int.ofNat_nonneg _), Int.ofNat_ediv]
  · have hge : ¬2 * x.toNat < 2 ^ 64 := fun h => by
      rw [← BitVec.msb_eq_false_iff_two_mul_lt, hm] at h
      exact Bool.noConfusion h
    have hxi : x.toInt = -((2 ^ 64 - x.toNat : Nat) : Int) := by
      rw [BitVec.toInt_eq_toNat_cond, if_neg hge]; omega
    have hneg : (-x).toNat = 2 ^ 64 - x.toNat := by rw [BitVec.toNat_neg]; omega
    have hqle : (2 ^ 64 - x.toNat) / c ≤ 2 ^ 64 - x.toNat := Nat.div_le_self _ _
    show (-(-x).udiv (BitVec.ofNat 64 c)).toInt = _
    rw [hxi, Int.neg_tdiv, Int.tdiv_eq_ediv (Int.ofNat_nonneg _) (Int.ofNat_nonneg _),
      ← Int.ofNat_ediv]
    simp only [BitVec.toInt_eq_toNat_cond, BitVec.toNat_neg, BitVec.udiv, BitVec.toNat_ofNatLt,
      hneg, hct]
    generalize (2 ^ 64 - x.toNat) / c = q at hqle ⊢
    split <;> omega

/-- Truncated division by a positive number is monotone in the dividend. -/
theorem tdiv_le_tdiv {a b c : Int} (hc : 0 < c) (h : a ≤ b) : a.tdiv c ≤ b.tdiv c := by
  rcases le_or_lt 0 a with ha | ha
  · rw [Int.tdiv_eq_ediv ha hc.le, Int.tdiv_eq_ediv (ha.trans h) hc.le]
    exact Int.ediv_le_ediv hc h
  · have hna : a.tdiv c = -((-a) / c) := by
      rw [← Int.tdiv_eq_ediv (by omega) hc.le, Int.neg_tdiv, neg_neg]
    rcases le_or_lt 0 b with hb | hb
    · have h1 : 0 ≤ -a / c := Int.ediv_nonneg (by omega) hc.le
      have h2 : 0 ≤ b.tdiv c := Int.tdiv_nonneg hb hc.le
      omega
    · have hnb : b.tdiv c = -((-b) / c) := by
        rw [← Int.tdiv_eq_ediv (by omega) hc.le, Int.neg_tdiv, neg_neg]
      rw [hna, hnb]
      exact Int.neg_le_neg (Int.ediv_le_ediv hc (by omega))

/-- A sum of `c` numbers between `lo` and `hi`, divided by `c`, stays between them. -/
theorem tdiv_mem_Icc {xs : List Int} (hne : xs ≠ []) {lo hi : Int} (hlo : ∀ x ∈ xs, lo ≤ x)
    (hhi : ∀ x ∈ xs, x ≤ hi) : lo ≤ xs.sum.tdiv xs.length ∧ xs.sum.tdiv xs.length ≤ hi := by
  have hc : (0 : Int) < xs.length := by exact_mod_cast List.length_pos.mpr hne
  have h1 := List.card_nsmul_le_sum xs lo hlo
  have h2 := List.sum_le_card_nsmul xs hi hhi
  rw [nsmul_eq_mul] at h1 h2
  constructor
  · calc lo = (xs.length * lo).tdiv xs.length := by rw [Int.mul_tdiv_cancel_left _ hc.ne']
      _ ≤ _ := tdiv_le_tdiv hc h1
  · calc xs.sum.tdiv xs.length ≤ (xs.length * hi).tdiv xs.length := tdiv_le_tdiv hc h2
      _ = hi := by rw [Int.mul_tdiv_cancel_left _ hc.ne']

theorem bmod_of_mem_range {x : Int} (h1 : -2 ^ 63 ≤ x) (h2 : x < 2 ^ 63) :
    x.bmod (2 ^ 64) = x := by
  rw [Int.bmod_def]
  split <;> omega

/-! ### Integer groups -/

variable {l : List Value}

/-- On a group whose non-nil entries all pass `cast`, the fold sees one value per non-nil
entry. -/
theorem length_filterMap_of_all {α : Type} {cast : Value → Option α} (hnull : cast .null = none)
    (hall : ∀ v ∈ nonNull l, (cast v).isSome) : (l.filterMap cast).length = getCount l := by
  rw [getCount_eq, ← filterMap_nonNull cast hnull l]
  exact List.filterMap_length_eq_length.mpr hall

/-- On an `int` group the `sum` and `avg` cases run `sliceIntTotal`. -/
theorem aggSum_aggAvg_int (hne : nonNull l ≠ []) (hall : (nonNull l).all isInt) :
    aggSum l = (.int ((l.filterMap asInt).foldl (· + ·) 0), true) ∧
      aggAvg l =
        (.int (((l.filterMap asInt).foldl (· + ·) 0).sdiv (BitVec.ofNat 64 (getCount l))), true) := by
  obtain ⟨v, rest, hvr, -⟩ := exists_first_nonNull hne
  have hi : v.isInt := List.all_eq_true.mp hall v (hvr ▸ List.mem_cons_self v rest)
  have hc : getCount l > 0 := by simp [getCount_eq, hvr]
  have htot : sliceIntTotal l = .ok ((l.filterMap asInt).foldl (· + ·) 0) :=
    sliceLoop_eq_ok _ _ _ rfl _ _ (all_isSome_of_all (fun _ => rfl) hall)
  cases v <;> simp only [isInt, asInt, Option.isSome_none, Bool.false_eq_true] at hi
  simp only [aggSum, aggAvg, if_pos (length_pos_of_nonNull hne), if_pos hc,
    getFirstValidArg_of_nonNull hvr, htot, ret_ok, and_self]

/-- **`sum` and `avg` of integers.** On a group whose non-nil entries are all `int`, `sum`
returns the exact sum of the entries reduced to the signed 64-bit range, and `avg` returns
that reduced sum divided by the number of non-nil entries, truncated toward zero. When the
exact sum lies in the 64-bit range, `sum` returns it and `avg` lies between the least and the
greatest entry. A Go slice has fewer than `2^63` entries. -/
theorem aggCall_int_sum_avg (l : List Value) (hne : nonNull l ≠ []) (hall : (nonNull l).all isInt)
    (hlen : l.length < 2 ^ 63) :
    ∃ s a, aggCall "sum" [.array l] = some (.int s, true) ∧
      aggCall "avg" [.array l] = some (.int a, true) ∧
      s.toInt = (intSum l).bmod (2 ^ 64) ∧ a.toInt = s.toInt.tdiv (getCount l) ∧
      (-2 ^ 63 ≤ intSum l → intSum l < 2 ^ 63 → s.toInt = intSum l ∧
        (∃ x, Value.int x ∈ l ∧ x.toInt ≤ a.toInt) ∧ ∃ y, Value.int y ∈ l ∧ a.toInt ≤ y.toInt) := by
  have hxs : (l.filterMap asInt).length = getCount l :=
    length_filterMap_of_all rfl (all_isSome_of_all (fun _ => rfl) hall)
  have hcpos : 0 < getCount l := by rw [getCount_eq]; exact List.length_pos.mpr hne
  have hcle : getCount l ≤ l.length := by rw [getCount_eq]; exact List.length_filter_le _ _
  obtain ⟨hsum, havg⟩ := aggSum_aggAvg_int hne hall
  have hs : ((l.filterMap asInt).foldl (· + ·) 0).toInt = (intSum l).bmod (2 ^ 64) := by
    rw [toInt_foldl_add, intSum]
    simp
  have ha := toInt_sdiv_ofNat ((l.filterMap asInt).foldl (· + ·) 0) hcpos (by omega)
  refine ⟨_, _, by rw [aggCall_sum, hsum], by rw [aggCall_avg, havg], hs, ha, fun hlo hhi => ?_⟩
  have hexact : ((l.filterMap asInt).foldl (· + ·) 0).toInt = intSum l := by
    rw [hs, bmod_of_mem_range hlo hhi]
  obtain ⟨lo, -, hlomem, hlole⟩ := aggMin_int hne hall
  obtain ⟨hi, -, himem, hihle⟩ := aggMax_int hne hall
  have hne' : (l.filterMap asInt).map BitVec.toInt ≠ [] := by
    rw [← List.length_pos, List.length_map, hxs]
    exact hcpos
  have hlo' : ∀ x ∈ (l.filterMap asInt).map BitVec.toInt, lo.toInt ≤ x :=
    List.forall_mem_map.mpr fun x hx => hlole x (mem_filterMap_asInt.mp hx)
  have hhi' : ∀ x ∈ (l.filterMap asInt).map BitVec.toInt, x ≤ hi.toInt :=
    List.forall_mem_map.mpr fun x hx => hihle x (mem_filterMap_asInt.mp hx)
  have hbounds := tdiv_mem_Icc hne' hlo' hhi'
  rw [List.length_map, hxs, ← intSum, ← hexact, ← ha] at hbounds
  exact ⟨hexact, ⟨lo, hlomem, hbounds.1⟩, hi, himem, hbounds.2⟩

/-- The group `1, nil, 4`: `sum` is `5` and `avg` is `2`. -/
theorem aggCall_int_sum_avg_small :
    nonNull [.int 1, .null, .int 4] ≠ [] ∧ (nonNull [.int 1, .null, .int 4]).all isInt ∧
      [Value.int 1, .null, .int 4].length < 2 ^ 63 ∧
      ∃ s a, aggCall "sum" [.array [.int 1, .null, .int 4]] = some (.int s, true) ∧
        aggCall "avg" [.array [.int 1, .null, .int 4]] = some (.int a, true) ∧
        s.toInt = (intSum [.int 1, .null, .int 4]).bmod (2 ^ 64) ∧
        a.toInt = s.toInt.tdiv (getCount [.int 1, .null, .int 4]) ∧
        (-2 ^ 63 ≤ intSum [.int 1, .null, .int 4] → intSum [.int 1, .null, .int 4] < 2 ^ 63 →
          s.toInt = intSum [.int 1, .null, .int 4] ∧
          (∃ x, Value.int x ∈ [Value.int 1, .null, .int 4] ∧ x.toInt ≤ a.toInt) ∧
          ∃ y, Value.int y ∈ [Value.int 1, .null, .int 4] ∧ a.toInt ≤ y.toInt) := by
  have hne : nonNull [.int 1, .null, .int 4] ≠ [] := by simp [nonNull, isNull]
  have hall : (nonNull [.int 1, .null, .int 4]).all isInt := rfl
  have hlen : [Value.int 1, .null, .int 4].length < 2 ^ 63 := by decide
  exact ⟨hne, hall, hlen, aggCall_int_sum_avg _ hne hall hlen⟩

/-- `sum` and `avg` of `[2^63 - 1, 1]` wrap: the exact sum `2^63` does not fit. -/
theorem aggCall_int_sum_wraps :
    aggCall "sum" [.array [.int (BitVec.ofInt 64 (2 ^ 63 - 1)), .int 1]] =
        some (.int (BitVec.ofInt 64 (-2 ^ 63)), true) ∧
      aggCall "avg" [.array [.int (BitVec.ofInt 64 (2 ^ 63 - 1)), .int 1]] =
        some (.int (BitVec.ofInt 64 (-2 ^ 62)), true) ∧
      (BitVec.ofInt 64 (-2 ^ 63)).toInt ≠ (2 ^ 63 - 1) + 1 ∧ (BitVec.ofInt 64 (-2 ^ 62)).toInt < 1 :=
  ⟨rfl, rfl, by decide, by decide⟩

end EKuiper
