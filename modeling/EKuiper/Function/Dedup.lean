import EKuiper.Value
import Mathlib.Data.Finset.Card
import Mathlib.Data.Nat.Find

/-!
# `dedup`: the loop behind `deduplicate`

`dedup r col all` walks the column `col` once, remembering the `%v` text of every value it
has seen in a key set. At a position whose key is new it appends the parallel entry `r[i]`
to the result, for every such position when `all` is set and only at the last position
otherwise. It then returns the result slice, or for `!all` its first element or `nil`.

The loop is modelled as a state machine: `DedupState` holds the key set and the result,
`dedupStep` is one pass of the loop body, and `dedupLoop` runs it along `col`. Its meaning
is stated by position: `IsFirstKey col i` says that no earlier position of `col` has the
key of position `i`, and `DedupInv` says that after `i` positions the key set holds exactly
the keys of those positions and the result holds `r[j]` for the kept positions `j < i`
(`IsKept`). `dedupStep_eq` says what one pass of the loop body does from such a state, and
`DedupInv.succ` that the state it builds satisfies the invariant one position on. The run
lemma `dedupLoop_inv` follows: the loop either panics, at a kept position that `r` does not
reach, or ends with the invariant at the end of `col`. What `dedup` returns, with `all` set
or not, and when it panics, is read off that.

Keys are texts, not values: two values of different types that print alike, such as the
string `"1"` and the integer `1`, share a key.
-/

namespace EKuiper

open Value

/-- The state of `dedup`'s loop: the key set and the result slice. -/
structure DedupState where
  keyset : List String
  result : List Value

/-- One pass of `dedup`'s loop body at position `i`, holding `m`, of a column of length `n`.
`none` is the panic of `r[i]` out of range. -/
def dedupStep (r : List Value) (n : Nat) (all : Bool) (st : DedupState) (i : Nat) (m : Value) :
    Option DedupState :=
  let key := m.sprintfV
  if key ∈ st.keyset then some st
  else if all then r[i]?.map fun ri => ⟨key :: st.keyset, st.result ++ [ri]⟩
  else if i = n - 1 then r[i]?.map fun ri => ⟨key :: st.keyset, st.result ++ [ri]⟩
  else some ⟨key :: st.keyset, st.result⟩

/-- `for i, m := range col`, from position `i` on. -/
def dedupLoop (r : List Value) (n : Nat) (all : Bool) :
    DedupState → Nat → List Value → Option DedupState
  | st, _, [] => some st
  | st, i, m :: col => (dedupStep r n all st i m).bind fun st' => dedupLoop r n all st' (i + 1) col

/-- `dedup`. Its error result is always `nil`; `none` is the panic of `r[i]` out of range. -/
def dedup (r col : List Value) (all : Bool) : Option Value :=
  (dedupLoop r col.length all ⟨[], []⟩ 0 col).map fun st =>
    if !all then
      match st.result with
      | [] => .null
      | x :: _ => x
    else .array st.result

/-! ### Keys by position -/

/-- The key `fmt.Sprintf("%v", col[j])` of position `j`. -/
def keyAt (col : List Value) (j : Nat) : String :=
  (col.getD j .null).sprintfV

/-- Position `i` holds the first occurrence of its key in `col`. -/
def IsFirstKey (col : List Value) (i : Nat) : Prop :=
  ∀ j < i, keyAt col j ≠ keyAt col i

instance (col : List Value) (i : Nat) : Decidable (IsFirstKey col i) :=
  inferInstanceAs (Decidable (∀ j < i, _))

/-- `dedup` appends the entry of position `j` of `col`: its key occurs there first, and with
`!all` it is also the last position. -/
def IsKept (col : List Value) (all : Bool) (j : Nat) : Prop :=
  (all = true ∨ j = col.length - 1) ∧ IsFirstKey col j

instance (col : List Value) (all : Bool) (j : Nat) : Decidable (IsKept col all j) :=
  inferInstanceAs (Decidable (_ ∧ _))

/-- The positions below `i` whose entry `dedup` appends. -/
def keptIdx (col : List Value) (all : Bool) (i : Nat) : List Nat :=
  (List.range i).filter fun j => decide (IsKept col all j)

/-- The first occurrences of the keys of `col`, in order. -/
def firstKeyIdx (col : List Value) : List Nat :=
  (List.range col.length).filter fun i => decide (IsFirstKey col i)

theorem keptIdx_succ (col : List Value) (all : Bool) (i : Nat) :
    keptIdx col all (i + 1) = keptIdx col all i ++ if IsKept col all i then [i] else [] := by
  rw [keptIdx, List.range_succ, List.filter_append]
  by_cases h : IsKept col all i <;> simp [keptIdx, h]

/-- **Loop invariant** of `dedup` after the first `i` positions of `col`. -/
structure DedupInv (r col : List Value) (all : Bool) (i : Nat) (st : DedupState) : Prop where
  keyset : ∀ k, k ∈ st.keyset ↔ ∃ j < i, keyAt col j = k
  result : st.result = (keptIdx col all i).map fun j => r.getD j .null

theorem dedupInv_zero (r col : List Value) (all : Bool) : DedupInv r col all 0 ⟨[], []⟩ :=
  ⟨by simp, by simp [keptIdx]⟩

section Run

variable {r col : List Value} {all : Bool} {i : Nat} {st : DedupState}

/-- Under the invariant, the key of position `i` is in the key set exactly when it occurred
earlier. -/
theorem DedupInv.mem_keyset_iff (hinv : DedupInv r col all i st) :
    keyAt col i ∈ st.keyset ↔ ¬IsFirstKey col i := by
  simp only [hinv.keyset, IsFirstKey, not_forall, not_not, exists_prop]

/-- The invariant one position further on, for the state the loop body builds: the key is
recorded if it is new, and `r[i]` appended if the position is kept. -/
theorem DedupInv.succ (hinv : DedupInv r col all i st) :
    DedupInv r col all (i + 1)
      ⟨if IsFirstKey col i then keyAt col i :: st.keyset else st.keyset,
        st.result ++ if IsKept col all i then [r.getD i .null] else []⟩ := by
  have hkeys : ∀ k, (∃ j < i + 1, keyAt col j = k) ↔ (∃ j < i, keyAt col j = k) ∨ keyAt col i = k :=
    fun k => by simp only [Nat.lt_succ_iff_lt_or_eq, or_and_right, exists_or, exists_eq_left]
  refine ⟨fun k => ?_, ?_⟩
  · by_cases hf : IsFirstKey col i
    · rw [if_pos hf, List.mem_cons, hinv.keyset, hkeys, eq_comm, or_comm]
    · rw [if_neg hf, hinv.keyset, hkeys, or_iff_left_of_imp fun (he : keyAt col i = k) =>
        (hinv.keyset k).mp (he ▸ hinv.mem_keyset_iff.mpr hf)]
  · simp only [hinv.result, keptIdx_succ, List.map_append]
    split_ifs <;> rfl

/-- **Step lemma.** One pass of the loop body at position `i`, from a state satisfying the
invariant, panics exactly when position `i` is kept and `r` has no entry `i`; otherwise it
builds the state of `DedupInv.succ`. -/
theorem dedupStep_eq (hinv : DedupInv r col all i st) :
    dedupStep r col.length all st i (col.getD i .null) =
      if IsKept col all i ∧ r.length ≤ i then none
      else some ⟨if IsFirstKey col i then keyAt col i :: st.keyset else st.keyset,
        st.result ++ if IsKept col all i then [r.getD i .null] else []⟩ := by
  simp only [dedupStep, ← keyAt.eq_def, hinv.mem_keyset_iff, IsKept]
  split_ifs <;> simp_all [List.getElem?_eq_none]

/-- **Run lemma.** From a state satisfying the invariant at position `i`, the loop over the
rest of `col` either panics, at a kept position `j ≥ i` that `r` does not reach, or ends in a
state satisfying the invariant at the end of `col`, `r` reaching every kept `j ≥ i`. -/
theorem dedupLoop_inv :
    ∀ (rest : List Value) (i : Nat) (st : DedupState), i ≤ col.length → col.drop i = rest →
      DedupInv r col all i st →
      (dedupLoop r col.length all st i rest = none ∧
          ∃ j, i ≤ j ∧ j < col.length ∧ IsKept col all j ∧ r.length ≤ j) ∨
        ∃ st', dedupLoop r col.length all st i rest = some st' ∧
          DedupInv r col all col.length st' ∧
          ∀ j, i ≤ j → j < col.length → IsKept col all j → j < r.length
  | [], i, st, hi, hdrop, hinv => by
    have : col.length ≤ i := List.drop_eq_nil_iff.mp hdrop
    exact .inr ⟨st, rfl, (Nat.le_antisymm hi this) ▸ hinv, fun j hj hjn => absurd hjn (by omega)⟩
  | m :: rest, i, st, _, hdrop, hinv => by
    have hm : col[i]? = some m := by rw [← List.head?_drop, hdrop]; rfl
    have hi : i < col.length := (List.getElem?_eq_some_iff.mp hm).1
    have hgd : col.getD i .null = m := by simp [hm]
    rw [dedupLoop, ← hgd, dedupStep_eq hinv]
    by_cases hbad : IsKept col all i ∧ r.length ≤ i
    · exact .inl ⟨by rw [if_pos hbad]; rfl, i, le_rfl, hi, hbad⟩
    rw [if_neg hbad, Option.some_bind]
    rcases dedupLoop_inv rest (i + 1) _ hi (by rw [← List.tail_drop, hdrop]; rfl) hinv.succ with
      ⟨hnone, j, hj, hjn, hk, hrj⟩ | ⟨st', hsome, hinv', hok⟩
    · exact .inl ⟨hnone, j, by omega, hjn, hk, hrj⟩
    · refine .inr ⟨st', hsome, hinv', fun j hj hjn hk => ?_⟩
      rcases Nat.eq_or_lt_of_le hj with rfl | hj
      · exact not_le.mp fun h => hbad ⟨hk, h⟩
      · exact hok j hj hjn hk

/-- The whole loop, from the empty state. -/
theorem dedupLoop_run :
    (dedupLoop r col.length all ⟨[], []⟩ 0 col = none ∧
        ∃ j < col.length, IsKept col all j ∧ r.length ≤ j) ∨
      ∃ st, dedupLoop r col.length all ⟨[], []⟩ 0 col = some st ∧
        DedupInv r col all col.length st ∧ ∀ j < col.length, IsKept col all j → j < r.length :=
  (dedupLoop_inv col 0 _ (Nat.zero_le _) (List.drop_zero _) (dedupInv_zero r col all)).imp
    (fun ⟨h, j, _, hj, hk, hr⟩ => ⟨h, j, hj, hk, hr⟩)
    fun ⟨st, h, hinv, hok⟩ => ⟨st, h, hinv, fun j => hok j (Nat.zero_le j)⟩

/-- With `r` at least as long as `col`, the loop never panics. -/
theorem dedupLoop_run_of_le (hr : col.length ≤ r.length) :
    ∃ st, dedupLoop r col.length all ⟨[], []⟩ 0 col = some st ∧
      DedupInv r col all col.length st := by
  rcases @dedupLoop_run r col all with ⟨-, j, hj, -, hrj⟩ | ⟨st, h, hinv, -⟩
  · exact absurd (hj.trans_le hr) (not_lt.mpr hrj)
  · exact ⟨st, h, hinv⟩

end Run

/-! ### Positions of first occurrences -/

theorem mem_firstKeyIdx {col : List Value} {i : Nat} :
    i ∈ firstKeyIdx col ↔ i < col.length ∧ IsFirstKey col i := by
  simp [firstKeyIdx]

/-- Two first occurrences of one key are the same position. -/
theorem eq_of_isFirstKey {col : List Value} {i j : Nat} (hi : IsFirstKey col i)
    (hj : IsFirstKey col j) (h : keyAt col i = keyAt col j) : i = j := by
  rcases Nat.lt_trichotomy i j with hij | hij | hij
  · exact absurd h (hj i hij)
  · exact hij
  · exact absurd h.symm (hi j hij)

/-- Every key of `col` has a first occurrence: the least position holding it. -/
theorem exists_isFirstKey {col : List Value} {j : Nat} (hj : j < col.length) :
    ∃ i < col.length, IsFirstKey col i ∧ keyAt col i = keyAt col j := by
  have hp : ∃ i, i < col.length ∧ keyAt col i = keyAt col j := ⟨j, hj, rfl⟩
  obtain ⟨hlt, hkey⟩ := Nat.find_spec hp
  exact ⟨Nat.find hp, hlt,
    fun i hi heq => Nat.find_min hp hi ⟨hi.trans hlt, heq.trans hkey⟩, hkey⟩

theorem firstKeyIdx_keys_nodup (col : List Value) : ((firstKeyIdx col).map (keyAt col)).Nodup :=
  ((List.nodup_range _).filter _).map_on fun _ hi _ hj h =>
    eq_of_isFirstKey (mem_firstKeyIdx.mp hi).2 (mem_firstKeyIdx.mp hj).2 h

/-- The keys of the first occurrences are the keys of `col`. -/
theorem mem_firstKeyIdx_keys {col : List Value} {k : String} :
    k ∈ (firstKeyIdx col).map (keyAt col) ↔ k ∈ col.map sprintfV := by
  simp only [List.mem_map, mem_firstKeyIdx]
  constructor
  · rintro ⟨i, ⟨hi, -⟩, rfl⟩
    exact ⟨col[i], List.getElem_mem hi, by simp [keyAt, hi]⟩
  · rintro ⟨v, hv, rfl⟩
    obtain ⟨j, hj, rfl⟩ := List.getElem_of_mem hv
    obtain ⟨i, hi, hf, hk⟩ := exists_isFirstKey hj
    exact ⟨i, ⟨hi, hf⟩, by rw [hk]; simp [keyAt, hj]⟩

/-- There are as many first occurrences as distinct keys. -/
theorem firstKeyIdx_length (col : List Value) :
    (firstKeyIdx col).length = (col.map sprintfV).toFinset.card := by
  rw [← List.length_map _ (keyAt col), ← List.toFinset_card_of_nodup (firstKeyIdx_keys_nodup col)]
  congr 1
  ext k
  simp only [List.mem_toFinset, mem_firstKeyIdx_keys]

theorem keptIdx_true_length (col : List Value) : keptIdx col true col.length = firstKeyIdx col := by
  simp [keptIdx, firstKeyIdx, IsKept]

theorem keptIdx_false_length (col : List Value) :
    keptIdx col false col.length =
      if 0 < col.length ∧ IsFirstKey col (col.length - 1) then [col.length - 1] else [] := by
  unfold keptIdx
  cases hlen : col.length with
  | zero => simp
  | succ m =>
    have : (List.range m).filter (fun j => decide (IsKept col false j)) = [] :=
      List.filter_eq_nil_iff.mpr fun j hj => by
        simp only [List.mem_range] at hj; simp [IsKept, hlen]; omega
    rw [List.range_succ, List.filter_append, this]
    by_cases h : IsFirstKey col m <;> simp [IsKept, hlen, h]

/-! ### What `dedup` returns -/

/-- With `all` set, `dedup` returns `r[i]` for the first occurrences `i` of the keys of
`col`, in order. -/
theorem dedup_all_eq {r col : List Value} (hr : col.length ≤ r.length) :
    dedup r col true = some (.array ((firstKeyIdx col).map fun i => r.getD i .null)) := by
  obtain ⟨st, hrun, hinv⟩ := @dedupLoop_run_of_le r col true hr
  simp only [dedup, hrun, Option.map_some', Bool.not_true, hinv.result, keptIdx_true_length]
  rfl

/-- **Deduplicating by a column.** For parallel `r` and `col`, `dedup r col true` returns the
entries `r[i]` at the first occurrences `i` of the keys of `col`, in increasing order; there
are as many as `col` has distinct keys, and no two of their positions share a key. -/
theorem dedup_all_spec (r col : List Value) (hr : r.length = col.length) :
    dedup r col true = some (.array ((firstKeyIdx col).map fun i => r.getD i .null)) ∧
      ((firstKeyIdx col).map fun i => r.getD i .null).length = (col.map sprintfV).toFinset.card ∧
      ((firstKeyIdx col).map (keyAt col)).Nodup :=
  ⟨dedup_all_eq hr.ge, by rw [List.length_map, firstKeyIdx_length], firstKeyIdx_keys_nodup col⟩

/-- Deduplicating `1, 2, 3` by the column `"a", "b", "a"` keeps `1` and `2`. -/
theorem dedup_all_spec_aba :
    [Value.int 1, .int 2, .int 3].length = [Value.string "a", .string "b", .string "a"].length ∧
      (dedup [.int 1, .int 2, .int 3] [.string "a", .string "b", .string "a"] true =
          some (.array ((firstKeyIdx [.string "a", .string "b", .string "a"]).map
            fun i => [Value.int 1, .int 2, .int 3].getD i .null)) ∧
        ((firstKeyIdx [.string "a", .string "b", .string "a"]).map
            fun i => [Value.int 1, .int 2, .int 3].getD i .null).length =
          ([Value.string "a", .string "b", .string "a"].map sprintfV).toFinset.card ∧
        ((firstKeyIdx [.string "a", .string "b", .string "a"]).map
          (keyAt [.string "a", .string "b", .string "a"])).Nodup) :=
  ⟨rfl, dedup_all_spec _ _ rfl⟩

/-- **The last entry, if its key is new.** For parallel `r` and `col`, `dedup r col false`
returns `r[n-1]` when the last key of `col` occurs nowhere earlier, and `nil` otherwise. -/
theorem dedup_last_eq (r col : List Value) (hr : r.length = col.length) :
    dedup r col false =
      some (if 0 < col.length ∧ IsFirstKey col (col.length - 1)
        then r.getD (col.length - 1) .null else .null) := by
  obtain ⟨st, hrun, hinv⟩ := @dedupLoop_run_of_le r col false hr.ge
  simp only [dedup, hrun, Option.map_some', Bool.not_false, if_true, hinv.result,
    keptIdx_false_length]
  split_ifs <;> rfl

/-- With `!all`, the column `"a", "b", "a"` repeats its last key, so `dedup` returns `nil`. -/
theorem dedup_last_eq_aba :
    [Value.int 1, .int 2, .int 3].length = [Value.string "a", .string "b", .string "a"].length ∧
      dedup [.int 1, .int 2, .int 3] [.string "a", .string "b", .string "a"] false =
        some (if 0 < [Value.string "a", .string "b", .string "a"].length ∧
            IsFirstKey [.string "a", .string "b", .string "a"]
              ([Value.string "a", .string "b", .string "a"].length - 1)
          then [Value.int 1, .int 2, .int 3].getD
            ([Value.string "a", .string "b", .string "a"].length - 1) .null
          else .null) :=
  ⟨rfl, dedup_last_eq _ _ rfl⟩

/-- **When `dedup` panics.** `dedup r col all` panics exactly when a position of `col` whose
entry it appends lies past the end of `r`. -/
theorem dedup_eq_none_iff (r col : List Value) (all : Bool) :
    dedup r col all = none ↔ ∃ j < col.length, IsKept col all j ∧ r.length ≤ j := by
  rcases @dedupLoop_run r col all with ⟨h, hbad⟩ | ⟨st, h, -, hok⟩
  · simpa [dedup, h] using hbad
  · simpa [dedup, h] using hok

example : dedup [.int 1] [.string "a", .string "b"] true = none := rfl

/-! ### Deduplicating a column by itself -/

/-- The first entry of each `%v` key of `r`, in order. -/
def firstByKey (r : List Value) : List Value :=
  (firstKeyIdx r).map fun i => r.getD i .null

theorem map_getD_range (l : List Value) : (List.range l.length).map (fun i => l.getD i .null) = l :=
  List.ext_getElem (by simp) fun i _ _ => by simp_all

/-- **Deduplicating a column by itself** keeps, in order of first occurrence, the first
entry of each `%v` text of `r`: a sublist of `r` whose texts are pairwise distinct and cover
every entry of `r`. Values of different types with one text count as one. -/
theorem dedup_self_spec (r : List Value) :
    dedup r r true = some (.array (firstByKey r)) ∧ (firstByKey r).Sublist r ∧
      ((firstByKey r).map sprintfV).Nodup ∧
      ∀ v ∈ r, ∃ w ∈ firstByKey r, w.sprintfV = v.sprintfV := by
  have hkeys : (firstByKey r).map sprintfV = (firstKeyIdx r).map (keyAt r) := by
    simp only [firstByKey, List.map_map]
    rfl
  refine ⟨dedup_all_eq le_rfl, ?_, hkeys ▸ firstKeyIdx_keys_nodup r, fun v hv => ?_⟩
  · have := ((List.range r.length).filter_sublist (p := fun i => decide (IsFirstKey r i))).map
      fun i => r.getD i .null
    rwa [map_getD_range] at this
  · have : v.sprintfV ∈ (firstByKey r).map sprintfV :=
      hkeys ▸ mem_firstKeyIdx_keys.mpr (List.mem_map_of_mem _ hv)
    simpa using this

/-- The string `"1"` and the integer `1` print alike, so `dedup` keeps only the string. -/
theorem dedup_merges_string_and_int :
    dedup [.string "1", .int 1] [.string "1", .int 1] true = some (.array [.string "1"]) ∧
      Value.int 1 ∈ [Value.string "1", .int 1] ∧ Value.int 1 ∉ [Value.string "1"] :=
  ⟨rfl, by simp, by simp⟩

end EKuiper
