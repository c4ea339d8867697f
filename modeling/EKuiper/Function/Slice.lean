import EKuiper.Value
import Mathlib.Order.Basic

/-!
# The per-group helpers of the aggregate library

`getCount` and `getFirstValidArg` read a group's non-nil entries; the eight `slice*`
helpers fold a group into one number or string. The helpers are one loop: every entry of
the expected dynamic type is folded into an accumulator, `nil` entries are skipped, and any
other entry stops the loop with `requires <type> but found %T(%v)`. `sliceLoop` is that
loop, and each helper is `sliceLoop` applied to its own type name, assertion and update,
exactly as the source writes them.

`sliceLoop_eq` is the single specification of the loop: it fails on the first non-nil entry
of the wrong type, and otherwise returns the fold of the entries of the right type. Every
later fact about the helpers is read off it. `foldl_argmax` is the fact about the running
maximum that the `max`/`min` helpers need.

`sliceStringMin` updates its accumulator when `min < vs`, the comparison of
`sliceStringMax`, where the integer and float versions compare `min > v`; so it computes the
largest string (`sliceStringMin_eq_sliceStringMax`).
-/

namespace EKuiper

open Value

/-! ### Counting and the first valid argument -/

/-- `getCount`: the number of non-nil entries of a group. -/
def getCount : List Value → Nat
  | [] => 0
  | v :: s => if v.isNull then getCount s else getCount s + 1

/-- `getFirstValidArg`: the first non-nil entry, or `nil`. -/
def getFirstValidArg : List Value → Value
  | [] => .null
  | v :: s => if v.isNull then getFirstValidArg s else v

theorem getCount_eq (l : List Value) : getCount l = (nonNull l).length := by
  induction l with
  | nil => rfl
  | cons v s ih => cases h : v.isNull <;> simp [getCount, h, ih]

theorem getFirstValidArg_eq (l : List Value) : getFirstValidArg l = (nonNull l).headD .null := by
  induction l with
  | nil => rfl
  | cons v s ih => cases h : v.isNull <;> simp [getFirstValidArg, h, ih]

theorem getFirstValidArg_of_nonNull {l rest : List Value} {v : Value}
    (h : nonNull l = v :: rest) : getFirstValidArg l = v := by
  rw [getFirstValidArg_eq, h]
  rfl

/-- A group with a non-nil entry, split at its first non-nil entry. -/
theorem exists_first_nonNull {l : List Value} (h : nonNull l ≠ []) :
    ∃ v rest, nonNull l = v :: rest ∧ v ∈ l ∧ v.isNull = false := by
  obtain ⟨v, rest, hvr⟩ := List.exists_cons_of_ne_nil h
  exact ⟨v, rest, hvr, mem_nonNull.mp (hvr ▸ List.mem_cons_self v rest)⟩

theorem length_pos_of_nonNull {l : List Value} (h : nonNull l ≠ []) : 0 < l.length :=
  List.length_pos.mpr fun hl => h (by simp [hl])

/-! ### The `slice*` loop -/

/-- The error `fmt.Errorf("requires <ty> but found %[1]T(%[1]v)", v)`. -/
def requiresMsg (ty : String) (v : Value) : String :=
  "requires " ++ ty ++ " but found " ++ v.goTypeName ++ "(" ++ v.sprintfV ++ ")"

/-- The loop of the `slice*` helpers: `cast` is the comma-ok type assertion, `step` the
update of the accumulator, `ty` the type named in the error. -/
def sliceLoop {α : Type} (ty : String) (cast : Value → Option α) (step : α → α → α) :
    α → List Value → Except String α
  | acc, [] => .ok acc
  | acc, v :: s =>
    match cast v with
    | some x => sliceLoop ty cast step (step acc x) s
    | none => if v.isNull then sliceLoop ty cast step acc s else .error (requiresMsg ty v)

/-- `sliceIntTotal`: the sum of the `int` entries, in wrapping 64-bit arithmetic. -/
def sliceIntTotal (s : List Value) : Except String (BitVec 64) :=
  sliceLoop "int" asInt (fun total vi => total + vi) 0 s

/-- `sliceFloatTotal`: the sum of the `float64` entries. -/
def sliceFloatTotal (s : List Value) : Except String Float :=
  sliceLoop "float64" asFloat64 (fun total vf => total + vf) 0 s

/-- `sliceIntMax`: `if max < vi { max = vi }` over the `int` entries. -/
def sliceIntMax (s : List Value) (max : BitVec 64) : Except String (BitVec 64) :=
  sliceLoop "int" asInt (fun max vi => if max.slt vi then vi else max) max s

/-- `sliceFloatMax`: `if max < vf { max = vf }` over the `float64` entries. -/
def sliceFloatMax (s : List Value) (max : Float) : Except String Float :=
  sliceLoop "float64" asFloat64 (fun max vf => if max < vf then vf else max) max s

/-- `sliceStringMax`: `if max < vs { max = vs }` over the `string` entries. -/
def sliceStringMax (s : List Value) (max : String) : Except String String :=
  sliceLoop "string" asString (fun max vs => if max < vs then vs else max) max s

/-- `sliceIntMin`: `if min > vi { min = vi }` over the `int` entries. -/
def sliceIntMin (s : List Value) (min : BitVec 64) : Except String (BitVec 64) :=
  sliceLoop "int" asInt (fun min vi => if vi.slt min then vi else min) min s

/-- `sliceFloatMin`: `if min > vf { min = vf }` over the `float64` entries. -/
def sliceFloatMin (s : List Value) (min : Float) : Except String Float :=
  sliceLoop "float64" asFloat64 (fun min vf => if min > vf then vf else min) min s

/-- `sliceStringMin`: `if min < vs { min = vs }` over the `string` entries. -/
def sliceStringMin (s : List Value) (min : String) : Except String String :=
  sliceLoop "string" asString (fun min vs => if min < vs then vs else min) min s

/-- `sliceStringMin` runs the update of `sliceStringMax`. -/
theorem sliceStringMin_eq_sliceStringMax (s : List Value) (t : String) :
    sliceStringMin s t = sliceStringMax s t := rfl

section Loop

variable {α : Type} (ty : String) (cast : Value → Option α) (step : α → α → α)

/-- **Specification of the loop.** With `nil` rejected by the assertion, the loop fails with
the first non-nil entry of the wrong type, and otherwise folds the entries of the right type
into the accumulator in order. -/
theorem sliceLoop_eq (hnull : cast .null = none) (acc : α) (l : List Value) :
    sliceLoop ty cast step acc l =
      match (nonNull l).find? (fun v => (cast v).isNone) with
      | some v => .error (requiresMsg ty v)
      | none => .ok ((l.filterMap cast).foldl step acc) := by
  induction l generalizing acc with
  | nil => rfl
  | cons v s ih =>
    cases hc : cast v with
    | some x =>
      have hv : v.isNull = false := by cases v <;> first | rfl | simp_all
      simp [sliceLoop, hc, hv, ih]
    | none => cases hv : v.isNull <;> simp [sliceLoop, hc, hv, ih]

/-- The loop succeeds exactly when every non-nil entry has the expected type. -/
theorem sliceLoop_isOk (hnull : cast .null = none) (acc : α) (l : List Value) :
    (sliceLoop ty cast step acc l).isOk = (nonNull l).all fun v => (cast v).isSome := by
  rw [sliceLoop_eq ty cast step hnull]
  cases h : (nonNull l).find? (fun v => (cast v).isNone) with
  | some v =>
    refine (List.all_eq_false.mpr ⟨v, List.mem_of_find?_eq_some h, ?_⟩).symm
    simpa using List.find?_some h
  | none =>
    refine (List.all_eq_true.mpr fun v hv => ?_).symm
    simpa [Option.isSome_iff_ne_none] using List.find?_eq_none.mp h v hv

theorem filterMap_nonNull (hnull : cast .null = none) (l : List Value) :
    (nonNull l).filterMap cast = l.filterMap cast := by
  rw [nonNull, List.filterMap_filter]
  exact List.filterMap_congr fun v _ => by cases v <;> simp [isNull, hnull]

/-- On success the loop returns the fold of the entries of the expected type. -/
theorem sliceLoop_eq_ok (hnull : cast .null = none) (acc : α) (l : List Value)
    (hall : ∀ v ∈ nonNull l, (cast v).isSome) :
    sliceLoop ty cast step acc l = .ok ((l.filterMap cast).foldl step acc) := by
  rw [sliceLoop_eq ty cast step hnull, List.find?_eq_none.mpr fun v hv => by
    simpa [Option.isSome_iff_ne_none] using hall v hv]

end Loop

/-! ### The running maximum -/

/-- **Running maximum.** A loop that moves its accumulator to every element of strictly
higher rank under `ρ` ends on an element of the list, seed included, of maximal rank. -/
theorem foldl_argmax {α β : Type} [LinearOrder β] (ρ : α → β) (step : α → α → α)
    (hstep : ∀ m x, step m x = if ρ m < ρ x then x else m) (t : α) (L : List α) :
    L.foldl step t ∈ t :: L ∧ ∀ x ∈ t :: L, ρ x ≤ ρ (L.foldl step t) := by
  induction L generalizing t with
  | nil => simp
  | cons y L ih =>
    rw [List.foldl_cons, hstep]
    split_ifs with hty
    · obtain ⟨hmem, hle⟩ := ih y
      simp only [List.mem_cons, forall_eq_or_imp] at hmem hle ⊢
      exact ⟨by tauto, hty.le.trans hle.1, hle⟩
    · obtain ⟨hmem, hle⟩ := ih t
      simp only [List.mem_cons, forall_eq_or_imp] at hmem hle ⊢
      exact ⟨by tauto, hle.1, (not_lt.mp hty).trans hle.1, hle.2⟩

end EKuiper
