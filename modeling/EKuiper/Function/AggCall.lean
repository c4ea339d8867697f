import EKuiper.Function.Slice
import EKuiper.Function.Dedup

/-!
# `aggCall`: the aggregate functions

`aggCall name args` lower-cases `name` and dispatches: `avg`, `count`, `max`, `min` and `sum`
read their group from `args[0]`, a `[]interface{}` holding one entry per tuple; `collect`
returns `args[0]` itself; `deduplicate` hands `args[0]`, `args[1]` and the first valid entry
of `args[2]` to `dedup`. The result is Go's pair of a value and an ok flag, where a failure
returns the error as the value with flag `false`.

A Go panic (a missing argument, or a failed `args[0].([]interface{})` assertion) is `none`.

`avg` and `sum` pick their branch by the dynamic type of the group's first non-nil entry;
`max` and `min` do the same and are one definition, `aggExtremum`, applied to each one's
helpers and name.

Beyond the definitions, this module states that `deduplicate` returns `dedup`'s result.
-/

namespace EKuiper

open Value

/-- Go's `if r, err := f(...); err != nil { return err, false } else { return r, true }`. -/
def ret {α : Type} (out : α → Value) : Except String α → Value × Bool
  | .error e => (.error e, false)
  | .ok r => (out r, true)

@[simp]
theorem ret_snd {α : Type} (out : α → Value) (e : Except String α) : (ret out e).2 = e.isOk := by
  cases e <;> rfl

@[simp]
theorem ret_ok {α : Type} (out : α → Value) (r : α) : ret out (.ok r) = (out r, true) := rfl

/-- `return fmt.Errorf("run <fn> function error: found invalid arg %[1]T(%[1]v)", v), false`. -/
def invalidArg (fn : String) (v : Value) : Value × Bool :=
  (.error ("run " ++ fn ++ " function error: found invalid arg " ++ v.goTypeName ++ "(" ++
    v.sprintfV ++ ")"), false)

/-- The `"avg"` case of `aggCall` on the group `arg0`. -/
def aggAvg (arg0 : List Value) : Value × Bool :=
  let c := getCount arg0
  if c > 0 then
    match getFirstValidArg arg0 with
    | .int _ | .int64 _ => ret (fun r => .int (r.sdiv (BitVec.ofNat 64 c))) (sliceIntTotal arg0)
    | .float64 _ => ret (fun r => .float64 (r / Float.ofNat c)) (sliceFloatTotal arg0)
    | .null => (.null, true)
    | v => invalidArg "avg" v
  else (.int 0, true)

/-- The `"sum"` case of `aggCall` on the group `arg0`. -/
def aggSum (arg0 : List Value) : Value × Bool :=
  if arg0.length > 0 then
    match getFirstValidArg arg0 with
    | .int _ | .int64 _ => ret .int (sliceIntTotal arg0)
    | .float64 _ => ret .float64 (sliceFloatTotal arg0)
    | .null => (.null, true)
    | v => invalidArg "sum" v
  else (.int 0, true)

/-- The `"max"` and `"min"` cases of `aggCall`: `fn` is the function's name, and the three
helpers fold an `int`, `float64` or `string` group from its first valid entry. -/
def aggExtremum (fn : String) (sliceInt : List Value → BitVec 64 → Except String (BitVec 64))
    (sliceFloat : List Value → Float → Except String Float)
    (sliceString : List Value → String → Except String String) (arg0 : List Value) :
    Value × Bool :=
  if arg0.length > 0 then
    match getFirstValidArg arg0 with
    | .int t => ret .int (sliceInt arg0 t)
    | .int64 t => ret .int (sliceInt arg0 t)
    | .float64 t => ret .float64 (sliceFloat arg0 t)
    | .string t => ret .string (sliceString arg0 t)
    | .null => (.null, true)
    | v => invalidArg fn v
  else (.error ("run " ++ fn ++ " function error: empty data"), false)

/-- The `"max"` case of `aggCall`. -/
def aggMax (arg0 : List Value) : Value × Bool :=
  aggExtremum "max" sliceIntMax sliceFloatMax sliceStringMax arg0

/-- The `"min"` case of `aggCall`. -/
def aggMin (arg0 : List Value) : Value × Bool :=
  aggExtremum "min" sliceIntMin sliceFloatMin sliceStringMin arg0

/-- `return fmt.Errorf("Invalid argument type found."), false`. -/
def invalidArgType : Value × Bool :=
  (.error "Invalid argument type found.", false)

/-- The `"deduplicate"` case of `aggCall`: the three arguments are read with comma-ok
assertions, so only a missing argument panics. -/
def aggDeduplicate : List Value → Option (Value × Bool)
  | a0 :: a1 :: a2 :: _ =>
    match a0, a1, a2 with
    | .array v1, .array v2, .array v3a =>
      if v3a.length > 0 then
        match getFirstValidArg v3a with
        | .bool v3 => (dedup v1 v2 v3).map fun r => (r, true)
        | _ => some invalidArgType
      else some invalidArgType
    | _, _, _ => some invalidArgType
  | _ => none

/-- `args[0].([]interface{})`: `none` is the panic of a missing argument or a failed
assertion. -/
def groupArg : List Value → Option (List Value)
  | .array arg0 :: _ => some arg0
  | _ => none

/-- `aggCall`. -/
def aggCall (name : String) (args : List Value) : Option (Value × Bool) :=
  match toLower name with
  | "avg" => (groupArg args).map aggAvg
  | "count" => (groupArg args).map fun arg0 => (.int (BitVec.ofNat 64 (getCount arg0)), true)
  | "max" => (groupArg args).map aggMax
  | "min" => (groupArg args).map aggMin
  | "sum" => (groupArg args).map aggSum
  | "collect" => args.head?.map fun a => (a, true)
  | "deduplicate" => aggDeduplicate args
  | _ => some (.error "Unknown aggregate function name.", false)

/-! ### The cases on a group -/

@[simp]
theorem aggCall_avg (l : List Value) : aggCall "avg" [.array l] = some (aggAvg l) := rfl

@[simp]
theorem aggCall_count (l : List Value) :
    aggCall "count" [.array l] = some (.int (BitVec.ofNat 64 (getCount l)), true) := rfl

@[simp]
theorem aggCall_max (l : List Value) : aggCall "max" [.array l] = some (aggMax l) := rfl

@[simp]
theorem aggCall_min (l : List Value) : aggCall "min" [.array l] = some (aggMin l) := rfl

@[simp]
theorem aggCall_sum (l : List Value) : aggCall "sum" [.array l] = some (aggSum l) := rfl

@[simp]
theorem aggCall_dedup (args : List Value) :
    aggCall "deduplicate" args = aggDeduplicate args := rfl

/-- **`deduplicate(r, col, all)`.** With arrays `r` and `col`, `r` at least as long as `col`,
and a flag group whose first non-nil entry is the boolean `all`, the `deduplicate` case does
not panic and returns `dedup`'s result with flag `true`. -/
theorem aggCall_deduplicate {r col a : List Value} (rest : List Value)
    (hr : col.length ≤ r.length) {all : Bool} (ha : getFirstValidArg a = .bool all) :
    ∃ v, dedup r col all = some v ∧
      aggCall "deduplicate" (.array r :: .array col :: .array a :: rest) = some (v, true) := by
  obtain ⟨st, hrun, -⟩ := @dedupLoop_run_of_le r col all hr
  have ha0 : 0 < a.length := by
    cases a with
    | nil => simp [getFirstValidArg] at ha
    | cons _ _ => simp
  refine ⟨_, by rw [dedup, hrun]; rfl, ?_⟩
  simp only [aggCall_dedup, aggDeduplicate, gt_iff_lt, if_pos ha0, ha, dedup, hrun, Option.map_some']

/-- `deduplicate` of `1, 2, 3` by the column `"a", "b", "a"`, keeping every first key. -/
theorem aggCall_deduplicate_aba :
    [Value.string "a", .string "b", .string "a"].length ≤ [Value.int 1, .int 2, .int 3].length ∧
      getFirstValidArg [.bool true] = .bool true ∧
      ∃ v, dedup [.int 1, .int 2, .int 3] [.string "a", .string "b", .string "a"] true = some v ∧
        aggCall "deduplicate" [.array [.int 1, .int 2, .int 3],
          .array [.string "a", .string "b", .string "a"], .array [.bool true]] = some (v, true) :=
  ⟨by decide, rfl, aggCall_deduplicate [] (by decide) rfl⟩

end EKuiper
