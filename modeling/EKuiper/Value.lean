import EKuiper.Strconv

/-!
# Go values as the aggregate functions see them

The aggregate library of `internal/binder/function/funcs_agg.go` works on Go `interface{}`
values: each argument of an aggregate call is a `[]interface{}` holding one evaluated value
per tuple of the group. `Value` is the closed set of dynamic types that flow there: `nil`,
the two integer types `int` and `int64` (64-bit words, the platform's `int` being 64 bits
wide), `float64`, `string`, `bool`, `[]interface{}`, and the `error` values the functions
return in place of a result.

Two pieces of `fmt` decide observable behaviour and are modelled here: the `%T` type name
and the `%v` text, which build every error message and, in `dedup`, the key under which a
column value is remembered. Go prints a `float64` under `%v` as the shortest decimal that
reads back as the same number, which `Strconv.formatFloat` computes; as it reads the float
through the runtime's `frexp`, no result of the development depends on a float's text.

Go strings are modelled by `String`; its order compares code points lexicographically, which
is the byte-wise order Go uses on their UTF-8 encodings.
-/

namespace EKuiper

/-- A Go `interface{}` value reaching the aggregate functions. -/
inductive Value where
  | null
  | int (i : BitVec 64)
  | int64 (i : BitVec 64)
  | float64 (f : Float)
  | string (s : String)
  | bool (b : Bool)
  | array (vs : List Value)
  | error (msg : String)
  deriving Inhabited

namespace Value

/-- `v == nil` for an interface value. -/
def isNull : Value → Bool
  | null => true
  | _ => false

/-- The `%T` verb: the name of the dynamic type. An error built by `fmt.Errorf` without
`%w` is an `*errors.errorString`. -/
def goTypeName : Value → String
  | null => "<nil>"
  | int _ => "int"
  | int64 _ => "int64"
  | float64 _ => "float64"
  | string _ => "string"
  | bool _ => "bool"
  | array _ => "[]interface {}"
  | error _ => "*errors.errorString"

mutual

/-- The `%v` verb, as `fmt.Sprintf("%v", v)` prints the value. -/
def sprintfV : Value → String
  | null => "<nil>"
  | int i => toString i.toInt
  | int64 i => toString i.toInt
  | float64 f => Strconv.formatFloat f
  | string s => s
  | bool b => toString b
  | array vs => "[" ++ sprintfList vs ++ "]"
  | error msg => msg

/-- The elements of a slice under `%v`, separated by single spaces. -/
def sprintfList : List Value → String
  | [] => ""
  | [v] => sprintfV v
  | v :: vs => sprintfV v ++ " " ++ sprintfList vs

end

/-! ### Type assertions -/

/-- The comma-ok assertion `v.(int)`. -/
@[simp]
def asInt : Value → Option (BitVec 64)
  | int i => some i
  | _ => none

/-- The comma-ok assertion `v.(float64)`. -/
@[simp]
def asFloat64 : Value → Option Float
  | float64 f => some f
  | _ => none

/-- The comma-ok assertion `v.(string)`. -/
@[simp]
def asString : Value → Option String
  | string s => some s
  | _ => none

/-- The value has dynamic type `int`. -/
@[simp]
def isInt (v : Value) : Bool := (asInt v).isSome

/-- The value has dynamic type `int64`. -/
@[simp]
def isInt64 : Value → Bool
  | int64 _ => true
  | _ => false

/-- The value has dynamic type `float64`. -/
@[simp]
def isFloat64 (v : Value) : Bool := (asFloat64 v).isSome

/-- The value has dynamic type `string`. -/
@[simp]
def isString (v : Value) : Bool := (asString v).isSome

/-- The value has dynamic type `bool`. -/
@[simp]
def isBool : Value → Bool
  | bool _ => true
  | _ => false

end Value

/-- The non-null entries of a group, in order: what every aggregate actually reads. -/
def nonNull (l : List Value) : List Value :=
  l.filter fun v => !v.isNull

@[simp]
theorem nonNull_nil : nonNull [] = [] := rfl

@[simp]
theorem nonNull_cons (v : Value) (l : List Value) :
    nonNull (v :: l) = if v.isNull then nonNull l else v :: nonNull l := by
  cases h : v.isNull <;> simp [nonNull, List.filter_cons, h]

theorem mem_nonNull {v : Value} {l : List Value} : v ∈ nonNull l ↔ v ∈ l ∧ v.isNull = false := by
  simp [nonNull]

/-- `unicode.ToLower` on the characters whose lower case is an ASCII letter: the ASCII
capitals, `İ` (U+0130), whose lower case is `i`, and the Kelvin sign (U+212A), whose lower
case is `k`. Every other character is kept. -/
def lowerChar (c : Char) : Char :=
  if c.val = 0x130 then 'i' else if c.val = 0x212A then 'k' else c.toLower

/-- Go's `strings.ToLower`, rune by rune. No character outside the three groups of
`lowerChar` has an ASCII letter as its lower case, so the result equals an ASCII name exactly
when Go's does, which is all `aggCall` asks of it. -/
def toLower (s : String) : String :=
  ⟨s.data.map lowerChar⟩

end EKuiper
