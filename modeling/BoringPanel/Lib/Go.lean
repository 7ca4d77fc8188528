import Mathlib.Data.Finmap
import Mathlib.Data.List.Sort
import Mathlib.Data.String.Basic

/-!
# What Go gives a program

The parts of the Go language and its standard library that the models of this development share.
`float64` is a type parameter: a model only needs the conversions and formats that its program
calls, and they are the fields of `GoFloat`. Maps from strings to strings are Mathlib's finite
maps, whose equality is that of the mappings.
-/

/-- A `float64`, through the operations that Go programs here apply to it. -/
class GoFloat (F : Type) where
  /-- The conversion `float64(n)` of an integer. -/
  ofInt : Int → F
  /-- The conversion `int64(x)`. -/
  toInt : F → Int
  /-- `fmt.Sprintf("%v", x)`. -/
  formatV : F → String
  /-- `fmt.Sprintf("%f", x)`. -/
  formatF : F → String
  /-- `strconv.ParseFloat(s, 64)`, `none` where it returns an error. -/
  parse : String → Option F
  /-- `math.IsNaN(x)`. -/
  isNaN : F → Bool
  /-- `math.IsInf(x, 0)`. -/
  isInf : F → Bool

/-- The whole numbers, as the `float64` values below `2^53` that have no fraction. -/
instance : GoFloat Int where
  ofInt n := n
  toInt n := n
  formatV n := toString n
  formatF n := toString n ++ ".000000"
  parse s := s.toInt?
  isNaN _ := false
  isInf _ := false

namespace Go

/-- A step that returns no error. -/
@[simp] theorem ok_bind {ε α β : Type} (a : α) (f : α → Except ε β) :
    (Except.ok a >>= f) = f a := rfl

@[simp] theorem error_bind {ε α β : Type} (e : ε) (f : α → Except ε β) :
    (Except.error e >>= f) = .error e := rfl

/-- The `int64` with the low 64 bits of an integer. -/
def int64 (n : Int) : Int := n.bmod (2 ^ 64)

theorem int64_lt (n : Int) : int64 n < 2 ^ 63 := by
  have := Int.bmod_lt (x := n) (m := 2 ^ 64) (by decide)
  unfold int64
  omega

theorem int64_eq {n : Int} (hl : -2 ^ 63 ≤ n) (hu : n < 2 ^ 63) : int64 n = n := by
  unfold int64
  rw [Int.bmod_def]
  split <;> omega

/-- The integer that `float64(n)` holds: `n` rounded to 53 bits, ties to even. -/
def roundFloat64 (n : Int) : Int :=
  if n.natAbs ≤ 2 ^ 53 then n
  else
    let unit := 2 ^ (n.natAbs.log2 - 52)
    let q := n.natAbs / unit
    let r := n.natAbs % unit
    let q := if 2 * r > unit ∨ 2 * r = unit ∧ q % 2 = 1 then q + 1 else q
    n.sign * (q * unit : Nat)

theorem roundFloat64_eq {n : Int} (h : n.natAbs ≤ 2 ^ 53) : roundFloat64 n = n := if_pos h

/-- `int64(math.Min(float64(a), float64(b)))`. -/
def minFloat64 (a b : Int) : Int := min (roundFloat64 a) (roundFloat64 b)

theorem minFloat64_eq {a b : Int} (ha : a.natAbs ≤ 2 ^ 53) (hb : b.natAbs ≤ 2 ^ 53) :
    minFloat64 a b = min a b := by
  rw [minFloat64, roundFloat64_eq ha, roundFloat64_eq hb]

/-- A `map[string]string`. -/
abbrev StringMap := Finmap (fun _ : String => String)

/-- `sort.Strings`. -/
def sortStrings (l : List String) : List String := l.insertionSort (· ≤ ·)

theorem sortStrings_perm (l : List String) : (sortStrings l).Perm l :=
  List.perm_insertionSort _ l

/-- Sorting forgets the order of the list it is given. -/
theorem sortStrings_congr {l l' : List String} (h : l.Perm l') :
    sortStrings l = sortStrings l' :=
  List.Perm.eq_of_pairwise' (List.pairwise_insertionSort _ l) (List.pairwise_insertionSort _ l')
    (((sortStrings_perm l).trans h).trans (sortStrings_perm l').symm)

/-- `strings.Join`. -/
def join (sep : String) : List String → String
  | [] => ""
  | [s] => s
  | s :: t :: rest => s ++ sep ++ join sep (t :: rest)

end Go
