import BoringPanel.Lib.Go
import Mathlib.Data.Int.Log
import Mathlib.Data.Rat.Floor

/-!
# Arithmetic of `float64`

The operations and comparisons of `float64` that a program computes with (`GoMath`). They are fields,
as those of `GoFloat`: nothing is assumed about rounding, and of the comparison that it is a strict order
in which values that are not numbers have no place. The rational numbers are an instance, for the values
that a `float64` holds exactly.

Beside it stand the comparisons that follow (`GoMath.eq` and `GoMath.le`), and the two infinities with what
orders them (`GoLimits`). The extended rationals with a value that is no number are an instance (`GoNumber`):
their arithmetic is that of `float64` without rounding.
-/

/-- A `float64` to compute with. -/
class GoMath (F : Type) extends GoFloat F where
  add : F → F → F
  mul : F → F → F
  div : F → F → F
  neg : F → F
  /-- `a < b`, which is false if one of them is not a number. -/
  lt : F → F → Bool
  /-- A constant of the program text. -/
  const : ℚ → F
  /-- `math.Abs`. -/
  abs : F → F
  /-- `math.Ceil`. -/
  ceil : F → F
  /-- `math.Round`. -/
  round : F → F
  /-- `math.Log10`. -/
  log10 : F → F
  /-- `math.Pow`. -/
  pow : F → F → F
  lt_asymm : ∀ x y, lt x y = true → lt y x = false
  not_lt_trans : ∀ x y z, isNaN y = false → lt x y = false → lt y z = false → lt x z = false

namespace GoMath

/-- The rational numbers; `log10` is the greatest whole number below it, and powers are those with a
whole exponent. -/
instance rational : GoMath ℚ where
  ofInt n := n
  toInt x := if 0 ≤ x then ⌊x⌋ else ⌈x⌉
  formatV x := toString x
  formatF x := toString x
  parse _ := none
  isNaN _ := false
  isInf _ := false
  add x y := x + y
  mul x y := x * y
  div x y := x / y
  neg x := -x
  lt x y := x < y
  const q := q
  abs x := |x|
  ceil x := ⌈x⌉
  round x := if 0 ≤ x then ⌊x + 1 / 2⌋ else ⌈x - 1 / 2⌉
  log10 x := Int.log 10 x
  pow x y := x ^ ⌊y⌋
  lt_asymm x y h := by
    rw [decide_eq_true_eq] at h
    exact decide_eq_false h.asymm
  not_lt_trans x y z _ hxy hyz := by
    rw [decide_eq_false_iff_not] at hxy hyz
    exact decide_eq_false ((not_lt.mp hyz).trans (not_lt.mp hxy)).not_gt

end GoMath

namespace GoMath

section Comparisons

variable {F : Type} [GoMath F]

/-- `x == y` -/
def eq (x y : F) : Bool := !GoFloat.isNaN x && !GoFloat.isNaN y && !lt x y && !lt y x

/-- `x <= y` -/
def le (x y : F) : Bool := lt x y || eq x y

end Comparisons

end GoMath

/-- `math.Inf`, and what comparisons with values that are no numbers are. -/
class GoLimits (F : Type) extends GoMath F where
  posInf : F
  negInf : F
  lt_of_isNaN : ∀ x y, (isNaN x || isNaN y) = true → lt x y = false
  lt_posInf : ∀ x, isNaN x = false → isInf x = false → lt x posInf = true
  negInf_lt : ∀ x, isNaN x = false → isInf x = false → lt negInf x = true
  isNaN_abs : ∀ x, isNaN (abs x) = isNaN x
  not_abs_lt : ∀ x, lt (abs x) x = false

namespace GoMath

section Limits

variable {F : Type} [GoLimits F] {x y : F}

theorem eq_self (hx : GoFloat.isNaN x = false) : eq x x = true := by
  have hirrefl : lt x x = false := by
    cases h : lt x x with
    | false => rfl
    | true => exact h.symm.trans (lt_asymm x x h)
  simp only [eq, hx, hirrefl, Bool.not_false, Bool.and_self]

theorem le_self (hx : GoFloat.isNaN x = false) : le x x = true := by
  rw [le, eq_self hx, Bool.or_true]

theorem le_of_isNaN (h : (GoFloat.isNaN x || GoFloat.isNaN y) = true) : le x y = false := by
  rw [le, GoLimits.lt_of_isNaN x y h, eq]
  cases hx : GoFloat.isNaN x with
  | true => rfl
  | false =>
    rw [hx, Bool.false_or] at h
    rw [h]
    rfl

/-- Numbers are compared. -/
theorem not_le (hx : GoFloat.isNaN x = false) (hy : GoFloat.isNaN y = false) : (!le x y) = lt y x := by
  rw [le, eq, hx, hy]
  cases hxy : lt x y with
  | true =>
    rw [lt_asymm x y hxy]
    rfl
  | false =>
    cases hyx : lt y x with
    | true => rfl
    | false => rfl

theorem not_lt (hx : GoFloat.isNaN x = false) (hy : GoFloat.isNaN y = false) : (!lt x y) = le y x := by
  rw [← not_le hy hx, Bool.not_not]

theorem le_abs (hx : GoFloat.isNaN x = false) : le x (abs x) = true := by
  rw [← not_lt ((GoLimits.isNaN_abs x).trans hx) hx, GoLimits.not_abs_lt]
  rfl

end Limits

end GoMath

/-- A rational number, an infinity, or no number. -/
inductive GoNumber where
  | finite (q : ℚ)
  | inf (negative : Bool)
  | nan
deriving DecidableEq

namespace GoNumber

def isNaN : GoNumber → Bool
  | nan => true
  | _ => false

def isInf : GoNumber → Bool
  | inf _ => true
  | _ => false

def lt : GoNumber → GoNumber → Bool
  | finite a, finite b => a < b
  | finite _, inf negative => !negative
  | inf negative, finite _ => negative
  | inf negative, inf negative' => negative && !negative'
  | _, _ => false

def neg : GoNumber → GoNumber
  | finite a => finite (-a)
  | inf negative => inf !negative
  | nan => nan

def add : GoNumber → GoNumber → GoNumber
  | finite a, finite b => finite (a + b)
  | finite _, inf negative => inf negative
  | inf negative, finite _ => inf negative
  | inf negative, inf negative' => if negative = negative' then inf negative else nan
  | _, _ => nan

/-- An infinity times a number. -/
def scaled (negative : Bool) (a : ℚ) : GoNumber :=
  if a = 0 then nan else inf (negative ^^ decide (a < 0))

def mul : GoNumber → GoNumber → GoNumber
  | finite a, finite b => finite (a * b)
  | finite a, inf negative => scaled negative a
  | inf negative, finite a => scaled negative a
  | inf negative, inf negative' => inf (negative ^^ negative')
  | _, _ => nan

/-- There is one zero. -/
def div : GoNumber → GoNumber → GoNumber
  | finite a, finite b =>
    if b = 0 then if a = 0 then nan else inf (a < 0)
    else finite (a / b)
  | finite _, inf _ => finite 0
  | inf negative, finite b => inf (negative ^^ decide (b < 0))
  | _, _ => nan

def abs : GoNumber → GoNumber
  | finite a => finite |a|
  | inf _ => inf false
  | nan => nan

/-- A function of the rational numbers that is none of the others. -/
def lift (f : ℚ → ℚ) : GoNumber → GoNumber
  | finite a => finite (f a)
  | x => x

def truncate : GoNumber → Int
  | finite a => GoFloat.toInt a
  | _ => 0

def format : GoNumber → String
  | finite a => toString a
  | inf negative => if negative then "-Inf" else "+Inf"
  | nan => "NaN"

def pow : GoNumber → GoNumber → GoNumber
  | finite a, finite b => finite (GoMath.pow a b)
  | _, _ => nan

theorem lt_asymm (x y : GoNumber) (h : lt x y = true) : lt y x = false := by
  cases x <;> cases y <;> grind [lt]

theorem not_lt_trans (x y z : GoNumber) (hy : isNaN y = false) (hxy : lt x y = false)
    (hyz : lt y z = false) : lt x z = false := by
  cases x <;> cases y <;> cases z <;> grind [lt, isNaN]

instance : GoLimits GoNumber where
  ofInt n := finite n
  toInt := truncate
  formatV := format
  formatF := format
  parse _ := none
  isNaN := isNaN
  isInf := isInf
  add := add
  mul := mul
  div := div
  neg := neg
  lt := lt
  const q := finite q
  abs := abs
  ceil := lift GoMath.ceil
  round := lift GoMath.round
  log10 := lift GoMath.log10
  pow := pow
  lt_asymm := lt_asymm
  not_lt_trans := not_lt_trans
  posInf := inf false
  negInf := inf true
  lt_of_isNaN x y h := by
    cases x <;> cases y <;> first | rfl | cases h
  lt_posInf x hnan hinf := by
    cases x with
    | finite a => rfl
    | inf negative => cases hinf
    | nan => cases hnan
  negInf_lt x hnan hinf := by
    cases x with
    | finite a => rfl
    | inf negative => cases hinf
    | nan => cases hnan
  isNaN_abs x := by
    cases x <;> rfl
  not_abs_lt x := by
    cases x with
    | finite a => exact decide_eq_false (le_abs_self a).not_gt
    | inf negative => rfl
    | nan => rfl

end GoNumber
