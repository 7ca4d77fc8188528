import BoringPanel.QueryService.Utils.Format

/-!
# Casting filter values

`ValidateAndCastValue` of `utils/format.go`: the value of a filter item as a value of the type of its
key. What it returns is homogeneous, so that `clickHouseFormattedValue` does not panic on it.
-/

namespace QueryService

variable {F : Type} [GoFloat F]

/-- Why no SQL is built: an error, or a panic. -/
inductive BuildError where
  | error (message : String)
  | panic
deriving DecidableEq, Repr

/-- `reflect.TypeOf(v)`, as `%v` prints it. -/
def GoValue.typeOf : GoValue F → String
  | .nil => "<nil>"
  | .bool _ => "bool"
  | .int _ => "int64"
  | .float _ => "float64"
  | .string _ => "string"
  | .array _ => "[]interface \x7b\x7d"
  | .object _ => "map[string]interface \x7b\x7d"

namespace Utils

/-- The error for a value of another type than expected. -/
def invalidDataType (expected : String) (v : GoValue F) : Except BuildError (GoValue F) :=
  .error (.error ("invalid data type, expected " ++ expected ++ ", got " ++ v.typeOf))

def castString : GoValue F → Except BuildError (GoValue F)
  | .string s => .ok (.string s)
  | .bool b => .ok (.string (GoValue.bool (F := F) b).formatV)
  | .int n => .ok (.string (GoValue.int (F := F) n).formatV)
  | .float x => .ok (.string (GoValue.float x).formatV)
  | v => invalidDataType "string" v

def castBool : GoValue F → Except BuildError (GoValue F)
  | .bool b => .ok (.bool b)
  | .string s =>
    match Go.parseBool s with
    | some b => .ok (.bool b)
    | none => invalidDataType "bool" (F := F) (.string s)
  | v => invalidDataType "bool" v

/-- An element of a list: a `float64` is refused. -/
def castInt64 : GoValue F → Except BuildError (GoValue F)
  | .int n => .ok (.int n)
  | .string s =>
    match Go.parseInt s with
    | some n => .ok (.int n)
    | none => invalidDataType "int" (F := F) (.string s)
  | v => invalidDataType "int" v

def castFloat64 : GoValue F → Except BuildError (GoValue F)
  | .float x => .ok (.float x)
  | .int n => .ok (.float (GoFloat.ofInt n))
  | .string s =>
    match GoFloat.parse s with
    | some x => .ok (.float x)
    | none => invalidDataType "float" (F := F) (.string s)
  | v => invalidDataType "float" v

/-- `ValidateAndCastValue`. -/
def validateAndCastValue (v : GoValue F) (dataType : AttributeKeyDataType) :
    Except BuildError (GoValue F) :=
  match dataType, v with
  | .string, .array vs => (vs.mapM castString).map .array
  | .string, v => castString v
  | .bool, .array vs => (vs.mapM castBool).map .array
  | .bool, v => castBool v
  | .int64, .array vs => (vs.mapM castInt64).map .array
  | .int64, .float x => .ok (.int (GoFloat.toInt x))
  | .int64, v => castInt64 v
  | .float64, .array vs => (vs.mapM castFloat64).map .array
  | .float64, v => castFloat64 v
  | dataType, _ => .error (.error
      ("invalid data type, expected float, bool, int, string or []interface\x7b\x7d but got " ++
        dataType.toString))

end Utils

end QueryService
