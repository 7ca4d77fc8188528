import BoringPanel.Lib.JsText

/-!
# JSON in JavaScript

What `JSON.parse` gives, with the conversions to strings and to Booleans; numbers are of any type
(`JsNumber`). The texts of such values: `JSON.stringify`, compact or with an indentation, the length of a
text in UTF-8, and `Object.fromEntries`.
-/

/-- What is used of numbers. -/
class JsNumber (N : Type) where
  /-- `String(n)` -/
  text : N → JsText
  isZero : N → Bool

/-- Whole numbers. -/
instance : JsNumber Int where
  text n := JsText.of (toString n)
  isZero n := n == 0

/-- The members of an object have different keys. -/
inductive JsValue (N : Type) where
  | null
  | bool (b : Bool)
  | number (n : N)
  | string (s : JsText)
  | array (items : List (JsValue N))
  | object (members : List (JsText × JsValue N))

namespace JsValue

variable {N : Type}

/-- Induction over the parts of a value. -/
@[elab_as_elim]
theorem induction {motive : JsValue N → Prop} (null : motive null) (bool : ∀ b, motive (bool b))
    (number : ∀ n, motive (number n)) (string : ∀ s, motive (string s))
    (array : ∀ items, (∀ item ∈ items, motive item) → motive (array items))
    (object : ∀ members, (∀ member ∈ members, motive member.2) → motive (object members))
    (value : JsValue N) : motive value :=
  @JsValue.rec N motive (fun items => ∀ item ∈ items, motive item)
    (fun members => ∀ member ∈ members, motive member.2) (fun member => motive member.2)
    null bool number string array object
    (fun _ h => absurd h List.not_mem_nil) (fun _ _ hv hrest => List.forall_mem_cons.mpr ⟨hv, hrest⟩)
    (fun _ h => absurd h List.not_mem_nil) (fun _ _ hv hrest => List.forall_mem_cons.mpr ⟨hv, hrest⟩)
    (fun _ _ hv => hv) value

/-- `object[key]` -/
def get (members : List (JsText × JsValue N)) (key : JsText) : Option (JsValue N) :=
  members.lookup key

variable [JsNumber N]

mutual

/-- `String(value)`: an object without the `toString` that all have cannot be converted. -/
def toText : JsValue N → Option JsText
  | null => some (JsText.of "null")
  | bool true => some (JsText.of "true")
  | bool false => some (JsText.of "false")
  | number n => some (JsNumber.text n)
  | string s => some s
  | array items => (itemTexts items).map (JsText.join (JsText.of ","))
  | object members =>
    if (get members (JsText.of "toString")).isSome then none else some (JsText.of "[object Object]")

/-- The items of an array, of which `null` is empty. -/
def itemTexts : List (JsValue N) → Option (List JsText)
  | [] => some []
  | null :: items => (itemTexts items).map ([] :: ·)
  | item :: items =>
    match toText item, itemTexts items with
    | some s, some rest => some (s :: rest)
    | _, _ => none

end

def truthy : JsValue N → Bool
  | null => false
  | bool b => b
  | number n => !JsNumber.isZero n
  | string s => s != []
  | array _ => true
  | object _ => true

/-- `String(value || fallback)` -/
def textOr (value : Option (JsValue N)) (fallback : JsText) : Option JsText :=
  match value with
  | some v => if v.truthy then v.toText else some fallback
  | none => some fallback

end JsValue

namespace JsText

def isHighSurrogate (c : UInt16) : Bool := 0xd800 ≤ c ∧ c ≤ 0xdbff

def isLowSurrogate (c : UInt16) : Bool := 0xdc00 ≤ c ∧ c ≤ 0xdfff

def headIsLow : JsText → Bool
  | [] => false
  | c :: _ => isLowSurrogate c

def hexDigit (n : Nat) : UInt16 := if n < 10 then (0x30 + n).toUInt16 else (0x57 + n).toUInt16

def unicodeEscape (c : UInt16) : JsText :=
  of "\\u" ++ [hexDigit (c.toNat / 0x1000), hexDigit (c.toNat / 0x100 % 0x10),
    hexDigit (c.toNat / 0x10 % 0x10), hexDigit (c.toNat % 0x10)]

/-- A code unit in a string of JSON, but for surrogates. -/
def quoteUnit (c : UInt16) : JsText :=
  if c = 0x22 ∨ c = 0x5c then [0x5c, c]
  else if c = 0x08 then of "\\b"
  else if c = 0x09 then of "\\t"
  else if c = 0x0a then of "\\n"
  else if c = 0x0c then of "\\f"
  else if c = 0x0d then of "\\r"
  else if c < 0x20 then unicodeEscape c
  else [c]

/-- The code units of a string of JSON; a surrogate without its other half is escaped. -/
def quoteUnits (afterHigh : Bool) : JsText → JsText
  | [] => []
  | c :: s =>
    if isHighSurrogate c then
      (if headIsLow s then [c] else unicodeEscape c) ++ quoteUnits (headIsLow s) s
    else if isLowSurrogate c then
      (if afterHigh then [c] else unicodeEscape c) ++ quoteUnits false s
    else quoteUnit c ++ quoteUnits false s

def quote (s : JsText) : JsText := of "\"" ++ quoteUnits false s ++ of "\""

/-- `Buffer.byteLength`; a surrogate without its other half is written as U+FFFD. -/
def byteLength : JsText → Nat
  | [] => 0
  | c :: s =>
    (if c < 0x80 then 1
    else if c < 0x800 then 2
    -- a pair takes four bytes
    else if isHighSurrogate c && headIsLow s then 1
    else 3) + byteLength s

end JsText

namespace JsValue

open JsText (of join quote)

variable {N : Type}

/-- The text between the brackets of an array or an object. -/
def wrap (gap indent opening closing : JsText) (parts : List JsText) : JsText :=
  if parts = [] then opening ++ closing
  else if gap = [] then opening ++ join (of ",") parts ++ closing
  else
    opening ++ of "\n" ++ indent ++ gap ++ join (of ",\n" ++ indent ++ gap) parts ++ of "\n" ++ indent ++
      closing

section Stringify

variable [JsNumber N] (gap : JsText)

mutual

/-- `JSON.stringify(value, null, gap)` -/
def stringifyWith (indent : JsText) : JsValue N → JsText
  | null => of "null"
  | bool b => of (toString b)
  | number n => JsNumber.text n
  | string s => quote s
  | array items => wrap gap indent (of "[") (of "]") (stringifyItems (indent ++ gap) items)
  | object members => wrap gap indent (of "\x7b") (of "\x7d") (stringifyMembers (indent ++ gap) members)

def stringifyItems (indent : JsText) : List (JsValue N) → List JsText
  | [] => []
  | item :: items => stringifyWith indent item :: stringifyItems indent items

def stringifyMembers (indent : JsText) : List (JsText × JsValue N) → List JsText
  | [] => []
  | (key, child) :: members =>
    (quote key ++ of ":" ++ (if gap = [] then [] else of " ") ++ stringifyWith indent child) ::
      stringifyMembers indent members

end

end Stringify

/-- `JSON.stringify(value)` -/
def stringify [JsNumber N] (value : JsValue N) : JsText := stringifyWith [] [] value

/-! ### Members -/

/-- The keys that are enumerated before the others, as numbers: those of array indices. -/
def arrayIndex (key : JsText) : Option Nat :=
  let digits := key.map fun c => c.toNat - 0x30
  if key ≠ [] ∧ (key.all fun c => 0x30 ≤ c ∧ c ≤ 0x39) ∧ (key.head? = some 0x30 → key.length = 1) then
    let n := digits.foldl (fun n d => 10 * n + d) 0
    if n < 4294967295 then some n else none
  else none

/-- `Object.fromEntries`, of entries with different keys: array indices come first, in their order. -/
def fromEntries (entries : List (JsText × JsValue N)) : JsValue N :=
  .object ((entries.filter fun e => (arrayIndex e.1).isSome).mergeSort
      (fun e e' => (arrayIndex e.1).getD 0 ≤ (arrayIndex e'.1).getD 0) ++
    entries.filter fun e => (arrayIndex e.1).isNone)

end JsValue
