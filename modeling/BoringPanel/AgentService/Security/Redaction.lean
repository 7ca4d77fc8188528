import BoringPanel.AgentService.Security.InputSecurity
import BoringPanel.Lib.JsJson
import BoringPanel.Lib.RegexReplace

/-!
# Hiding secrets

`redactString`, `sanitizeValue`, `stableValue` and `serializeContent`, which `memory/index.ts` and
`evidence.ts` both have, with a limit of their own for the length of a content. The order of
`localeCompare` is a parameter.

What has been redacted is not redacted again (`redactString_take`). Contents that differ in what is
hidden only have the same serialization (`serializeContent_eq_of_masked`): the values of secret keys, and
the parts of texts that `SECRET_VALUE` matches.
-/

namespace AgentService

/-- What is written in the place of a secret. -/
def hidden : JsText := JsText.of "[敏感信息已隐藏]"

/-- `SECRET_KEY`. -/
def secretKey : Regex UInt16 := .oneOf [
  literal "authorization",
  .seq (literal "api") (.seq (gap 1) (literal "key")),
  literal "token", literal "password",
  .seq (literal "private") (.seq (gap 1) (literal "key")),
  literal "passphrase", literal "credential", literal "secret"]

/-- `[a-z0-9]` under the flag `i`, and some other characters. -/
def alphanumericOr (others : String) (c : UInt16) : Bool :=
  (0x30 ≤ c ∧ c ≤ 0x39) ∨ (0x61 ≤ JsText.toLower c ∧ JsText.toLower c ≤ 0x7a) ∨ c ∈ JsText.of others

/-- `[A-Z ]` under the flag `i`. -/
def letterOrBlank (c : UInt16) : Bool :=
  (0x61 ≤ JsText.toLower c ∧ JsText.toLower c ≤ 0x7a) ∨ c = JsText.blank

def bearerToken : Regex UInt16 := .seq (literal "bearer") (.seq spaces (.plus (alphanumericOr "._~-")))

def skKey : Regex UInt16 := .seq (literal "sk-") (.atLeast (alphanumericOr "._-") 12)

def pemHeader : Regex UInt16 :=
  .seq (literal "-----BEGIN ") (.seq (.star letterOrBlank) (literal "PRIVATE KEY-----"))

/-- `SECRET_VALUE`. -/
def secretValue : Regex UInt16 := .oneOf [bearerToken, skKey, pemHeader]

def redactString (value : JsText) : JsText := secretValue.replace hidden value

variable {N : Type}

/-! ### Contents -/

def tooDeep : JsValue N := .string (JsText.of "[内容层级过深]")

mutual

/-- `sanitizeValue`; the items and members behind the first 300 are dropped afterwards. -/
def sanitizeValue (depth : Nat) : JsValue N → JsValue N
  | .string s => if 8 < depth then tooDeep else .string ((redactString s).take 80000)
  | .array items => if 8 < depth then tooDeep else .array ((sanitizeItems (depth + 1) items).take 300)
  | .object members =>
    if 8 < depth then tooDeep else .object ((sanitizeMembers (depth + 1) members).take 300)
  | value => if 8 < depth then tooDeep else value

def sanitizeItems (depth : Nat) : List (JsValue N) → List (JsValue N)
  | [] => []
  | item :: items => sanitizeValue depth item :: sanitizeItems depth items

def sanitizeMembers (depth : Nat) : List (JsText × JsValue N) → List (JsText × JsValue N)
  | [] => []
  | (key, child) :: members =>
    (key, if secretKey.test key then .string hidden else sanitizeValue depth child) ::
      sanitizeMembers depth members

end

section Serialize

variable (localeCompare : JsText → JsText → Ordering)

mutual

/-- `stableValue`; the members are sorted afterwards. -/
def stableValue : JsValue N → JsValue N
  | .array items => .array (stableItems items)
  | .object members =>
    JsValue.fromEntries ((stableMembers members).mergeSort fun e e' => localeCompare e.1 e'.1 != .gt)
  | value => value

def stableItems : List (JsValue N) → List (JsValue N)
  | [] => []
  | item :: items => stableValue item :: stableItems items

def stableMembers : List (JsText × JsValue N) → List (JsText × JsValue N)
  | [] => []
  | (key, child) :: members => (key, stableValue child) :: stableMembers members

end

variable [JsNumber N]

/-- A content, and the value whose text is stored. -/
structure Serialized (N : Type) where
  content : JsValue N
  stored : JsValue N

def Serialized.json (serialized : Serialized N) : JsText := serialized.stored.stringify

def serializeContent (maxContentBytes : Nat) (value : JsValue N) : Serialized N :=
  let content := sanitizeValue 0 value
  let stored := stableValue localeCompare content
  if JsText.byteLength stored.stringify ≤ maxContentBytes then ⟨content, stored⟩
  else
    let truncated : JsValue N := .object
      [(JsText.of "truncated", .bool true),
        (JsText.of "preview", .string (stored.stringify.take maxContentBytes))]
    ⟨truncated, truncated⟩

end Serialize

/-! ### What is hidden -/

theorem secretValue_consuming : secretValue.Consuming := ⟨rfl, rfl⟩

theorem hidden_foreign : ∀ c ∈ hidden, secretValue.foreign c = true := List.all_eq_true.mp (by decide)

/-- What has been redacted, and cut, is not redacted again. -/
theorem redactString_take (s : JsText) (n : Nat) :
    redactString ((redactString s).take n) = (redactString s).take n :=
  Regex.replace_take_replace secretValue_consuming (by decide) hidden_foreign n

mutual

/-- Two values differ in what `sanitizeValue` hides or drops only. -/
inductive MaskedValue : Nat → JsValue N → JsValue N → Prop
  | same {depth value} : MaskedValue depth value value
  | deep {depth value value'} (h : 8 < depth) : MaskedValue depth value value'
  | string {depth s s'} (h : secretValue.Masked s s') : MaskedValue depth (.string s) (.string s')
  | array {depth items items'} (h : MaskedItems (depth + 1) 300 items items') :
      MaskedValue depth (.array items) (.array items')
  | object {depth members members'} (h : MaskedMembers (depth + 1) 300 members members') :
      MaskedValue depth (.object members) (.object members')

/-- The same for the first items of arrays. -/
inductive MaskedItems : Nat → Nat → List (JsValue N) → List (JsValue N) → Prop
  | nil {depth n} : MaskedItems depth n [] []
  | dropped {depth items items'} : MaskedItems depth 0 items items'
  | cons {depth n item item' items items'} (hitem : MaskedValue depth item item')
      (h : MaskedItems depth n items items') :
      MaskedItems depth (n + 1) (item :: items) (item' :: items')

/-- The same for the first members of objects. -/
inductive MaskedMembers : Nat → Nat → List (JsText × JsValue N) → List (JsText × JsValue N) → Prop
  | nil {depth n} : MaskedMembers depth n [] []
  | dropped {depth members members'} : MaskedMembers depth 0 members members'
  | secret {depth n key child child' members members'} (hkey : secretKey.test key = true)
      (h : MaskedMembers depth n members members') :
      MaskedMembers depth (n + 1) ((key, child) :: members) ((key, child') :: members')
  | cons {depth n key child child' members members'} (hchild : MaskedValue depth child child')
      (h : MaskedMembers depth n members members') :
      MaskedMembers depth (n + 1) ((key, child) :: members) ((key, child') :: members')

end

theorem redactString_eq_of_masked {s s' : JsText} (h : secretValue.Masked s s') :
    redactString s = redactString s' :=
  Regex.replace_eq_of_masked h

theorem sanitizeValue_of_deep {depth : Nat} (h : 8 < depth) (value : JsValue N) :
    sanitizeValue depth value = tooDeep := by
  cases value with
  | _ => exact if_pos h

mutual

theorem sanitizeValue_eq_of_masked {depth : Nat} {value value' : JsValue N} :
    MaskedValue depth value value' → sanitizeValue depth value = sanitizeValue depth value'
  | .same => rfl
  | .deep h => by rw [sanitizeValue_of_deep h, sanitizeValue_of_deep h]
  | .string h => by rw [sanitizeValue, sanitizeValue, redactString_eq_of_masked h]
  | .array h => by rw [sanitizeValue, sanitizeValue, sanitizeItems_eq_of_masked h]
  | .object h => by rw [sanitizeValue, sanitizeValue, sanitizeMembers_eq_of_masked h]

theorem sanitizeItems_eq_of_masked {depth n : Nat} {items items' : List (JsValue N)} :
    MaskedItems depth n items items' →
      (sanitizeItems depth items).take n = (sanitizeItems depth items').take n
  | .nil => rfl
  | .dropped => by rw [List.take_zero, List.take_zero]
  | .cons hitem h => by
    rw [sanitizeItems, sanitizeItems, List.take_succ_cons, List.take_succ_cons,
      sanitizeValue_eq_of_masked hitem, sanitizeItems_eq_of_masked h]

theorem sanitizeMembers_eq_of_masked {depth n : Nat} {members members' : List (JsText × JsValue N)} :
    MaskedMembers depth n members members' →
      (sanitizeMembers depth members).take n = (sanitizeMembers depth members').take n
  | .nil => rfl
  | .dropped => by rw [List.take_zero, List.take_zero]
  | .secret hkey h => by
    rw [sanitizeMembers, sanitizeMembers, List.take_succ_cons, List.take_succ_cons, if_pos hkey,
      if_pos hkey, sanitizeMembers_eq_of_masked h]
  | .cons hchild h => by
    rw [sanitizeMembers, sanitizeMembers, List.take_succ_cons, List.take_succ_cons,
      sanitizeValue_eq_of_masked hchild, sanitizeMembers_eq_of_masked h]

end

/-- Contents that differ in what is hidden only have the same serialization. -/
theorem serializeContent_eq_of_masked [JsNumber N] (localeCompare : JsText → JsText → Ordering)
    (maxContentBytes : Nat) {value value' : JsValue N} (h : MaskedValue 0 value value') :
    serializeContent localeCompare maxContentBytes value =
      serializeContent localeCompare maxContentBytes value' := by
  rw [serializeContent, serializeContent, sanitizeValue_eq_of_masked h]

end AgentService
