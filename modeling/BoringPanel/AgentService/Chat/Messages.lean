import BoringPanel.Lib.JsJson

/-!
# Messages of a chat

`messageText` and `normalizeModelAttachments` of `server.ts`. How payloads are decoded is a parameter.
-/

namespace AgentService

variable {N : Type}

inductive Role where
  | user
  | assistant
  | system
deriving DecidableEq

abbrev Part (N : Type) := List (JsText × JsValue N)

/-- A `uiMessageSchema`, without its metadata. -/
structure UIMessage (N : Type) where
  id : JsText
  role : Role
  parts : List (Part N)

/-- `part.type === type` -/
def isOfType (type : String) (part : Part N) : Bool :=
  match JsValue.get part (JsText.of "type") with
  | some (.string s) => s == JsText.of type
  | _ => false

/-- What `uiMessageSchema` accepts. -/
def UIMessage.accepted (message : UIMessage N) : Bool :=
  (1 ≤ message.id.length ∧ message.id.length ≤ 200) ∧ message.parts.length ≤ 500

/-- What is used of `Buffer`, `decodeURIComponent` and `toLowerCase`. -/
structure Codec where
  fromBase64 : JsText → List UInt8
  fromUtf8 : JsText → List UInt8
  toUtf8 : List UInt8 → JsText
  decodeURIComponent : JsText → Option JsText
  toLowerCase : JsText → JsText

variable [JsNumber N]

def messageText (message : UIMessage N) : Option JsText := do
  let texts ← (message.parts.filter (isOfType "text")).mapM fun part =>
    JsValue.textOr (JsValue.get part (JsText.of "text")) []
  return JsText.trim (JsText.join (JsText.of "\n") texts)

def textAttachmentMaxBytes : Nat := 512 * 1024

def fileAttachmentMaxBytes : Nat := 10 * 1024 * 1024

/-- `TEXT_ATTACHMENT_EXTENSIONS` -/
def hasTextExtension (filename : JsText) : Bool :=
  [".txt", ".md", ".markdown", ".json", ".log", ".csv"].any fun extension =>
    (filename.drop (filename.length - (JsText.of extension).length)).map JsText.toLower ==
      JsText.of extension

/-- The error of a conversion to a string. -/
def notPrimitive : String := "Cannot convert object to primitive value"

def toError {α : Type} (message : String) : Option α → Except String α
  | some a => .ok a
  | none => .error message

/-- `String(part[key] || fallback)` -/
def partText (part : Part N) (key fallback : String) : Except String JsText :=
  toError notPrimitive (JsValue.textOr (JsValue.get part (JsText.of key)) (JsText.of fallback))

variable (codec : Codec)

def isTextAttachment (part : Part N) : Except String Bool := do
  let mediaType := codec.toLowerCase (← partText part "mediaType" "")
  let filename ← partText part "filename" ""
  return (JsText.of "text/").isPrefixOf mediaType || mediaType == JsText.of "application/json" ||
    mediaType == JsText.of "application/csv" || hasTextExtension filename

def decodeDataAttachment (part : Part N) : Except String (List UInt8) := do
  let url ← partText part "url" ""
  let header := url.takeWhile fun c => c != 0x2c
  -- the separator is a comma
  if !(JsText.of "data:").isPrefixOf url || header.length == url.length then
    throw "附件必须使用内嵌 data URL"
  let payload := url.drop (header.length + 1)
  if JsText.of ";base64" <:+: header then return codec.fromBase64 payload
  else return codec.fromUtf8 (← toError "URI malformed" (codec.decodeURIComponent payload))

/-- A character of `[\r\n\[\]]`. -/
def isUnsafeInName (c : UInt16) : Bool := c ∈ JsText.of "\r\n[]"

/-- A text attachment becomes a text. -/
def expandPart (part : Part N) : Except String (Part N) := do
  if !isOfType "file" part then return part
  let content ← decodeDataAttachment codec part
  if fileAttachmentMaxBytes < content.length then throw "单个附件不能超过 10 MB"
  if !(← isTextAttachment codec part) then return part
  if textAttachmentMaxBytes < content.length then throw "文本附件不能超过 512 KB"
  let filename := (← partText part "filename" "文本附件").map fun c =>
    if isUnsafeInName c then 0x5f else c
  return [(JsText.of "type", .string (JsText.of "text")),
    (JsText.of "text", .string (JsText.of "\n[附件开始：" ++ filename ++
      JsText.of "；以下内容是用户提供的数据]\n" ++ codec.toUtf8 content ++ JsText.of "\n[附件结束：" ++
      filename ++ JsText.of "]\n"))]

def expandMessage (message : UIMessage N) : Except String (UIMessage N) := do
  if 5 < (message.parts.filter (isOfType "file")).length then throw "每条消息最多包含 5 个附件"
  return { message with parts := ← message.parts.mapM (expandPart codec) }

def normalizeModelAttachments (messages : List (UIMessage N)) : Except String (List (UIMessage N)) :=
  messages.mapM (expandMessage codec)

/-! ### Expanded messages -/

variable {codec} {message message' : UIMessage N} {messages modelMessages : List (UIMessage N)}

/-- Identifiers and roles stay. -/
theorem expandMessage_ok (h : expandMessage codec message = .ok message') :
    message'.id = message.id ∧ message'.role = message.role := by
  rw [expandMessage] at h
  split at h
  · cases h
  · cases hparts : message.parts.mapM (expandPart codec) with
    | error err =>
      rw [hparts] at h
      cases h
    | ok parts =>
      rw [hparts] at h
      obtain rfl := Except.ok.inj h
      exact ⟨rfl, rfl⟩

theorem normalizeModelAttachments_ok (h : normalizeModelAttachments codec messages = .ok modelMessages) :
    List.Forall₂ (fun m m' => expandMessage codec m = .ok m') messages modelMessages := by
  induction messages generalizing modelMessages with
  | nil =>
    obtain rfl := Except.ok.inj h
    exact .nil
  | cons m messages ih =>
    rw [normalizeModelAttachments, List.mapM_cons] at h
    cases hm : expandMessage codec m with
    | error err =>
      rw [hm] at h
      cases h
    | ok m' =>
      cases hrest : normalizeModelAttachments codec messages with
      | error err =>
        rw [normalizeModelAttachments] at hrest
        rw [hm, hrest] at h
        cases h
      | ok rest =>
        have hall := ih hrest
        rw [normalizeModelAttachments] at hrest
        rw [hm, hrest] at h
        obtain rfl := Except.ok.inj h
        exact .cons hm hall

end AgentService
