import BoringPanel.AgentService.Security.Redaction
import Mathlib.Algebra.Order.Ring.Unbundled.Rat
import Mathlib.Data.List.Sort

/-!
# Texts of memories

What `memory/index.ts` computes of texts: tokens and keywords, parts of a text, names of services, the
similarity of two texts, and how much they contradict each other. What Unicode and the locale say is a
parameter (`Texts`). Quotients are exact.
-/

namespace AgentService

/-- The functions of the platform on texts. -/
structure Texts where
  nfkc : JsText → JsText
  toLowerCase : JsText → JsText
  localeCompare : JsText → JsText → Ordering
  /-- `createHash('sha256').update(text).digest('hex')` -/
  sha256 : JsText → JsText

/-- `Math.max(0, Math.min(100, Math.round(value)))` -/
def clampScore (value : ℚ) : Int := max 0 (min 100 (value + 1 / 2).floor)

/-! ### Tokens -/

section Tokens

variable (texts : Texts)

/-- `[\u3400-\u9fff]` -/
def isHan (c : UInt16) : Bool := 0x3400 ≤ c ∧ c ≤ 0x9fff

/-- A character of a token: a lower case letter, a digit, a Chinese character or a mark in names. -/
def isTokenUnit (c : UInt16) : Bool :=
  (0x61 ≤ c ∧ c ≤ 0x7a) ∨ (0x30 ≤ c ∧ c ≤ 0x39) ∨ isHan c ∨ c ∈ JsText.of "_.:-/"

/-- The pairs of adjacent characters in the runs of `[\u3400-\u9fff]{2,}`. -/
def bigrams : JsText → List JsText
  | c :: d :: s => (if isHan c ∧ isHan d then [[c, d]] else []) ++ bigrams (d :: s)
  | _ => []

/-- Without the trimming: the words are the same. -/
def normalizeTokens (value : JsText) : JsText :=
  (texts.toLowerCase (texts.nfkc value)).map fun c => if isTokenUnit c then c else JsText.blank

/-- The elements of the set in their order. -/
def memoryTokens (value : JsText) : List JsText :=
  let normalized := normalizeTokens texts value
  ((JsText.words normalized).filter (fun token => 1 < token.length) ++ bigrams normalized).eraseDups

def tokenSimilarity (left right : JsText) : ℚ :=
  let leftTokens := memoryTokens texts left
  let rightTokens := memoryTokens texts right
  if leftTokens = [] ∨ rightTokens = [] then 0
  else
    ((leftTokens.filter fun token => token ∈ rightTokens).length : ℚ) /
      (leftTokens ++ rightTokens).eraseDups.length

def stopWords : List JsText :=
  ["the", "and", "with", "from", "this", "that", "for", "into", "以及", "一个", "当前", "进行", "需要", "系统",
    "服务", "问题", "数据"].map JsText.of

/-- A token is counted once, so that the longer ones come first. -/
def extractKeywords (value : JsText) (limit : Nat) : List JsText :=
  (((memoryTokens texts value).filter fun token => token ∉ stopWords).insertionSort
    fun token token' => token'.length ≤ token.length).take limit

end Tokens

/-! ### Contradictions -/

/-- What is said of a state, and its opposite. -/
def opposites : List (Regex UInt16 × Regex UInt16) :=
  [(literals ["启用", "正常", "成功", "恢复", "healthy", "enabled", "success", "resolved"],
      literals ["停用", "异常", "失败", "未恢复", "unhealthy", "disabled", "failed", "unresolved"]),
    (literals ["存在", "包含", "已配置", "present", "configured"],
      literals ["不存在", "缺失", "未配置", "absent", "missing", "unconfigured"]),
    (literals ["增加", "升高", "恶化", "increase", "higher", "degrad"],
      literals ["减少", "降低", "改善", "decrease", "lower", "improv"])]

def contradictionScore (left right : JsText) : ℚ :=
  min 1 (opposites.foldl (fun score pair =>
    if (pair.1.test left && pair.2.test right) || (pair.2.test left && pair.1.test right) then
      score + 1 / 2
    else score) 0)

/-! ### Parts of a text -/

/-- `replace(/\r\n/g, '\n')` -/
def unixLines : JsText → JsText
  | 0x0d :: 0x0a :: s => 0x0a :: unixLines s
  | c :: s => c :: unixLines s
  | [] => []

/-- `split(/\n{2,}/)`; `newlines` is the number of line feeds before the text. -/
def splitParagraphs : Nat → JsText → JsText → List JsText
  | newlines, paragraph, [] =>
    if newlines = 1 then [paragraph ++ [0x0a]] else if newlines = 0 then [paragraph] else [paragraph, []]
  | newlines, paragraph, c :: s =>
    if c = 0x0a then splitParagraphs (newlines + 1) paragraph s
    else if newlines = 0 then splitParagraphs 0 (paragraph ++ [c]) s
    else if newlines = 1 then splitParagraphs 0 (paragraph ++ [0x0a, c]) s
    else paragraph :: splitParagraphs 0 [c] s

/-- `split(/(?<=[。！？.!?])\s*/).filter(Boolean)`; `ended` says that the last character was an end. -/
def splitSentences : Bool → JsText → JsText → List JsText
  | _, sentence, [] => if sentence = [] then [] else [sentence]
  | ended, sentence, c :: s =>
    let isEnd := decide (c ∈ JsText.of "。！？.!?")
    if ended then
      (if sentence = [] then [] else [sentence]) ++
        (if JsText.isSpace c then splitSentences true [] s else splitSentences isEnd [c] s)
    else splitSentences isEnd (sentence ++ [c]) s

/-- The parts of a paragraph. -/
def splitParagraph (maxLength : Nat) (paragraph : JsText) : List JsText :=
  if paragraph.length ≤ maxLength then [paragraph]
  else
    let sentences := splitSentences false [] paragraph
    if sentences.length ≤ 1 then paragraph.toChunks maxLength else sentences

/-- The next paragraph, after some output and a buffer. -/
def nextParagraph (maxLength : Nat) (state : List JsText × JsText) (paragraph : JsText) :
    List JsText × JsText :=
  let candidate := if state.2 = [] then paragraph else state.2 ++ JsText.of "\n\n" ++ paragraph
  if candidate.length ≤ maxLength then (state.1, candidate)
  else
    let output := state.1 ++ (if state.2 = [] then [] else [state.2])
    if paragraph.length ≤ maxLength then (output, paragraph)
    else (output ++ paragraph.toChunks maxLength, [])

def splitText (value : JsText) (maxLength : Nat) : List JsText :=
  let normalized := JsText.trim (unixLines value)
  if normalized = [] then []
  else
    let paragraphs := (splitParagraphs 0 [] normalized).flatMap (splitParagraph maxLength)
    let state := paragraphs.foldl (nextParagraph maxLength) ([], [])
    state.1 ++ (if state.2 = [] then [] else [state.2])

/-! ### Names of services -/

section Services

variable {N : Type}

/-- The keys of a record that hold the name of a service; `service.name` is a path. -/
def serviceKeys : List (List JsText) :=
  [["serviceName"], ["service_name"], ["service", "name"], ["service"], ["serviceId"], ["service_id"],
    ["fromService"], ["from_service"], ["sourceService"], ["source_service"], ["parentService"],
    ["upstream"], ["caller"], ["clientService"], ["toService"], ["to_service"], ["targetService"],
    ["target_service"], ["downstream"], ["callee"], ["peerService"], ["serverService"]].map
    (List.map JsText.of)

def valueAt : List JsText → JsValue N → Option (JsValue N)
  | [], value => some value
  | key :: path, .object members => (JsValue.get members key).bind (valueAt path)
  | _ :: _, _ => none

/-- `objectString` with one key. -/
def objectString (members : List (JsText × JsValue N)) (path : List JsText) : Option JsText :=
  match valueAt path (.object members) with
  | some (.string s) => if JsText.trim s = [] then none else some (JsText.trim s)
  | _ => none

mutual

/-- The names in a value, in the order in which `walkObjects` finds them. -/
def serviceNames (depth : Nat) : JsValue N → List JsText
  | .array items => if 9 < depth then [] else ((serviceNamesOfItems (depth + 1) items).take 1000).flatten
  | .object members =>
    if 9 < depth then []
    else
      serviceKeys.filterMap (objectString members) ++
        ((serviceNamesOfMembers (depth + 1) members).take 300).flatten
  | _ => []

def serviceNamesOfItems (depth : Nat) : List (JsValue N) → List (List JsText)
  | [] => []
  | item :: items => serviceNames depth item :: serviceNamesOfItems depth items

def serviceNamesOfMembers (depth : Nat) : List (JsText × JsValue N) → List (List JsText)
  | [] => []
  | (_, child) :: members => serviceNames depth child :: serviceNamesOfMembers depth members

end

def extractServiceNames (value : JsValue N) : List JsText :=
  ((serviceNames 0 value).filter fun name => name.length ≤ 160).eraseDups.take 100

end Services

end AgentService
