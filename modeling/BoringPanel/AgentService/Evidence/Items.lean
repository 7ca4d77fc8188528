import BoringPanel.AgentService.ConcurrentPatches

/-!
# Items of evidence

What `evidence.ts` computes of a capture before it is stored: the scores, the summary, and the row that is
inserted. A content in which an injection is detected is suspended, is not selected, and has a low
confidence (`row_of_detected`).

The relevance and the factors of the scores are computed as they are stored; quotients are exact.
-/

namespace AgentService.Evidence

inductive EvidenceSourceType where
  | ssh
  | telemetry
  | alert
  | service
  | dashboard
  | mcp
  | workflow
  | document
  | url
deriving DecidableEq

/-- `SOURCE_RELIABILITY`. -/
def EvidenceSourceType.reliability : EvidenceSourceType → Int
  | ssh => 96
  | telemetry => 92
  | alert => 88
  | service => 86
  | dashboard => 78
  | mcp => 72
  | workflow => 64
  | document => 68
  | url => 60

/-- `SOURCE_DIRECTNESS`. -/
def EvidenceSourceType.directness : EvidenceSourceType → Int
  | ssh => 100
  | telemetry => 96
  | alert => 88
  | service => 88
  | dashboard => 72
  | mcp => 74
  | workflow => 58
  | document => 64
  | url => 52

/-- `MAX_CONTENT_BYTES`. -/
def maxContentBytes : Nat := 160000

structure EvidenceScoreFactors where
  sourceReliability : Int
  dataQuality : Int
  freshness : Int
  executionIntegrity : Int
  directness : Int
  lexicalMatch : Int
deriving DecidableEq

structure EvidenceCaptureContext where
  threadId : JsText
  traceId : JsText
  query : JsText

/-- A row of `scry_evidence_items`; the content is what `content_json` says. -/
structure EvidenceItem (N : Type) extends EvidenceRow where
  id : JsText
  threadId : JsText
  orgId : JsText
  userId : JsText
  traceId : JsText
  messageId : JsText
  sourceType : EvidenceSourceType
  sourceName : JsText
  title : JsText
  summary : JsText
  content : JsValue N
  contentHash : JsText
  confidence : Int
  relevance : Int
  scoreFactors : EvidenceScoreFactors
  capturedAt : Int

/-- An item with another disposition. -/
def EvidenceItem.withRow {N : Type} (item : EvidenceItem N) (row : EvidenceRow) : EvidenceItem N :=
  { item with toEvidenceRow := row }

/-- The columns of the index `idx_scry_evidence_dedupe`. -/
structure EvidenceKey where
  threadId : JsText
  traceId : JsText
  sourceName : JsText
  contentHash : JsText
deriving DecidableEq

def EvidenceItem.key {N : Type} (item : EvidenceItem N) : EvidenceKey :=
  ⟨item.threadId, item.traceId, item.sourceName, item.contentHash⟩

/-! ### Scores -/

section Scores

variable {N : Type} [JsNumber N] (texts : Texts)

/-- `[a-z0-9\u3400-\u9fff]` -/
def isEvidenceUnit (c : UInt16) : Bool := (0x61 ≤ c ∧ c ≤ 0x7a) ∨ (0x30 ≤ c ∧ c ≤ 0x39) ∨ isHan c

/-- The elements of the set in their order. -/
def evidenceTokens (value : JsText) : List JsText :=
  let normalized := (texts.toLowerCase value).map fun c => if isEvidenceUnit c then c else JsText.blank
  ((JsText.words normalized).filter (fun token => 1 < token.length) ++ bigrams normalized).eraseDups

def tokenSimilarity (left right : JsText) : ℚ :=
  let leftTokens := evidenceTokens texts left
  let rightTokens := evidenceTokens texts right
  if leftTokens = [] ∨ rightTokens = [] then 0
  else
    ((leftTokens.filter fun token => token ∈ rightTokens).length : ℚ) /
      (leftTokens ++ rightTokens).eraseDups.length

/-- `String(value).trim() ? 82 : 30` -/
def textQuality (value : JsText) : Int := if JsText.trim value = [] then 30 else 82

def dataQuality (value : JsValue N) (truncated : Bool) : Int :=
  if truncated then 68
  else
    match value with
    | .null => 30
    | .array items => if items.isEmpty then 48 else 92
    | .object members => if members.isEmpty then 48 else 90
    | .string s => textQuality s
    | .bool b => textQuality (JsText.of (toString b))
    | .number n => textQuality (JsNumber.text n)

/-- `cues[sourceType]`. -/
def EvidenceSourceType.cue : EvidenceSourceType → Regex UInt16
  | telemetry => literals ["指标", "日志", "链路", "trace", "metric", "log", "延迟", "错误率", "吞吐", "i/o", "io"]
  | service => literals ["服务", "应用", "service", "进程", "实例", "健康"]
  | alert => literals ["告警", "异常", "风险", "alert", "故障"]
  | dashboard => literals ["仪表盘", "趋势", "视图", "dashboard"]
  | ssh => literals ["主机", "系统", "磁盘", "内存", "端口", "进程", "日志", "配置", "ssh", "linux"]
  | mcp => literals ["工具", "插件", "mcp", "外部"]
  | workflow => literals ["结论", "分析", "根因", "验证", "loop", "流程"]
  | document => literals ["附件", "文档", "文件", "配置"]
  | url => literals ["链接", "网页", "来源", "url"]

def sourceCueMatch (query : JsText) (sourceType : EvidenceSourceType) (sourceName : JsText) : Int :=
  if sourceType.cue.test query then 100
  else if 0 < tokenSimilarity texts query sourceName then 62
  else 38

structure ScoreInput (N : Type) where
  query : JsText
  sourceType : EvidenceSourceType
  sourceName : JsText
  title : JsText
  summary : JsText
  content : JsValue N
  truncated : Bool
  /-- `false` if the capture says so. -/
  completed : Bool

structure EvidenceScores where
  confidence : Int
  relevance : Int
  factors : EvidenceScoreFactors

def calculateEvidenceScores (input : ScoreInput N) : EvidenceScores :=
  let serialized := input.content.stringify.take 20000
  let described := JsText.join (JsText.of " ") [input.title, input.summary, serialized]
  let factors : EvidenceScoreFactors :=
    { sourceReliability := input.sourceType.reliability
      dataQuality := dataQuality input.content input.truncated
      freshness := 100
      executionIntegrity := if input.completed then 100 else 45
      directness := input.sourceType.directness
      lexicalMatch := clampScore (tokenSimilarity texts input.query described * 100) }
  { confidence := clampScore (factors.sourceReliability * (34 / 100) + factors.dataQuality * (24 / 100) +
      factors.freshness * (12 / 100) + factors.executionIntegrity * (18 / 100) +
      factors.directness * (12 / 100))
    relevance := clampScore (factors.lexicalMatch * (62 / 100) +
      sourceCueMatch texts input.query input.sourceType input.sourceName * (38 / 100))
    factors := factors }

end Scores

/-! ### Captures -/

section Captures

variable {N : Type} [JsNumber N]

/-- What is said of a list of records. -/
def recordsSummary (items : List (JsValue N)) (none : String) : JsText :=
  if items.isEmpty then JsText.of none
  else JsText.of "返回 " ++ JsText.of (toString items.length) ++ JsText.of " 项结构化记录。"

def summaryFor : JsValue N → JsText
  | .array items => recordsSummary items "查询成功，但未返回记录。"
  | .string s =>
    let text := (JsText.trim (JsText.collapse (redactString s))).take 180
    if text = [] then JsText.of "返回空文本。" else text
  | .object members =>
    match JsValue.get members (JsText.of "data") with
    | some (.array items) => recordsSummary items "查询成功，但数据集合为空。"
    | _ =>
      let keys := ((members.map Prod.fst).filter fun key => key ≠ JsText.of "a2ui").take 6
      if keys = [] then JsText.of "返回结构化空对象。"
      else JsText.of "返回结构化字段：" ++ JsText.join (JsText.of "、") keys ++ JsText.of "。"
  | .null => JsText.of "返回值：空"
  | .bool b => JsText.of "返回值：" ++ JsText.of (toString b)
  | .number n => (JsText.of "返回值：" ++ JsNumber.text n).take 180

/-- The parameter of `recordEvidence`; a summary or a message that is not given is empty. -/
structure RecordInput (N : Type) where
  user : AuthenticatedUser
  context : EvidenceCaptureContext
  messageId : JsText
  sourceType : EvidenceSourceType
  sourceName : JsText
  title : JsText
  summary : JsText
  content : JsValue N
  completed : Bool

/-- What a request draws: random identifiers, and the time. -/
structure Turn where
  uuid : JsText
  messageId : JsText
  now : Int

variable (texts : Texts)

/-- `detectPromptInjection` of a stored content. -/
def injectionOf (content : JsValue N) : PromptInjectionResult :=
  detectPromptInjection texts.nfkc content.stringify

namespace RecordInput

variable (input : RecordInput N)

def serialized : Serialized N := serializeContent texts.localeCompare maxContentBytes input.content

/-- The content does not fit, and is cut. -/
def truncated : Bool :=
  maxContentBytes < JsText.byteLength
    (stableValue texts.localeCompare (sanitizeValue 0 input.content)).stringify

def summaryText : JsText :=
  if input.summary = [] then summaryFor (input.serialized texts).content else input.summary

def scores : EvidenceScores :=
  calculateEvidenceScores texts ⟨input.context.query, input.sourceType, input.sourceName, input.title,
    input.summaryText texts, (input.serialized texts).content, input.truncated texts, input.completed⟩

def injection : PromptInjectionResult := injectionOf texts (input.serialized texts).stored

def note : JsText :=
  if (input.injection texts).detected then
    JsText.of "系统自动挂起：检测到潜在证据注入（" ++
      JsText.join (JsText.of "；")
        ((input.injection texts).findings.map fun finding => JsText.of finding.description) ++
      JsText.of "）。"
  else []

/-- The row that `recordEvidence` inserts. -/
def row (turn : Turn) : EvidenceItem N where
  id := turn.uuid
  threadId := input.context.threadId
  orgId := input.user.orgId
  userId := input.user.id
  traceId := input.context.traceId
  messageId := input.messageId
  sourceType := input.sourceType
  sourceName := input.sourceName
  title := input.title
  summary := input.summaryText texts
  content := (input.serialized texts).stored
  contentHash := texts.sha256 (input.serialized texts).json
  confidence :=
    if (input.injection texts).detected then min (input.scores texts).confidence 35
    else (input.scores texts).confidence
  relevance := (input.scores texts).relevance
  scoreFactors := (input.scores texts).factors
  status := if (input.injection texts).detected then .suspended else .active
  selected := !(input.injection texts).detected
  note := input.note texts
  capturedAt := turn.now
  updatedAt := turn.now

/-- The values that the unique index compares. -/
def key : EvidenceKey :=
  ⟨input.context.threadId, input.context.traceId, input.sourceName,
    texts.sha256 (input.serialized texts).json⟩

end RecordInput

/-- A row as it is created, if an injection is detected in its content. -/
structure Quarantined (item : EvidenceItem N) : Prop where
  status : item.status = .suspended
  selected : item.selected = false
  confidence : item.confidence ≤ 35

variable {texts} {input : RecordInput N} {turn : Turn}

theorem row_of_detected (h : (injectionOf texts (input.row texts turn).content).detected) :
    Quarantined (input.row texts turn) := by
  have hdetected : (input.injection texts).detected = true := h
  refine ⟨?_, ?_, ?_⟩
  · show (if (input.injection texts).detected then EvidenceStatus.suspended else .active) = .suspended
    rw [if_pos hdetected]
  · show (!(input.injection texts).detected) = false
    rw [hdetected]
    rfl
  · show (if (input.injection texts).detected then min (input.scores texts).confidence 35
      else (input.scores texts).confidence) ≤ 35
    rw [if_pos hdetected]
    exact min_le_right _ _

/-- A row is created selected exactly if it is not suspended. -/
theorem row_consistent (h : (input.row texts turn).status.deselects) :
    (input.row texts turn).selected = false := by
  cases hdetected : (input.injection texts).detected with
  | true => exact (@row_of_detected N _ texts input turn hdetected).selected
  | false =>
    have hstatus : (input.row texts turn).status = .active := by
      show (if (input.injection texts).detected then EvidenceStatus.suspended else .active) = .active
      rw [hdetected]
      rfl
    rw [hstatus] at h
    cases h

end Captures

end AgentService.Evidence
