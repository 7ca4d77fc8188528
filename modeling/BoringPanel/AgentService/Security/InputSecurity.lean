import BoringPanel.AgentService.Security.CommandRisk
import BoringPanel.Lib.JsText

/-!
# The security of an input

`security/prompt-injection-detector.ts`, `security/intent-classifier.ts` and `evaluateInputSecurity` of
`security/policy-engine.ts`, without its audit events. `normalize('NFKC')` is a parameter.
-/

namespace AgentService

/-! ### Patterns -/

section Patterns

/-- A text under the flag `i`. -/
def literal (s : String) : Regex UInt16 := .text JsText.sameLetter (JsText.of s)

def literals (ss : List String) : Regex UInt16 := .oneOf (ss.map literal)

/-- `.{0,n}` -/
def gap (n : Nat) : Regex UInt16 := .upTo (fun c => !JsText.isLineTerminator c) n

/-- `?` after a class of characters. -/
def optionally (s : String) : Regex UInt16 := .upTo (fun c => c ∈ JsText.of s) 1

/-- `\s+` -/
def spaces : Regex UInt16 := .plus JsText.isSpace

/-- One of some texts, and one of others not far behind it. -/
def followed (first : List String) (n : Nat) (second : Regex UInt16) : Regex UInt16 :=
  .seq (literals first) (.seq (gap n) second)

end Patterns

/-! ### Prompt injections -/

inductive Severity where
  | low
  | medium
  | high
  | critical
deriving DecidableEq

structure PromptInjectionFinding where
  id : String
  severity : Severity
  score : Nat
  description : String
deriving DecidableEq

/-- An element of `RULES`. -/
structure Rule extends PromptInjectionFinding where
  pattern : Regex UInt16

def instructionOverride : Rule where
  id := "instruction-override"
  pattern := .alt
    (followed ["ignore", "disregard", "forget", "override"] 32
      (.alt (literals ["previous", "above", "system", "developer", "instruction"])
        (.seq (literal "rule") (.alt (literal "s") .empty))))
    (followed ["忽略", "无视", "覆盖", "忘记"] 24
      (literals ["之前", "以上", "系统", "开发者", "指令", "规则"]))
  severity := .critical
  score := 65
  description := "尝试覆盖上位指令"

def promptExfiltration : Rule where
  id := "prompt-exfiltration"
  pattern := .alt
    (followed ["reveal", "show", "print", "repeat", "leak"] 36
      (literals ["system prompt", "developer message", "hidden instruction", "secret", "api key"]))
    (followed ["展示", "输出", "泄露", "复述"] 24
      (literals ["系统提示", "开发者消息", "隐藏指令", "密钥", "凭证"]))
  severity := .high
  score := 50
  description := "尝试提取系统指令或凭证"

def safetyBypass : Rule where
  id := "safety-bypass"
  pattern := .alt
    (followed ["bypass", "disable", "evade"] 30
      (literals ["safety", "policy", "permission", "approval", "guardrail"]))
    (followed ["绕过", "关闭", "规避"] 24 (literals ["安全", "策略", "权限", "审批", "防护"]))
  severity := .critical
  score := 60
  description := "尝试绕过安全策略或审批"

def roleConfusion : Rule where
  id := "role-confusion"
  pattern := .alt
    (followed ["you are now", "act as", "pretend to be"] 40
      (literals ["system", "developer", "root", "administrator"]))
    (followed ["你现在是", "扮演", "假装"] 30 (literals ["系统", "开发者", "root", "管理员"]))
  severity := .medium
  score := 30
  description := "尝试改变 Agent 的授权角色"

def toolOutputInstruction : Rule where
  id := "tool-output-instruction"
  pattern := .alt
    (followed ["tool output", "attachment", "retrieved content"] 32
      (literals ["instruction", "command", "must follow"]))
    (followed ["工具输出", "附件", "检索内容"] 24 (literals ["指令", "命令", "必须执行"]))
  severity := .medium
  score := 30
  description := "尝试将不可信数据提升为指令"

def encodedPayload : Rule where
  id := "encoded-payload"
  pattern := .alt
    (followed ["base64", "hex", "rot13"] 24
      (literals ["decode", "execute", "instruction", "command"]))
    (followed ["base64", "十六进制"] 24 (literals ["解码", "执行", "指令", "命令"]))
  severity := .medium
  score := 25
  description := "包含要求解码执行的载荷"

def rules : List Rule :=
  [instructionOverride, promptExfiltration, safetyBypass, roleConfusion, toolOutputInstruction,
    encodedPayload]

def isZeroWidth (c : UInt16) : Bool := (0x200b ≤ c ∧ c ≤ 0x200d) ∨ c = 0x2060 ∨ c = 0xfeff

def normalize (nfkc : JsText → JsText) (value : JsText) : JsText :=
  JsText.trim (JsText.collapse ((nfkc value).filter fun c => !isZeroWidth c))

/-- What is looked at of a text: `slice(0, 200_000)`. -/
def maxLength : Nat := 200000

structure PromptInjectionResult where
  detected : Bool
  score : Nat
  normalizedText : JsText
  findings : List PromptInjectionFinding
deriving DecidableEq

def findings (normalizedText : JsText) : List PromptInjectionFinding :=
  (rules.filter fun rule => rule.pattern.test normalizedText).map Rule.toPromptInjectionFinding

def injectionScore (findings : List PromptInjectionFinding) : Nat :=
  min 100 (findings.foldl (fun total finding => total + finding.score) 0)

def detectPromptInjection (nfkc : JsText → JsText) (text : JsText) : PromptInjectionResult :=
  let normalizedText := (normalize nfkc text).take maxLength
  let findings := findings normalizedText
  let score := injectionScore findings
  ⟨decide (50 ≤ score), score, normalizedText, findings⟩

/-! ### Intents -/

inductive SecurityIntent where
  | observe
  | diagnose
  | change
  | privilegeEscalation
  | secretAccess
  | unknown
deriving DecidableEq

/-- The confidence is in hundredths. -/
structure IntentClassification where
  intent : SecurityIntent
  confidence : Nat
  requestedChange : Bool
  reasons : List String
deriving DecidableEq

/-- `\w` -/
def isWordUnit (c : UInt16) : Bool :=
  (0x30 ≤ c ∧ c ≤ 0x39) ∨ (0x41 ≤ c ∧ c ≤ 0x5a) ∨ (0x61 ≤ c ∧ c ≤ 0x7a) ∨ c = 0x5f

/-- `PRIVILEGE`. -/
def privilege : Regex UInt16 := .oneOf [
  .seq (literal "sudo") (.seq spaces (literals ["su", "bash", "sh"])),
  .seq (.boundary isWordUnit) (.seq (literal "su") (.seq spaces (optionally "-"))),
  .seq (literal "root") (.seq spaces (literals ["shell", "权限", "账户"])),
  literal "提权", literal "越权", literal "管理员权限"]

/-- `SECRET`. -/
def secret : Regex UInt16 :=
  .seq (.oneOf [.seq (literal "api") (.seq (optionally "_ -") (literal "key")),
      .seq (literal "private") (.seq (optionally "_ -") (literal "key")),
      literals ["password", "credential", "token", "密钥", "私钥", "密码", "凭证"]])
    (.seq (gap 20) (literals ["show", "read", "print", "dump", "查看", "读取", "输出", "导出"]))

/-- `CHANGE`. -/
def change : Regex UInt16 := literals ["restart", "reload", "stop", "start", "kill", "delete", "remove",
  "clean", "truncate", "install", "upgrade", "modify", "write", "重启", "重载", "停止", "启动", "终止",
  "删除", "清理", "安装", "升级", "修改", "写入"]

/-- `DIAGNOSE`. -/
def diagnose : Regex UInt16 := literals ["root cause", "diagnos", "why", "failure", "error", "latency",
  "异常", "故障", "根因", "诊断", "为什么", "错误", "延迟"]

/-- `OBSERVE`. -/
def observe : Regex UInt16 := literals ["show", "list", "query", "inspect", "check", "status", "usage",
  "查看", "列出", "查询", "巡检", "检查", "状态", "使用率"]

def classifyIntent (text : JsText) : IntentClassification :=
  if privilege.test text then ⟨.privilegeEscalation, 98, true, ["请求包含权限提升或 root Shell 意图"]⟩
  else if secret.test text then ⟨.secretAccess, 95, false, ["请求尝试读取认证凭证或密钥"]⟩
  else if change.test text then ⟨.change, 86, true, ["请求包含会改变系统状态的操作"]⟩
  else if diagnose.test text then ⟨.diagnose, 82, false, ["请求目标是故障诊断或根因定位"]⟩
  else if observe.test text then ⟨.observe, 80, false, ["请求目标是只读查询或巡检"]⟩
  else ⟨.unknown, 45, false, ["没有匹配到明确的运维意图"]⟩

/-! ### The decision -/

inductive AgentMode where
  | diagnose
  | plan
  | operate
deriving DecidableEq

/-- A `SecurityDecisionResult`, without the identifier of the trace and the hash of the input. -/
structure SecurityDecisionResult where
  decision : Decision
  riskScore : Nat
  intent : SecurityIntent
  reasons : List String

def evaluateInputSecurity (nfkc : JsText → JsText) (text : JsText) (mode : AgentMode) :
    SecurityDecisionResult :=
  let injection := detectPromptInjection nfkc text
  let intent := classifyIntent injection.normalizedText
  let reasons := injection.findings.map PromptInjectionFinding.description ++ intent.reasons
  let riskScore := max injection.score (if intent.requestedChange then 55 else 10)
  if 60 ≤ injection.score ∨ intent.intent = .privilegeEscalation ∨ intent.intent = .secretAccess then
    ⟨.deny, max riskScore 90, intent.intent, reasons⟩
  else if intent.requestedChange ∨ mode = .operate then
    ⟨.requireApproval, max riskScore 60, intent.intent, reasons⟩
  else ⟨.allow, riskScore, intent.intent, reasons⟩

end AgentService
