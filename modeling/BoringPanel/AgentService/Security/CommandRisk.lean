import BoringPanel.Lib.Regex

/-!
# The risk of a command

`security/command-risk-analyzer.ts`. A command and its tokens are lists of characters. What
`toLowerCase` does is a parameter.
-/

namespace AgentService

/-- The characters of `\s`, which `trim` removes. -/
def isSpace (c : Char) : Bool :=
  c.toNat ∈ [0x09, 0x0a, 0x0b, 0x0c, 0x0d, 0x20, 0xa0, 0x1680, 0x2028, 0x2029, 0x202f, 0x205f, 0x3000,
    0xfeff] ∨ (0x2000 ≤ c.toNat ∧ c.toNat ≤ 0x200a)

def trim (s : List Char) : List Char := ((s.dropWhile isSpace).reverse.dropWhile isSpace).reverse

/-! ### Patterns -/

def backquote : Char := Char.ofNat 0x60

/-- The operators of `CONTROL_OPERATORS`. -/
def controlOperator : Regex Char :=
  let text (s : String) := Regex.text (fun a b => a == b) s.toList
  Regex.oneOf [text ";", text "&&", text "||", text "|", .one fun c => c == backquote, text "$(",
    text ">", text "<", text "\r", text "\n"]

/-- `CONTROL_OPERATORS`. -/
def controlOperators : Regex Char :=
  .seq (.alt .start (.one fun c => c != '\\')) controlOperator

def forbiddenExecutables : List String :=
  ["bash", "sh", "zsh", "dash", "fish", "sudo", "su", "doas", "env", "eval", "exec",
    "python", "python3", "perl", "ruby", "node", "php", "nc", "ncat", "socat"]

/-- `\w`. -/
def isWord (c : Char) : Bool := c.isAlphanum || c == '_'

/-- `DESTRUCTIVE`. -/
def destructive : Regex Char :=
  -- the flag `i`
  let text (s : String) := Regex.text (fun a b => a.toLower == b.toLower) s.toList
  let line := Regex.star fun c => c != '\n'
  .seq (.alt .start (.one isSpace)) (Regex.oneOf [
    .seq (text "rm") (.seq (Regex.plus isSpace) (.seq (text "-")
      (.seq line (.seq (text "r") (.seq line (text "f")))))),
    .seq (text "mkfs") (.alt (text ".") (.one isSpace)), text "wipefs", text "fdisk", text "parted",
    .seq (text "dd") (.seq (Regex.plus isSpace) (text "if=")), text "shutdown", text "poweroff",
    text "reboot", .seq (text "init") (.seq (Regex.plus isSpace) (.one fun c => c ∈ ['0', '6'])),
    .seq (text "iptables") (.seq (Regex.plus isSpace) (text "-F")),
    .seq (text "nft") (.seq (Regex.plus isSpace) (text "flush")),
    .seq (text "user") (Regex.oneOf [text "add", text "del", text "mod"]),
    .seq (text "passwd") (.boundary isWord)])

/-! ### Tokens -/

inductive Quote where
  | single
  | double
deriving DecidableEq

/-- The variables of `tokenize`. -/
structure Tokenizer where
  tokens : List (List Char)
  current : List Char
  quote : Option Quote
  escaped : Bool
deriving DecidableEq

namespace Tokenizer

def start : Tokenizer := ⟨[], [], none, false⟩

/-- The token is pushed, if it is not empty. -/
def push (t : Tokenizer) : Tokenizer :=
  { t with tokens := if t.current = [] then t.tokens else t.tokens ++ [t.current], current := [] }

def step (t : Tokenizer) (c : Char) : Tokenizer :=
  if t.escaped then { t with current := t.current ++ [c], escaped := false }
  else if c = '\\' ∧ t.quote ≠ some .single then { t with escaped := true }
  else if c = '\'' ∧ t.quote ≠ some .double then
    { t with quote := if t.quote = some .single then none else some .single }
  else if c = '"' ∧ t.quote ≠ some .single then
    { t with quote := if t.quote = some .double then none else some .double }
  else if isSpace c ∧ t.quote = none then t.push
  else { t with current := t.current ++ [c] }

def run (command : List Char) : Tokenizer := command.foldl step start

end Tokenizer

def tokenize (command : List Char) : List (List Char) :=
  let t := Tokenizer.run (trim command)
  if t.quote ≠ none ∨ t.escaped then [] else t.push.tokens

/-! ### The analysis -/

def wrapperDirectory : List Char := "/opt/scry-ops/bin/scry-".toList

/-- The characters of `[a-z0-9-]`. -/
def isNameChar (c : Char) : Bool := ('a' ≤ c ∧ c ≤ 'z') ∨ ('0' ≤ c ∧ c ≤ '9') ∨ c = '-'

/-- A wrapper, by its path. -/
def isWrapper (token : List Char) : Bool :=
  wrapperDirectory.isPrefixOf token &&
    (token.drop wrapperDirectory.length != [] && (token.drop wrapperDirectory.length).all isNameChar)

inductive Decision where
  | allow
  | requireApproval
  | deny
deriving DecidableEq

structure CommandRiskResult where
  decision : Decision
  riskScore : Nat
  executable : String
  tokens : List (List Char)
  reasons : List String

/-- The last part of a path. -/
def baseName (path : List Char) : List Char := (path.reverse.takeWhile fun c => c ≠ '/').reverse

def executableOf (toLowerCase : String → String) (tokens : List (List Char)) : String :=
  toLowerCase (String.ofList (baseName (tokens.head?.getD [])))

def safeSudoWrapper (toLowerCase : String → String) (tokens : List (List Char)) : Bool :=
  executableOf toLowerCase tokens = "sudo" ∧ tokens[1]? = some "-n".toList ∧
    isWrapper (tokens[2]?.getD [])

def denyReasons (toLowerCase : String → String) (trimmed : List Char) (tokens : List (List Char)) :
    List String :=
  let executable := executableOf toLowerCase tokens
  (if trimmed = [] ∨ tokens = [] then ["命令为空或引号结构不完整"] else []) ++
  (if controlOperators.test trimmed then ["命令包含 Shell 控制、替换或重定向操作符"] else []) ++
  (if executable ∈ forbiddenExecutables ∧ ¬ safeSudoWrapper toLowerCase tokens then
    ["禁止通过 " ++ (if executable = "" then "Shell" else executable) ++ " 解释器或提权程序执行"]
    else []) ++
  (if destructive.test trimmed then ["命令包含破坏性系统操作"] else []) ++
  (if tokens.any fun token => token.contains (Char.ofNat 0) then ["命令包含空字节"] else [])

def analyzeCommandRisk (toLowerCase : String → String) (command : List Char) : CommandRiskResult :=
  let trimmed := trim command
  let tokens := tokenize trimmed
  let executable := executableOf toLowerCase tokens
  let reasons := denyReasons toLowerCase trimmed tokens
  if reasons ≠ [] then ⟨.deny, 100, executable, tokens, reasons⟩
  else if isWrapper (tokens.head?.getD []) ∨ safeSudoWrapper toLowerCase tokens then
    ⟨.requireApproval, 65, executable, tokens, ["调用受管 scry-ops 包装器，执行前必须审批"]⟩
  else ⟨.deny, 90, executable, tokens, ["命令没有调用受管 scry-ops 包装器"]⟩

end AgentService
