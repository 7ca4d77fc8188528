import BoringPanel.AgentService.Memory.Chunks

/-!
# The store of memories

The tables `scry_memory_items`, `_sources`, `_relations`, `_actions` and `_chunks`, and the operations of
`memory/index.ts` on them, without audit events and without the tables that only a retrieval writes. A
row is the item that `memoryFromRow` makes of it. One operation runs after the other.

Parameters are the functions on texts, the order in which SQLite gives rows (`RowOrder`), the floating
point functions of the upkeep, and which candidates a retrieval returns (`Ranking`).
-/

namespace AgentService

inductive UserRole where
  | admin
  | editor
  | viewer
deriving DecidableEq

structure AuthenticatedUser where
  id : JsText
  orgId : JsText
  role : UserRole

inductive MemoryType where
  | working
  | episodic
  | semantic
  | procedural
deriving DecidableEq

inductive MemoryScope where
  | organization
  | user
  | agent
  | thread
  | workflow
deriving DecidableEq

inductive MemoryStatus where
  | active
  | verified
  | suspended
  | archived
  | forgotten
deriving DecidableEq

inductive MemorySourceType where
  | evidence
  | message
  | workflow
  | manual
  | memory
  | document
deriving DecidableEq

inductive MemoryRelationType where
  | supports
  | conflicts
  | duplicates
  | sameService
deriving DecidableEq

def MemoryStatus.text : MemoryStatus → String
  | active => "active"
  | verified => "verified"
  | suspended => "suspended"
  | archived => "archived"
  | forgotten => "forgotten"

/-- A row of `scry_memory_items`; the content is what `content_json` says. -/
structure MemoryItem (N : Type) where
  id : JsText
  orgId : JsText
  userId : JsText
  threadId : JsText
  workflowId : JsText
  type : MemoryType
  scope : MemoryScope
  serviceName : JsText
  title : JsText
  summary : JsText
  content : JsValue N
  contentHash : JsText
  tags : List JsText
  keywords : List JsText
  confidence : Int
  importance : Int
  vitality : Int
  accessCount : Int
  reinforcementCount : Int
  status : MemoryStatus
  pinned : Bool
  note : JsText
  createdAt : Int
  lastAccessedAt : Int
  lastReinforcedAt : Int
  expiresAt : Int
  updatedAt : Int

structure MemorySource where
  memoryId : JsText
  sourceType : MemorySourceType
  sourceId : JsText
  traceId : JsText
  relation : JsText
  weight : Int
  createdAt : Int

/-- A row of `scry_memory_relations`, without its random identifier. -/
structure MemoryRelation where
  orgId : JsText
  fromMemoryId : JsText
  toMemoryId : JsText
  type : MemoryRelationType
  score : Int
  rationale : JsText
  createdAt : Int

/-- A row of `scry_memory_actions`; the rows are in the order of their identifiers. -/
structure MemoryAction where
  memoryId : JsText
  orgId : JsText
  userId : JsText
  action : String
  previousStatus : MemoryStatus
  nextStatus : MemoryStatus
  detail : JsText
  createdAt : Int

structure Store (N : Type) where
  items : List (MemoryItem N)
  sources : List MemorySource
  relations : List MemoryRelation
  actions : List MemoryAction
  chunks : List MemoryChunk

def Store.empty {N : Type} : Store N := ⟨[], [], [], [], []⟩

/-- What `ORDER BY` makes of rows; rows that compare equal may come in any order. -/
structure RowOrder (α : Type) where
  sort : (α → α → Bool) → List α → List α
  perm : ∀ le l, (sort le l).Perm l
  sorted : ∀ le l, (∀ a b c, le a b → le b c → le a c) → (∀ a b, le a b || le b a) →
    (sort le l).Pairwise fun a b => le a b

/-- What the operations use from elsewhere. -/
structure MemoryLibrary (N : Type) extends Texts where
  order : RowOrder (MemoryItem N)
  /-- `0.5 ** x` -/
  halfPower : ℚ → ℚ
  /-- `Math.log1p` -/
  log1p : Int → ℚ

structure MemoryContext where
  threadId : JsText
  workflowId : JsText

def MemoryContext.none : MemoryContext := ⟨[], []⟩

variable {N : Type} [JsNumber N] (lib : MemoryLibrary N) (now : Int)

/-! ### Rows -/

namespace Store

variable (st : Store N)

/-- `UPDATE scry_memory_items ... WHERE id = ?` -/
def updateItem (id : JsText) (f : MemoryItem N → MemoryItem N) : Store N :=
  { st with items := st.items.map fun item => if item.id = id then f item else item }

/-- `INSERT OR IGNORE` of a source. -/
def addMemorySource (source : MemorySource) : Store N :=
  if st.sources.any fun s => s.memoryId = source.memoryId ∧ s.sourceType = source.sourceType ∧
      s.sourceId = source.sourceId ∧ s.relation = source.relation then st
  else { st with sources := st.sources ++ [source] }

/-- `INSERT OR IGNORE` of a relation. -/
def addMemoryRelation (relation : MemoryRelation) : Store N :=
  if st.relations.any fun r => r.fromMemoryId = relation.fromMemoryId ∧
      r.toMemoryId = relation.toMemoryId ∧ r.type = relation.type then st
  else { st with relations := st.relations ++ [relation] }

def addMemoryAction (memoryId : JsText) (user : AuthenticatedUser) (action : String)
    (previousStatus nextStatus : MemoryStatus) (detail : JsText) : Store N :=
  { st with actions := st.actions ++
      [⟨memoryId, user.orgId, user.id, action, previousStatus, nextStatus, detail, now⟩] }

def deleteChunks (memoryId : JsText) : Store N :=
  { st with chunks := st.chunks.filter fun chunk => chunk.memoryId ≠ memoryId }

end Store

def MemoryItem.chunkInput (item : MemoryItem N) : ChunkInput N :=
  ⟨item.id, item.title, item.summary, item.content, item.serviceName, item.confidence⟩

/-- The chunks of a memory are replaced. -/
def persistMemoryChunks (st : Store N) (item : MemoryItem N) : Store N :=
  let chunks := buildMemoryChunks lib.toTexts now item.chunkInput
  { st.deleteChunks item.id with chunks := (st.deleteChunks item.id).chunks ++ chunks }

/-- `hydrateMemories`: what the items come with is in the store afterwards. -/
def hydrateMemories (st : Store N) (items : List (MemoryItem N)) : Store N :=
  let chunkedIds := st.chunks.map MemoryChunk.memoryId
  (items.filter fun item => item.status ≠ .forgotten ∧ item.id ∉ chunkedIds).foldl
    (persistMemoryChunks lib now) st

def isVisible (item : MemoryItem N) (user : AuthenticatedUser) (context : MemoryContext) : Bool :=
  if item.orgId ≠ user.orgId then false
  else
    match item.scope with
    | .organization => true
    | .thread => context.threadId ≠ [] ∧ item.threadId = context.threadId
    | .workflow =>
      (context.workflowId ≠ [] ∧ item.workflowId = context.workflowId) ∨ item.userId = user.id
    | _ => item.userId = user.id

/-- What an operation leaves, and gives. -/
abbrev Outcome (N α : Type) := Store N × α

def getMemory (id : JsText) (user : AuthenticatedUser) (context : MemoryContext) (st : Store N) :
    Outcome N (Option (MemoryItem N)) :=
  match st.items.find? fun item => item.id = id ∧ item.orgId = user.orgId with
  | none => (st, none)
  | some item =>
    if isVisible item user context ∨ user.role = .admin then
      (hydrateMemories lib now st [item], some item)
    else (st, none)

def textForMemory (item : MemoryItem N) : JsText :=
  JsText.join (JsText.of " ") [item.title, item.summary, item.serviceName,
    JsText.join (JsText.of " ") item.tags, JsText.join (JsText.of " ") item.keywords,
    (item.content.stringify).take 30000]

/-! ### Lists -/

structure ListInput where
  context : MemoryContext
  query : JsText
  type : Option MemoryType
  scope : Option MemoryScope
  status : Option MemoryStatus
  serviceName : JsText
  includeInactive : Bool
  limit : Nat

/-- A list of all memories. -/
def ListInput.all (context : MemoryContext) (includeInactive : Bool) (limit : Nat) : ListInput :=
  ⟨context, [], none, none, none, [], includeInactive, limit⟩

def MemoryStatus.isOnline (status : MemoryStatus) : Bool := status = .active ∨ status = .verified

/-- `ORDER BY pinned DESC, vitality DESC, updated_at DESC` -/
def beforeInList (item item' : MemoryItem N) : Bool :=
  if item.pinned ≠ item'.pinned then item.pinned
  else if item.vitality ≠ item'.vitality then item'.vitality < item.vitality
  else item'.updatedAt ≤ item.updatedAt

/-- A column has the value that is asked for, if one is. -/
def isWanted {α : Type} [DecidableEq α] : Option α → α → Bool
  | some wanted, value => value = wanted
  | none, _ => true

/-- The rows that the `SELECT` of `listMemories` gives. -/
def selectMemories (user : AuthenticatedUser) (input : ListInput) (st : Store N) :
    List (MemoryItem N) :=
  (lib.order.sort beforeInList (st.items.filter fun item =>
    item.orgId = user.orgId ∧ isWanted input.type item.type ∧ isWanted input.scope item.scope ∧
    isWanted input.status item.status ∧
    (input.status.isSome ∨ input.includeInactive ∨ item.status.isOnline) ∧
    (input.serviceName = [] ∨ item.serviceName = input.serviceName))).take
      (max 1 (min (if input.limit = 0 then 200 else input.limit) 500))

/-- The memories of a list. -/
def listedMemories (user : AuthenticatedUser) (input : ListInput) (st : Store N) :
    List (MemoryItem N) :=
  let visible := (selectMemories lib user input st).filter fun item => isVisible item user input.context
  let query := lib.toLowerCase (JsText.trim input.query)
  if query = [] then visible
  else visible.filter fun item => decide (query <:+: lib.toLowerCase (textForMemory item))

def listMemories (user : AuthenticatedUser) (input : ListInput) (st : Store N) :
    Outcome N (List (MemoryItem N)) :=
  let items := listedMemories lib user input st
  (hydrateMemories lib now st items, items)

/-! ### New memories -/

/-- The relation between a memory and another one, with its score and rationale. -/
def relationOf (item other : MemoryItem N) : Option (MemoryRelationType × Int × String) :=
  let itemText := textForMemory item
  let similarity := tokenSimilarity lib.toTexts itemText (textForMemory other)
  let contradiction := contradictionScore itemText (textForMemory other)
  if item.contentHash = other.contentHash ∨ 86 / 100 ≤ similarity then
    some (.duplicates, clampScore (max similarity (9 / 10) * 100), "两项记忆包含近似相同的可复用经验。")
  else if 5 / 10 ≤ contradiction ∧ 12 / 100 ≤ similarity then
    some (.conflicts, clampScore ((contradiction * (7 / 10) + similarity * (3 / 10)) * 100),
      "两项记忆对同一状态给出相反描述，需要重新验证。")
  else if item.serviceName ≠ [] ∧ item.serviceName = other.serviceName ∧ 34 / 100 ≤ similarity then
    some (.supports, clampScore (similarity * 100), "同一服务的独立记忆包含相互支持的状态或处置经验。")
  else if item.serviceName ≠ [] ∧ item.serviceName = other.serviceName then
    some (.sameService, 100, "两项记忆归属于同一运行服务。")
  else none

/-- `ORDER BY updated_at DESC` -/
def newerFirst (item item' : MemoryItem N) : Bool := item'.updatedAt ≤ item.updatedAt

def createMemoryRelations (st : Store N) (item : MemoryItem N) : Store N :=
  let others := (lib.order.sort newerFirst (st.items.filter fun other =>
    other.orgId = item.orgId ∧ other.id ≠ item.id ∧ other.status ≠ .forgotten)).take 300
  others.foldl (fun st other =>
    match relationOf lib item other with
    | some (type, score, rationale) =>
      st.addMemoryRelation ⟨item.orgId, item.id, other.id, type, score, JsText.of rationale, now⟩
    | none => st) st

structure MemorySourceInput where
  sourceType : MemorySourceType
  sourceId : JsText
  traceId : JsText
  relation : JsText
  weight : Option Int

def MemorySourceInput.row (memoryId : JsText) (source : MemorySourceInput) : MemorySource where
  memoryId := memoryId
  sourceType := source.sourceType
  sourceId := source.sourceId
  traceId := source.traceId
  relation := if source.relation = [] then JsText.of "derived_from" else source.relation
  weight := clampScore (source.weight.getD 100)
  createdAt := now

def addMemorySources (st : Store N) (memoryId : JsText) (sources : List MemorySourceInput) : Store N :=
  sources.foldl (fun st source => st.addMemorySource (source.row now memoryId)) st

/-- The input of `createMemory`; empty texts stand for those that are not given. -/
structure CreateInput (N : Type) where
  type : MemoryType
  scope : MemoryScope
  title : JsText
  summary : JsText
  content : JsValue N
  threadId : JsText
  workflowId : JsText
  serviceName : JsText
  tags : List JsText
  confidence : Option Int
  importance : Option Int
  status : Option MemoryStatus
  pinned : Bool
  note : JsText
  expiresAt : Int
  sources : List MemorySourceInput

/-- `MAX_CONTENT_BYTES` of `memory/index.ts`. -/
def maxMemoryBytes : Nat := 120000

namespace CreateInput

variable (input : CreateInput N)

def serialized : Serialized N := serializeContent lib.localeCompare maxMemoryBytes input.content

def storedTitle : JsText := (JsText.trim (redactString input.title)).take 240

def storedSummary : JsText := (JsText.trim (redactString input.summary)).take 4000

def contentHash : JsText := lib.sha256 (input.serialized lib).json

def injection : PromptInjectionResult :=
  detectPromptInjection lib.nfkc
    (JsText.join (JsText.of "\n") [input.storedTitle, input.storedSummary, (input.serialized lib).json])

def storedStatus : MemoryStatus :=
  if (input.injection lib).detected then .suspended else input.status.getD .active

def storedConfidence : Int :=
  if (input.injection lib).detected then min 35 (input.confidence.getD 70)
  else clampScore (input.confidence.getD 72)

def storedImportance : Int := clampScore (input.importance.getD 60)

def storedService : JsText :=
  (if input.serviceName ≠ [] then input.serviceName
    else ((extractServiceNames (input.serialized lib).content).head?).getD []).take 160

def storedTags : List JsText :=
  ((input.tags.map JsText.trim).filter fun tag => tag ≠ []).eraseDups.take 40

def storedKeywords : List JsText :=
  extractKeywords lib.toTexts (JsText.join (JsText.of " ") [input.storedTitle, input.storedSummary,
    input.storedService lib, (input.serialized lib).content.stringify]) 24

def storedNote : JsText := (redactString input.note).take 4000

def context : MemoryContext := ⟨input.threadId, input.workflowId⟩

/-- `confidence * 0.45 + importance * 0.45 + 10` -/
def vitalityOf (confidence importance : Int) : ℚ :=
  (confidence : ℚ) * (45 / 100) + importance * (45 / 100) + 10

/-- The row that is inserted. -/
def row (user : AuthenticatedUser) (id : JsText) : MemoryItem N where
  id := id
  orgId := user.orgId
  userId := user.id
  threadId := input.threadId
  workflowId := input.workflowId
  type := input.type
  scope := input.scope
  serviceName := input.storedService lib
  title := input.storedTitle
  summary := input.storedSummary
  content := (input.serialized lib).stored
  contentHash := input.contentHash lib
  tags := input.storedTags
  keywords := input.storedKeywords lib
  confidence := input.storedConfidence lib
  importance := input.storedImportance
  vitality := clampScore (vitalityOf (input.storedConfidence lib) input.storedImportance)
  accessCount := 0
  reinforcementCount := 0
  status := input.storedStatus lib
  pinned := input.pinned
  note := input.storedNote
  createdAt := now
  lastAccessedAt := now
  lastReinforcedAt := now
  expiresAt := input.expiresAt
  updatedAt := now

/-- The memory of the same content that `createMemory` finds. -/
def existing (user : AuthenticatedUser) (st : Store N) : Option (MemoryItem N) :=
  (lib.order.sort newerFirst (st.items.filter fun item =>
    item.orgId = user.orgId ∧ item.contentHash = input.contentHash lib ∧
      item.status ≠ .forgotten)).head?

/-- The `UPDATE` of a memory whose content occurs again. -/
def reinforce (item row : MemoryItem N) : MemoryItem N :=
  { row with
    reinforcementCount := row.reinforcementCount + 1
    vitality := clampScore
      (max (item.vitality : ℚ) (((input.storedConfidence lib : ℚ) + input.storedImportance) / 2) + 4)
    confidence := max row.confidence (input.storedConfidence lib)
    importance := max row.importance input.storedImportance
    lastReinforcedAt := now
    updatedAt := now }

/-- What the first action of a memory says. -/
def createdDetail : JsText :=
  if (input.injection lib).detected then
    JsText.of "检测到记忆注入风险：" ++ JsText.join (JsText.of "；")
      ((input.injection lib).findings.map fun finding => JsText.of finding.description)
  else JsText.of "创建记忆。"

/-- The check of the scope. -/
def scopeError (user : AuthenticatedUser) : Option String :=
  if input.scope = .organization ∧ user.role ≠ .admin then some "只有管理员可以写入组织级记忆"
  else if input.scope = .thread ∧ input.threadId = [] then some "线程级记忆必须指定 threadId"
  else if input.scope = .workflow ∧ input.workflowId = [] then some "Loop 级记忆必须指定 workflowId"
  else none

end CreateInput

/-- A result, or an error. -/
abbrev Fallibly (N : Type) := Outcome N (Except String (Option (MemoryItem N)))

def reinforceMemory (user : AuthenticatedUser) (input : CreateInput N) (item : MemoryItem N)
    (st : Store N) : Outcome N (Option (MemoryItem N)) :=
  let st := st.updateItem item.id (input.reinforce lib now item)
  let st := addMemorySources now st item.id input.sources
  let st := st.addMemoryAction now item.id user "reinforced" item.status item.status
    (JsText.of "相同内容再次出现，已强化现有记忆。")
  getMemory lib now item.id user input.context st

/-- What is done for a new memory after its row has been inserted. -/
def completeMemory (user : AuthenticatedUser) (input : CreateInput N) (id : JsText) (st : Store N) :
    Outcome N (Option (MemoryItem N)) :=
  let status := input.storedStatus lib
  let st := addMemorySources now st id input.sources
  let st := st.addMemoryAction now id user
    (if (input.injection lib).detected then "auto_suspended" else "created") status status
    (input.createdDetail lib)
  let (st, created) := getMemory lib now id user input.context st
  match created with
  | none => (st, none)
  | some created => getMemory lib now id user input.context (createMemoryRelations lib now st created)

/-- `id` is what `randomUUID` gives; a row with this identifier cannot be inserted again. -/
def createMemory (user : AuthenticatedUser) (id : JsText) (input : CreateInput N) (st : Store N) :
    Fallibly N :=
  match input.scopeError user with
  | some err => (st, .error err)
  | none =>
    match input.existing lib user st with
    | some item =>
      let (st, memory) := reinforceMemory lib now user input item st
      (st, .ok memory)
    | none =>
      if st.items.any fun item => item.id = id then (st, .error "UNIQUE constraint failed")
      else
        let (st, memory) := completeMemory lib now user input id
          { st with items := st.items ++ [input.row lib now user id] }
        (st, .ok memory)

/-! ### Changes -/

structure UpdateInput where
  status : Option MemoryStatus
  pinned : Option Bool
  note : Option JsText
  confidence : Option Int
  importance : Option Int

namespace UpdateInput

variable (input : UpdateInput) (current : MemoryItem N)

def nextStatus : MemoryStatus := input.status.getD current.status

def nextPinned : Bool := input.pinned.getD current.pinned

def nextConfidence : Int := clampScore (input.confidence.getD current.confidence)

def nextImportance : Int := clampScore (input.importance.getD current.importance)

def nextNote : JsText := (redactString (input.note.getD current.note)).take 4000

def nextVitality : Int :=
  if input.nextStatus current = .verified then
    clampScore (max (current.vitality : ℚ)
      (CreateInput.vitalityOf (input.nextConfidence current) (input.nextImportance current)))
  else current.vitality

/-- The `UPDATE` of `updateMemory`, after `current` has been read. -/
def apply (row : MemoryItem N) : MemoryItem N :=
  { row with
    status := input.nextStatus current
    pinned := input.nextPinned current
    note := input.nextNote current
    confidence := input.nextConfidence current
    importance := input.nextImportance current
    vitality := input.nextVitality current
    lastReinforcedAt := if input.nextStatus current = .verified then now else row.lastReinforcedAt
    reinforcementCount := row.reinforcementCount +
      if input.nextStatus current = .verified ∧ row.status ≠ .verified then 1 else 0
    updatedAt := now }

def action : String :=
  if input.nextStatus current ≠ current.status then "status_" ++ (input.nextStatus current).text
  else if input.nextPinned current ≠ current.pinned then
    if input.nextPinned current then "pinned" else "unpinned"
  else "updated"

end UpdateInput

/-- `UPDATE scry_memory_chunks SET confidence = ?, updated_at = ?` -/
def Store.updateChunks (st : Store N) (memoryId : JsText) (confidence : Int) : Store N :=
  { st with chunks := st.chunks.map fun chunk =>
      if chunk.memoryId = memoryId then { chunk with confidence := confidence, updatedAt := now }
      else chunk }

/-- What is done with a memory that has been read, if there is one. -/
def withMemory (user : AuthenticatedUser) (id : JsText)
    (change : MemoryItem N → Store N → Fallibly N) (st : Store N) : Fallibly N :=
  match getMemory lib now id user .none st with
  | (st, none) => (st, .ok none)
  | (st, some current) => change current st

/-- The rest of an operation is the memory as it is now. -/
def thenGetMemory (user : AuthenticatedUser) (id : JsText) (st : Store N) : Fallibly N :=
  let (st, memory) := getMemory lib now id user .none st
  (st, .ok memory)

def updateMemory (user : AuthenticatedUser) (id : JsText) (input : UpdateInput) (st : Store N) :
    Fallibly N :=
  withMemory lib now user id (fun current st =>
    if current.scope = .organization ∧ user.role ≠ .admin then (st, .error "只有管理员可以维护组织级记忆")
    else
      let st := st.updateItem id (input.apply now current)
      let st := if input.nextConfidence current ≠ current.confidence then
          st.updateChunks now current.id (input.nextConfidence current)
        else st
      thenGetMemory lib now user id (st.addMemoryAction now id user (input.action current)
        current.status (input.nextStatus current) (input.note.getD []))) st

/-- The title of a forgotten memory. -/
def forgottenTitle : JsText := JsText.of "已遗忘记忆"

def forgottenDetail : JsText := JsText.of "已清除记忆正文、摘要、标签、关键词和服务标识，仅保留审计骨架。"

/-- The `UPDATE` of `forgetMemory`. -/
def MemoryItem.forget (row : MemoryItem N) : MemoryItem N :=
  { row with
    title := forgottenTitle
    summary := []
    content := .null
    tags := []
    keywords := []
    serviceName := []
    contentHash := lib.sha256
      (JsText.of "forgotten:" ++ row.id ++ JsText.of ":" ++ JsText.of (toString now))
    status := .forgotten
    pinned := false
    vitality := 0
    note := []
    updatedAt := now }

def forgetMemory (user : AuthenticatedUser) (id : JsText) (st : Store N) : Fallibly N :=
  withMemory lib now user id (fun current st =>
    if current.scope = .organization ∧ user.role ≠ .admin then (st, .error "只有管理员可以遗忘组织级记忆")
    else
      let st := (st.updateItem id (MemoryItem.forget lib now)).deleteChunks id
      thenGetMemory lib now user id
        (st.addMemoryAction now id user "forgotten" current.status .forgotten forgottenDetail)) st

/-! ### Retrieval -/

/-- Which of the candidates a retrieval returns, by the scores of a query, evidence and topology. -/
structure Ranking (N : Type) where
  results : List (MemoryItem N) → List (MemoryItem N)
  subperm : ∀ candidates, (results candidates).Subperm candidates

/-- The `UPDATE` of a memory that is returned. -/
def MemoryItem.access (row : MemoryItem N) : MemoryItem N :=
  { row with
    accessCount := row.accessCount + 1
    lastAccessedAt := now
    vitality := min 100 (row.vitality + 1)
    updatedAt := now }

def retrieveMemories (user : AuthenticatedUser) (context : MemoryContext) (includeInactive : Bool)
    (ranking : Ranking N) (st : Store N) : Outcome N (List (MemoryItem N)) :=
  let (st, candidates) := listMemories lib now user (.all context includeInactive 800) st
  let results := ranking.results candidates
  (results.foldl (fun st memory => st.updateItem memory.id (MemoryItem.access now)) st, results)

/-! ### Maintenance -/

/-- One thing that `maintainMemories` does. -/
inductive Upkeep (N : Type) where
  | expire (item : MemoryItem N)
  | decay (item : MemoryItem N) (vitality : Int)
  | archive (item : MemoryItem N)
  | merge (left right : MemoryItem N)
  | conflict (left right : MemoryItem N) (score : Int)
  | suspend (weaker : MemoryItem N)

def isExpired (item : MemoryItem N) : Bool :=
  0 < item.expiresAt ∧ item.expiresAt ≤ now ∧ !item.pinned

def halfLifeDays : MemoryType → ℚ
  | .working => 1
  | .episodic => 90
  | .semantic => 365
  | .procedural => 540

def currentVitality (item : MemoryItem N) : Int :=
  let ageDays : ℚ := max 0 ((now - max item.lastAccessedAt item.lastReinforcedAt : Int) / 86400000)
  let recency := 100 * lib.halfPower (ageDays / halfLifeDays item.type)
  let reinforcement := min 100 ((item.reinforcementCount : ℚ) * 12 + lib.log1p item.accessCount * 10)
  clampScore ((item.importance : ℚ) * (34 / 100) + item.confidence * (32 / 100) +
    recency * (24 / 100) + reinforcement * (1 / 10))

/-- The memory is not kept from being archived or suspended by the maintenance. -/
def isLoose (item : MemoryItem N) : Bool := !item.pinned && item.status ≠ .verified

/-- A memory that is archived because of its vitality. -/
def fades (item : MemoryItem N) : Bool :=
  isLoose item ∧ currentVitality lib now item < 20 ∧ item.status = .active

/-- The first loop, at an item. -/
def itemUpkeep (item : MemoryItem N) : List (Upkeep N) :=
  if item.status = .forgotten then []
  else if isExpired now item then [.expire item]
  else if !isLoose item then []
  else
    (if currentVitality lib now item ≠ item.vitality then [.decay item (currentVitality lib now item)]
      else []) ++
    if fades lib now item then [.archive item] else []

def memorySimilarity (left right : MemoryItem N) : ℚ :=
  tokenSimilarity lib.toTexts (textForMemory left) (textForMemory right)

/-- Two memories may be about the same. -/
def comparable (left right : MemoryItem N) : Bool :=
  left.type = right.type ∧
    (left.serviceName = [] ∨ right.serviceName = [] ∨ left.serviceName = right.serviceName)

def isMerged (left right : MemoryItem N) : Bool :=
  comparable left right ∧ 88 / 100 ≤ memorySimilarity lib left right ∧ isLoose right

def isConflict (left right : MemoryItem N) : Bool :=
  comparable left right ∧ !isMerged lib left right ∧ 12 / 100 ≤ memorySimilarity lib left right ∧
    5 / 10 ≤ contradictionScore (textForMemory left) (textForMemory right)

def weakerOf (left right : MemoryItem N) : MemoryItem N :=
  if left.confidence ≤ right.confidence then left else right

/-- The second loop, at two items. -/
def pairUpkeep (pair : MemoryItem N × MemoryItem N) : List (Upkeep N) :=
  if isMerged lib pair.1 pair.2 then [.merge pair.1 pair.2]
  else if isConflict lib pair.1 pair.2 then
    .conflict pair.1 pair.2 (clampScore (memorySimilarity lib pair.1 pair.2 * 30 + 70)) ::
      if isLoose (weakerOf pair.1 pair.2) then [.suspend (weakerOf pair.1 pair.2)] else []
  else []

/-- The pairs of elements, each with those behind it. -/
def pairs {α : Type} : List α → List (α × α)
  | [] => []
  | a :: l => l.map (fun b => (a, b)) ++ pairs l

/-- The memories that the maintenance looks at. -/
def maintained (user : AuthenticatedUser) (limit : Nat) (st : Store N) : List (MemoryItem N) :=
  let visible := listedMemories lib user (.all .none true (min limit 500)) st
  if user.role = .admin then visible else visible.filter fun item => item.scope ≠ .organization

def onlinePairs (items : List (MemoryItem N)) : List (MemoryItem N × MemoryItem N) :=
  pairs (items.filter fun item => item.status.isOnline)

/-- Everything that is done for some items. -/
def upkeep (items : List (MemoryItem N)) : List (Upkeep N) :=
  items.flatMap (itemUpkeep lib now) ++ (onlinePairs items).flatMap (pairUpkeep lib)

def mergedNote (left : MemoryItem N) : JsText := JsText.of "已合并到记忆 " ++ left.id

def Upkeep.run (user : AuthenticatedUser) (st : Store N) : Upkeep N → Store N
  | .expire item =>
    (st.updateItem item.id fun row =>
      { row with status := .archived, vitality := 0, updatedAt := now }).addMemoryAction now item.id user
        "expired" item.status .archived (JsText.of "记忆已超过保留期限。")
  | .decay item vitality =>
    st.updateItem item.id fun row => { row with vitality := vitality, updatedAt := now }
  | .archive item =>
    (st.updateItem item.id fun row =>
      { row with status := .archived, updatedAt := now }).addMemoryAction now item.id user
        "auto_archived" item.status .archived (JsText.of "活性低于 20，自动移出在线检索。")
  | .merge left right =>
    ((st.updateItem left.id fun row =>
      { row with
        reinforcementCount := row.reinforcementCount + 1
        vitality := min 100 (row.vitality + 5)
        lastReinforcedAt := now
        updatedAt := now }).updateItem right.id fun row =>
      { row with status := .archived, note := mergedNote left, updatedAt := now }).addMemoryAction
        now right.id user "merged" right.status .archived (mergedNote left)
  | .conflict left right score =>
    st.addMemoryRelation ⟨user.orgId, left.id, right.id, .conflicts, score,
      JsText.of "维护任务检测到同一主题的相反状态描述。", now⟩
  | .suspend weaker =>
    (st.updateItem weaker.id fun row =>
      { row with status := .suspended, updatedAt := now }).addMemoryAction now weaker.id user
        "conflict_suspended" weaker.status .suspended (JsText.of "与更高置信度记忆冲突，等待人工复核。")

/-- The numbers of a `MemoryMaintenanceReport`. -/
structure MaintenanceReport where
  scanned : Nat
  decayed : Nat
  reinforced : Nat
  merged : Nat
  conflicts : Nat
  archived : Nat
  expired : Nat

/-- One more thing is done. -/
def MaintenanceReport.add (report : MaintenanceReport) : Upkeep N → MaintenanceReport
  | .expire _ => { report with expired := report.expired + 1 }
  | .decay _ _ => { report with decayed := report.decayed + 1 }
  | .archive _ => { report with archived := report.archived + 1 }
  | .merge _ _ => { report with merged := report.merged + 1, reinforced := report.reinforced + 1 }
  | .conflict _ _ _ => { report with conflicts := report.conflicts + 1 }
  | .suspend _ => report

def maintainMemories (user : AuthenticatedUser) (limit : Nat) (st : Store N) :
    Outcome N MaintenanceReport :=
  let items := maintained lib user limit st
  let st := hydrateMemories lib now st (listedMemories lib user (.all .none true (min limit 500)) st)
  let steps := upkeep lib now items
  (steps.foldl (Upkeep.run now user) st,
    steps.foldl MaintenanceReport.add ⟨items.length, 0, 0, 0, 0, 0, 0⟩)

/-! ### Calls -/

/-- A call of one of the operations. -/
inductive MemoryCall (N : Type) where
  | create (user : AuthenticatedUser) (id : JsText) (input : CreateInput N)
  | update (user : AuthenticatedUser) (id : JsText) (input : UpdateInput)
  | forget (user : AuthenticatedUser) (id : JsText)
  | retrieve (user : AuthenticatedUser) (context : MemoryContext) (includeInactive : Bool)
      (ranking : Ranking N)
  | maintain (user : AuthenticatedUser) (limit : Nat)
  | list (user : AuthenticatedUser) (input : ListInput)
  | get (user : AuthenticatedUser) (id : JsText) (context : MemoryContext)

/-- The store after a call at some time. -/
def perform (st : Store N) : MemoryCall N → Store N
  | .create user id input => (createMemory lib now user id input st).1
  | .update user id input => (updateMemory lib now user id input st).1
  | .forget user id => (forgetMemory lib now user id st).1
  | .retrieve user context includeInactive ranking =>
    (retrieveMemories lib now user context includeInactive ranking st).1
  | .maintain user limit => (maintainMemories lib now user limit st).1
  | .list user input => (listMemories lib now user input st).1
  | .get user id context => (getMemory lib now id user context st).1

/-- A call, and its time. -/
def MemoryStep (st : Store N) (a : MemoryCall N × Int) (st' : Store N) : Prop :=
  st' = perform lib a.2 st a.1

end AgentService
