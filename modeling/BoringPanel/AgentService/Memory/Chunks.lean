import BoringPanel.AgentService.Memory.Texts

/-!
# Chunks of memories

`buildMemoryChunks`: the sections of a memory, split into parts, without the parts that were there
before. A memory has no two chunks of one index, and at most 80 of them.
-/

namespace AgentService

inductive ChunkType where
  | summary
  | observation
  | procedure
  | evidence
  | metadata
deriving DecidableEq

/-- A row of `scry_memory_chunks`. -/
structure MemoryChunk where
  id : JsText
  memoryId : JsText
  index : Nat
  type : ChunkType
  title : JsText
  content : JsText
  contentHash : JsText
  tokenCount : Nat
  keywords : List JsText
  serviceName : JsText
  confidence : Int
  createdAt : Int
  updatedAt : Int
deriving DecidableEq

def chunkType (title content : JsText) : ChunkType :=
  let value := title ++ JsText.of " " ++ content
  if (literals ["步骤", "操作", "处置", "恢复", "修复", "runbook", "procedure", "remediation",
      "command"]).test value then .procedure
  else if (literals ["证据", "日志", "指标", "链路", "告警", "evidence", "trace", "metric", "log",
      "alert"]).test value then .evidence
  else if (literals ["观察", "现象", "相关", "假设", "observation", "correlation",
      "hypothesis"]).test value then .observation
  else if (literals ["metadata", "元数据", "标识", "配置", "profile", "属性"]).test value then .metadata
  else .summary

/-- What `buildMemoryChunks` gets of a memory. -/
structure ChunkInput (N : Type) where
  memoryId : JsText
  title : JsText
  summary : JsText
  content : JsValue N
  serviceName : JsText
  confidence : Int

variable {N : Type} [JsNumber N]

/-- `JSON.stringify(value, null, 2)` -/
def indented (value : JsValue N) : JsText := JsValue.stringifyWith (JsText.of "  ") [] value

/-- The text of a member of the content. -/
def memberText : JsValue N → JsText
  | .string s => s
  | value => indented value

/-- The title and the text of a section. -/
abbrev Section := JsText × JsText

def contentSections (title : JsText) : JsValue N → List Section
  | .string s => [(title, s)]
  | .object members => ((members.take 80).map fun e => (e.1, memberText e.2)).filter fun e =>
      e.2 ≠ [] ∧ e.2 ∉ ["null", "[]", "\x7b\x7d"].map JsText.of
  | .null => []
  | value => [(title, indented value)]

def memorySections (input : ChunkInput N) : List Section :=
  (if JsText.trim input.summary = [] then []
    else [(JsText.of "记忆摘要", JsText.trim input.summary)]) ++ contentSections input.title input.content

/-- The parts of a section, with their titles. -/
def sectionParts (part : Section) : List (JsText × JsText) :=
  (splitText part.2 1800).zipIdx.map fun e =>
    ((part.1 ++ (if e.2 = 0 then [] else JsText.of " · " ++ JsText.of (toString (e.2 + 1)))).take 240, e.1)

variable (texts : Texts) (now : Int)

def buildChunk (input : ChunkInput N) (index : Nat) (title sectionTitle content : JsText) :
    MemoryChunk :=
  let hash := texts.sha256 content
  { id := texts.sha256 (input.memoryId ++ JsText.of ":" ++ JsText.of (toString index) ++ JsText.of ":" ++ hash)
    memoryId := input.memoryId
    index := index
    type := chunkType sectionTitle content
    title := title
    content := content
    contentHash := hash
    tokenCount := (memoryTokens texts content).length
    keywords := extractKeywords texts content 16
    serviceName := input.serviceName
    confidence := input.confidence
    createdAt := now
    updatedAt := now }

/-- The chunks after one more part of a section. -/
def addChunk (input : ChunkInput N) (chunks : List MemoryChunk) (part : JsText × (JsText × JsText)) :
    List MemoryChunk :=
  if 80 ≤ chunks.length ∨ texts.sha256 part.2.2 ∈ chunks.map MemoryChunk.contentHash then chunks
  else chunks ++ [buildChunk texts now input chunks.length part.2.1 part.1 part.2.2]

def buildMemoryChunks (input : ChunkInput N) : List MemoryChunk :=
  ((memorySections input).flatMap fun s => (sectionParts s).map fun part => (s.1, part)).foldl
    (addChunk texts now input) []

/-! ### The chunks of one memory -/

/-- Chunks as `buildMemoryChunks` numbers them. -/
structure Numbered (memoryId : JsText) (chunks : List MemoryChunk) : Prop where
  memoryId : ∀ chunk ∈ chunks, chunk.memoryId = memoryId
  index : chunks.map MemoryChunk.index = List.range chunks.length
  length : chunks.length ≤ 80

variable {texts now}

theorem numbered_addChunk {input : ChunkInput N} {chunks : List MemoryChunk}
    (h : Numbered input.memoryId chunks) (part : JsText × (JsText × JsText)) :
    Numbered input.memoryId (addChunk texts now input chunks part) := by
  rw [addChunk]
  split
  · exact h
  · rename_i hroom
    obtain ⟨hlen, -⟩ := not_or.mp hroom
    refine ⟨?_, ?_, ?_⟩
    · intro chunk hmem
      rcases List.mem_append.mp hmem with hmem | hmem
      · exact h.memoryId chunk hmem
      · rw [List.mem_singleton.mp hmem]
        rfl
    · rw [List.map_append, h.index, List.length_append]
      exact List.range_succ.symm
    · rw [List.length_append]
      exact Nat.lt_of_not_le hlen

theorem numbered_buildMemoryChunks (input : ChunkInput N) :
    Numbered input.memoryId (buildMemoryChunks texts now input) := by
  have hfold : ∀ (parts : List (JsText × (JsText × JsText))) (chunks : List MemoryChunk),
      Numbered input.memoryId chunks → Numbered input.memoryId (parts.foldl (addChunk texts now input) chunks) := by
    intro parts
    induction parts with
    | nil => exact fun _ h => h
    | cons part parts ih => exact fun chunks h => ih _ (numbered_addChunk h part)
  refine hfold _ [] ⟨?_, rfl, Nat.zero_le 80⟩
  intro chunk hmem
  cases hmem

/-! ### When chunks are built -/

/-- The chunk, built at another time. -/
def MemoryChunk.builtAt (chunk : MemoryChunk) (now : Int) : MemoryChunk :=
  { chunk with createdAt := now, updatedAt := now }

theorem addChunk_builtAt {input : ChunkInput N} {chunks : List MemoryChunk} (now' : Int)
    (part : JsText × (JsText × JsText)) :
    addChunk texts now' input (chunks.map (MemoryChunk.builtAt · now')) part =
      (addChunk texts now input chunks part).map (MemoryChunk.builtAt · now') := by
  have hhashes : (chunks.map (MemoryChunk.builtAt · now')).map MemoryChunk.contentHash =
      chunks.map MemoryChunk.contentHash := by
    rw [List.map_map]
    rfl
  rw [addChunk, addChunk, hhashes, List.length_map]
  split
  · rfl
  · rw [List.map_append]
    rfl

/-- Only the times of the chunks depend on when they are built. -/
theorem buildMemoryChunks_builtAt (now now' : Int) (input : ChunkInput N) :
    buildMemoryChunks texts now' input =
      (buildMemoryChunks texts now input).map (MemoryChunk.builtAt · now') := by
  rw [buildMemoryChunks, buildMemoryChunks]
  generalize List.flatMap _ _ = parts
  have hfold : ∀ chunks : List MemoryChunk,
      parts.foldl (addChunk texts now' input) (chunks.map (MemoryChunk.builtAt · now')) =
        (parts.foldl (addChunk texts now input) chunks).map (MemoryChunk.builtAt · now') := by
    induction parts with
    | nil => exact fun _ => rfl
    | cons part parts ih =>
      intro chunks
      rw [List.foldl_cons, List.foldl_cons, addChunk_builtAt, ih]
  exact hfold []

theorem ids_buildMemoryChunks (now now' : Int) (input : ChunkInput N) :
    (buildMemoryChunks texts now' input).map MemoryChunk.id =
      (buildMemoryChunks texts now input).map MemoryChunk.id := by
  rw [buildMemoryChunks_builtAt now now', List.map_map]
  rfl

end AgentService
