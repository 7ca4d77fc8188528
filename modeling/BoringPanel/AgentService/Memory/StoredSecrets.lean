import BoringPanel.AgentService.Memory.Frame

/-!
# Secrets in stored texts

Contents that differ in secrets only: the values of secret keys, bearer tokens, `sk-` keys and the bodies
of private keys, in texts and in the keys of objects. `createMemory` leaves the same store for two such
inputs, and evidence has the same content, if the secrets are values of secret keys or are matched by
`SECRET_VALUE` (`createMemory_eq_of_masked`). The body of a private key is not.
-/

namespace AgentService

/-! ### Secrets -/

def privateKeyMark (mark : String) (label : JsText) : JsText :=
  JsText.of "-----" ++ JsText.of mark ++ label ++ JsText.of "PRIVATE KEY-----"

/-- Two secrets of one form. -/
inductive SecretForm : JsText → JsText → Prop
  | bearer {word gap token token'} (hword : word.map JsText.toLower = JsText.of "bearer")
      (hgap : gap ≠ []) (hspaces : ∀ c ∈ gap, JsText.isSpace c = true)
      (htoken : token ≠ []) (hchars : ∀ c ∈ token, alphanumericOr "._~-" c = true)
      (htoken' : token' ≠ []) (hchars' : ∀ c ∈ token', alphanumericOr "._~-" c = true) :
      SecretForm (word ++ gap ++ token) (word ++ gap ++ token')
  | key {key key'} (hlength : 12 ≤ key.length) (hchars : ∀ c ∈ key, alphanumericOr "._-" c = true)
      (hlength' : 12 ≤ key'.length) (hchars' : ∀ c ∈ key', alphanumericOr "._-" c = true) :
      SecretForm (JsText.of "sk-" ++ key) (JsText.of "sk-" ++ key')
  | privateKey {label body body'} (hlabel : ∀ c ∈ label, letterOrBlank c = true) :
      SecretForm (privateKeyMark "BEGIN " label ++ body ++ privateKeyMark "END " label)
        (privateKeyMark "BEGIN " label ++ body' ++ privateKeyMark "END " label)

/-- Two texts that differ in secrets only. -/
inductive SecretText : JsText → JsText → Prop
  | nil : SecretText [] []
  | keep {c s s'} (h : SecretText s s') : SecretText (c :: s) (c :: s')
  | secret {a a' s s'} (hform : SecretForm a a') (h : SecretText s s') : SecretText (a ++ s) (a' ++ s')

variable {N : Type}

mutual

/-- Two values that differ in secrets only. -/
inductive SecretValue : JsValue N → JsValue N → Prop
  | same {value} : SecretValue value value
  | string {s s'} (h : SecretText s s') : SecretValue (.string s) (.string s')
  | array {items items'} (h : SecretItems items items') : SecretValue (.array items) (.array items')
  | object {members members'} (h : SecretMembers members members') :
      SecretValue (.object members) (.object members')

inductive SecretItems : List (JsValue N) → List (JsValue N) → Prop
  | nil : SecretItems [] []
  | cons {item item' items items'} (hitem : SecretValue item item') (h : SecretItems items items') :
      SecretItems (item :: items) (item' :: items')

inductive SecretMembers : List (JsText × JsValue N) → List (JsText × JsValue N) → Prop
  | nil : SecretMembers [] []
  | secret {key child child' members members'} (hkey : secretKey.test key = true)
      (h : SecretMembers members members') : SecretMembers ((key, child) :: members) ((key, child') :: members')
  | cons {key key' child child' members members'} (hkey : SecretText key key')
      (hchild : SecretValue child child') (h : SecretMembers members members') :
      SecretMembers ((key, child) :: members) ((key', child') :: members')

end

/-! ### Inputs -/

/-- `MAX_CONTENT_BYTES` of `evidence.ts`. -/
def maxEvidenceBytes : Nat := 160000

namespace CreateInput

/-- Two inputs that differ in secrets only. -/
structure Secret (input input' : CreateInput N) : Prop where
  content : SecretValue input.content input'.content
  title : SecretText input.title input'.title
  summary : SecretText input.summary input'.summary
  note : SecretText input.note input'.note
  serviceName : SecretText input.serviceName input'.serviceName
  tags : List.Forall₂ SecretText input.tags input'.tags
  others : input' = { input with
    content := input'.content
    title := input'.title
    summary := input'.summary
    note := input'.note
    serviceName := input'.serviceName
    tags := input'.tags }

/-- Two inputs whose differences are hidden. -/
structure Masked (input input' : CreateInput N) : Prop where
  content : MaskedValue 0 input.content input'.content
  title : secretValue.Masked input.title input'.title
  summary : secretValue.Masked input.summary input'.summary
  note : secretValue.Masked input.note input'.note
  others : input' = { input with
    content := input'.content
    title := input'.title
    summary := input'.summary
    note := input'.note }

section Stored

variable [JsNumber N] {lib : MemoryLibrary N} {now : Int} {input input' : CreateInput N}

/-- What is stored of the texts is the same. -/
structure SameTexts (lib : MemoryLibrary N) (input input' : CreateInput N) : Prop where
  serialized : input.serialized lib = input'.serialized lib
  title : input.storedTitle = input'.storedTitle
  summary : input.storedSummary = input'.storedSummary
  note : input.storedNote = input'.storedNote

theorem Masked.sameTexts (h : input.Masked input') : SameTexts lib input input' where
  serialized := serializeContent_eq_of_masked lib.localeCompare maxMemoryBytes h.content
  title := by rw [storedTitle, storedTitle, redactString_eq_of_masked h.title]
  summary := by rw [storedSummary, storedSummary, redactString_eq_of_masked h.summary]
  note := by rw [storedNote, storedNote, redactString_eq_of_masked h.note]

theorem SameTexts.injection (h : SameTexts lib input input') : input'.injection lib = input.injection lib := by
  rw [CreateInput.injection, CreateInput.injection, h.serialized, h.title, h.summary]

omit [JsNumber N] in
/-- What is not a text is the same. -/
theorem Masked.fields (h : input.Masked input') :
    input'.type = input.type ∧ input'.scope = input.scope ∧ input'.context = input.context ∧
      input'.serviceName = input.serviceName ∧ input'.tags = input.tags ∧
      input'.confidence = input.confidence ∧ input'.importance = input.importance ∧
      input'.status = input.status ∧ input'.pinned = input.pinned ∧ input'.expiresAt = input.expiresAt ∧
      input'.sources = input.sources := by
  rw [h.others]
  exact ⟨rfl, rfl, rfl, rfl, rfl, rfl, rfl, rfl, rfl, rfl, rfl⟩

theorem Masked.scores (h : input.Masked input') (lib : MemoryLibrary N) :
    input'.storedStatus lib = input.storedStatus lib ∧
      input'.storedConfidence lib = input.storedConfidence lib ∧
      input'.storedImportance = input.storedImportance := by
  obtain ⟨-, -, -, -, -, hconfidence, himportance, hstatus, -⟩ := h.fields
  have hinjection : input'.injection lib = input.injection lib := h.sameTexts.injection
  refine ⟨?_, ?_, ?_⟩
  · rw [storedStatus, storedStatus, hinjection, hstatus]
  · rw [storedConfidence, storedConfidence, hinjection, hconfidence]
  · rw [storedImportance, storedImportance, himportance]

theorem Masked.row_eq (h : input.Masked input') (user : AuthenticatedUser) (id : JsText) :
    input'.row lib now user id = input.row lib now user id := by
  have htexts : SameTexts lib input input' := h.sameTexts
  obtain ⟨htype, hscope, hcontext, hservice, htags, -, -, -, hpinned, hexpires, -⟩ := h.fields
  obtain ⟨hstatus, hconfidence, himportance⟩ := h.scores lib
  have hthread : input'.threadId = input.threadId := congrArg MemoryContext.threadId hcontext
  have hworkflow : input'.workflowId = input.workflowId := congrArg MemoryContext.workflowId hcontext
  have hstored : input'.storedService lib = input.storedService lib := by
    rw [storedService, storedService, htexts.serialized, hservice]
  have hkeywords : input'.storedKeywords lib = input.storedKeywords lib := by
    rw [storedKeywords, storedKeywords, hstored, htexts.serialized, htexts.title, htexts.summary]
  have hhash : input'.contentHash lib = input.contentHash lib := by
    rw [contentHash, contentHash, htexts.serialized]
  have hstoredTags : input'.storedTags = input.storedTags := by rw [storedTags, storedTags, htags]
  rw [row, row, htype, hscope, hthread, hworkflow, hstored, hkeywords, hhash, hstoredTags, hstatus,
    hconfidence, himportance, hpinned, hexpires, htexts.serialized, htexts.title, htexts.summary,
    htexts.note]

/-- **Hidden secrets are not stored**: the whole store is the same afterwards, and so is what is
returned; and evidence has the same content. -/
theorem createMemory_eq_of_masked (h : input.Masked input') :
    (∀ (now : Int) (user : AuthenticatedUser) (id : JsText) (st : Store N),
      createMemory lib now user id input' st = createMemory lib now user id input st) ∧
    serializeContent lib.localeCompare maxEvidenceBytes input'.content =
      serializeContent lib.localeCompare maxEvidenceBytes input.content := by
  refine ⟨fun now user id st => ?_, (serializeContent_eq_of_masked _ _ h.content).symm⟩
  have htexts : SameTexts lib input input' := h.sameTexts
  obtain ⟨-, hscope, hcontext, -, -, -, -, -, -, -, hsources⟩ := h.fields
  obtain ⟨hstatus, hconfidence, himportance⟩ := h.scores lib
  have hthread : input'.threadId = input.threadId := congrArg MemoryContext.threadId hcontext
  have hworkflow : input'.workflowId = input.workflowId := congrArg MemoryContext.workflowId hcontext
  have herror : input'.scopeError user = input.scopeError user := by
    rw [scopeError, scopeError, hscope, hthread, hworkflow]
  have hexisting : input'.existing lib user st = input.existing lib user st := by
    rw [existing, existing, contentHash, contentHash, htexts.serialized]
  have hreinforce : input'.reinforce lib now = input.reinforce lib now := by
    funext item row
    rw [reinforce, reinforce, hconfidence, himportance]
  have hdetail : input'.createdDetail lib = input.createdDetail lib := by
    rw [createdDetail, createdDetail, htexts.injection]
  have hreinforced : ∀ item, reinforceMemory lib now user input' item st =
      reinforceMemory lib now user input item st := by
    intro item
    rw [reinforceMemory, reinforceMemory, hreinforce, hsources, hcontext]
  have hcomplete : ∀ st : Store N, completeMemory lib now user input' id st =
      completeMemory lib now user input id st := by
    intro st
    rw [completeMemory, completeMemory, hstatus, hsources, htexts.injection, hdetail, hcontext]
  rw [createMemory, createMemory, herror, hexisting, h.row_eq]
  cases input.scopeError user with
  | some err => rfl
  | none =>
    cases input.existing lib user st with
    | some item =>
      dsimp only
      rw [hreinforced]
    | none =>
      dsimp only
      rw [hcomplete]

end Stored

end CreateInput

/-! ### A token and a private key -/

section Examples

/-- A memory with a text. -/
def textInput (text : JsText) : CreateInput Int := { plainInput "db down" 1 0 with content := .string text }

theorem masked_textInput {s s' : JsText} (h : secretValue.Masked s s') :
    (textInput s).Masked (textInput s') where
  content := .string h
  title := .refl secretValue_consuming _
  summary := .refl secretValue_consuming _
  note := .refl secretValue_consuming _
  others := rfl

def tokenText (token : String) : JsText := JsText.of ("bearer " ++ token)

theorem masked_tokenText : secretValue.Masked (tokenText "abc") (tokenText "xyz") := by
  have hmask : secretValue.Masked (tokenText "abc" ++ []) (tokenText "xyz" ++ []) :=
    .mask (by decide) (by decide) (by decide) (by decide) .nil
  rwa [List.append_nil, List.append_nil] at hmask

theorem createMemory_eq_of_masked_token :
    (∀ (now : Int) (user : AuthenticatedUser) (id : JsText) (st : Store Int),
      createMemory promptLibrary now user id (textInput (tokenText "xyz")) st =
        createMemory promptLibrary now user id (textInput (tokenText "abc")) st) ∧
    serializeContent promptLibrary.localeCompare maxEvidenceBytes (textInput (tokenText "xyz")).content =
      serializeContent promptLibrary.localeCompare maxEvidenceBytes (textInput (tokenText "abc")).content :=
  CreateInput.createMemory_eq_of_masked (masked_textInput masked_tokenText)

def privateKeyText (body : String) : JsText :=
  privateKeyMark "BEGIN " [] ++ JsText.of body ++ privateKeyMark "END " []

theorem secretText_privateKeyText (body body' : String) :
    SecretText (privateKeyText body) (privateKeyText body') := by
  have hform : SecretForm (privateKeyText body) (privateKeyText body') :=
    .privateKey (List.forall_mem_nil _)
  have hsecret := SecretText.secret hform .nil
  rwa [List.append_nil, List.append_nil] at hsecret

/-- The body of a private key is stored. -/
theorem not_hidden_privateKey : ¬ ∀ value value' : JsValue Int, SecretValue value value' →
    (serializeContent promptLibrary.localeCompare maxMemoryBytes value).json =
      (serializeContent promptLibrary.localeCompare maxMemoryBytes value').json := by
  intro h
  have hjson := h _ _ (.string (secretText_privateKeyText "A" "B"))
  revert hjson
  decide +kernel

end Examples

end AgentService
