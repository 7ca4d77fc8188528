import BoringPanel.AgentService.Memory.Frame
import BoringPanel.Lib.ListChunks

/-!
# What chunks of a text keep

`splitText` joins paragraphs and cuts long ones, at sentences or anywhere. Apart from white space nothing
of the text is lost, doubled or moved, no part is empty, and none is longer than allowed
(`splitText_parts`). `buildMemoryChunks` makes at most 80 chunks of such parts, no two of one content
(`chunks_of_texts`).
-/

namespace AgentService

/-! ### White space -/

section Spaces

/-- A text without its white space. -/
def withoutSpace (s : JsText) : JsText := s.filter fun c => !JsText.isSpace c

@[simp] theorem withoutSpace_nil : withoutSpace [] = [] := rfl

@[simp] theorem withoutSpace_append (s t : JsText) :
    withoutSpace (s ++ t) = withoutSpace s ++ withoutSpace t := List.filter_append ..

theorem withoutSpace_cons (c : UInt16) (s : JsText) :
    withoutSpace (c :: s) = if JsText.isSpace c then withoutSpace s else c :: withoutSpace s := by
  unfold withoutSpace
  rw [List.filter_cons]
  cases JsText.isSpace c with
  | true => rfl
  | false => rfl

@[simp] theorem withoutSpace_lineFeed (s : JsText) : withoutSpace (0x0a :: s) = withoutSpace s := by
  rw [withoutSpace_cons, if_pos (by decide)]

theorem withoutSpace_space {c : UInt16} (h : JsText.isSpace c = true) : withoutSpace [c] = [] := by
  rw [withoutSpace_cons, if_pos h, withoutSpace_nil]

/-- White space at the ends is dropped. -/
theorem withoutSpace_trim (s : JsText) : withoutSpace (JsText.trim s) = withoutSpace s := by
  have hleft : ∀ t : JsText, withoutSpace (t.dropWhile JsText.isSpace) = withoutSpace t := by
    intro t
    induction t with
    | nil => rfl
    | cons c t ih =>
      rw [List.dropWhile_cons, withoutSpace_cons]
      split
      · exact ih
      · rename_i hc
        rw [withoutSpace_cons, if_neg hc]
  have hright : ∀ t : JsText, withoutSpace (t.rdropWhile JsText.isSpace) = withoutSpace t := by
    intro t
    induction t using List.reverseRecOn with
    | nil => rfl
    | append_singleton t c ih =>
      rw [List.rdropWhile_concat]
      split
      · rename_i hc
        rw [ih, withoutSpace_append, withoutSpace_space hc, List.append_nil]
      · rfl
  rw [JsText.trim, hleft, hright]

theorem withoutSpace_unixLines (s : JsText) : withoutSpace (unixLines s) = withoutSpace s := by
  induction s using unixLines.induct with
  | case1 s ih =>
    rw [unixLines, withoutSpace_lineFeed, ih, withoutSpace_cons 0x0d, if_pos (by decide),
      withoutSpace_lineFeed]
  | case2 c s h ih =>
    rw [unixLines, withoutSpace_cons, withoutSpace_cons, ih]
    exact h
  | case3 => rfl

end Spaces

/-! ### Paragraphs and sentences -/

section Splits

theorem withoutSpace_splitParagraphs (newlines : Nat) (paragraph s : JsText) :
    withoutSpace (splitParagraphs newlines paragraph s).flatten =
      withoutSpace paragraph ++ withoutSpace s := by
  induction s generalizing newlines paragraph with
  | nil =>
    rw [splitParagraphs]
    split_ifs <;> simp
  | cons c s ih =>
    rw [splitParagraphs]
    split
    · rename_i hc
      rw [ih, hc, withoutSpace_lineFeed]
    split
    · rw [ih, withoutSpace_append, List.append_assoc, ← withoutSpace_append [c], List.singleton_append]
    split
    · rw [ih, withoutSpace_append, withoutSpace_lineFeed, List.append_assoc, ← withoutSpace_append [c],
        List.singleton_append]
    · rw [List.flatten_cons, withoutSpace_append, ih, ← withoutSpace_append [c], List.singleton_append]

theorem withoutSpace_splitSentences (ended : Bool) (sentence s : JsText) :
    withoutSpace (splitSentences ended sentence s).flatten = withoutSpace sentence ++ withoutSpace s := by
  -- an empty sentence is not kept
  have hkept : ∀ t : JsText, withoutSpace (if t = [] then [] else [t]).flatten = withoutSpace t := by
    intro t
    split
    · rename_i ht
      rw [ht]
      rfl
    · rw [List.flatten_singleton]
  induction s generalizing ended sentence with
  | nil =>
    rw [splitSentences, hkept, withoutSpace_nil, List.append_nil]
  | cons c s ih =>
    rw [splitSentences]
    split
    · rw [List.flatten_append, withoutSpace_append, hkept]
      split
      · rename_i hc
        rw [ih, withoutSpace_nil, List.nil_append, withoutSpace_cons, if_pos hc]
      · rw [ih, ← withoutSpace_append [c], List.singleton_append]
    · rw [ih, withoutSpace_append, List.append_assoc, ← withoutSpace_append [c], List.singleton_append]

/-- A paragraph is cut without a loss. -/
theorem withoutSpace_splitParagraph (maxLength : Nat) (paragraph : JsText) :
    withoutSpace (splitParagraph maxLength paragraph).flatten = withoutSpace paragraph := by
  rw [splitParagraph]
  split
  · rw [List.flatten_singleton]
  · dsimp only
    split
    · rw [List.flatten_toChunks]
    · rw [withoutSpace_splitSentences, withoutSpace_nil, List.nil_append]

end Splits

/-! ### Parts -/

section Parts

/-- Parts are neither empty nor too long. -/
def AreParts (maxLength : Nat) (parts : List JsText) : Prop :=
  ∀ part ∈ parts, part ≠ [] ∧ part.length ≤ maxLength

/-- What has been put out and what is buffered. -/
structure Buffered (maxLength : Nat) (processed : JsText) (state : List JsText × JsText) : Prop where
  parts : AreParts maxLength state.1
  buffer : state.2.length ≤ maxLength
  text : withoutSpace state.1.flatten ++ withoutSpace state.2 = withoutSpace processed

variable {maxLength : Nat}

theorem areParts_nil : AreParts maxLength [] := fun _ h => nomatch h

theorem AreParts.append {parts parts' : List JsText} (h : AreParts maxLength parts)
    (h' : AreParts maxLength parts') : AreParts maxLength (parts ++ parts') := by
  intro part hpart
  exact (List.mem_append.mp hpart).elim (h part) (h' part)

/-- The buffer is put out if there is something in it. -/
theorem areParts_buffer {buffer : JsText} (h : buffer.length ≤ maxLength) :
    AreParts maxLength (if buffer = [] then [] else [buffer]) := by
  intro part hpart
  split at hpart
  · cases hpart
  · rename_i hbuffer
    rw [List.mem_singleton.mp hpart]
    exact ⟨hbuffer, h⟩

theorem flatten_buffer (buffer : JsText) : (if buffer = [] then [] else [buffer]).flatten = buffer := by
  split
  · rename_i hbuffer
    rw [hbuffer]
    rfl
  · exact List.flatten_singleton

theorem withoutSpace_joined (buffer paragraph : JsText) :
    withoutSpace (if buffer = [] then paragraph else buffer ++ JsText.of "\n\n" ++ paragraph) =
      withoutSpace buffer ++ withoutSpace paragraph := by
  split
  · rename_i hbuffer
    rw [hbuffer, withoutSpace_nil, List.nil_append]
  · have hblank : withoutSpace (JsText.of "\n\n") = [] := by decide
    rw [withoutSpace_append, withoutSpace_append, hblank, List.append_nil]

theorem Buffered.nextParagraph (hmax : 0 < maxLength) {processed : JsText} {state : List JsText × JsText}
    (h : Buffered maxLength processed state) (paragraph : JsText) :
    Buffered maxLength (processed ++ paragraph) (nextParagraph maxLength state paragraph) := by
  obtain ⟨output, buffer⟩ := state
  obtain ⟨hparts, hbuffer, htext⟩ := h
  dsimp only at hparts hbuffer htext
  have hput := hparts.append (areParts_buffer hbuffer)
  have hjoined := withoutSpace_joined buffer paragraph
  rw [AgentService.nextParagraph]
  dsimp only
  generalize (if buffer = [] then paragraph else buffer ++ JsText.of "\n\n" ++ paragraph) = candidate at *
  split
  · rename_i hfits
    refine ⟨hparts, hfits, ?_⟩
    rw [hjoined, ← List.append_assoc, htext, withoutSpace_append]
  split
  · rename_i hshort
    refine ⟨hput, hshort, ?_⟩
    rw [List.flatten_append, flatten_buffer, withoutSpace_append, htext, withoutSpace_append]
  · refine ⟨hput.append (List.bounds_of_mem_toChunks hmax paragraph), Nat.zero_le _, ?_⟩
    rw [List.flatten_append, List.flatten_append, flatten_buffer, List.flatten_toChunks,
      withoutSpace_append, withoutSpace_append, htext, withoutSpace_nil, List.append_nil,
      withoutSpace_append]

theorem Buffered.foldl (hmax : 0 < maxLength) {processed : JsText} {state : List JsText × JsText}
    (h : Buffered maxLength processed state) (paragraphs : List JsText) :
    Buffered maxLength (processed ++ paragraphs.flatten)
      (paragraphs.foldl (AgentService.nextParagraph maxLength) state) := by
  induction paragraphs generalizing processed state with
  | nil => simpa using h
  | cons paragraph paragraphs ih =>
    rw [List.foldl_cons, List.flatten_cons, ← List.append_assoc]
    exact ih (h.nextParagraph hmax paragraph)

/-- The parts of a text. -/
theorem splitText_parts (hmax : 0 < maxLength) (value : JsText) :
    AreParts maxLength (splitText value maxLength) ∧
      withoutSpace (splitText value maxLength).flatten = withoutSpace value := by
  rw [splitText]
  dsimp only
  have htrim : withoutSpace (JsText.trim (unixLines value)) = withoutSpace value := by
    rw [withoutSpace_trim, withoutSpace_unixLines]
  split
  · rename_i hempty
    rw [hempty] at htrim
    exact ⟨areParts_nil, htrim⟩
  · have hstart : Buffered maxLength [] ([], []) := ⟨areParts_nil, Nat.zero_le _, rfl⟩
    obtain ⟨hparts, hbuffer, htext⟩ := hstart.foldl hmax
      ((splitParagraphs 0 [] (JsText.trim (unixLines value))).flatMap (splitParagraph maxLength))
    refine ⟨hparts.append (areParts_buffer hbuffer), ?_⟩
    have hparagraphs : ∀ l : List JsText,
        withoutSpace (l.flatMap (splitParagraph maxLength)).flatten = withoutSpace l.flatten := by
      intro l
      induction l with
      | nil => rfl
      | cons paragraph l ih =>
        rw [List.flatMap_cons, List.flatten_append, withoutSpace_append, withoutSpace_splitParagraph, ih,
          List.flatten_cons, withoutSpace_append]
    rw [List.flatten_append, flatten_buffer, withoutSpace_append, htext, List.nil_append, hparagraphs,
      withoutSpace_splitParagraphs, withoutSpace_nil, List.nil_append, htrim]

end Parts

/-! ### Chunks -/

section Chunks

variable {N : Type} [JsNumber N] (texts : Texts) (now : Int)

/-- What chunks are made of, and in which order. -/
structure WellChunked (chunks : List MemoryChunk) : Prop where
  length : chunks.length ≤ 80
  index : chunks.map MemoryChunk.index = List.range chunks.length
  distinct : (chunks.map MemoryChunk.content).Nodup
  parts : AreParts 1800 (chunks.map MemoryChunk.content)

/-- The hashes of the chunks so far tell their contents apart. -/
structure Hashed (chunks : List MemoryChunk) : Prop where
  hash : ∀ chunk ∈ chunks, chunk.contentHash = texts.sha256 chunk.content
  distinct : (chunks.map MemoryChunk.contentHash).Nodup
  parts : AreParts 1800 (chunks.map MemoryChunk.content)

variable {texts now} {input : ChunkInput N}

omit [JsNumber N] in
theorem Hashed.addChunk {chunks : List MemoryChunk} (h : Hashed texts chunks)
    {part : JsText × (JsText × JsText)} (hpart : part.2.2 ≠ [] ∧ part.2.2.length ≤ 1800) :
    Hashed texts (addChunk texts now input chunks part) := by
  rw [AgentService.addChunk]
  split
  · exact h
  · rename_i hroom
    obtain ⟨-, hnew⟩ := not_or.mp hroom
    refine ⟨?_, ?_, ?_⟩
    · intro chunk hchunk
      rcases List.mem_append.mp hchunk with hchunk | hchunk
      · exact h.hash chunk hchunk
      · rw [List.mem_singleton.mp hchunk]
        rfl
    · rw [List.map_append, List.map_singleton]
      refine List.nodup_append.mpr ⟨h.distinct, List.nodup_singleton _, ?_⟩
      rintro a ha b hb rfl
      rw [List.mem_singleton.mp hb] at ha
      exact hnew ha
    · rw [List.map_append]
      refine h.parts.append fun content hcontent => ?_
      rw [List.mem_singleton.mp hcontent]
      exact hpart

/-- **The parts of a text, and the chunks of a memory.** -/
theorem chunks_of_texts (maxLength : Nat) (hmax : 0 < maxLength) (value : JsText) (texts : Texts)
    (now : Int) (input : ChunkInput N) :
    (AreParts maxLength (splitText value maxLength) ∧
        withoutSpace (splitText value maxLength).flatten = withoutSpace value) ∧
      WellChunked (buildMemoryChunks texts now input) := by
  refine ⟨splitText_parts hmax value, ?_⟩
  have hnumbered : Numbered input.memoryId (buildMemoryChunks texts now input) :=
    numbered_buildMemoryChunks input
  have hparts : ∀ part ∈ (memorySections input).flatMap fun s => (sectionParts s).map fun part => (s.1, part),
      part.2.2 ≠ [] ∧ part.2.2.length ≤ 1800 := by
    intro part hpart
    obtain ⟨s, -, hpart⟩ := List.mem_flatMap.mp hpart
    obtain ⟨titled, htitled, rfl⟩ := List.mem_map.mp hpart
    obtain ⟨⟨content, index⟩, hcontent, rfl⟩ := List.mem_map.mp htitled
    exact (splitText_parts (by decide) s.2).1 content (List.fst_mem_of_mem_zipIdx hcontent)
  have hhashed : Hashed texts (buildMemoryChunks texts now input) :=
    List.foldlRecOn (motive := Hashed texts) _ _ ⟨(fun _ h => nomatch h), List.nodup_nil, areParts_nil⟩
      fun chunks h part hpart => h.addChunk (hparts part hpart)
  have hhashes : (buildMemoryChunks texts now input).map MemoryChunk.contentHash =
      ((buildMemoryChunks texts now input).map MemoryChunk.content).map texts.sha256 := by
    rw [List.map_map]
    exact List.map_congr_left hhashed.hash
  exact ⟨hnumbered.length, hnumbered.index, .of_map _ (hhashes ▸ hhashed.distinct), hhashed.parts⟩

/-- A text of two paragraphs, one of which is cut. -/
theorem chunks_of_texts_twoParagraphs :
    (AreParts 4 (splitText (JsText.of "ab. cd\n\ne") 4) ∧
        withoutSpace (splitText (JsText.of "ab. cd\n\ne") 4).flatten =
          withoutSpace (JsText.of "ab. cd\n\ne")) ∧
      WellChunked (buildMemoryChunks (N := Int) asciiTexts 1
        ⟨JsText.of "1", JsText.of "t", JsText.of "s", .string (JsText.of "ab. cd"), [], 70⟩) :=
  chunks_of_texts 4 (by decide) _ _ _ _

example : splitText (JsText.of "ab. cd\n\ne") 4 = ["ab.", "cd", "e"].map JsText.of := by decide

end Chunks

end AgentService
