import BoringPanel.AgentService.Memory.Frame
import BoringPanel.Lib.ReadModifyWrite
import Mathlib.Data.Rat.Floor

/-!
# Two PATCH requests at once

`updateEvidence` and `updateMemory` read a row and then write all its fields that a request may set. The
changes of two requests for different fields are both in the row afterwards if one of the requests
writes before the other one reads, or if the first one writes what was there (`carriesBoth_iff`).

The selection of evidence that is rejected or suspended is refused, which is no loss.
-/

namespace AgentService

open ReadModifyWrite

/-- Of two requests that do not both set a field, the other one keeps it. -/
theorem getD_of_disjoint {α : Type} {given given' : Option α} (h : given = none ∨ given' = none) {a : α}
    (ha : a ∈ given) (current : α) : given'.getD current = current := by
  rw [h.resolve_left (Option.ne_none_iff_exists'.mpr ⟨a, ha⟩), Option.getD_none]

/-! ### Evidence -/

inductive EvidenceStatus where
  | active
  | accepted
  | rejected
  | suspended
deriving DecidableEq

/-- Evidence of this status is not selected. -/
def EvidenceStatus.deselects (status : EvidenceStatus) : Bool := status = .rejected ∨ status = .suspended

/-- The columns of `scry_evidence_items` that `updateEvidence` writes. -/
structure EvidenceRow where
  status : EvidenceStatus
  selected : Bool
  note : JsText
  updatedAt : Int

structure EvidencePatch where
  status : Option EvidenceStatus
  selected : Option Bool
  note : Option JsText

namespace EvidencePatch

variable (patch : EvidencePatch) (current : EvidenceRow)

def nextStatus : EvidenceStatus := patch.status.getD current.status

def nextSelected : Bool :=
  if (patch.nextStatus current).deselects then false else patch.selected.getD current.selected

def storedNote (note : JsText) : JsText := (JsText.trim note).take 4000

def nextNote : JsText :=
  match patch.note with
  | none => current.note
  | some note => storedNote note

/-- The `UPDATE` of `updateEvidence` at a time, after `current` has been read. -/
def write (patch : EvidencePatch × Int) (current _ : EvidenceRow) : EvidenceRow where
  status := patch.1.nextStatus current
  selected := patch.1.nextSelected current
  note := patch.1.nextNote current
  updatedAt := patch.2

/-- No field is set twice. -/
structure Disjoint (patch' : EvidencePatch) : Prop where
  status : patch.status = none ∨ patch'.status = none
  selected : patch.selected = none ∨ patch'.selected = none
  note : patch.note = none ∨ patch'.note = none

/-- The change is in the row; a selection may have been refused at the start or because of the status
in the end. -/
structure Carried (start final : EvidenceRow) : Prop where
  status : ∀ status ∈ patch.status, final.status = status
  selected : ∀ selected ∈ patch.selected, final.selected = selected ∨
    selected = true ∧ (start.status.deselects ∨ final.status.deselects)
  note : ∀ note ∈ patch.note, final.note = storedNote note

/-- What another request has read is what a request sets, but for a selection that the other request
takes away, or that has been refused at the start. -/
structure Kept (patch' : EvidencePatch) (start current : EvidenceRow) : Prop where
  status : ∀ status ∈ patch.status, current.status = status
  selected : ∀ selected ∈ patch.selected, current.selected = selected ∨
    (patch'.nextStatus current).deselects ∨ selected = true ∧ start.status.deselects
  note : ∀ note ∈ patch.note, current.note = storedNote note

variable {patch} {patch' : EvidencePatch} {now now' : Int} {start : EvidenceRow}

theorem Disjoint.symm (h : patch.Disjoint patch') : patch'.Disjoint patch :=
  ⟨h.status.symm, h.selected.symm, h.note.symm⟩

/-- The change of the request that writes. -/
theorem carried_write (current row : EvidenceRow) :
    patch.Carried start (write (patch, now) current row) := by
  refine ⟨fun status hstatus => ?_, fun selected hselected => ?_, fun note hnote => ?_⟩
  · show patch.status.getD current.status = status
    rw [hstatus]
    rfl
  · show patch.nextSelected current = selected ∨ _
    rw [nextSelected]
    split
    · rename_i hdeselects
      cases selected with
      | false => exact .inl rfl
      | true => exact .inr ⟨rfl, .inr hdeselects⟩
    · left
      rw [hselected]
      rfl
  · show patch.nextNote current = storedNote note
    rw [nextNote, hnote]

/-- What a write leaves of the change of another request. -/
theorem carried_write_iff (hdisjoint : patch.Disjoint patch') (current row : EvidenceRow) :
    patch.Carried start (write (patch', now) current row) ↔ patch.Kept patch' start current := by
  have hstatus : ∀ status ∈ patch.status, patch'.nextStatus current = current.status :=
    fun status hgiven => getD_of_disjoint hdisjoint.status hgiven current.status
  have hselected : ∀ selected ∈ patch.selected, patch'.nextSelected current =
      if (patch'.nextStatus current).deselects then false else current.selected := by
    intro selected hgiven
    rw [nextSelected, getD_of_disjoint hdisjoint.selected hgiven]
  have hnote : ∀ note ∈ patch.note, patch'.nextNote current = current.note := by
    intro note hgiven
    rw [nextNote, hdisjoint.note.resolve_left (Option.ne_none_iff_exists'.mpr ⟨note, hgiven⟩)]
  refine ⟨fun h => ⟨fun status hgiven => ?_, fun selected hgiven => ?_, fun note hgiven => ?_⟩,
    fun h => ⟨fun status hgiven => ?_, fun selected hgiven => ?_, fun note hgiven => ?_⟩⟩
  · exact (hstatus status hgiven).symm.trans (h.status status hgiven)
  · have hcarried : patch'.nextSelected current = selected ∨
        selected = true ∧ (start.status.deselects ∨ (patch'.nextStatus current).deselects) :=
      h.selected selected hgiven
    by_cases hdeselects : (patch'.nextStatus current).deselects = true
    · exact .inr (.inl hdeselects)
    · rw [hselected selected hgiven, if_neg hdeselects] at hcarried
      exact hcarried.imp_right fun h => .inr (h.imp_right fun h => h.resolve_right hdeselects)
  · exact (hnote note hgiven).symm.trans (h.note note hgiven)
  · exact (hstatus status hgiven).trans (h.status status hgiven)
  · show patch'.nextSelected current = selected ∨
      selected = true ∧ (start.status.deselects ∨ (patch'.nextStatus current).deselects)
    by_cases hdeselects : (patch'.nextStatus current).deselects = true
    · cases selected with
      | false =>
        rw [nextSelected, if_pos hdeselects]
        exact .inl rfl
      | true => exact .inr ⟨rfl, .inr hdeselects⟩
    · rw [hselected selected hgiven, if_neg hdeselects]
      rcases h.selected selected hgiven with hkept | hlost | ⟨htrue, hrefused⟩
      · exact .inl hkept
      · exact absurd hlost hdeselects
      · exact .inr ⟨htrue, .inl hrefused⟩
  · exact (hnote note hgiven).trans (h.note note hgiven)

/-- What a request has written is what it sets. -/
theorem kept_write (hdisjoint : patch.Disjoint patch') :
    patch.Kept patch' start (write (patch, now) start start) := by
  have hcarried : patch.Carried start (write (patch, now) start start) := carried_write start start
  refine ⟨hcarried.status, fun selected hgiven => ?_, hcarried.note⟩
  rcases hcarried.selected selected hgiven with hkept | ⟨htrue, hrefused | hdeselects⟩
  · exact .inl hkept
  · exact .inr (.inr ⟨htrue, hrefused⟩)
  · -- the status stays, unless it was there at the start
    cases hstatus : patch.status with
    | none =>
      refine .inr (.inr ⟨htrue, ?_⟩)
      rwa [write, nextStatus, hstatus] at hdeselects
    | some status =>
      refine .inr (.inl ?_)
      rw [nextStatus, getD_of_disjoint hdisjoint.status hstatus]
      exact hdeselects

/-- The change of the first of two requests. -/
theorem carried_secondWrite (hdisjoint : patch.Disjoint patch') (inOrder : Bool) :
    (patch.Carried start (secondWrite id write start inOrder (patch, now) (patch', now')) ∧
      patch'.Carried start (secondWrite id write start inOrder (patch, now) (patch', now'))) ↔
      inOrder = true ∨ patch.Kept patch' start start := by
  rw [secondWrite, and_iff_left (carried_write _ _), carried_write_iff hdisjoint]
  cases inOrder with
  | true => exact iff_of_true (kept_write hdisjoint) (.inl rfl)
  | false => exact (or_iff_right Bool.false_ne_true).symm

end EvidencePatch

/-! ### Memories -/

namespace UpdateInput

variable {N : Type} (input : UpdateInput)

/-- The `UPDATE` of `updateMemory` at a time. -/
def write (input : UpdateInput × Int) (current row : MemoryItem N) : MemoryItem N :=
  input.1.apply input.2 current row

def storedNote (note : JsText) : JsText := (redactString note).take 4000

/-- No field is set twice. -/
structure Disjoint (input' : UpdateInput) : Prop where
  status : input.status = none ∨ input'.status = none
  pinned : input.pinned = none ∨ input'.pinned = none
  note : input.note = none ∨ input'.note = none
  confidence : input.confidence = none ∨ input'.confidence = none
  importance : input.importance = none ∨ input'.importance = none

/-- The change is in the row. -/
structure Carried (row : MemoryItem N) : Prop where
  status : ∀ status ∈ input.status, row.status = status
  pinned : ∀ pinned ∈ input.pinned, row.pinned = pinned
  note : ∀ note ∈ input.note, row.note = storedNote note
  confidence : ∀ confidence ∈ input.confidence, row.confidence = clampScore confidence
  importance : ∀ importance ∈ input.importance, row.importance = clampScore importance

/-- What another request has read is what a request sets, as it is written back. -/
structure Kept (current : MemoryItem N) : Prop where
  status : ∀ status ∈ input.status, current.status = status
  pinned : ∀ pinned ∈ input.pinned, current.pinned = pinned
  note : ∀ note ∈ input.note, storedNote current.note = storedNote note
  confidence : ∀ confidence ∈ input.confidence, clampScore current.confidence = clampScore confidence
  importance : ∀ importance ∈ input.importance, clampScore current.importance = clampScore importance

variable {input} {input' : UpdateInput} {now now' : Int} {start : MemoryItem N}

theorem Disjoint.symm (h : input.Disjoint input') : input'.Disjoint input :=
  ⟨h.status.symm, h.pinned.symm, h.note.symm, h.confidence.symm, h.importance.symm⟩

/-- The change of the request that writes. -/
theorem carried_write (current row : MemoryItem N) : input.Carried (write (input, now) current row) := by
  refine ⟨fun status hgiven => ?_, fun pinned hgiven => ?_, fun note hgiven => ?_,
    fun confidence hgiven => ?_, fun importance hgiven => ?_⟩
  · show input.status.getD current.status = status
    rw [hgiven, Option.getD_some]
  · show input.pinned.getD current.pinned = pinned
    rw [hgiven, Option.getD_some]
  · show (redactString (input.note.getD current.note)).take 4000 = storedNote note
    rw [hgiven, Option.getD_some, storedNote]
  · show clampScore (input.confidence.getD current.confidence : Int) = clampScore confidence
    rw [hgiven, Option.getD_some]
  · show clampScore (input.importance.getD current.importance : Int) = clampScore importance
    rw [hgiven, Option.getD_some]

/-- What a write leaves of the change of another request. -/
theorem carried_write_iff (hdisjoint : input.Disjoint input') (current row : MemoryItem N) :
    input.Carried (write (input', now) current row) ↔ input.Kept current := by
  have hstatus : ∀ status ∈ input.status, input'.nextStatus current = current.status :=
    fun status hgiven => getD_of_disjoint hdisjoint.status hgiven current.status
  have hpinned : ∀ pinned ∈ input.pinned, input'.nextPinned current = current.pinned :=
    fun pinned hgiven => getD_of_disjoint hdisjoint.pinned hgiven current.pinned
  have hnote : ∀ note ∈ input.note, input'.nextNote current = storedNote current.note := by
    intro note hgiven
    rw [nextNote, getD_of_disjoint hdisjoint.note hgiven, storedNote]
  have hconfidence : ∀ confidence ∈ input.confidence,
      input'.nextConfidence current = clampScore current.confidence := by
    intro confidence hgiven
    rw [nextConfidence, getD_of_disjoint hdisjoint.confidence hgiven]
  have himportance : ∀ importance ∈ input.importance,
      input'.nextImportance current = clampScore current.importance := by
    intro importance hgiven
    rw [nextImportance, getD_of_disjoint hdisjoint.importance hgiven]
  refine ⟨fun h => ⟨fun status hgiven => ?_, fun pinned hgiven => ?_, fun note hgiven => ?_,
    fun confidence hgiven => ?_, fun importance hgiven => ?_⟩,
    fun h => ⟨fun status hgiven => ?_, fun pinned hgiven => ?_, fun note hgiven => ?_,
      fun confidence hgiven => ?_, fun importance hgiven => ?_⟩⟩
  · exact (hstatus status hgiven).symm.trans (h.status status hgiven)
  · exact (hpinned pinned hgiven).symm.trans (h.pinned pinned hgiven)
  · exact (hnote note hgiven).symm.trans (h.note note hgiven)
  · exact (hconfidence confidence hgiven).symm.trans (h.confidence confidence hgiven)
  · exact (himportance importance hgiven).symm.trans (h.importance importance hgiven)
  · exact (hstatus status hgiven).trans (h.status status hgiven)
  · exact (hpinned pinned hgiven).trans (h.pinned pinned hgiven)
  · exact (hnote note hgiven).trans (h.note note hgiven)
  · exact (hconfidence confidence hgiven).trans (h.confidence confidence hgiven)
  · exact (himportance importance hgiven).trans (h.importance importance hgiven)

/-- A note, once stored, is stored as it is. -/
theorem storedNote_storedNote (note : JsText) : storedNote (storedNote note) = storedNote note := by
  rw [storedNote, storedNote, redactString_take, List.take_take, Nat.min_self]

theorem clampScore_clampScore (value : ℚ) : clampScore (clampScore value : Int) = clampScore value := by
  have hrange : 0 ≤ clampScore value ∧ clampScore value ≤ 100 := by
    rw [clampScore]
    omega
  generalize clampScore value = score at hrange
  have hfloor : ((score : ℚ) + 1 / 2).floor = score := by
    have hhalf : ⌊(1 / 2 : ℚ)⌋ = 0 := by norm_num
    calc ((score : ℚ) + 1 / 2).floor = ⌊(score : ℚ) + 1 / 2⌋ := rfl
      _ = score + ⌊(1 / 2 : ℚ)⌋ := Int.floor_intCast_add score _
      _ = score := by rw [hhalf, add_zero]
  rw [clampScore, hfloor]
  omega

/-- What a request has written is what it sets. -/
theorem kept_write (current row : MemoryItem N) : input.Kept (write (input, now) current row) := by
  have hcarried : input.Carried (write (input, now) current row) := carried_write current row
  refine ⟨hcarried.status, hcarried.pinned, fun note hgiven => ?_, fun confidence hgiven => ?_,
    fun importance hgiven => ?_⟩
  · rw [hcarried.note note hgiven, storedNote_storedNote]
  · rw [hcarried.confidence confidence hgiven, clampScore_clampScore]
  · rw [hcarried.importance importance hgiven, clampScore_clampScore]

/-- The change of the first of two requests. -/
theorem carried_secondWrite (hdisjoint : input.Disjoint input') (inOrder : Bool) :
    (input.Carried (secondWrite id write start inOrder (input, now) (input', now')) ∧
      input'.Carried (secondWrite id write start inOrder (input, now) (input', now'))) ↔
      inOrder = true ∨ input.Kept start := by
  rw [secondWrite, and_iff_left (carried_write _ _), carried_write_iff hdisjoint]
  cases inOrder with
  | true => exact iff_of_true (kept_write _ _) (.inl rfl)
  | false => exact (or_iff_right Bool.false_ne_true).symm

end UpdateInput

/-! ### Both changes -/

section Both

variable {N : Type}

/-- The first request that writes sets what is in the row already. -/
def EvidencePatch.FirstKept (row : EvidenceRow) : List (EvidencePatch × Int) → Prop
  | [first, second] => first.1.Kept second.1 row row
  | _ => False

def UpdateInput.FirstKept (row : MemoryItem N) : List (UpdateInput × Int) → Prop
  | [first, _] => first.1.Kept row
  | _ => False

theorem EvidencePatch.carriesBoth_iff {row final : EvidenceRow} {p q : EvidencePatch × Int}
    {as : List (Label (EvidencePatch × Int) Bool)} (hdisjoint : p.1.Disjoint q.1)
    (h : TwoRequests id write row p q as final) :
    (p.1.Carried row final ∧ q.1.Carried row final) ↔ sequential as = true ∨ FirstKept row (writes as) := by
  obtain ⟨first, second, horder, hwrites, rfl⟩ := h.secondWrite
  rw [hwrites]
  rcases horder with ⟨rfl, rfl⟩ | ⟨rfl, rfl⟩
  · exact carried_secondWrite hdisjoint _
  · rw [and_comm]
    exact carried_secondWrite hdisjoint.symm _

theorem UpdateInput.carriesBoth_iff {row final : MemoryItem N} {p q : UpdateInput × Int}
    {as : List (Label (UpdateInput × Int) Bool)} (hdisjoint : p.1.Disjoint q.1)
    (h : TwoRequests id write row p q as final) :
    (p.1.Carried final ∧ q.1.Carried final) ↔ sequential as = true ∨ FirstKept row (writes as) := by
  obtain ⟨first, second, horder, hwrites, rfl⟩ := h.secondWrite
  rw [hwrites]
  rcases horder with ⟨rfl, rfl⟩ | ⟨rfl, rfl⟩
  · exact carried_secondWrite hdisjoint _
  · rw [and_comm]
    exact carried_secondWrite hdisjoint.symm _

/-- **Both changes are in the row** exactly if one request has written before the other one reads, or the
first one sets what is in the row already; for evidence and for memories. -/
theorem bothCarried_iff :
    (∀ (row final : EvidenceRow) (p q : EvidencePatch × Int) (as : List (Label (EvidencePatch × Int) Bool)),
      p.1.Disjoint q.1 → TwoRequests id EvidencePatch.write row p q as final →
        ((p.1.Carried row final ∧ q.1.Carried row final) ↔
          sequential as = true ∨ EvidencePatch.FirstKept row (writes as))) ∧
    ∀ (row final : MemoryItem N) (p q : UpdateInput × Int) (as : List (Label (UpdateInput × Int) Bool)),
      p.1.Disjoint q.1 → TwoRequests id UpdateInput.write row p q as final →
        ((p.1.Carried final ∧ q.1.Carried final) ↔
          sequential as = true ∨ UpdateInput.FirstKept row (writes as)) :=
  ⟨fun _ _ _ _ _ hdisjoint h => EvidencePatch.carriesBoth_iff hdisjoint h,
    fun _ _ _ _ _ hdisjoint h => UpdateInput.carriesBoth_iff hdisjoint h⟩

/-! ### A note and a rejection -/

def activeRow : EvidenceRow := ⟨.active, true, [], 0⟩

def rejection : EvidencePatch × Int := ⟨⟨some .rejected, none, none⟩, 1⟩

def evidenceNote : EvidencePatch × Int := ⟨⟨none, none, some (JsText.of "seen")⟩, 2⟩

theorem disjoint_rejection : rejection.1.Disjoint evidenceNote.1 :=
  ⟨.inr rfl, .inl rfl, .inl rfl⟩

def activeMemory : MemoryItem Int :=
  (plainInput "db down" 1 0).row promptLibrary 0 keeper (JsText.of "1")

def suspension : UpdateInput × Int := ⟨⟨some .suspended, none, none, none, none⟩, 1⟩

def memoryNote : UpdateInput × Int := ⟨⟨none, none, some (JsText.of "seen"), none, none⟩, 2⟩

theorem disjoint_suspension : suspension.1.Disjoint memoryNote.1 :=
  ⟨.inr rfl, .inl rfl, .inl rfl, .inl rfl, .inl rfl⟩

/-- One after the other. -/
theorem bothCarried_iff_sequential :
    (rejection.1.Carried activeRow (secondWrite id EvidencePatch.write activeRow true rejection evidenceNote) ∧
      evidenceNote.1.Carried activeRow
        (secondWrite id EvidencePatch.write activeRow true rejection evidenceNote)) ∧
    suspension.1.Carried (secondWrite id UpdateInput.write activeMemory true suspension memoryNote) ∧
      memoryNote.1.Carried (secondWrite id UpdateInput.write activeMemory true suspension memoryNote) :=
  ⟨((@bothCarried_iff Int).1 activeRow _ rejection evidenceNote _ disjoint_rejection twoRequests_sequential).mpr
      (.inl rfl),
    ((@bothCarried_iff Int).2 activeMemory _ suspension memoryNote _ disjoint_suspension
      twoRequests_sequential).mpr (.inl rfl)⟩

/-- A note undoes a rejection, and a suspension. -/
theorem not_bothCarried_overlapping :
    (¬ ∀ (row final : EvidenceRow) (p q : EvidencePatch × Int)
      (as : List (Label (EvidencePatch × Int) Bool)), p.1.Disjoint q.1 →
        TwoRequests id EvidencePatch.write row p q as final →
          p.1.Carried row final ∧ q.1.Carried row final) ∧
    ¬ ∀ (row final : MemoryItem Int) (p q : UpdateInput × Int)
      (as : List (Label (UpdateInput × Int) Bool)), p.1.Disjoint q.1 →
        TwoRequests id UpdateInput.write row p q as final → p.1.Carried final ∧ q.1.Carried final := by
  refine ⟨fun h => ?_, fun h => ?_⟩
  · obtain ⟨hcarried, -⟩ := h activeRow _ rejection evidenceNote _ disjoint_rejection
      twoRequests_overlapping
    have hstatus := hcarried.status .rejected rfl
    revert hstatus
    decide
  · obtain ⟨hcarried, -⟩ := h activeMemory _ suspension memoryNote _ disjoint_suspension
      twoRequests_overlapping
    have hstatus := hcarried.status .suspended rfl
    revert hstatus
    decide +kernel

end Both

end AgentService
