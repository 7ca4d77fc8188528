import Mathlib.Data.List.MinMax

/-!
# Replacing references in a text one after another

A text with references is a list of segments (`Seg`). Replacing one reference after the other by
`strings.ReplaceAll` works on the whole text each time, what has been put in before included, so that
it may find a pattern that is no reference. `Only` says that it does not: **every occurrence of the
pattern is a reference**. Under this condition at each step the replacements give the simultaneous
substitution (`foldl_replaceAll`), whatever their order.

* `replaceAll`: `strings.ReplaceAll`.
* `render`: a segmented text with some of its references replaced.
* `parse`: the segments of a text, from left to right, the longest reference first.
-/

namespace Substitution

variable {α ν : Type} [DecidableEq α] [DecidableEq ν]

/-! ### `strings.ReplaceAll` -/

/-- The scan from the left; the first `skip` elements belong to the last occurrence. -/
def replaceFrom (old new : List α) : Nat → List α → List α
  | _, [] => []
  | skip + 1, _ :: s => replaceFrom old new skip s
  | 0, c :: s =>
    if old <+: c :: s then new ++ replaceFrom old new (old.length - 1) s
    else c :: replaceFrom old new 0 s

/-- `strings.ReplaceAll`. The empty text matches at the beginning and after each element. -/
def replaceAll (old new s : List α) : List α :=
  if old = [] then new ++ s.flatMap fun c => c :: new else replaceFrom old new 0 s

section ReplaceAll

variable {old : List α} (new : List α)

omit [DecidableEq ν] in
theorem replaceFrom_eq_drop (skip : Nat) (s : List α) :
    replaceFrom old new skip s = replaceFrom old new 0 (s.drop skip) := by
  induction s generalizing skip with
  | nil => cases skip <;> rfl
  | cons c s ih =>
    cases skip with
    | zero => rfl
    | succ skip =>
      rw [replaceFrom, List.drop_succ_cons]
      exact ih skip

theorem replaceAll_nil (hne : old ≠ []) : replaceAll old new [] = [] := by
  rw [replaceAll, if_neg hne, replaceFrom]

/-- An occurrence at the beginning. -/
theorem replaceAll_append (hne : old ≠ []) (s : List α) :
    replaceAll old new (old ++ s) = new ++ replaceAll old new s := by
  obtain ⟨c, rest, rfl⟩ := List.exists_cons_of_ne_nil hne
  rw [replaceAll, replaceAll, if_neg hne, if_neg hne, List.cons_append, replaceFrom,
    if_pos ⟨s, rfl⟩, replaceFrom_eq_drop]
  simp

/-- No occurrence at the beginning. -/
theorem replaceAll_cons {c : α} {s : List α} (hne : old ≠ []) (h : ¬ old <+: c :: s) :
    replaceAll old new (c :: s) = c :: replaceAll old new s := by
  rw [replaceAll, replaceAll, if_neg hne, if_neg hne, replaceFrom, if_neg h]

/-- A pattern of one element is replaced element by element. -/
theorem replaceAll_singleton (c : α) (s : List α) :
    replaceAll [c] new s = s.flatMap fun d => if d = c then new else [d] := by
  induction s with
  | nil => exact replaceAll_nil new (List.cons_ne_nil c [])
  | cons d s ih =>
    rw [List.flatMap_cons, ← ih]
    by_cases hd : d = c
    · rw [if_pos hd, hd]
      exact replaceAll_append new (List.cons_ne_nil c []) s
    · rw [if_neg hd]
      refine replaceAll_cons new (List.cons_ne_nil c []) fun h => hd ?_
      exact (List.cons_prefix_cons.mp h).1.symm

end ReplaceAll

/-! ### Segments -/

/-- A piece of a text: an element of its own, or a reference. -/
inductive Seg (α ν : Type) where
  | lit (c : α)
  | ref (r : ν)
deriving DecidableEq, Repr

/-- How references are written, and what they stand for. -/
structure Refs (α ν : Type) where
  pattern : ν → List α
  value : ν → List α

variable (R : Refs α ν)

/-- A segment, with the references `done` replaced. -/
def Seg.text (done : List ν) : Seg α ν → List α
  | .lit c => [c]
  | .ref r => if r ∈ done then R.value r else R.pattern r

/-- The text, with the references `done` replaced. -/
def render (done : List ν) (segs : List (Seg α ν)) : List α := segs.flatMap (Seg.text R done)

omit [DecidableEq α] in
theorem render_cons (done : List ν) (seg : Seg α ν) (segs : List (Seg α ν)) :
    render R done (seg :: segs) = seg.text R done ++ render R done segs := rfl

omit [DecidableEq α] in
theorem render_append (done : List ν) (a b : List (Seg α ν)) :
    render R done (a ++ b) = render R done a ++ render R done b :=
  List.flatMap_append

omit [DecidableEq α] in
/-- Only membership among the replaced references counts. -/
theorem render_congr {done done' : List ν} (h : ∀ r, r ∈ done ↔ r ∈ done')
    (segs : List (Seg α ν)) : render R done segs = render R done' segs := by
  refine List.flatMap_congr fun seg _ => ?_
  cases seg with
  | lit c => rfl
  | ref r => simp only [Seg.text, h r]

/-- **The simultaneous substitution**: every reference replaced. -/
def substitute (segs : List (Seg α ν)) : List α :=
  segs.flatMap fun
    | .lit c => [c]
    | .ref r => R.value r

variable {R} in
omit [DecidableEq α] [DecidableEq ν] in
theorem substitute_congr {R' : Refs α ν} {segs : List (Seg α ν)}
    (h : ∀ r, .ref r ∈ segs → R.value r = R'.value r) : substitute R segs = substitute R' segs := by
  refine List.flatMap_congr fun seg hseg => ?_
  cases seg with
  | lit c => rfl
  | ref r => exact h r hseg

/-- **The pattern of `r` occurs only as a reference** to `r`. -/
def Only (done : List ν) (segs : List (Seg α ν)) (r : ν) : Prop :=
  ∀ u v, render R done segs = u ++ R.pattern r ++ v →
    ∃ before after, segs = before ++ .ref r :: after ∧ render R done before = u

variable {R}

omit [DecidableEq α] in
/-- The places where a pattern begins, one by one. -/
theorem only_iff {done : List ν} {segs : List (Seg α ν)} {r : ν} :
    Only R done segs r ↔ ∀ i ∈ List.range ((render R done segs).length + 1),
      R.pattern r <+: (render R done segs).drop i →
        ∃ k ∈ List.range segs.length,
          segs[k]? = some (.ref r) ∧ render R done (segs.take k) = (render R done segs).take i := by
  constructor
  · intro h i hi hpre
    obtain ⟨v, hv⟩ := hpre
    obtain ⟨before, after, rfl, hbefore⟩ := h ((render R done segs).take i) v (by
      rw [List.append_assoc, hv, List.take_append_drop])
    exact ⟨before.length, by simp, by simp, by simpa using hbefore⟩
  · intro h u v huv
    have hlen : u.length < (render R done segs).length + 1 := by
      rw [huv, List.append_assoc, List.length_append]
      omega
    obtain ⟨k, -, hk, htake⟩ := h u.length (List.mem_range.mpr hlen) ⟨v, by simp [huv]⟩
    obtain ⟨hlt, hget⟩ := List.getElem?_eq_some_iff.mp hk
    refine ⟨segs.take k, segs.drop (k + 1), ?_, by rw [htake, huv]; simp⟩
    rw [← hget, ← List.drop_eq_getElem_cons hlt, List.take_append_drop]

instance (done : List ν) (segs : List (Seg α ν)) (r : ν) : Decidable (Only R done segs r) :=
  decidable_of_iff' _ only_iff

omit [DecidableEq α] in
/-- The condition holds of the rest of a text. -/
theorem Only.tail {done : List ν} {seg : Seg α ν} {segs : List (Seg α ν)} {r : ν}
    (h : Only R done (seg :: segs) r) (hr : r ∉ done) (hne : R.pattern r ≠ []) :
    Only R done segs r := by
  intro u v huv
  have hwhole : render R done (seg :: segs) = (seg.text R done ++ u) ++ R.pattern r ++ v := by
    rw [render_cons, huv]
    simp
  obtain ⟨before, after, hsegs, hbefore⟩ := h _ v hwhole
  cases before with
  | nil =>
    -- the occurrence would be at the first segment, which has a text of its own
    obtain ⟨rfl, rfl⟩ := List.cons.inj hsegs
    have hnil : R.pattern r ++ u = [] := by
      rw [← show Seg.text R done (.ref r) = R.pattern r from if_neg hr]
      exact hbefore.symm
    exact absurd (List.append_eq_nil_iff.mp hnil).1 hne
  | cons first before =>
    obtain ⟨rfl, rfl⟩ := List.cons.inj hsegs
    exact ⟨before, after, rfl, List.append_cancel_left hbefore⟩

omit [DecidableEq α] in
/-- A segment that is no reference to `r` has no occurrence that begins inside. -/
theorem Only.not_prefix {done : List ν} {seg : Seg α ν} {segs : List (Seg α ν)} {r : ν}
    (h : Only R done (seg :: segs) r) (hseg : seg ≠ .ref r) {u w : List α}
    (hw : seg.text R done = u ++ w) (hne : w ≠ []) :
    ¬ R.pattern r <+: w ++ render R done segs := by
  rintro ⟨v, hv⟩
  have hwhole : render R done (seg :: segs) = u ++ R.pattern r ++ v := by
    rw [render_cons, hw, List.append_assoc, ← hv, List.append_assoc]
  obtain ⟨before, after, hsegs, hbefore⟩ := h u v hwhole
  cases before with
  | nil => exact hseg (List.cons.inj hsegs).1
  | cons first before =>
    obtain ⟨rfl, -⟩ := List.cons.inj hsegs
    rw [render_cons, hw] at hbefore
    have hlen := congrArg List.length hbefore
    have hpos := List.length_pos_of_ne_nil hne
    simp only [List.length_append] at hlen
    omega

/-- What is not a reference stays. -/
theorem replaceAll_append_of_not_prefix {old new rest : List α} (hne : old ≠ []) (w : List α)
    (h : ∀ u v, w = u ++ v → v ≠ [] → ¬ old <+: v ++ rest) :
    replaceAll old new (w ++ rest) = w ++ replaceAll old new rest := by
  induction w with
  | nil => rfl
  | cons c w ih =>
    have hc : ¬ old <+: c :: (w ++ rest) := h [] (c :: w) rfl (List.cons_ne_nil c w)
    rw [List.cons_append, replaceAll_cons new hne hc,
      ih fun u v huv hv => h (c :: u) v (by rw [huv, List.cons_append]) hv, List.cons_append]

/-- **One replacement** replaces the references to `r`, and nothing else. -/
theorem replaceAll_render {done : List ν} {segs : List (Seg α ν)} {r : ν}
    (h : Only R done segs r) (hr : r ∉ done) (hne : R.pattern r ≠ []) :
    replaceAll (R.pattern r) (R.value r) (render R done segs) = render R (r :: done) segs := by
  induction segs with
  | nil => exact replaceAll_nil _ hne
  | cons seg segs ih =>
    have ih' := ih (h.tail hr hne)
    rw [render_cons, render_cons]
    by_cases hseg : seg = .ref r
    · subst hseg
      have hold : Seg.text R done (.ref r) = R.pattern r := if_neg hr
      have hnew : Seg.text R (r :: done) (.ref r) = R.value r := if_pos List.mem_cons_self
      rw [hold, hnew, replaceAll_append _ hne, ih']
    · have hsame : seg.text R (r :: done) = seg.text R done := by
        cases seg with
        | lit c => rfl
        | ref x =>
          have hx : x ≠ r := fun hx => hseg (by rw [hx])
          simp only [Seg.text, List.mem_cons, hx, false_or]
      rw [hsame, replaceAll_append_of_not_prefix hne _ fun u w hw hwne => h.not_prefix hseg hw hwne,
        ih']

variable (R) in
/-- Each of the replacements `rs`, one after the other, finds references only. -/
def Safe (segs : List (Seg α ν)) : List ν → List ν → Prop
  | _, [] => True
  | done, r :: rs => Only R done segs r ∧ Safe segs (r :: done) rs

instance : ∀ (segs : List (Seg α ν)) (done rs : List ν), Decidable (Safe R segs done rs)
  | _, _, [] => inferInstanceAs (Decidable True)
  | segs, done, r :: rs =>
    have := instDecidableSafe segs (r :: done) rs
    inferInstanceAs (Decidable (Only R done segs r ∧ Safe R segs (r :: done) rs))

/-- **One replacement after the other** gives the simultaneous substitution. -/
theorem foldl_replaceAll {segs : List (Seg α ν)} (rs : List ν) (hne : ∀ r ∈ rs, R.pattern r ≠ []) :
    ∀ done, (rs ++ done).Nodup → Safe R segs done rs →
      rs.foldl (fun s r => replaceAll (R.pattern r) (R.value r) s) (render R done segs) =
        render R (rs ++ done) segs := by
  induction rs with
  | nil => exact fun done _ _ => rfl
  | cons r rs ih =>
    intro done hnd hsafe
    obtain ⟨hr, hnd'⟩ := List.nodup_cons.mp hnd
    have hrs : r ∉ done := fun h => hr (List.mem_append_right rs h)
    have hperm : (rs ++ r :: done).Perm (r :: rs ++ done) := List.perm_middle
    rw [List.foldl_cons, replaceAll_render hsafe.1 hrs (hne r List.mem_cons_self),
      ih (fun x hx => hne x (List.mem_cons_of_mem r hx)) _ (hperm.nodup_iff.mpr hnd) hsafe.2]
    exact render_congr R (fun x => hperm.mem_iff) segs

/-! ### What is left -/

variable (R) in
/-- **Every occurrence of `marker` begins a reference** that is not replaced. -/
def Marks (marker : List α) (done : List ν) (segs : List (Seg α ν)) : Prop :=
  ∀ u v, render R done segs = u ++ marker ++ v →
    ∃ before r after, segs = before ++ .ref r :: after ∧ r ∉ done ∧ render R done before = u

/-- A reference that is not replaced. -/
def Seg.isLeft (done : List ν) : Seg α ν → Bool
  | .lit _ => false
  | .ref r => r ∉ done

omit [DecidableEq α] in
theorem marks_iff {marker : List α} {done : List ν} {segs : List (Seg α ν)} :
    Marks R marker done segs ↔ ∀ i ∈ List.range ((render R done segs).length + 1),
      marker <+: (render R done segs).drop i →
        ∃ k ∈ List.range segs.length, (segs[k]?.any (Seg.isLeft done)) ∧
          render R done (segs.take k) = (render R done segs).take i := by
  constructor
  · intro h i hi hpre
    obtain ⟨v, hv⟩ := hpre
    obtain ⟨before, r, after, rfl, hr, hbefore⟩ := h ((render R done segs).take i) v (by
      rw [List.append_assoc, hv, List.take_append_drop])
    exact ⟨before.length, by simp, by simpa [Seg.isLeft] using hr, by simpa using hbefore⟩
  · intro h u v huv
    have hlen : u.length < (render R done segs).length + 1 := by
      rw [huv, List.append_assoc, List.length_append]
      omega
    obtain ⟨k, hk, hleft, htake⟩ := h u.length (List.mem_range.mpr hlen) ⟨v, by simp [huv]⟩
    have hlt : k < segs.length := List.mem_range.mp hk
    rw [List.getElem?_eq_getElem hlt, Option.any_some] at hleft
    cases hseg : segs[k] with
    | lit c =>
      rw [hseg] at hleft
      exact absurd hleft (by simp [Seg.isLeft])
    | ref r =>
      rw [hseg] at hleft
      refine ⟨segs.take k, r, segs.drop (k + 1), ?_, by simpa [Seg.isLeft] using hleft,
        by rw [htake, huv]; simp⟩
      rw [← hseg, ← List.drop_eq_getElem_cons hlt, List.take_append_drop]

instance (marker : List α) (done : List ν) (segs : List (Seg α ν)) :
    Decidable (Marks R marker done segs) :=
  decidable_of_iff' _ marks_iff

omit [DecidableEq α] in
/-- If no segment is empty, a beginning of the segments is known by its text. -/
theorem eq_of_render_eq {done : List ν} {segs a b : List (Seg α ν)}
    (hne : ∀ seg ∈ segs, seg.text R done ≠ []) (ha : a <+: segs) (hb : b <+: segs)
    (h : render R done a = render R done b) : a = b := by
  wlog hab : a <+: b generalizing a b
  · have hba : b <+: a := (List.prefix_or_prefix_of_prefix ha hb).resolve_left hab
    exact (this hb ha h.symm hba).symm
  · obtain ⟨t, rfl⟩ := hab
    rw [render_append] at h
    have hnil : render R done t = [] := List.self_eq_append_right.mp h
    cases t with
    | nil => rw [List.append_nil]
    | cons seg t =>
      rw [render_cons] at hnil
      have hmem : seg ∈ segs := hb.mem (List.mem_append_right a List.mem_cons_self)
      exact absurd (List.append_eq_nil_iff.mp hnil).1 (hne seg hmem)

variable {μ : Type} (R) (f : ν → μ)

/-- What has been replaced becomes plain text; the other references stay, under new names. -/
def Seg.freeze (done : List ν) : Seg α ν → List (Seg α μ)
  | .lit c => [.lit c]
  | .ref r => if r ∈ done then (R.value r).map .lit else [.ref (f r)]

def freeze (done : List ν) (segs : List (Seg α ν)) : List (Seg α μ) :=
  segs.flatMap (Seg.freeze R f done)

variable {R f} [DecidableEq μ] {R' : Refs α μ} {done : List ν} {segs : List (Seg α ν)}

omit [DecidableEq α] in
theorem render_map_lit (w : List α) : render R [] (w.map .lit : List (Seg α ν)) = w := by
  induction w with
  | nil => rfl
  | cons c w ih => exact congrArg (c :: ·) ih

omit [DecidableEq α] [DecidableEq ν] in
theorem substitute_map_lit (w : List α) : substitute R (w.map .lit : List (Seg α ν)) = w := by
  induction w with
  | nil => rfl
  | cons c w ih => exact congrArg (c :: ·) ih

omit [DecidableEq α] in
/-- Freezing does not change the text. -/
theorem render_freeze (h : ∀ r, .ref r ∈ segs → r ∉ done → R'.pattern (f r) = R.pattern r) :
    render R' [] (freeze R f done segs) = render R done segs := by
  unfold render freeze
  rw [List.flatMap_assoc]
  refine List.flatMap_congr fun seg hseg => ?_
  cases seg with
  | lit c => rfl
  | ref r =>
    by_cases hr : r ∈ done
    · simp only [Seg.freeze, Seg.text, if_pos hr]
      exact render_map_lit (R.value r)
    · simp only [Seg.freeze, Seg.text, if_neg hr]
      simpa [Seg.text] using h r hseg hr

omit [DecidableEq α] [DecidableEq μ] in
/-- Nor what is to be put in. -/
theorem substitute_freeze (h : ∀ r, .ref r ∈ segs → r ∉ done → R'.value (f r) = R.value r) :
    substitute R' (freeze R f done segs) = substitute R segs := by
  unfold substitute freeze
  rw [List.flatMap_assoc]
  refine List.flatMap_congr fun seg hseg => ?_
  cases seg with
  | lit c => rfl
  | ref r =>
    by_cases hr : r ∈ done
    · simp only [Seg.freeze, if_pos hr]
      exact substitute_map_lit (R.value r)
    · simp only [Seg.freeze, if_neg hr]
      simpa using h r hseg hr

omit [DecidableEq α] [DecidableEq μ] in
theorem mem_of_mem_freeze {x : μ} (h : .ref x ∈ freeze R f done segs) :
    ∃ r, .ref r ∈ segs ∧ r ∉ done ∧ f r = x := by
  obtain ⟨seg, hseg, hx⟩ := List.mem_flatMap.mp h
  cases seg with
  | lit c => simp [Seg.freeze] at hx
  | ref r =>
    by_cases hr : r ∈ done
    · simp [Seg.freeze, hr] at hx
    · refine ⟨r, hseg, hr, ?_⟩
      simpa [Seg.freeze, hr, eq_comm] using hx

omit [DecidableEq α] in
theorem Marks.freeze {marker : List α} (hm : Marks R marker done segs)
    (h : ∀ r, .ref r ∈ segs → r ∉ done → R'.pattern (f r) = R.pattern r) :
    Marks R' marker [] (freeze R f done segs) := by
  intro u v huv
  rw [render_freeze h] at huv
  obtain ⟨before, r, after, rfl, hr, hbefore⟩ := hm u v huv
  refine ⟨Substitution.freeze R f done before, f r, Substitution.freeze R f done after, ?_,
    List.not_mem_nil, ?_⟩
  · simp [Substitution.freeze, Seg.freeze, hr]
  · rw [render_freeze fun x hx => h x (List.mem_append_left _ hx)]
    exact hbefore

/-! ### Finding the references -/

variable (R)

/-- The longest reference at the beginning of a text. -/
def longest (refs : List ν) (s : List α) : Option ν :=
  (refs.filter fun r => R.pattern r ≠ [] ∧ R.pattern r <+: s).argmax fun r => (R.pattern r).length

/-- The scan from the left; the first `skip` elements belong to the last reference. -/
def parseFrom (refs : List ν) : Nat → List α → List (Seg α ν)
  | _, [] => []
  | skip + 1, _ :: s => parseFrom refs skip s
  | 0, c :: s =>
    match longest R refs (c :: s) with
    | some r => .ref r :: parseFrom refs ((R.pattern r).length - 1) s
    | none => .lit c :: parseFrom refs 0 s

/-- **The segments of a text.** -/
def parse (refs : List ν) (s : List α) : List (Seg α ν) := parseFrom R refs 0 s

variable {R}

omit [DecidableEq ν] in
theorem parseFrom_eq_drop (refs : List ν) (skip : Nat) (s : List α) :
    parseFrom R refs skip s = parseFrom R refs 0 (s.drop skip) := by
  induction s generalizing skip with
  | nil => cases skip <;> rfl
  | cons c s ih =>
    cases skip with
    | zero => rfl
    | succ skip => exact ih skip

omit [DecidableEq ν] in
theorem mem_of_longest {refs : List ν} {s : List α} {r : ν} (h : longest R refs s = some r) :
    r ∈ refs ∧ R.pattern r ≠ [] ∧ R.pattern r <+: s := by
  have := List.mem_filter.mp (List.argmax_mem h)
  simpa using this

theorem render_parseFrom (refs : List ν) (s : List α) :
    ∀ skip, render R [] (parseFrom R refs skip s) = s.drop skip := by
  induction s with
  | nil => intro skip; cases skip <;> rfl
  | cons c s ih =>
    intro skip
    cases skip with
    | succ skip => exact ih skip
    | zero =>
      rw [parseFrom]
      cases hl : longest R refs (c :: s) with
      | none => exact congrArg (c :: ·) (ih 0)
      | some r =>
        obtain ⟨-, hne, v, hv⟩ := mem_of_longest hl
        have htext : Seg.text R [] (.ref r : Seg α ν) = R.pattern r := rfl
        change render R [] (.ref r :: parseFrom R refs ((R.pattern r).length - 1) s) = c :: s
        rw [render_cons, ih, htext]
        obtain ⟨d, rest, hpat⟩ := List.exists_cons_of_ne_nil hne
        rw [hpat, List.cons_append] at hv
        obtain ⟨rfl, rfl⟩ := List.cons.inj hv
        simp [hpat]

omit [DecidableEq ν] in
theorem mem_of_mem_parseFrom {refs : List ν} {r : ν} (s : List α) :
    ∀ skip, .ref r ∈ parseFrom R refs skip s → r ∈ refs := by
  induction s with
  | nil => intro skip h; cases skip <;> simp [parseFrom] at h
  | cons c s ih =>
    intro skip h
    cases skip with
    | succ skip => exact ih skip h
    | zero =>
      rw [parseFrom] at h
      cases hl : longest R refs (c :: s) with
      | none =>
        rw [hl] at h
        rcases List.mem_cons.mp h with h | h
        · cases h
        · exact ih 0 h
      | some x =>
        rw [hl] at h
        rcases List.mem_cons.mp h with h | h
        · cases h
          exact (mem_of_longest hl).1
        · exact ih _ h

omit [DecidableEq ν] in
/-- What is found are references. -/
theorem mem_of_mem_parse {refs : List ν} {s : List α} {r : ν} (h : .ref r ∈ parse R refs s) :
    r ∈ refs :=
  mem_of_mem_parseFrom s 0 h

/-- The segments are those of the text. -/
theorem render_parse (refs : List ν) (s : List α) : render R [] (parse R refs s) = s :=
  render_parseFrom refs s 0

/-- A text whose references are what the scan finds is parsed into its segments. -/
theorem parse_render {refs : List ν} {segs : List (Seg α ν)}
    (hlit : ∀ before c after, segs = before ++ .lit c :: after →
      longest R refs (c :: render R [] after) = none)
    (href : ∀ before r after, segs = before ++ .ref r :: after →
      R.pattern r ≠ [] ∧ longest R refs (R.pattern r ++ render R [] after) = some r) :
    parse R refs (render R [] segs) = segs := by
  induction segs with
  | nil => rfl
  | cons seg segs ih =>
    have ih' := ih (fun before c after h => hlit (seg :: before) c after (by rw [h]; rfl))
      (fun before r after h => href (seg :: before) r after (by rw [h]; rfl))
    cases seg with
    | lit c =>
      have hl := hlit [] c segs rfl
      change parseFrom R refs 0 (c :: render R [] segs) = _
      rw [parseFrom, hl]
      exact congrArg (Seg.lit c :: ·) ih'
    | ref r =>
      obtain ⟨hne, hl⟩ := href [] r segs rfl
      change parseFrom R refs 0 (R.pattern r ++ render R [] segs) = _
      obtain ⟨d, rest, hpat⟩ := List.exists_cons_of_ne_nil hne
      rw [hpat, List.cons_append] at hl ⊢
      rw [parseFrom, hl]
      -- the scan goes on behind the pattern
      have hdrop : (rest ++ render R [] segs).drop ((R.pattern r).length - 1) =
          render R [] segs := by
        simp [hpat]
      change Seg.ref r :: parseFrom R refs ((R.pattern r).length - 1) _ = _
      rw [parseFrom_eq_drop, hdrop]
      exact congrArg (Seg.ref r :: ·) ih'

end Substitution
