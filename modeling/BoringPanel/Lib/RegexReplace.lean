import BoringPanel.Lib.Regex

/-!
# Replacing what a regular expression matches

`String.prototype.replace` with the flag `g`, for patterns without assertions that take at least one
character. A place is tried before the ones behind it, and the first match of the backtracking order is
taken (`tries`).

The replacement is visible: where it consists of characters that no class of the pattern has, nothing is
left to be replaced (`not_found_replace`), so that replacing again changes nothing, also after a cut
(`replace_take_replace`). Texts that differ in what is replaced only have the same result
(`replace_eq_of_masked`).
-/

namespace Regex

variable {α : Type}

/-- At least so many characters. -/
def atLeast (p : α → Bool) : Nat → Regex α
  | 0 => star p
  | n + 1 => seq (one p) (atLeast p n)

/-! ### Matches without assertions -/

/-- A text is a match. -/
def Matches : Regex α → List α → Prop
  | one p, s => ∃ c, s = [c] ∧ p c = true
  | upTo p n, s => s.length ≤ n ∧ ∀ c ∈ s, p c = true
  | star p, s => ∀ c ∈ s, p c = true
  | seq r t, s => ∃ x y, s = x ++ y ∧ r.Matches x ∧ t.Matches y
  | alt r t, s => r.Matches s ∨ t.Matches s
  | empty, s => s = []
  | _, _ => False

theorem mem_runs_iff {p : α → Bool} {n : Nat} {before rest : List α} {e : List α × List α} :
    e ∈ runs p n before rest ↔
      ∃ s, rest = s ++ e.2 ∧ e.1 = s.reverse ++ before ∧ s.length ≤ n ∧ ∀ c ∈ s, p c = true := by
  have hfirst : ∀ {m : Nat} {before rest : List α}, e = (before, rest) →
      ∃ s, rest = s ++ e.2 ∧ e.1 = s.reverse ++ before ∧ s.length ≤ m ∧ ∀ c ∈ s, p c = true := by
    rintro m before rest rfl
    exact ⟨[], rfl, rfl, Nat.zero_le m, fun c hc => absurd hc List.not_mem_nil⟩
  have hnil : ∀ {before rest s : List α}, rest = s ++ e.2 → e.1 = s.reverse ++ before → s = [] →
      e = (before, rest) := by
    rintro before rest s hrest hbefore rfl
    exact Prod.ext hbefore hrest.symm
  induction n generalizing before rest with
  | zero =>
    rw [runs, List.mem_singleton]
    constructor
    · exact hfirst
    · rintro ⟨s, hrest, hbefore, hlen, -⟩
      exact hnil hrest hbefore (List.length_eq_zero_iff.mp (Nat.le_zero.mp hlen))
  | succ n ih =>
    cases rest with
    | nil =>
      rw [runs, List.mem_singleton]
      constructor
      · exact hfirst
      · rintro ⟨s, hrest, hbefore, -, -⟩
        exact hnil hrest hbefore (List.append_eq_nil_iff.mp hrest.symm).1
    | cons c rest =>
      rw [runs, List.mem_cons]
      constructor
      · rintro (h | h)
        · exact hfirst h
        · by_cases hc : p c = true
          · rw [if_pos hc] at h
            obtain ⟨s, rfl, hbefore, hlen, hs⟩ := ih.mp h
            refine ⟨c :: s, rfl, by simp [hbefore], Nat.succ_le_succ hlen, ?_⟩
            exact List.forall_mem_cons.mpr ⟨hc, hs⟩
          · rw [if_neg hc] at h
            cases h
      · rintro ⟨s, hrest, hbefore, hlen, hs⟩
        cases s with
        | nil => exact .inl (hnil hrest hbefore rfl)
        | cons d s =>
          obtain ⟨rfl, rfl⟩ := List.cons.inj hrest
          obtain ⟨hc, hs⟩ := List.forall_mem_cons.mp hs
          rw [if_pos hc]
          exact .inr (ih.mpr ⟨s, rfl, by simp [hbefore], Nat.le_of_succ_le_succ hlen, hs⟩)

/-- The ends of a pattern without assertions are behind its matches. -/
theorem mem_ends_iff {r : Regex α} (hr : r.assertionFree = true) {before rest : List α}
    {e : List α × List α} : e ∈ ends r before rest ↔
      ∃ s, rest = s ++ e.2 ∧ e.1 = s.reverse ++ before ∧ r.Matches s := by
  induction r generalizing before rest e with
  | one p =>
    cases rest with
    | nil =>
      refine iff_of_false List.not_mem_nil ?_
      rintro ⟨s, hrest, -, c, rfl, -⟩
      cases hrest
    | cons c rest =>
      rw [ends]
      constructor
      · intro h
        by_cases hc : p c = true
        · rw [if_pos hc, List.mem_singleton] at h
          subst h
          exact ⟨[c], rfl, rfl, c, rfl, hc⟩
        · rw [if_neg hc] at h
          cases h
      · rintro ⟨s, hrest, hbefore, d, rfl, hd⟩
        obtain ⟨rfl, rfl⟩ := List.cons.inj hrest
        rw [if_pos hd, List.mem_singleton]
        exact Prod.ext hbefore rfl
  | upTo p n => exact mem_runs_iff
  | star p =>
    refine mem_runs_iff.trans (exists_congr fun s => and_congr_right fun hrest => ?_)
    refine and_congr_right fun _ => and_iff_right ?_
    rw [hrest, List.length_append]
    exact Nat.le_add_right _ _
  | seq r t ihr iht =>
    obtain ⟨hr, ht⟩ := (Bool.and_eq_true _ _).mp hr
    rw [ends, List.mem_flatMap]
    constructor
    · rintro ⟨d, hd, he⟩
      obtain ⟨x, rfl, hx, hmx⟩ := (ihr hr).mp hd
      obtain ⟨y, hy, hbefore, hmy⟩ := (iht ht).mp he
      refine ⟨x ++ y, by rw [hy, List.append_assoc], ?_, x, y, rfl, hmx, hmy⟩
      rw [hbefore, hx, List.reverse_append, List.append_assoc]
    · rintro ⟨s, hrest, hbefore, x, y, rfl, hmx, hmy⟩
      refine ⟨(x.reverse ++ before, y ++ e.2), (ihr hr).mpr ⟨x, ?_, rfl, hmx⟩,
        (iht ht).mpr ⟨y, rfl, ?_, hmy⟩⟩
      · rw [hrest, List.append_assoc]
      · rw [hbefore, List.reverse_append, List.append_assoc]
  | alt r t ihr iht =>
    obtain ⟨hr, ht⟩ := (Bool.and_eq_true _ _).mp hr
    rw [ends, List.mem_append, ihr hr, iht ht]
    constructor
    · rintro (⟨s, hrest, hbefore, h⟩ | ⟨s, hrest, hbefore, h⟩)
      · exact ⟨s, hrest, hbefore, .inl h⟩
      · exact ⟨s, hrest, hbefore, .inr h⟩
    · rintro ⟨s, hrest, hbefore, h | h⟩
      · exact .inl ⟨s, hrest, hbefore, h⟩
      · exact .inr ⟨s, hrest, hbefore, h⟩
  | empty =>
    rw [ends, List.mem_singleton]
    constructor
    · rintro rfl
      exact ⟨[], rfl, rfl, rfl⟩
    · rintro ⟨s, hrest, hbefore, rfl⟩
      exact Prod.ext hbefore hrest.symm
  | never =>
    refine iff_of_false List.not_mem_nil ?_
    rintro ⟨s, -, -, h⟩
    exact h
  | start => cases hr
  | boundary word => cases hr

/-! ### The match that is taken -/

/-- The ends of a match in the order in which they are tried: a repetition takes what it can. -/
def tries : Regex α → List α → List α → List (List α × List α)
  | upTo p n, before, rest => (runs p n before rest).reverse
  | star p, before, rest => (runs p rest.length before rest).reverse
  | seq r s, before, rest => (tries r before rest).flatMap fun e => tries s e.1 e.2
  | alt r s, before, rest => tries r before rest ++ tries s before rest
  | r, before, rest => ends r before rest

theorem mem_tries {r : Regex α} {before rest : List α} {e : List α × List α} :
    e ∈ tries r before rest ↔ e ∈ ends r before rest := by
  induction r generalizing before rest e with
  | upTo p n => exact List.mem_reverse
  | star p => exact List.mem_reverse
  | seq r s ihr ihs =>
    rw [tries, ends, List.mem_flatMap, List.mem_flatMap]
    exact exists_congr fun d => and_congr ihr ihs
  | alt r s ihr ihs =>
    rw [tries, ends, List.mem_append, List.mem_append, ihr, ihs]
  | _ => exact Iff.rfl

/-- The rest behind the match that is taken at the beginning of a text. -/
def firstMatch (r : Regex α) (s : List α) : Option (List α) := (tries r [] s).head?.map Prod.snd

/-- `replace(pattern, text)`; `skip` characters belong to the match before. -/
def replaceFrom (r : Regex α) (text : List α) : Nat → List α → List α
  | _, [] => []
  | skip + 1, _ :: rest => replaceFrom r text skip rest
  | 0, c :: rest =>
    match firstMatch r (c :: rest) with
    | some after => text ++ replaceFrom r text (rest.length - after.length) rest
    | none => c :: replaceFrom r text 0 rest

def replace (r : Regex α) (text s : List α) : List α := replaceFrom r text 0 s

/-- The empty text may be a match. -/
def nullable : Regex α → Bool
  | one _ => false
  | seq r s => nullable r && nullable s
  | alt r s => nullable r || nullable s
  | never => false
  | _ => true

theorem nullable_of_matches {r : Regex α} (h : r.Matches []) : r.nullable = true := by
  induction r with
  | one p =>
    obtain ⟨c, hc, -⟩ := h
    cases hc
  | seq r s ihr ihs =>
    obtain ⟨x, y, hxy, hx, hy⟩ := h
    obtain ⟨rfl, rfl⟩ := List.append_eq_nil_iff.mp hxy.symm
    rw [nullable, ihr hx, ihs hy]
    rfl
  | alt r s ihr ihs =>
    rw [nullable, Bool.or_eq_true]
    exact h.imp ihr ihs
  | never => exact h.elim
  | _ => rfl

/-- A pattern without assertions that takes at least one character. -/
structure Consuming (r : Regex α) : Prop where
  assertionFree : r.assertionFree = true
  notNullable : r.nullable = false

theorem Consuming.notNil {r : Regex α} (hr : r.Consuming) : ¬ r.Matches [] := by
  intro h
  have hnull := nullable_of_matches h
  rw [hr.notNullable] at hnull
  cases hnull

variable {r : Regex α} {text s t : List α}

theorem exists_matches_of_firstMatch (hr : r.Consuming) {after : List α}
    (h : firstMatch r s = some after) : ∃ m, s = m ++ after ∧ r.Matches m ∧ m ≠ [] := by
  obtain ⟨e, he, rfl⟩ := Option.map_eq_some_iff.mp h
  obtain ⟨m, hs, -, hm⟩ := (mem_ends_iff hr.assertionFree).mp (mem_tries.mp (List.mem_of_mem_head? he))
  refine ⟨m, hs, hm, ?_⟩
  rintro rfl
  exact hr.notNil hm

theorem firstMatch_eq_none (hr : r.Consuming) :
    firstMatch r s = none ↔ ∀ m after, s = m ++ after → ¬ r.Matches m := by
  rw [firstMatch, Option.map_eq_none_iff, List.head?_eq_none_iff, List.eq_nil_iff_forall_not_mem]
  constructor
  · intro h m after hs hm
    refine h (m.reverse, after) (mem_tries.mpr ((mem_ends_iff hr.assertionFree).mpr ⟨m, hs, ?_, hm⟩))
    rw [List.append_nil]
  · intro h e he
    obtain ⟨m, hs, -, hm⟩ := (mem_ends_iff hr.assertionFree).mp (mem_tries.mp he)
    exact h m e.2 hs hm

theorem replaceFrom_append (m : List α) :
    replaceFrom r text m.length (m ++ s) = replace r text s := by
  induction m with
  | nil => rfl
  | cons c m ih => exact ih

theorem replace_cons_of_none {c : α} (h : firstMatch r (c :: s) = none) :
    replace r text (c :: s) = c :: replace r text s := by
  rw [replace, replaceFrom, h]
  rfl

theorem replace_append_of_some {m : List α} (hm : m ≠ []) (h : firstMatch r (m ++ s) = some s) :
    replace r text (m ++ s) = text ++ replace r text s := by
  obtain ⟨c, m, rfl⟩ := List.exists_cons_of_ne_nil hm
  rw [List.cons_append] at h ⊢
  rw [replace, replaceFrom, h]
  show text ++ replaceFrom r text ((m ++ s).length - s.length) (m ++ s) = text ++ replace r text s
  rw [List.length_append, Nat.add_sub_cancel, replaceFrom_append]

/-- How a text is replaced: character by character, or a match at a time. -/
theorem replace_induction (hr : r.Consuming) {motive : List α → Prop} (nil : motive [])
    (keep : ∀ c s, firstMatch r (c :: s) = none → motive s → motive (c :: s))
    (mask : ∀ m s, m ≠ [] → firstMatch r (m ++ s) = some s → motive s → motive (m ++ s))
    (s : List α) : motive s := by
  induction hn : s.length using Nat.strongRecOn generalizing s with
  | ind n ih =>
    subst hn
    cases s with
    | nil => exact nil
    | cons c s =>
      cases hfirst : firstMatch r (c :: s) with
      | none => exact keep c s hfirst (ih s.length (Nat.lt_succ_self _) s rfl)
      | some after =>
        obtain ⟨m, hs, -, hm⟩ := exists_matches_of_firstMatch hr hfirst
        rw [hs] at hfirst ⊢
        refine mask m after hm hfirst (ih after.length ?_ after rfl)
        rw [hs, List.length_append]
        exact Nat.lt_add_of_pos_left (List.length_pos_of_ne_nil hm)

/-! ### Replacing again -/

/-- No class of the pattern has the character. -/
def foreign (x : α) : Regex α → Bool
  | one p => !p x
  | upTo p _ => !p x
  | star p => !p x
  | seq r s => foreign x r && foreign x s
  | alt r s => foreign x r && foreign x s
  | _ => true

theorem not_mem_of_foreign {x : α} (hx : r.foreign x = true) {m : List α} (hm : r.Matches m) :
    x ∉ m := by
  induction r generalizing m with
  | one p =>
    obtain ⟨c, rfl, hc⟩ := hm
    intro h
    obtain rfl := List.mem_singleton.mp h
    simp [foreign, hc] at hx
  | upTo p n =>
    intro h
    simp [foreign, hm.2 x h] at hx
  | star p =>
    intro h
    have hp : p x = true := hm x h
    simp [foreign, hp] at hx
  | seq r t ihr iht =>
    obtain ⟨hr, ht⟩ := (Bool.and_eq_true _ _).mp hx
    obtain ⟨y, z, rfl, hy, hz⟩ := hm
    intro h
    exact (List.mem_append.mp h).elim (ihr hr hy) (iht ht hz)
  | alt r t ihr iht =>
    obtain ⟨hr, ht⟩ := (Bool.and_eq_true _ _).mp hx
    exact hm.elim (ihr hr) (iht ht)
  | empty =>
    rw [show m = [] from hm]
    exact List.not_mem_nil
  | never => exact hm.elim
  | start => exact hm.elim
  | boundary word => exact hm.elim

/-- A part of a text is a match. -/
def Found (r : Regex α) (s : List α) : Prop := ∃ m, r.Matches m ∧ m <:+: s

/-- A beginning of the result that no replacement is in was there before. -/
theorem prefix_of_prefix_replace (hr : r.Consuming) (htext : text ≠ []) {m : List α}
    (hm : ∀ c ∈ text, c ∉ m) (h : m <+: replace r text s) : m <+: s := by
  induction s using replace_induction hr generalizing m with
  | nil => exact h
  | keep c s hnone ih =>
    rw [replace_cons_of_none hnone] at h
    cases m with
    | nil => exact List.nil_prefix
    | cons d m =>
      obtain ⟨rfl, htail⟩ := List.cons_prefix_cons.mp h
      exact List.cons_prefix_cons.mpr
        ⟨rfl, ih (fun c hc hcm => hm c hc (List.mem_cons_of_mem _ hcm)) htail⟩
  | mask n s hn hsome ih =>
    rw [replace_append_of_some hn hsome] at h
    obtain ⟨c, text, rfl⟩ := List.exists_cons_of_ne_nil htext
    cases m with
    | nil => exact List.nil_prefix
    | cons d m =>
      obtain ⟨rfl, -⟩ := List.cons_prefix_cons.mp h
      exact absurd List.mem_cons_self (hm d List.mem_cons_self)

/-- **Nothing is left to be replaced.** -/
theorem not_found_replace (hr : r.Consuming) (htext : text ≠ [])
    (hforeign : ∀ c ∈ text, r.foreign c = true) : ¬ r.Found (replace r text s) := by
  have hnot : ∀ {m : List α}, r.Matches m → ∀ c ∈ text, c ∉ m := fun hm c hc =>
    not_mem_of_foreign (hforeign c hc) hm
  rintro ⟨m, hm, hinfix⟩
  have hne : m ≠ [] := by
    rintro rfl
    exact hr.notNil hm
  obtain ⟨d, m', rfl⟩ := List.exists_cons_of_ne_nil hne
  induction s using replace_induction hr with
  | nil => exact absurd (List.infix_nil.mp hinfix) hne
  | keep c s hnone ih =>
    rw [replace_cons_of_none hnone, List.infix_cons_iff] at hinfix
    rcases hinfix with hpre | hinfix
    · -- the match would have been taken
      obtain ⟨rfl, htail⟩ := List.cons_prefix_cons.mp hpre
      have hs := prefix_of_prefix_replace hr htext
        (fun c hc hcm => hnot hm c hc (List.mem_cons_of_mem _ hcm)) htail
      obtain ⟨after, rfl⟩ := hs
      exact (firstMatch_eq_none hr).mp hnone (d :: m') after rfl hm
    · exact ih hinfix
  | mask n s hn hsome ih =>
    rw [replace_append_of_some hn hsome] at hinfix
    -- a match does not begin in the replacement
    have hbehind : ∀ x : List α, (∀ c ∈ x, c ∈ text) → d :: m' <:+: x ++ replace r text s →
        d :: m' <:+: replace r text s := by
      intro x
      induction x with
      | nil => exact fun _ h => h
      | cons c x ihx =>
        intro hx h
        rw [List.cons_append, List.infix_cons_iff] at h
        rcases h with hpre | h
        · obtain ⟨rfl, -⟩ := List.cons_prefix_cons.mp hpre
          exact absurd List.mem_cons_self (hnot hm d (hx d List.mem_cons_self))
        · exact ihx (fun c hc => hx c (List.mem_cons_of_mem _ hc)) h
    exact ih (hbehind text (fun _ hc => hc) hinfix)

theorem replace_of_not_found (hr : r.Consuming) (h : ¬ r.Found s) : replace r text s = s := by
  induction s using replace_induction hr with
  | nil => rfl
  | keep c s hnone ih =>
    rw [replace_cons_of_none hnone, ih]
    rintro ⟨m, hm, hinfix⟩
    exact h ⟨m, hm, hinfix.trans (List.suffix_cons c s).isInfix⟩
  | mask m s hne hsome ih =>
    obtain ⟨m', hs, hm', -⟩ := exists_matches_of_firstMatch hr hsome
    exact absurd ⟨m', hm', by rw [hs]; exact (List.prefix_append m' s).isInfix⟩ h

/-- Replacing again changes nothing, also after a cut. -/
theorem replace_take_replace (hr : r.Consuming) (htext : text ≠ [])
    (hforeign : ∀ c ∈ text, r.foreign c = true) (n : Nat) :
    replace r text ((replace r text s).take n) = (replace r text s).take n := by
  refine replace_of_not_found hr ?_
  rintro ⟨m, hm, hinfix⟩
  exact not_found_replace hr htext hforeign
    ⟨m, hm, hinfix.trans (List.take_prefix n _).isInfix⟩

/-! ### Texts that differ in what is replaced -/

/-- Two texts differ in what is replaced only. -/
inductive Masked (r : Regex α) : List α → List α → Prop
  | nil : Masked r [] []
  | keep {c : α} {s t : List α} (hs : firstMatch r (c :: s) = none) (ht : firstMatch r (c :: t) = none)
      (h : Masked r s t) : Masked r (c :: s) (c :: t)
  | mask {m n s t : List α} (hm : m ≠ []) (hn : n ≠ []) (hs : firstMatch r (m ++ s) = some s)
      (ht : firstMatch r (n ++ t) = some t) (h : Masked r s t) : Masked r (m ++ s) (n ++ t)

theorem Masked.refl (hr : r.Consuming) (s : List α) : r.Masked s s := by
  induction s using replace_induction hr with
  | nil => exact .nil
  | keep c s hnone ih => exact .keep hnone hnone ih
  | mask m s hm hsome ih => exact .mask hm hm hsome hsome ih

theorem replace_eq_of_masked (h : r.Masked s t) : replace r text s = replace r text t := by
  induction h with
  | nil => rfl
  | keep hs ht _ ih => rw [replace_cons_of_none hs, replace_cons_of_none ht, ih]
  | mask hm hn hs ht _ ih => rw [replace_append_of_some hm hs, replace_append_of_some hn ht, ih]

end Regex
