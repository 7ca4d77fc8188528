import BoringPanel.Lib.JsJsonCode
import Mathlib.Algebra.BigOperators.Group.List.Basic
import Mathlib.Algebra.Ring.Nat

/-!
# How many bytes a text of JSON takes

A text is no longer than its string in JSON (`byteLength_le_quoteUnits`), and the first code units of a text
that is too long are not shorter than the limit (`le_byteLength_take`). The texts of arrays and of objects
take the bytes of their parts, whatever their order is (`byteLength_array`, `byteLength_object`).
-/

namespace JsText

/-! ### Lengths -/

/-- The bytes of a code unit; the half of a pair that comes first takes one. -/
def unitBytes (c : UInt16) (paired : Bool) : Nat :=
  if c < 0x80 then 1 else if c < 0x800 then 2 else if isHighSurrogate c && paired then 1 else 3

theorem byteLength_cons (c : UInt16) (s : JsText) :
    byteLength (c :: s) = unitBytes c (headIsLow s) + byteLength s := rfl

theorem unitBytes_bounds (c : UInt16) (paired : Bool) : 1 ≤ unitBytes c paired ∧ unitBytes c paired ≤ 3 := by
  unfold unitBytes
  repeat' split
  all_goals exact ⟨by decide, by decide⟩

theorem unitBytes_eq_of_not_high {c : UInt16} (h : isHighSurrogate c = false) (paired paired' : Bool) :
    unitBytes c paired = unitBytes c paired' := by
  rw [unitBytes, unitBytes, h, Bool.false_and, Bool.false_and]

theorem length_add_byteLength_le (s t : JsText) : s.length + byteLength t ≤ byteLength (s ++ t) := by
  induction s with
  | nil => exact (Nat.zero_add _).le
  | cons c s ih =>
    have hunit := (unitBytes_bounds c (headIsLow (s ++ t))).1
    rw [List.cons_append, byteLength_cons, List.length_cons]
    omega

theorem length_le_byteLength (s : JsText) : s.length ≤ byteLength s := by
  have h := length_add_byteLength_le s []
  rwa [List.append_nil] at h

theorem byteLength_append (s : JsText) {t : JsText} (h : headIsLow t = false) :
    byteLength (s ++ t) = byteLength s + byteLength t := by
  induction s with
  | nil => exact (Nat.zero_add _).symm
  | cons c s ih =>
    have hhead : headIsLow (s ++ t) = headIsLow s := by
      cases s with
      | nil => exact h
      | cons d s => rfl
    calc byteLength (c :: (s ++ t)) = unitBytes c (headIsLow (s ++ t)) + byteLength (s ++ t) := rfl
      _ = unitBytes c (headIsLow s) + (byteLength s + byteLength t) := by rw [hhead, ih]
      _ = byteLength (c :: s) + byteLength t := (Nat.add_assoc _ _ _).symm

/-- An escaped code unit is no shorter than the code unit. -/
theorem byteLength_cons_le_hex (c : UInt16) {s x : JsText} (h : byteLength s ≤ byteLength x) :
    byteLength (c :: s) ≤ byteLength (unicodeEscape c ++ x) := by
  have hunit := (unitBytes_bounds c (headIsLow s)).2
  have hescape := length_add_byteLength_le (unicodeEscape c) x
  rw [unicodeEscape_eq] at hescape ⊢
  rw [byteLength_cons]
  simp only [List.length_cons, List.length_nil] at hescape
  omega

/-- A code unit that is escaped with a letter is of ASCII. -/
theorem Coded.byteLength_cons_le {c : UInt16} {code s x : JsText} (hcode : Coded c code)
    (hhigh : isHighSurrogate c = false) (h : byteLength s ≤ byteLength x) :
    byteLength (c :: s) ≤ byteLength (code ++ x) := by
  have hshort : ∀ d, c < 0x80 → byteLength (c :: s) ≤ byteLength ([0x5c, d] ++ x) := by
    intro d hascii
    have hunit : unitBytes c (headIsLow s) = 1 := if_pos hascii
    have hescape := length_add_byteLength_le [0x5c, d] x
    rw [byteLength_cons, hunit]
    simp only [List.length_cons, List.length_nil] at hescape
    omega
  cases hcode with
  | plain _ _ =>
    show byteLength (c :: s) ≤ byteLength (c :: x)
    rw [byteLength_cons, byteLength_cons, unitBytes_eq_of_not_high hhigh _ (headIsLow x)]
    exact Nat.add_le_add_left h _
  | self hself =>
    refine hshort c ?_
    obtain rfl | rfl := hself
    · decide
    · decide
  | short d hd =>
    refine hshort d ?_
    simp only [List.mem_cons, List.not_mem_nil, or_false, Prod.mk.injEq] at hd
    obtain ⟨rfl, -⟩ | ⟨rfl, -⟩ | ⟨rfl, -⟩ | ⟨rfl, -⟩ | ⟨rfl, -⟩ := hd
    all_goals decide
  | hex => exact byteLength_cons_le_hex c h

theorem headIsLow_quoteUnits_append {s : JsText} (h : headIsLow s = true) (x : JsText) :
    headIsLow (quoteUnits true s ++ x) = true := by
  cases s with
  | nil => cases h
  | cons c s =>
    have hlow : isLowSurrogate c = true := h
    have hhigh : ¬ isHighSurrogate c = true := by
      intro hhigh
      simp only [isHighSurrogate, isLowSurrogate, decide_eq_true_eq] at hhigh hlow
      exact absurd (UInt16.le_trans hlow.1 hhigh.2) (by decide)
    rw [quoteUnits, if_neg hhigh, if_pos hlow]
    exact hlow

/-- **A text is no longer than its string.** -/
theorem byteLength_le_quoteUnits (b : Bool) (s x : JsText) :
    byteLength s ≤ byteLength (quoteUnits b s ++ x) := by
  induction s generalizing b with
  | nil => exact Nat.zero_le _
  | cons c s ih =>
    rw [quoteUnits]
    split
    · split
      · -- both halves of the pair stay
        rename_i hhigh hlow
        rw [hlow, List.append_assoc, List.singleton_append, byteLength_cons, byteLength_cons, hlow,
          headIsLow_quoteUnits_append hlow]
        exact Nat.add_le_add_left (ih true) _
      · rw [List.append_assoc]
        exact byteLength_cons_le_hex c (ih _)
    · rename_i hhigh
      have hhigh := Bool.eq_false_iff.mpr hhigh
      split
      · rename_i hlow
        rw [List.append_assoc]
        exact (coded_surrogate (.inr hlow) b).byteLength_cons_le hhigh (ih _)
      · rw [List.append_assoc]
        exact (coded_quoteUnit c).byteLength_cons_le hhigh (ih _)

/-- The first code units of a text take as many bytes, if the text takes more. -/
theorem le_byteLength_take {s : JsText} {max : Nat} (h : max < byteLength s) : max ≤ byteLength (s.take max) := by
  rcases Nat.le_total max s.length with hle | hle
  · calc max = (s.take max).length := (List.length_take_of_le hle).symm
      _ ≤ byteLength (s.take max) := length_le_byteLength _
  · rw [List.take_of_length_le hle]
    exact h.le

theorem byteLength_lt_quote (s : JsText) : byteLength s < byteLength (quote s) := by
  have hquote : quote s = 0x22 :: (quoteUnits false s ++ [0x22]) := by
    rw [← List.append_nil (quote s), quote_append]
  calc byteLength s ≤ byteLength (quoteUnits false s ++ [0x22]) := byteLength_le_quoteUnits false s _
    _ < 1 + byteLength (quoteUnits false s ++ [0x22]) := Nat.lt_one_add_iff.mpr le_rfl
    _ = byteLength (quote s) := by rw [hquote]; rfl

end JsText

namespace JsValue

open JsText (of join quote byteLength headIsLow byteLength_append byteLength_cons unitBytes)

variable {N : Type}

/-! ### Values -/

/-- The bytes of parts with commas between them. -/
def separated (sizes : List Nat) : Nat := sizes.sum + (sizes.length - 1)

theorem separated_perm {sizes sizes' : List Nat} (h : sizes.Perm sizes') : separated sizes = separated sizes' := by
  rw [separated, separated, h.sum_eq, h.length_eq]

theorem headIsLow_further (parts : List JsText) : headIsLow (further parts) = false := by
  cases parts with
  | nil => rfl
  | cons s rest => rfl

theorem byteLength_further (parts : List JsText) :
    byteLength (further parts) = (parts.map byteLength).sum + parts.length := by
  induction parts with
  | nil => rfl
  | cons s rest ih =>
    have hcomma : byteLength (further (s :: rest)) = 1 + byteLength (s ++ further rest) := rfl
    rw [hcomma, byteLength_append s (headIsLow_further rest), ih, List.map_cons, List.sum_cons, List.length_cons]
    omega

theorem byteLength_join (parts : List JsText) : byteLength (join (of ",") parts) = separated (parts.map byteLength) := by
  cases parts with
  | nil => rfl
  | cons s rest =>
    rw [join_comma, byteLength_append s (headIsLow_further rest), byteLength_further, separated, List.map_cons,
      List.sum_cons, List.length_cons, List.length_map]
    omega

/-- Brackets take a byte each. -/
theorem byteLength_wrap {opening closing : UInt16} (hopening : opening < 0x80) (hclosing : closing < 0x80)
    (indent : JsText) (parts : List JsText) :
    byteLength (wrap [] indent [opening] [closing] parts) = 2 + separated (parts.map byteLength) := by
  have hlow : headIsLow [closing] = false := by
    refine decide_eq_false fun h => ?_
    exact absurd (UInt16.lt_of_le_of_lt h.1 hclosing) (by decide)
  have hopen : ∀ s, byteLength (opening :: s) = 1 + byteLength s := fun s => by
    rw [byteLength_cons, unitBytes, if_pos hopening]
  have hclose : byteLength [closing] = 1 := by
    rw [byteLength_cons, unitBytes, if_pos hclosing]
    rfl
  rw [wrap_eq, byteLength_append _ hlow, hclose, List.singleton_append, hopen, byteLength_join]
  omega

variable [JsNumber N]

theorem stringifyItems_eq (gap indent : JsText) (items : List (JsValue N)) :
    stringifyItems gap indent items = items.map (stringifyWith gap indent) := by
  induction items with
  | nil => rfl
  | cons item items ih => rw [stringifyItems, ih, List.map_cons]

theorem stringifyMembers_eq (indent : JsText) (members : List (JsText × JsValue N)) :
    stringifyMembers [] indent members =
      members.map fun member => quote member.1 ++ 0x3a :: stringifyWith [] indent member.2 := by
  induction members with
  | nil => rfl
  | cons member members ih =>
    rw [stringifyMembers, ih, List.map_cons, if_pos rfl, List.append_nil, List.append_assoc]
    rfl

/-- The bytes of a member's text. -/
def memberBytes (member : JsText × JsValue N) : Nat :=
  byteLength (quote member.1) + 1 + byteLength member.2.stringify

theorem byteLength_array (items : List (JsValue N)) :
    byteLength (array items).stringify = 2 + separated (items.map fun item => byteLength item.stringify) := by
  have hwrap := @byteLength_wrap 0x5b 0x5d (by decide) (by decide) []
    (stringifyItems [] [] items)
  rw [stringifyItems_eq, List.map_map] at hwrap
  rw [stringify, stringifyWith, List.append_nil, stringifyItems_eq]
  exact hwrap

theorem byteLength_object (members : List (JsText × JsValue N)) :
    byteLength (object members).stringify = 2 + separated (members.map memberBytes) := by
  have hwrap := @byteLength_wrap 0x7b 0x7d (by decide) (by decide) []
    (stringifyMembers [] [] members)
  have hmember : (byteLength ∘ fun member : JsText × JsValue N =>
      quote member.1 ++ 0x3a :: stringifyWith [] [] member.2) = memberBytes := by
    funext member
    have hcolon : byteLength (0x3a :: stringifyWith [] [] member.2) = 1 + byteLength member.2.stringify := rfl
    rw [Function.comp_apply, byteLength_append _ rfl, hcolon, memberBytes, Nat.add_assoc]
  rw [stringifyMembers_eq, List.map_map, hmember] at hwrap
  rw [stringify, stringifyWith, List.append_nil, stringifyMembers_eq]
  exact hwrap

end JsValue
