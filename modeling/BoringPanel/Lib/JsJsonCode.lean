import BoringPanel.Lib.JsJson

/-!
# A text of JSON is that of one value

What `JSON.stringify` writes, without an indentation, can be told apart from what comes after it
(`stringifyWith_append_inj`), so that two values with the same text are the same
(`stringify_injective`). The texts of numbers are to be those of different numbers, made of what a
number of JSON is made of (`LawfulJsNumber`).
-/

namespace JsText

/-- What the text of a number is made of. -/
def isNumberUnit (c : UInt16) : Bool := c ∈ of "+-.0123456789e"

/-- No number goes on in a text. -/
def EndsNumber (s : JsText) : Prop := ∀ c ∈ s.head?, isNumberUnit c = false

end JsText

open JsText (isNumberUnit EndsNumber)

/-- Numbers have different texts. -/
class LawfulJsNumber (N : Type) [JsNumber N] : Prop where
  text_inj : ∀ n m : N, JsNumber.text n = JsNumber.text m → n = m
  text_units : ∀ n : N, ∀ c ∈ JsNumber.text n, isNumberUnit c = true
  text_ne_nil : ∀ n : N, JsNumber.text n ≠ []

/-! ### Whole numbers -/

/-- A digit or a sign. -/
def IntChar (c : Char) : Prop := c = '-' ∨ c ∈ "0123456789".toList

theorem intChar_of_isDigit {c : Char} (h : c.isDigit = true) : IntChar c := by
  right
  have hval : 48 ≤ c.toNat ∧ c.toNat ≤ 57 := by
    simpa [Char.isDigit, UInt32.le_iff_toNat_le] using h
  have hall : ∀ n : Fin 10, Char.ofNat (48 + n) ∈ "0123456789".toList := by decide
  have hc := hall ⟨c.toNat - 48, by omega⟩
  rwa [show 48 + (c.toNat - 48) = c.toNat by omega, Char.ofNat_toNat] at hc

theorem units_intChar {c : Char} (h : IntChar c) :
    JsText.units c = [c.toNat.toUInt16] ∧ Char.ofNat c.toNat.toUInt16.toNat = c ∧
      isNumberUnit c.toNat.toUInt16 = true := by
  -- one after the other, not for all characters
  have hall : ('-' :: "0123456789".toList).all (fun c => JsText.units c = [c.toNat.toUInt16] ∧
      Char.ofNat c.toNat.toUInt16.toNat = c ∧ isNumberUnit c.toNat.toUInt16 = true) = true := by decide
  exact of_decide_eq_true (List.all_eq_true.mp hall c (List.mem_cons.mpr h))

theorem of_intChars {s : String} (h : ∀ c ∈ s.toList, IntChar c) :
    JsText.of s = s.toList.map fun c => c.toNat.toUInt16 := by
  rw [JsText.of, List.map_eq_flatMap]
  exact List.flatMap_congr fun c hc => (units_intChar (h c hc)).1

/-- The text can be read back. -/
theorem map_of_intChars {s : String} (h : ∀ c ∈ s.toList, IntChar c) :
    (JsText.of s).map (fun u => Char.ofNat u.toNat) = s.toList := by
  rw [of_intChars h, List.map_map]
  exact (List.map_congr_left fun c hc => (units_intChar (h c hc)).2.1).trans (List.map_id _)

/-- The digits of a number, after a sign if it is negative. -/
theorem toList_toString (n : Int) : (toString n).toList =
    if n < 0 then '-' :: Nat.toDigits 10 n.natAbs else Nat.toDigits 10 n.natAbs := by
  cases n with
  | ofNat n => exact Nat.toList_repr
  | negSucc n =>
    rw [if_pos (Int.negSucc_lt_zero n)]
    show ("-" ++ (n + 1).repr).toList = '-' :: Nat.toDigits 10 (n + 1)
    rw [String.toList_append, Nat.toList_repr]
    rfl

theorem intChar_of_mem_toString (n : Int) : ∀ c ∈ (toString n).toList, IntChar c := by
  intro c hc
  rw [toList_toString] at hc
  split at hc
  · obtain rfl | hc := List.mem_cons.mp hc
    · exact .inl rfl
    · exact intChar_of_isDigit (Nat.isDigit_of_mem_toDigits (by decide) (by decide) hc)
  · exact intChar_of_isDigit (Nat.isDigit_of_mem_toDigits (by decide) (by decide) hc)

theorem toDigits_inj {n m : Nat} (h : Nat.toDigits 10 n = Nat.toDigits 10 m) : n = m := by
  calc n = Nat.ofDigitChars 10 (Nat.toDigits 10 n) 0 := (Nat.ofDigitChars_toDigits (by decide) (by decide)).symm
    _ = Nat.ofDigitChars 10 (Nat.toDigits 10 m) 0 := by rw [h]
    _ = m := Nat.ofDigitChars_toDigits (by decide) (by decide)

theorem head_ne_sign {n : Nat} {l : List Char} : Nat.toDigits 10 n ≠ '-' :: l := by
  intro h
  have hdigit := Nat.isDigit_of_mem_toDigits (b := 10) (n := n) (c := '-') (by decide) (by decide)
    (by rw [h]; exact List.mem_cons_self)
  exact absurd hdigit (by decide)

instance : LawfulJsNumber Int where
  text_inj n m h := by
    have hlist : (toString n).toList = (toString m).toList := by
      rw [← map_of_intChars (intChar_of_mem_toString n), ← map_of_intChars (intChar_of_mem_toString m)]
      exact congrArg _ h
    rw [toList_toString, toList_toString] at hlist
    split at hlist
    · split at hlist
      · have habs := toDigits_inj (List.cons.inj hlist).2
        omega
      · exact absurd hlist.symm head_ne_sign
    · split at hlist
      · exact absurd hlist head_ne_sign
      · have habs := toDigits_inj hlist
        omega
  text_units n c hc := by
    have hc : c ∈ JsText.of (toString n) := hc
    rw [of_intChars (intChar_of_mem_toString n)] at hc
    obtain ⟨d, hd, rfl⟩ := List.mem_map.mp hc
    exact (units_intChar (intChar_of_mem_toString n d hd)).2.2
  text_ne_nil n h := by
    have h : JsText.of (toString n) = [] := h
    rw [of_intChars (intChar_of_mem_toString n), List.map_eq_nil_iff, toList_toString] at h
    split at h
    · cases h
    · exact Nat.toDigits_ne_nil h

namespace JsText

/-! ### Strings -/

/-- What is written for a code unit within a string. -/
inductive Coded (c : UInt16) : JsText → Prop
  | plain (hquote : c ≠ 0x22) (hescape : c ≠ 0x5c) : Coded c [c]
  | self (h : c = 0x22 ∨ c = 0x5c) : Coded c [0x5c, c]
  | short (d : UInt16) (h : (c, d) ∈ [(0x08, 0x62), (0x09, 0x74), (0x0a, 0x6e), (0x0c, 0x66), (0x0d, 0x72)]) :
      Coded c [0x5c, d]
  | hex : Coded c (unicodeEscape c)

theorem unicodeEscape_eq (c : UInt16) :
    unicodeEscape c = [0x5c, 0x75, hexDigit (c.toNat / 0x1000), hexDigit (c.toNat / 0x100 % 0x10),
      hexDigit (c.toNat / 0x10 % 0x10), hexDigit (c.toNat % 0x10)] := rfl

theorem hexDigit_inj {n m : Nat} (hn : n < 0x10) (hm : m < 0x10) (h : hexDigit n = hexDigit m) : n = m := by
  have hall : ∀ i j : Fin 0x10, hexDigit i = hexDigit j → i = j := by decide
  exact congrArg Fin.val (hall ⟨n, hn⟩ ⟨m, hm⟩ h)

theorem unicodeEscape_append_inj {c d : UInt16} {x y : JsText}
    (h : unicodeEscape c ++ x = unicodeEscape d ++ y) : c = d ∧ x = y := by
  rw [unicodeEscape_eq, unicodeEscape_eq] at h
  simp only [List.cons_append, List.nil_append, List.cons.injEq, true_and] at h
  obtain ⟨h₁, h₂, h₃, h₄, hrest⟩ := h
  have hc := c.toNat_lt
  have hd := d.toNat_lt
  have h₁ := hexDigit_inj (by omega) (by omega) h₁
  have h₂ := hexDigit_inj (by omega) (by omega) h₂
  have h₃ := hexDigit_inj (by omega) (by omega) h₃
  have h₄ := hexDigit_inj (by omega) (by omega) h₄
  exact ⟨UInt16.toNat_inj.mp (by omega), hrest⟩

/-- What is written for a code unit tells which one it is. -/
theorem Coded.append_inj {c d : UInt16} {s t x y : JsText} (hs : Coded c s) (ht : Coded d t)
    (h : s ++ x = t ++ y) : c = d ∧ x = y := by
  cases hs <;> cases ht
  case hex.hex => exact unicodeEscape_append_inj h
  all_goals
    simp only [unicodeEscape_eq, List.cons_append, List.nil_append, List.cons.injEq, true_and] at h
    grind

theorem coded_quoteUnit (c : UInt16) : Coded c (quoteUnit c) := by
  unfold quoteUnit
  split
  · exact .self ‹_›
  · rename_i hself
    rw [not_or] at hself
    repeat' split
    · subst c
      exact .short 0x62 (by decide)
    · subst c
      exact .short 0x74 (by decide)
    · subst c
      exact .short 0x6e (by decide)
    · subst c
      exact .short 0x66 (by decide)
    · subst c
      exact .short 0x72 (by decide)
    · exact .hex
    · exact .plain hself.1 hself.2

/-- A surrogate is no quote and no backslash. -/
theorem coded_surrogate {c : UInt16} (h : isHighSurrogate c = true ∨ isLowSurrogate c = true) (alone : Bool) :
    Coded c (if alone then [c] else unicodeEscape c) := by
  split
  · refine .plain ?_ ?_
    · rintro rfl
      exact absurd h (by decide)
    · rintro rfl
      exact absurd h (by decide)
  · exact .hex

theorem exists_quoteUnits_cons (afterHigh : Bool) (c : UInt16) (s : JsText) :
    ∃ code next, Coded c code ∧ quoteUnits afterHigh (c :: s) = code ++ quoteUnits next s := by
  rw [quoteUnits]
  split
  · exact ⟨_, _, coded_surrogate (.inl ‹_›) _, rfl⟩
  · split
    · exact ⟨_, _, coded_surrogate (.inr ‹_›) _, rfl⟩
    · exact ⟨_, _, coded_quoteUnit c, rfl⟩

theorem Coded.head?_ne {c : UInt16} {s : JsText} (h : Coded c s) : ∃ d t, s = d :: t ∧ d ≠ 0x22 := by
  cases h with
  | plain hquote _ => exact ⟨_, _, rfl, hquote⟩
  | self _ => exact ⟨_, _, rfl, by decide⟩
  | short d _ => exact ⟨_, _, rfl, by decide⟩
  | hex => exact ⟨_, _, rfl, by decide⟩

/-- The first quote after a string that has been begun ends it. -/
theorem quoteUnits_append_inj {b b' : Bool} {s t x y : JsText}
    (h : quoteUnits b s ++ 0x22 :: x = quoteUnits b' t ++ 0x22 :: y) : s = t ∧ x = y := by
  induction s generalizing b b' t with
  | nil =>
    cases t with
    | nil => exact ⟨rfl, (List.cons.inj h).2⟩
    | cons d t =>
      obtain ⟨code, next, hcode, heq⟩ := exists_quoteUnits_cons b' d t
      obtain ⟨e, code, rfl, he⟩ := hcode.head?_ne
      rw [heq] at h
      exact absurd (List.cons.inj h).1.symm he
  | cons c s ih =>
    obtain ⟨code, next, hcode, heq⟩ := exists_quoteUnits_cons b c s
    cases t with
    | nil =>
      obtain ⟨e, code, rfl, he⟩ := hcode.head?_ne
      rw [heq] at h
      exact absurd (List.cons.inj h).1 he
    | cons d t =>
      obtain ⟨code', next', hcode', heq'⟩ := exists_quoteUnits_cons b' d t
      rw [heq, heq', List.append_assoc, List.append_assoc] at h
      obtain ⟨rfl, htail⟩ := hcode.append_inj hcode' h
      obtain ⟨rfl, hrest⟩ := ih htail
      exact ⟨rfl, hrest⟩

theorem quote_append (s x : JsText) : quote s ++ x = 0x22 :: (quoteUnits false s ++ 0x22 :: x) := by
  rw [quote, List.append_assoc, List.append_assoc]
  rfl

theorem quote_append_inj {s t x y : JsText} (h : quote s ++ x = quote t ++ y) : s = t ∧ x = y := by
  rw [quote_append, quote_append] at h
  exact quoteUnits_append_inj (List.cons.inj h).2

/-! ### Numbers -/

theorem append_inj_of_endsNumber {s t x y : JsText} (hs : ∀ c ∈ s, isNumberUnit c = true)
    (ht : ∀ c ∈ t, isNumberUnit c = true) (hx : EndsNumber x) (hy : EndsNumber y) (h : s ++ x = t ++ y) :
    s = t ∧ x = y := by
  induction s generalizing t with
  | nil =>
    cases t with
    | nil => exact ⟨rfl, h⟩
    | cons d t =>
      have hunit := hx d (by rw [show x = d :: (t ++ y) from h]; rfl)
      rw [ht d List.mem_cons_self] at hunit
      exact absurd hunit (by decide)
  | cons c s ih =>
    cases t with
    | nil =>
      have hunit := hy c (by rw [← show c :: (s ++ x) = y from h]; rfl)
      rw [hs c List.mem_cons_self] at hunit
      exact absurd hunit (by decide)
    | cons d t =>
      obtain ⟨rfl, htail⟩ := List.cons.inj h
      obtain ⟨rfl, hrest⟩ := ih (fun c hc => hs c (List.mem_cons_of_mem _ hc))
        (fun c hc => ht c (List.mem_cons_of_mem _ hc)) htail
      exact ⟨rfl, hrest⟩

end JsText

namespace JsValue

open JsText (of join quote)

variable {N : Type}

/-! ### Values -/

/-- What kind of value a text begins. -/
def kindOf (c : UInt16) : Nat :=
  if isNumberUnit c then 0
  else if c = 0x22 then 1
  else if c = 0x5b then 2
  else if c = 0x7b then 3
  else if c = 0x6e then 4
  else if c = 0x66 ∨ c = 0x74 then 5
  else 6

def kind : JsValue N → Nat
  | number _ => 0
  | string _ => 1
  | array _ => 2
  | object _ => 3
  | null => 4
  | bool _ => 5

/-- The texts of further items, each after a comma. -/
def further : List JsText → JsText
  | [] => []
  | s :: rest => 0x2c :: (s ++ further rest)

theorem join_comma (s : JsText) (rest : List JsText) : join (of ",") (s :: rest) = s ++ further rest := by
  induction rest generalizing s with
  | nil => exact (List.append_nil s).symm
  | cons t rest ih =>
    calc join (of ",") (s :: t :: rest) = s ++ of "," ++ join (of ",") (t :: rest) := rfl
      _ = s ++ of "," ++ (t ++ further rest) := by rw [ih]
      _ = s ++ further (t :: rest) := List.append_assoc _ _ _

theorem wrap_eq (indent opening closing : JsText) (parts : List JsText) :
    wrap [] indent opening closing parts = opening ++ join (of ",") parts ++ closing := by
  unfold wrap
  split
  · rw [‹parts = []›]
    exact (congrArg (· ++ closing) (List.append_nil opening)).symm
  · rfl

section Lawful

variable [JsNumber N] [LawfulJsNumber N] {indent indent' x y : JsText}

/-- A text begins as its kind of value does. -/
theorem exists_stringifyWith_cons (indent : JsText) (v : JsValue N) :
    ∃ c s, stringifyWith [] indent v = c :: s ∧ kindOf c = v.kind := by
  cases v with
  | null => exact ⟨0x6e, [0x75, 0x6c, 0x6c], rfl, show kindOf 0x6e = 4 by decide⟩
  | bool b =>
    cases b with
    | false => exact ⟨0x66, [0x61, 0x6c, 0x73, 0x65], rfl, show kindOf 0x66 = 5 by decide⟩
    | true => exact ⟨0x74, [0x72, 0x75, 0x65], rfl, show kindOf 0x74 = 5 by decide⟩
  | number n =>
    obtain ⟨c, s, hs⟩ := List.exists_cons_of_ne_nil (LawfulJsNumber.text_ne_nil n)
    refine ⟨c, s, hs, ?_⟩
    rw [kindOf, if_pos (LawfulJsNumber.text_units n c (by rw [hs]; exact List.mem_cons_self))]
    rfl
  | string s => exact ⟨0x22, _, rfl, show kindOf 0x22 = 1 by decide⟩
  | array items =>
    refine ⟨0x5b, join (of ",") (stringifyItems [] (indent ++ []) items) ++ of "]", ?_, show kindOf 0x5b = 2 by decide⟩
    rw [stringifyWith, wrap_eq]
    rfl
  | object members =>
    refine ⟨0x7b, join (of ",") (stringifyMembers [] (indent ++ []) members) ++ of "\x7d", ?_,
      show kindOf 0x7b = 3 by decide⟩
    rw [stringifyWith, wrap_eq]
    rfl

theorem kind_eq_of_append {v w : JsValue N}
    (h : stringifyWith [] indent v ++ x = stringifyWith [] indent' w ++ y) : v.kind = w.kind := by
  obtain ⟨c, s, hv, hc⟩ := exists_stringifyWith_cons indent v
  obtain ⟨d, t, hw, hd⟩ := exists_stringifyWith_cons indent' w
  rw [hv, hw] at h
  obtain rfl : c = d := (List.cons.inj h).1
  exact hc.symm.trans hd

theorem endsNumber_cons {c : UInt16} (hc : isNumberUnit c = false) (s : JsText) : EndsNumber (c :: s) := by
  intro d hd
  obtain rfl := Option.some.inj hd
  exact hc

/-- What comes after an item ends a number. -/
theorem endsNumber_further {c : UInt16} (hc : isNumberUnit c = false) (parts : List JsText) (s : JsText) :
    EndsNumber (further parts ++ c :: s) := by
  cases parts with
  | nil => exact endsNumber_cons hc s
  | cons t parts => exact endsNumber_cons (by decide) _

/-- A closing bracket begins no value. -/
theorem closing_ne_text {c : UInt16} {s : JsText} {v : JsValue N} (hc : kindOf c = 6) :
    c :: s ≠ stringifyWith [] indent v ++ x := by
  intro h
  obtain ⟨d, t, hv, hd⟩ := exists_stringifyWith_cons indent v
  rw [hv] at h
  obtain rfl : c = d := (List.cons.inj h).1
  rw [hc] at hd
  cases v <;> exact absurd hd (by simp [kind])

/-- A text of the value, with what comes after it, is none of another value. -/
def Told (v : JsValue N) : Prop :=
  ∀ (w : JsValue N) {indent indent' x y : JsText}, EndsNumber x → EndsNumber y →
    stringifyWith [] indent v ++ x = stringifyWith [] indent' w ++ y → v = w ∧ x = y

omit [LawfulJsNumber N] in
theorem furtherItems_inj {items items' : List (JsValue N)} (htold : ∀ v ∈ items, Told v)
    (h : further (stringifyItems [] indent items) ++ 0x5d :: x =
      further (stringifyItems [] indent' items') ++ 0x5d :: y) : items = items' ∧ x = y := by
  induction items generalizing items' with
  | nil =>
    cases items' with
    | nil => exact ⟨rfl, (List.cons.inj h).2⟩
    | cons w items' => exact absurd (List.cons.inj h).1 (by decide)
  | cons v items ih =>
    obtain ⟨hv, hitems⟩ := List.forall_mem_cons.mp htold
    cases items' with
    | nil => exact absurd (List.cons.inj h).1 (by decide)
    | cons w items' =>
      rw [stringifyItems, stringifyItems, further, further] at h
      simp only [List.cons_append, List.append_assoc] at h
      obtain ⟨rfl, htail⟩ := hv w (endsNumber_further (by decide) _ _)
        (endsNumber_further (by decide) _ _) (List.cons.inj h).2
      obtain ⟨rfl, hrest⟩ := ih hitems htail
      exact ⟨rfl, hrest⟩

/-- The items of an array end with its bracket. -/
theorem joinedItems_inj {items items' : List (JsValue N)} (htold : ∀ v ∈ items, Told v)
    (h : join (of ",") (stringifyItems [] indent items) ++ 0x5d :: x =
      join (of ",") (stringifyItems [] indent' items') ++ 0x5d :: y) : items = items' ∧ x = y := by
  cases items with
  | nil =>
    cases items' with
    | nil => exact ⟨rfl, (List.cons.inj h).2⟩
    | cons w items' =>
      rw [stringifyItems, stringifyItems, join_comma, List.append_assoc] at h
      exact absurd h (closing_ne_text (by decide))
  | cons v items =>
    obtain ⟨hv, hitems⟩ := List.forall_mem_cons.mp htold
    cases items' with
    | nil =>
      rw [stringifyItems, stringifyItems, join_comma, List.append_assoc] at h
      exact absurd h.symm (closing_ne_text (by decide))
    | cons w items' =>
      rw [stringifyItems, stringifyItems, join_comma, join_comma, List.append_assoc, List.append_assoc] at h
      obtain ⟨rfl, htail⟩ := hv w (endsNumber_further (by decide) _ _)
        (endsNumber_further (by decide) _ _) h
      obtain ⟨rfl, hrest⟩ := furtherItems_inj hitems htail
      exact ⟨rfl, hrest⟩

omit [LawfulJsNumber N] in
/-- A member is its key and its value. -/
theorem member_inj {m m' : JsText × JsValue N} (htold : Told m.2) (hx : EndsNumber x) (hy : EndsNumber y)
    (h : quote m.1 ++ (of ":" ++ (stringifyWith [] indent m.2 ++ x)) =
      quote m'.1 ++ (of ":" ++ (stringifyWith [] indent' m'.2 ++ y))) : m = m' ∧ x = y := by
  obtain ⟨hkey, htail⟩ := JsText.quote_append_inj h
  obtain ⟨hvalue, hrest⟩ := htold m'.2 hx hy (List.append_cancel_left htail)
  exact ⟨Prod.ext hkey hvalue, hrest⟩

omit [LawfulJsNumber N] in
theorem furtherMembers_inj {members members' : List (JsText × JsValue N)}
    (htold : ∀ m ∈ members, Told m.2)
    (h : further (stringifyMembers [] indent members) ++ 0x7d :: x =
      further (stringifyMembers [] indent' members') ++ 0x7d :: y) : members = members' ∧ x = y := by
  induction members generalizing members' with
  | nil =>
    cases members' with
    | nil => exact ⟨rfl, (List.cons.inj h).2⟩
    | cons m' members' => exact absurd (List.cons.inj h).1 (by decide)
  | cons m members ih =>
    obtain ⟨hm, hmembers⟩ := List.forall_mem_cons.mp htold
    cases members' with
    | nil => exact absurd (List.cons.inj h).1 (by decide)
    | cons m' members' =>
      rw [stringifyMembers, stringifyMembers, further, further] at h
      simp only [List.cons_append, List.append_assoc, List.nil_append, ↓reduceIte] at h
      obtain ⟨rfl, htail⟩ := member_inj hm (endsNumber_further (by decide) _ _)
        (endsNumber_further (by decide) _ _) (List.cons.inj h).2
      obtain ⟨rfl, hrest⟩ := ih hmembers htail
      exact ⟨rfl, hrest⟩

omit [LawfulJsNumber N] in
/-- The members of an object end with its bracket. -/
theorem joinedMembers_inj {members members' : List (JsText × JsValue N)}
    (htold : ∀ m ∈ members, Told m.2)
    (h : join (of ",") (stringifyMembers [] indent members) ++ 0x7d :: x =
      join (of ",") (stringifyMembers [] indent' members') ++ 0x7d :: y) : members = members' ∧ x = y := by
  cases members with
  | nil =>
    cases members' with
    | nil => exact ⟨rfl, (List.cons.inj h).2⟩
    | cons m' members' =>
      rw [stringifyMembers, stringifyMembers, join_comma] at h
      exact absurd (List.cons.inj h).1 (by decide)
  | cons m members =>
    obtain ⟨hm, hmembers⟩ := List.forall_mem_cons.mp htold
    cases members' with
    | nil =>
      rw [stringifyMembers, stringifyMembers, join_comma] at h
      exact absurd (List.cons.inj h).1 (by decide)
    | cons m' members' =>
      rw [stringifyMembers, stringifyMembers, join_comma, join_comma] at h
      simp only [List.append_assoc, List.nil_append, ↓reduceIte] at h
      obtain ⟨rfl, htail⟩ := member_inj hm (endsNumber_further (by decide) _ _)
        (endsNumber_further (by decide) _ _) h
      obtain ⟨rfl, hrest⟩ := furtherMembers_inj hmembers htail
      exact ⟨rfl, hrest⟩

/-- **A value's text tells it apart from what comes next.** -/
theorem stringifyWith_append_inj (v : JsValue N) : Told v := by
  induction v using JsValue.induction with
  | null =>
    intro w _ _ x y _ _ h
    have hkind := kind_eq_of_append h
    cases w <;> first | (simp [kind] at hkind; done) | skip
    exact ⟨rfl, List.append_cancel_left h⟩
  | bool b =>
    intro w _ _ x y _ _ h
    have hkind := kind_eq_of_append h
    cases w <;> first | (simp [kind] at hkind; done) | skip
    case bool b' =>
      cases b <;> cases b'
      case false.false => exact ⟨rfl, List.append_cancel_left h⟩
      case true.true => exact ⟨rfl, List.append_cancel_left h⟩
      all_goals exact absurd (List.cons.inj h).1 (by decide)
  | number n =>
    intro w _ _ x y hx hy h
    have hkind := kind_eq_of_append h
    cases w <;> first | (simp [kind] at hkind; done) | skip
    case number m =>
      obtain ⟨htext, hrest⟩ := JsText.append_inj_of_endsNumber (LawfulJsNumber.text_units n)
        (LawfulJsNumber.text_units m) hx hy h
      rw [LawfulJsNumber.text_inj n m htext]
      exact ⟨rfl, hrest⟩
  | string s =>
    intro w _ _ x y _ _ h
    have hkind := kind_eq_of_append h
    cases w <;> first | (simp [kind] at hkind; done) | skip
    case string t =>
      obtain ⟨rfl, hrest⟩ := JsText.quote_append_inj h
      exact ⟨rfl, hrest⟩
  | array items htold =>
    intro w _ _ x y _ _ h
    have hkind := kind_eq_of_append h
    cases w <;> first | (simp [kind] at hkind; done) | skip
    case array items' =>
      rw [stringifyWith, stringifyWith, wrap_eq, wrap_eq] at h
      simp only [List.append_assoc] at h
      obtain ⟨rfl, hrest⟩ := joinedItems_inj htold (List.cons.inj h).2
      exact ⟨rfl, hrest⟩
  | object members htold =>
    intro w _ _ x y _ _ h
    have hkind := kind_eq_of_append h
    cases w <;> first | (simp [kind] at hkind; done) | skip
    case object members' =>
      rw [stringifyWith, stringifyWith, wrap_eq, wrap_eq] at h
      simp only [List.append_assoc] at h
      obtain ⟨rfl, hrest⟩ := joinedMembers_inj htold (List.cons.inj h).2
      exact ⟨rfl, hrest⟩

/-- **Two values with the same text are the same.** -/
theorem stringify_injective : Function.Injective (stringify : JsValue N → JsText) := by
  intro v w h
  have hnone : EndsNumber [] := by
    intro c hc
    cases hc
  have h : stringifyWith [] [] v ++ [] = stringifyWith [] [] w ++ [] := congrArg (· ++ []) h
  exact (stringifyWith_append_inj v w hnone hnone h).1

instance : DecidableEq (JsValue N) := fun _ _ => decidable_of_iff _ stringify_injective.eq_iff

end Lawful

end JsValue
