import Mathlib.Data.List.Infix
import Mathlib.Data.String.Basic

/-!
# Searching the text of a JSON object

The text of an object from strings to strings, as a writer leaves it without spaces, and functions
that look a key up in it by searching for `"key":`. A quote that no backslash precedes is one that
the writer has put around a key or a value, so that such a search finds a key
(`value_of_needle`) — the end of a longer key that has a quote of its own included.

* `JsonWriter`: how characters are written inside of a string.
* `objectText`: the text of an object.
* `JsonSearch`: `has` and `extract`, by the first occurrence of `"key":`; `scanning` is an instance.
-/

/-- A character that JSON writers leave as it is: no control character, quote or backslash, and
none of those that are escaped for embedding into HTML or JavaScript. -/
def JsonPlain (c : Char) : Prop :=
  32 ≤ c.toNat ∧ c.toNat ≠ 127 ∧ c.toNat ≠ 0x2028 ∧ c.toNat ≠ 0x2029 ∧
    c ∉ ['"', '\\', '<', '>', '&']

instance (c : Char) : Decidable (JsonPlain c) := inferInstanceAs (Decidable (_ ∧ _))

/-- How a writer puts the characters of a string. -/
structure JsonWriter where
  escape : Char → List Char
  escape_plain : ∀ c, JsonPlain c → escape c = [c]
  escape_quote : escape '"' = ['\\', '"']
  /-- A backslash stands before every quote. -/
  quote_escaped : ∀ c u v, escape c = u ++ '"' :: v → u.getLast? = some '\\'
  /-- Lower case may be taken before or after writing. -/
  escape_toLower : ∀ c, (escape c).map Char.toLower = escape c.toLower

namespace JsonWriter

variable (W : JsonWriter)

/-- The characters between the quotes of a string. -/
def body (s : List Char) : List Char := s.flatMap W.escape

/-- `"key":"value"`. -/
def memberText (p : List Char × List Char) : List Char :=
  '"' :: W.body p.1 ++ '"' :: ':' :: '"' :: W.body p.2 ++ ['"']

def membersText : List (List Char × List Char) → List Char
  | [] => []
  | [p] => W.memberText p
  | p :: q :: l => W.memberText p ++ ',' :: membersText (q :: l)

/-- The text of an object. -/
def objectText (l : List (List Char × List Char)) : List Char :=
  '{' :: W.membersText l ++ ['}']

@[simp] theorem body_cons (c : Char) (s : List Char) :
    W.body (c :: s) = W.escape c ++ W.body s := rfl

theorem body_append (s t : List Char) : W.body (s ++ t) = W.body s ++ W.body t :=
  List.flatMap_append

variable {W}

theorem body_eq_self {s : List Char} (h : ∀ c ∈ s, JsonPlain c) : W.body s = s := by
  induction s with
  | nil => rfl
  | cons c s ih =>
    rw [body_cons, W.escape_plain c (h c List.mem_cons_self),
      ih fun d hd => h d (List.mem_cons_of_mem c hd)]
    rfl

/-! ### Lower case -/

variable (W) in
theorem map_toLower_body (s : List Char) :
    (W.body s).map Char.toLower = W.body (s.map Char.toLower) := by
  induction s with
  | nil => rfl
  | cons c s ih => rw [body_cons, List.map_append, W.escape_toLower, ih, List.map_cons, body_cons]

/-- Both parts of each member in lower case. -/
def lowerMembers (l : List (List Char × List Char)) : List (List Char × List Char) :=
  l.map fun p => (p.1.map Char.toLower, p.2.map Char.toLower)

variable (W) in
theorem map_toLower_memberText (p : List Char × List Char) :
    (W.memberText p).map Char.toLower =
      W.memberText (p.1.map Char.toLower, p.2.map Char.toLower) := by
  simp only [memberText, List.map_cons, List.map_append, map_toLower_body, List.map_nil]
  rfl

variable (W) in
theorem map_toLower_membersText (l : List (List Char × List Char)) :
    (W.membersText l).map Char.toLower = W.membersText (lowerMembers l) := by
  induction l with
  | nil => rfl
  | cons p l ih =>
    cases l with
    | nil => exact W.map_toLower_memberText p
    | cons q l =>
      rw [membersText, List.map_append, List.map_cons, ih, W.map_toLower_memberText]
      rfl

variable (W) in
/-- **The lower-case text is that of the lower-case object.** -/
theorem map_toLower_objectText (l : List (List Char × List Char)) :
    (W.objectText l).map Char.toLower = W.objectText (lowerMembers l) := by
  rw [objectText, List.map_append, List.map_cons, map_toLower_membersText]
  rfl

/-! ### Where a quote comes from -/

/-- A quote after no backslash is none of the quotes inside of a string. -/
theorem quote_after_body {s t pre x : List Char} (h : W.body s ++ t = pre ++ '"' :: x)
    (hpre : pre.getLast? ≠ some '\\') :
    ∃ pre', pre = W.body s ++ pre' ∧ t = pre' ++ '"' :: x := by
  induction s generalizing pre with
  | nil => exact ⟨pre, rfl, h⟩
  | cons c s ih =>
    rw [body_cons, List.append_assoc] at h
    rcases List.append_eq_append_iff.mp h with ⟨as, rfl, has⟩ | ⟨bs, hbs, hx⟩
    · obtain ⟨pre', rfl, ht⟩ := ih has (by
        intro hlast
        apply hpre
        rw [List.getLast?_append, hlast]
        rfl)
      exact ⟨pre', by rw [body_cons, List.append_assoc], ht⟩
    · cases bs with
      | nil =>
        -- the quote is the first character after `escape c`
        obtain ⟨pre', hpre', ht⟩ := @ih [] (by simpa using hx.symm) (by simp)
        refine ⟨pre', ?_, ht⟩
        rw [body_cons, List.append_assoc, ← hpre', hbs]
        simp
      | cons b bs =>
        obtain rfl : b = '"' := (List.cons.inj hx).1.symm
        exact absurd (W.quote_escaped c pre bs hbs) hpre

/-- What follows a quote and a colon, when neither a backslash nor a separator stands before: the
quote ends a key, and its value follows. -/
theorem value_of_member {p : List Char × List Char} {rest pre w : List Char}
    (h : W.memberText p ++ rest = pre ++ '"' :: ':' :: w) (hne : pre ≠ [])
    (hpre : ∀ c ∈ pre.getLast?, c ∉ ['\\', ':', ',']) (hrest : rest.head? ≠ some ':') :
    w = '"' :: W.body p.2 ++ '"' :: rest ∨ ∃ pre', pre = W.memberText p ++ pre' ∧
      rest = pre' ++ '"' :: ':' :: w := by
  obtain ⟨c, pre, rfl⟩ := List.exists_cons_of_ne_nil hne
  have hlast {a b : List Char} (hab : c :: pre = a ++ b) {d : Char}
      (hd : d ∈ ['\\', ':', ',']) : b.getLast? ≠ some d := by
    intro hb
    refine hpre d ?_ hd
    rw [hab, List.getLast?_append, hb]
    rfl
  simp only [memberText, List.cons_append, List.append_assoc, List.cons.injEq] at h
  obtain ⟨rfl, h⟩ := h
  obtain ⟨pre₁, rfl, h₁⟩ := quote_after_body h (hlast (a := ['"']) rfl (by simp))
  cases pre₁ with
  | nil =>
    left
    simpa [eq_comm] using h₁
  | cons d pre₁ =>
    simp only [List.cons_append, List.cons.injEq] at h₁
    obtain ⟨rfl, h₁⟩ := h₁
    cases pre₁ with
    | nil => simp at h₁
    | cons d pre₁ =>
      simp only [List.cons_append, List.cons.injEq] at h₁
      obtain ⟨rfl, h₁⟩ := h₁
      cases pre₁ with
      | nil =>
        -- the opening quote of the value, with the colon of the member before it
        exact absurd rfl (hlast (a := '"' :: W.body p.1 ++ ['"']) (b := [':']) (by simp) (by simp))
      | cons d pre₁ =>
        simp only [List.cons_append, List.cons.injEq] at h₁
        obtain ⟨rfl, h₁⟩ := h₁
        obtain ⟨pre₂, rfl, h₂⟩ := quote_after_body h₁
          (hlast (a := '"' :: W.body p.1 ++ ['"', ':', '"']) (by simp) (by simp))
        cases pre₂ with
        | nil =>
          -- the closing quote of the value, which no colon follows
          simp only [List.nil_append, List.cons.injEq, true_and] at h₂
          rw [h₂] at hrest
          exact absurd rfl hrest
        | cons d pre₂ =>
          simp only [List.cons_append, List.cons.injEq, List.nil_append] at h₂
          obtain ⟨rfl, h₂⟩ := h₂
          right
          exact ⟨pre₂, by simp [memberText], h₂⟩

theorem value_of_members {l : List (List Char × List Char)} {pre w : List Char}
    (h : W.membersText l ++ ['}'] = pre ++ '"' :: ':' :: w) (hne : pre ≠ [])
    (hpre : ∀ c ∈ pre.getLast?, c ∉ ['\\', ':', ',']) :
    ∃ p ∈ l, ∃ w', w = '"' :: W.body p.2 ++ '"' :: w' := by
  induction l generalizing pre with
  | nil =>
    obtain ⟨c, pre, rfl⟩ := List.exists_cons_of_ne_nil hne
    simp [membersText] at h
  | cons p l ih =>
    cases l with
    | nil =>
      rcases value_of_member h hne hpre (by simp) with hw | ⟨pre', -, h'⟩
      · exact ⟨p, List.mem_cons_self, _, hw⟩
      · cases pre' <;> simp at h'
    | cons q l =>
      rw [membersText, List.append_assoc, List.cons_append] at h
      rcases value_of_member h hne hpre (by simp) with hw | ⟨pre', hpre', h'⟩
      · exact ⟨p, List.mem_cons_self, _, hw⟩
      · cases pre' with
        | nil => simp at h'
        | cons d pre' =>
          simp only [List.cons_append, List.cons.injEq] at h'
          obtain ⟨rfl, h'⟩ := h'
          have hlast : ∀ c ∈ pre'.getLast?, c ∉ ['\\', ':', ','] := by
            intro c hc
            apply hpre
            rw [hpre', List.getLast?_append, List.getLast?_cons, hc]
            simp
          have hne' : pre' ≠ [] := by
            rintro rfl
            refine absurd (hpre ',' ?_) (by simp)
            simp [hpre', List.getLast?_append]
          obtain ⟨p', hp', hw⟩ := ih h' hne' hlast
          exact ⟨p', List.mem_cons_of_mem p hp', hw⟩

end JsonWriter

/-! ### Looking a key up -/

/-- `"key":` -/
def jsonNeedle (key : List Char) : List Char := '"' :: key ++ ['"', ':']

/-- A key that a search finds only where a key ends: without a backslash at its end, and not ending
in what stands before a quote that is not of a key. -/
def Searchable (key : List Char) : Prop := ∃ c ∈ key.getLast?, c ∉ ['\\', ':', ',', '{']

instance (key : List Char) : Decidable (Searchable key) :=
  inferInstanceAs (Decidable (∃ c ∈ key.getLast?, _))

/-- **What follows an occurrence of `"key":`** is the value of some member. -/
theorem JsonWriter.value_of_needle {W : JsonWriter} {l : List (List Char × List Char)}
    {key u w : List Char} (hkey : Searchable key)
    (h : W.objectText l = u ++ jsonNeedle key ++ w) :
    ∃ p ∈ l, ∃ w', w = '"' :: W.body p.2 ++ '"' :: w' := by
  obtain ⟨c, hc, hbad⟩ := hkey
  have hc : key.getLast? = some c := hc
  have hlast : (u ++ '"' :: key).getLast? = some c := by
    rw [List.getLast?_append, List.getLast?_cons, hc]
    rfl
  have htext : '{' :: (W.membersText l ++ ['}']) = (u ++ '"' :: key) ++ '"' :: ':' :: w := by
    rw [← List.cons_append]
    exact h.trans (by simp [jsonNeedle])
  obtain ⟨d, pre, hpre⟩ := List.exists_cons_of_ne_nil
    (show u ++ '"' :: key ≠ [] by simp)
  rw [hpre] at htext hlast
  simp only [List.cons_append, List.cons.injEq] at htext
  obtain ⟨rfl, htext⟩ := htext
  have hne : pre ≠ [] := by
    rintro rfl
    obtain rfl : '{' = c := by simpa using hlast
    exact hbad (by simp)
  refine W.value_of_members htext hne fun e he => ?_
  obtain ⟨a, pre, rfl⟩ := List.exists_cons_of_ne_nil hne
  rw [List.getLast?_cons_cons] at hlast
  obtain rfl : c = e := Option.some.inj (hlast.symm.trans he)
  exact fun hmem => hbad (List.mem_of_mem_dropLast (l := ['\\', ':', ',', '{']) hmem)

/-- Functions on the text of an object that look a key up by searching for `"key":`; the first
occurrence counts. -/
structure JsonSearch (W : JsonWriter) where
  has : List Char → List Char → Bool
  has_iff : ∀ text key, has text key = true ↔ jsonNeedle key <:+: text
  extract : List Char → List Char → List Char
  /-- Nothing is found. -/
  extract_none : ∀ text key, ¬ jsonNeedle key <:+: text → extract text key = []
  /-- A string is found. -/
  extract_first : ∀ u key s w, ¬ jsonNeedle key <:+: u ++ (jsonNeedle key).dropLast →
    extract (u ++ jsonNeedle key ++ '"' :: W.body s ++ '"' :: w) key = s

/-- The first occurrence of a text. -/
theorem exists_first_infix {n t : List Char} (hne : n ≠ []) (h : n <:+: t) :
    ∃ u w, t = u ++ n ++ w ∧ ¬ n <:+: u ++ n.dropLast := by
  obtain ⟨u, w, rfl⟩ := h
  induction hlen : u.length using Nat.strong_induction_on generalizing u w with
  | _ k ih =>
    by_cases hfirst : n <:+: u ++ n.dropLast
    · -- an occurrence that begins earlier
      obtain ⟨a, b, hab⟩ := hfirst
      have hn : n = n.dropLast ++ [n.getLast hne] := (List.dropLast_append_getLast hne).symm
      have hlt : a.length < k := by
        have hlens := congrArg List.length hab
        simp only [List.length_append, List.length_dropLast] at hlens
        have := List.length_pos_iff.mpr hne
        omega
      have htext : u ++ n ++ w = a ++ n ++ (b ++ n.getLast hne :: w) := by
        calc u ++ n ++ w = (u ++ n.dropLast) ++ n.getLast hne :: w := by
              conv_lhs => rw [hn]
              simp
          _ = a ++ n ++ (b ++ n.getLast hne :: w) := by
              rw [← hab]
              simp
      rw [htext]
      exact ih a.length hlt a _ rfl
    · exact ⟨u, w, rfl, hfirst⟩

namespace JsonSearch

variable {W : JsonWriter} (J : JsonSearch W) {l : List (List Char × List Char)} {key : List Char}

/-- **What `extract` finds is the value of a member**, which stands behind `"key":`. -/
theorem extract_eq (hkey : Searchable key) (h : J.extract (W.objectText l) key ≠ []) :
    ∃ u w, W.objectText l = u ++ jsonNeedle key ++
      '"' :: W.body (J.extract (W.objectText l) key) ++ '"' :: w := by
  have hfound : jsonNeedle key <:+: W.objectText l := by
    by_contra hnone
    exact h (J.extract_none _ _ hnone)
  obtain ⟨u, w, htext, hfirst⟩ := exists_first_infix (by simp [jsonNeedle]) hfound
  obtain ⟨p, -, w', rfl⟩ := JsonWriter.value_of_needle hkey htext
  rw [← List.append_assoc] at htext
  rw [htext, J.extract_first u key p.2 w' hfirst]
  exact ⟨u, w', rfl⟩

/-- An object that begins with a member of this key. -/
theorem extract_cons {s : List Char} (hkey : ∀ c ∈ key, JsonPlain c) :
    J.extract (W.objectText ((key, s) :: l)) key = s := by
  have hfirst : ¬ jsonNeedle key <:+: ['{'] ++ (jsonNeedle key).dropLast := by
    rintro ⟨a, b, hab⟩
    have hlens := congrArg List.length hab
    have hnl : (jsonNeedle key).length = key.length + 3 := by simp [jsonNeedle]
    simp only [List.length_append, List.length_dropLast, List.length_singleton, hnl] at hlens
    -- the occurrence would begin with the bracket
    obtain rfl : a = [] := List.length_eq_zero_iff.mp (by omega)
    simp [jsonNeedle] at hab
  obtain ⟨rest, htext⟩ : ∃ rest, W.objectText ((key, s) :: l) =
      ['{'] ++ jsonNeedle key ++ '"' :: W.body s ++ '"' :: rest := by
    cases l with
    | nil =>
      refine ⟨['}'], ?_⟩
      simp [JsonWriter.objectText, JsonWriter.membersText, JsonWriter.memberText, jsonNeedle,
        JsonWriter.body_eq_self hkey]
    | cons q l =>
      refine ⟨',' :: W.membersText (q :: l) ++ ['}'], ?_⟩
      simp [JsonWriter.objectText, JsonWriter.membersText, JsonWriter.memberText, jsonNeedle,
        JsonWriter.body_eq_self hkey]
  rw [htext]
  exact J.extract_first ['{'] key s rest hfirst

end JsonSearch

/-! ### A writer and a search -/

/-- The writer that escapes nothing but quotes and backslashes. -/
def JsonWriter.quoting : JsonWriter where
  escape c := if c = '"' ∨ c = '\\' then ['\\', c] else [c]
  escape_plain c hc := by
    refine if_neg ?_
    rintro (rfl | rfl)
    · exact hc.2.2.2.2 (by simp)
    · exact hc.2.2.2.2 (by simp)
  escape_quote := rfl
  quote_escaped c u v h := by
    split at h
    · rcases u with _ | ⟨d, _ | ⟨e, u⟩⟩
      · cases h
      · cases h
        rfl
      · simp at h
    · rename_i hc
      rcases u with _ | ⟨d, u⟩
      · cases h
        exact absurd (.inl rfl) hc
      · simp at h
  escape_toLower c := by
    by_cases hc : c.val ≥ 'A'.val ∧ c.val ≤ 'Z'.val
    · have hlower : c.toLower.val = c.val + ('a'.val - 'A'.val) := by
        delta Char.toLower
        rw [dif_pos hc]
      -- neither the letter nor its lower case is escaped
      have hne : ∀ d : Char, d.val < 'A'.val ∨ d.val = '\\'.val → c ≠ d ∧ c.toLower ≠ d := by
        intro d hd
        constructor
        · rintro rfl
          rcases hd with hd | hd
          · exact absurd hc.1 (by simpa using hd)
          · rw [hd] at hc
            exact absurd hc.2 (by decide)
        · intro h
          rw [h] at hlower
          have hfirst : 65 ≤ c.val.toNat := UInt32.le_iff_toNat_le.mp hc.1
          have hlast : c.val.toNat ≤ 90 := UInt32.le_iff_toNat_le.mp hc.2
          have hnat : d.val.toNat = c.val.toNat + 32 := by
            have hshift : ('a'.val - 'A'.val).toNat = 32 := rfl
            rw [hlower, UInt32.toNat_add, hshift]
            omega
          rcases hd with hd | hd
          · have : d.val.toNat < 65 := UInt32.lt_iff_toNat_lt.mp hd
            omega
          · have h92 : d.val.toNat = 92 := congrArg UInt32.toNat hd
            omega
      have hquote := hne '"' (.inl (by decide))
      have hbackslash := hne '\\' (.inr rfl)
      rw [if_neg (by simp [hquote.1, hbackslash.1]), if_neg (by simp [hquote.2, hbackslash.2])]
      rfl
    · have hself : c.toLower = c := by
        delta Char.toLower
        rw [dif_neg hc]
      rw [hself]
      split
      · rename_i h
        rcases h with rfl | rfl <;> rfl
      · rename_i h
        rw [List.map_singleton, hself]

/-- What stands behind the first occurrence of a text. -/
def afterFirst (n : List Char) : List Char → Option (List Char)
  | [] => if n = [] then some [] else none
  | c :: t => if n <+: c :: t then some ((c :: t).drop n.length) else afterFirst n t

theorem infix_of_afterFirst {n t w : List Char} (h : afterFirst n t = some w) : n <:+: t := by
  induction t with
  | nil =>
    rw [afterFirst] at h
    split at h
    · rename_i hn
      exact ⟨[], [], by rw [hn]; rfl⟩
    · cases h
  | cons c t ih =>
    rw [afterFirst] at h
    split at h
    · rename_i hprefix
      exact hprefix.isInfix
    · exact (ih h).trans (List.suffix_cons c t).isInfix

theorem afterFirst_eq {n u : List Char} (hne : n ≠ []) (h : ¬ n <:+: u ++ n.dropLast) (w : List Char) :
    afterFirst n (u ++ n ++ w) = some w := by
  induction u with
  | nil =>
    obtain ⟨c, t, rfl⟩ := List.exists_cons_of_ne_nil hne
    rw [List.nil_append, List.cons_append, afterFirst, if_pos ⟨w, rfl⟩, ← List.cons_append, List.drop_left]
  | cons c u ih =>
    have hlater : ¬ n <+: c :: (u ++ n ++ w) := by
      intro hprefix
      -- it would end before the end of the occurrence
      have hshort : n <+: c :: (u ++ n.dropLast) := by
        refine List.prefix_of_prefix_length_le hprefix ?_ ?_
        · refine ⟨[n.getLast hne] ++ w, ?_⟩
          rw [List.cons_append, List.append_assoc u, ← List.append_assoc n.dropLast, List.dropLast_append_getLast,
            List.append_assoc]
        · have := List.length_pos_iff.mpr hne
          simp only [List.length_cons, List.length_append, List.length_dropLast]
          omega
      exact h hshort.isInfix
    rw [List.cons_append, List.cons_append, afterFirst, if_neg hlater]
    exact ih fun hmem => h (hmem.trans (List.suffix_cons c _).isInfix)

/-- The characters up to the quote that ends them. -/
def readString : List Char → List Char
  | '\\' :: c :: t => c :: readString t
  | '"' :: _ => []
  | c :: t => c :: readString t
  | [] => []

theorem readString_body (s w : List Char) : readString (JsonWriter.quoting.body s ++ '"' :: w) = s := by
  induction s with
  | nil => rfl
  | cons c s ih =>
    rw [JsonWriter.body_cons, List.append_assoc]
    show readString ((if c = '"' ∨ c = '\\' then ['\\', c] else [c]) ++ _) = _
    by_cases hc : c = '"' ∨ c = '\\'
    · rw [if_pos hc]
      exact congrArg (c :: ·) ih
    · rw [if_neg hc]
      push Not at hc
      show readString (c :: _) = _
      rw [readString.eq_3 _ _ (fun d t' hd => absurd hd hc.2) hc.1]
      exact congrArg (c :: ·) ih

/-- The functions on what this writer has written. -/
def JsonSearch.scanning : JsonSearch JsonWriter.quoting where
  has text key := decide (jsonNeedle key <:+: text)
  has_iff text key := decide_eq_true_iff
  extract text key :=
    match afterFirst (jsonNeedle key) text with
    | some ('"' :: w) => readString w
    | _ => []
  extract_none text key h := by
    have hnone : afterFirst (jsonNeedle key) text = none := by
      by_contra hsome
      obtain ⟨w, hw⟩ := Option.ne_none_iff_exists'.mp hsome
      exact h (infix_of_afterFirst hw)
    rw [hnone]
  extract_first u key s w h := by
    have hne : jsonNeedle key ≠ [] := by simp [jsonNeedle]
    have hafter := afterFirst_eq hne h ('"' :: JsonWriter.quoting.body s ++ '"' :: w)
    rw [← List.append_assoc] at hafter
    rw [hafter]
    exact readString_body s w
