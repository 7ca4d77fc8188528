import Mathlib.Data.List.Infix
import Mathlib.Data.String.Basic

/-!
# String literals and `LIKE` in ClickHouse

A `LIKE` pattern is written as a string literal, so that a backslash is read twice: by the literal
(`unescape`) and by the pattern (`likeTokens`).

* `unescape`: the text that the body of a string literal stands for.
* `Matches`: a text matches the tokens of a pattern.
* `like`: `text LIKE 'body'`.
-/

namespace ClickHouse

/-! ### String literals -/

/-- The character that `\c` stands for; `none` where the backslash is kept, as in `\%`. -/
def escapeOf : Char → Option Char
  | '\\' => some '\\'
  | '\'' => some '\''
  | '"' => some '"'
  | '`' => some '`'
  | '/' => some '/'
  | '0' => some '\x00'
  | 'a' => some '\x07'
  | 'b' => some '\x08'
  | 'e' => some '\x1b'
  | 'f' => some '\x0c'
  | 'n' => some '\n'
  | 'r' => some '\x0d'
  | 't' => some '\t'
  | 'v' => some '\x0b'
  | _ => none

/-- The text that the body of a string literal stands for. -/
def unescape : List Char → List Char
  | [] => []
  | '\\' :: c :: s =>
    match escapeOf c with
    | some d => d :: unescape s
    | none => '\\' :: c :: unescape s
  | c :: s => c :: unescape s

theorem unescape_cons {c : Char} (hc : c ≠ '\\') (s : List Char) :
    unescape (c :: s) = c :: unescape s := by
  rw [unescape]
  rintro d s' rfl
  exact absurd rfl hc

/-- A text without backslashes stands for itself. -/
theorem unescape_append {a : List Char} (ha : '\\' ∉ a) (s : List Char) :
    unescape (a ++ s) = a ++ unescape s := by
  induction a with
  | nil => rfl
  | cons c a ih =>
    have hc : c ≠ '\\' := fun h => ha (h ▸ List.mem_cons_self)
    rw [List.cons_append, unescape_cons hc, ih fun h => ha (List.mem_cons_of_mem c h)]
    rfl

/-! ### Patterns -/

inductive LikeToken where
  /-- `%` -/
  | any
  /-- `_` -/
  | one
  | char (c : Char)
deriving DecidableEq, Repr

/-- The tokens of a pattern. A backslash escapes a wildcard or a backslash, and otherwise is a
character like any other. -/
def likeTokens : List Char → List LikeToken
  | [] => []
  | '%' :: s => .any :: likeTokens s
  | '_' :: s => .one :: likeTokens s
  | '\\' :: '%' :: s => .char '%' :: likeTokens s
  | '\\' :: '_' :: s => .char '_' :: likeTokens s
  | '\\' :: '\\' :: s => .char '\\' :: likeTokens s
  | c :: s => .char c :: likeTokens s

/-- The token of a character that stands in a pattern without a backslash. -/
def wild : Char → LikeToken
  | '%' => .any
  | '_' => .one
  | c => .char c

theorem likeTokens_cons {c : Char} (hc : c ≠ '\\') (s : List Char) :
    likeTokens (c :: s) = wild c :: likeTokens s := by
  rw [likeTokens.eq_def]
  split
  case h_1 heq => cases heq
  case h_2 heq => cases heq; rfl
  case h_3 heq => cases heq; rfl
  case h_4 heq => cases heq; exact absurd rfl hc
  case h_5 heq => cases heq; exact absurd rfl hc
  case h_6 heq => cases heq; exact absurd rfl hc
  case h_7 c' s' hany hone _ _ _ heq =>
    cases heq
    rw [wild]
    · exact fun h => hany h
    · exact fun h => hone h

theorem likeTokens_append {a : List Char} (ha : '\\' ∉ a) (s : List Char) :
    likeTokens (a ++ s) = a.map wild ++ likeTokens s := by
  induction a with
  | nil => rfl
  | cons c a ih =>
    have hc : c ≠ '\\' := fun h => ha (h ▸ List.mem_cons_self)
    rw [List.cons_append, likeTokens_cons hc, ih fun h => ha (List.mem_cons_of_mem c h)]
    rfl

/-- A part of the body of a pattern, with the tokens that it is read as wherever it stands. -/
def Reads (body : List Char) (ts : List LikeToken) : Prop :=
  ∀ rest, likeTokens (unescape (body ++ rest)) = ts ++ likeTokens (unescape rest)

theorem reads_nil : Reads [] [] := fun _ => rfl

theorem Reads.append {a b : List Char} {ts us : List LikeToken} (ha : Reads a ts)
    (hb : Reads b us) : Reads (a ++ b) (ts ++ us) := by
  intro rest
  rw [List.append_assoc, ha, hb, List.append_assoc]

theorem reads_flatMap {α : Type} {f : α → List Char} {g : α → List LikeToken} {l : List α}
    (h : ∀ a ∈ l, Reads (f a) (g a)) : Reads (l.flatMap f) (l.flatMap g) := by
  induction l with
  | nil => exact reads_nil
  | cons a l ih =>
    exact (h a List.mem_cons_self).append (ih fun b hb => h b (List.mem_cons_of_mem a hb))

/-- Without backslashes a body is read character by character. -/
theorem reads_wild {a : List Char} (ha : '\\' ∉ a) : Reads a (a.map wild) := by
  intro rest
  rw [unescape_append ha, likeTokens_append ha]

theorem Reads.tokens {body : List Char} {ts : List LikeToken} (h : Reads body ts) :
    likeTokens (unescape body) = ts := by
  have := h []
  rwa [List.append_nil, unescape, likeTokens, List.append_nil] at this

/-- A text matches a pattern. -/
def Matches : List LikeToken → List Char → Prop
  | [], s => s = []
  | .any :: ts, s => ∃ v ∈ s.tails, Matches ts v
  | .one :: ts, s => ∃ c ∈ s.head?, Matches ts s.tail
  | .char c :: ts, s => s.head? = some c ∧ Matches ts s.tail

instance decidableMatches : (ts : List LikeToken) → (s : List Char) → Decidable (Matches ts s)
  | [], s => inferInstanceAs (Decidable (s = []))
  | .any :: ts, s =>
    have := decidableMatches ts
    inferInstanceAs (Decidable (∃ v ∈ s.tails, Matches ts v))
  | .one :: ts, s =>
    have := decidableMatches ts
    inferInstanceAs (Decidable (∃ c ∈ s.head?, Matches ts s.tail))
  | .char c :: ts, s =>
    have := decidableMatches ts
    inferInstanceAs (Decidable (s.head? = some c ∧ Matches ts s.tail))

variable {ts : List LikeToken} {s : List Char}

theorem matches_nil_iff : Matches [] s ↔ s = [] := Iff.rfl

theorem matches_any_iff : Matches (.any :: ts) s ↔ ∃ u v, s = u ++ v ∧ Matches ts v := by
  simp only [Matches, List.mem_tails]
  constructor
  · rintro ⟨v, ⟨u, rfl⟩, hv⟩
    exact ⟨u, v, rfl, hv⟩
  · rintro ⟨u, v, rfl, hv⟩
    exact ⟨v, ⟨u, rfl⟩, hv⟩

theorem matches_char_iff {c : Char} :
    Matches (.char c :: ts) s ↔ ∃ v, s = c :: v ∧ Matches ts v := by
  cases s <;> simp [Matches]

theorem matches_one_iff : Matches (.one :: ts) s ↔ ∃ c v, s = c :: v ∧ Matches ts v := by
  cases s <;> simp [Matches]

/-- A pattern of two parts is matched by a text of two parts. -/
theorem matches_append_iff {ts' : List LikeToken} :
    Matches (ts ++ ts') s ↔ ∃ u v, s = u ++ v ∧ Matches ts u ∧ Matches ts' v := by
  induction ts generalizing s with
  | nil =>
    constructor
    · exact fun h => ⟨[], s, rfl, rfl, h⟩
    · rintro ⟨u, v, rfl, rfl, h⟩
      exact h
  | cons t ts ih =>
    cases t with
    | any =>
      rw [List.cons_append, matches_any_iff]
      constructor
      · rintro ⟨a, b, rfl, h⟩
        obtain ⟨u, v, rfl, hu, hv⟩ := ih.mp h
        exact ⟨a ++ u, v, by simp, matches_any_iff.mpr ⟨a, u, rfl, hu⟩, hv⟩
      · rintro ⟨u, v, rfl, hu, hv⟩
        obtain ⟨a, b, rfl, hb⟩ := matches_any_iff.mp hu
        exact ⟨a, b ++ v, by simp, ih.mpr ⟨b, v, rfl, hb, hv⟩⟩
    | one =>
      rw [List.cons_append, matches_one_iff]
      constructor
      · rintro ⟨c, b, rfl, h⟩
        obtain ⟨u, v, rfl, hu, hv⟩ := ih.mp h
        exact ⟨c :: u, v, rfl, matches_one_iff.mpr ⟨c, u, rfl, hu⟩, hv⟩
      · rintro ⟨u, v, rfl, hu, hv⟩
        obtain ⟨c, b, rfl, hb⟩ := matches_one_iff.mp hu
        exact ⟨c, b ++ v, rfl, ih.mpr ⟨b, v, rfl, hb, hv⟩⟩
    | char c =>
      rw [List.cons_append, matches_char_iff]
      constructor
      · rintro ⟨b, rfl, h⟩
        obtain ⟨u, v, rfl, hu, hv⟩ := ih.mp h
        exact ⟨c :: u, v, rfl, matches_char_iff.mpr ⟨u, rfl, hu⟩, hv⟩
      · rintro ⟨u, v, rfl, hu, hv⟩
        obtain ⟨b, rfl, hb⟩ := matches_char_iff.mp hu
        exact ⟨b ++ v, rfl, ih.mpr ⟨b, v, rfl, hb, hv⟩⟩

theorem matches_chars_iff {l : List Char} : Matches (l.map .char) s ↔ s = l := by
  induction l generalizing s with
  | nil => exact Iff.rfl
  | cons c l ih =>
    rw [List.map_cons, matches_char_iff]
    constructor
    · rintro ⟨v, rfl, hv⟩
      rw [ih.mp hv]
    · rintro rfl
      exact ⟨l, rfl, ih.mpr rfl⟩

/-- `%` alone matches every text. -/
theorem matches_any (s : List Char) : Matches [.any] s :=
  matches_any_iff.mpr ⟨s, [], by simp, rfl⟩

/-- A text that stands in a pattern is matched by itself, its own `%` and `_` included. -/
theorem matches_wild (s : List Char) : Matches (s.map wild) s := by
  induction s with
  | nil => rfl
  | cons c s ih =>
    rw [List.map_cons]
    rcases ht : wild c with _ | _ | d
    · exact matches_any_iff.mpr ⟨[c], s, rfl, ih⟩
    · exact matches_one_iff.mpr ⟨c, s, rfl, ih⟩
    · have hd : d = c := by
        unfold wild at ht
        split at ht
        · cases ht
        · cases ht
        · exact (LikeToken.char.inj ht).symm
      exact matches_char_iff.mpr ⟨s, by rw [hd], ih⟩

/-- Every character of a pattern occurs in a text that matches it. -/
theorem mem_of_matches {c : Char} (h : Matches ts s) (hc : .char c ∈ ts) : c ∈ s := by
  obtain ⟨a, b, rfl⟩ := List.append_of_mem hc
  obtain ⟨u, v, rfl, -, hv⟩ := matches_append_iff.mp h
  obtain ⟨w, rfl, -⟩ := matches_char_iff.mp hv
  simp

/-- `text LIKE 'body'`. -/
def like (text body : List Char) : Prop := Matches (likeTokens (unescape body)) text

instance (text body : List Char) : Decidable (like text body) :=
  inferInstanceAs (Decidable (Matches _ _))

theorem Reads.like_iff {text body : List Char} (h : Reads body ts) :
    like text body ↔ Matches ts text := by
  rw [like, h.tokens]

/-- A text that has the parts of a pattern between wildcards. -/
theorem matches_between {us : List LikeToken} {u v w x y : List Char} (hv : Matches ts v)
    (hx : Matches us x) :
    Matches (.any :: (ts ++ .any :: (us ++ [.any]))) (u ++ v ++ w ++ x ++ y) := by
  refine matches_any_iff.mpr ⟨u, v ++ (w ++ (x ++ y)), by simp, ?_⟩
  refine matches_append_iff.mpr ⟨v, w ++ (x ++ y), rfl, hv, ?_⟩
  refine matches_any_iff.mpr ⟨w, x ++ y, rfl, ?_⟩
  exact matches_append_iff.mpr ⟨x, y, rfl, hx, matches_any y⟩

theorem matches_within {u v w : List Char} (hv : Matches ts v) :
    Matches (.any :: (ts ++ [.any])) (u ++ v ++ w) := by
  refine matches_any_iff.mpr ⟨u, v ++ w, by simp, ?_⟩
  exact matches_append_iff.mpr ⟨v, w, rfl, hv, matches_any w⟩

theorem matches_within_iff :
    Matches (.any :: (ts ++ [.any])) s ↔ ∃ u v w, s = u ++ v ++ w ∧ Matches ts v := by
  constructor
  · intro h
    obtain ⟨u, s', rfl, hs'⟩ := matches_any_iff.mp h
    obtain ⟨v, w, rfl, hv, -⟩ := matches_append_iff.mp hs'
    exact ⟨u, v, w, by simp, hv⟩
  · rintro ⟨u, v, w, rfl, hv⟩
    exact matches_within hv

/-- The pattern `%word%`, for a word without wildcards. -/
theorem like_within_iff {word text : List Char} (hword : ∀ c ∈ word, c ∉ ['\\', '%', '_']) :
    like text ('%' :: (word ++ ['%'])) ↔ word <:+: text := by
  have hwild : word.map wild = word.map .char := by
    refine List.map_congr_left fun c hc => ?_
    have hne := hword c hc
    simp only [List.mem_cons, List.not_mem_nil, or_false, not_or] at hne
    rw [wild]
    · exact hne.2.1
    · exact hne.2.2
  have hany : Reads ['%'] [.any] := fun _ => rfl
  have hreads : Reads ('%' :: (word ++ ['%'])) (.any :: (word.map .char ++ [.any])) := by
    rw [← hwild]
    exact hany.append ((reads_wild fun h => hword _ h (by simp)).append hany)
  rw [hreads.like_iff, matches_within_iff]
  constructor
  · rintro ⟨u, v, w, rfl, hv⟩
    rw [matches_chars_iff.mp hv]
    exact ⟨u, w, rfl⟩
  · rintro ⟨u, w, rfl⟩
    exact ⟨u, word, w, rfl, matches_chars_iff.mpr rfl⟩

-- A pattern is taken apart by the lemmas above, not by unfolding.
attribute [irreducible] Matches

end ClickHouse
