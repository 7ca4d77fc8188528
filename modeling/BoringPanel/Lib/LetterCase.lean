import BoringPanel.Lib.ClickHouse
import Mathlib

/-!
# `LIKE` up to the case of letters

`ILIKE`, and `LIKE` between texts in lower case. How letters are folded is a parameter (`LetterCase`),
of which only is known that the characters that are special in a pattern are no letters; `lower` folds
those of ASCII (`LetterCase.ascii`).

* `ilike`: `text ILIKE 'body'`; `lowerLike`: `lower(text) LIKE lower('body')`.
* `matches_sample`: every pattern has a text that matches it, with nothing for a `%`.
* `literalBody`: the body of the literal that a text begins with, behind the quote that opens it.
-/

namespace ClickHouse

/-- The characters that are special in a pattern. -/
def patternSpecials : List Char := ['\\', '%', '_']

/-- A folding of letters to one case. -/
structure LetterCase where
  fold : Char → Char
  fold_eq_iff : ∀ c ∈ patternSpecials, ∀ d, fold d = c ↔ d = c

namespace LetterCase

variable (L : LetterCase)

/-- The text has the word as a part, up to the case of letters. -/
def Contains (text word : List Char) : Prop := word.map L.fold <:+: text.map L.fold

/-- The letters of ASCII, as `lower` folds them. -/
def ascii : LetterCase where
  fold := Char.toLower
  fold_eq_iff c hc d := by
    simp only [patternSpecials, List.mem_cons, List.not_mem_nil, or_false] at hc
    have hself : c.toLower = c := by rcases hc with rfl | rfl | rfl <;> rfl
    constructor
    · intro h
      by_cases hupper : d.isUpper
      · -- A letter becomes a letter, and a special character is none.
        have hletter : c.isLower := by rw [← h, Char.isLower_toLower_eq_isAlpha, Char.isAlpha, hupper, Bool.true_or]
        rcases hc with rfl | rfl | rfl <;> cases hletter
      · rwa [Char.toLower_eq_of_not_isUpper hupper] at h
    · rintro rfl
      exact hself

end LetterCase

/-! ### Patterns -/

def LikeToken.map (f : Char → Char) : LikeToken → LikeToken
  | .any => .any
  | .one => .one
  | .char c => .char (f c)

variable (L : LetterCase)

/-- `text ILIKE 'body'`. -/
def ilike (text body : List Char) : Prop :=
  Matches ((likeTokens (unescape body)).map (LikeToken.map L.fold)) (text.map L.fold)

/-- `lower(text) LIKE lower('body')`. -/
def lowerLike (text body : List Char) : Prop :=
  Matches (likeTokens ((unescape body).map Char.toLower)) (text.map Char.toLower)

theorem likeTokens_backslash {c : Char} (hc : c ∉ patternSpecials) (s : List Char) :
    likeTokens ('\\' :: c :: s) = .char '\\' :: likeTokens (c :: s) := by
  have hhead : ∀ d ∈ patternSpecials, ∀ s', c :: s ≠ d :: s' := fun d hd s' h =>
    hc ((List.cons.inj h).1 ▸ hd)
  rw [likeTokens]
  · exact fun h => absurd h (by decide)
  · exact fun h => absurd h (by decide)
  · exact fun s' _ => hhead '%' (by decide) s'
  · exact fun s' _ => hhead '_' (by decide) s'
  · exact fun s' _ => hhead '\\' (by decide) s'

theorem map_wild (c : Char) : (wild c).map L.fold = wild (L.fold c) := by
  by_cases hpercent : c = '%'
  · rw [(L.fold_eq_iff '%' (by decide) c).mpr hpercent, hpercent]
    rfl
  by_cases hunder : c = '_'
  · rw [(L.fold_eq_iff '_' (by decide) c).mpr hunder, hunder]
    rfl
  rw [wild, wild]
  · rfl
  · exact fun h => hpercent ((L.fold_eq_iff '%' (by decide) c).mp h)
  · exact fun h => hunder ((L.fold_eq_iff '_' (by decide) c).mp h)
  · exact hpercent
  · exact hunder

/-- Folding letters does not change which characters are special. -/
theorem likeTokens_map_fold (s : List Char) :
    likeTokens (s.map L.fold) = (likeTokens s).map (LikeToken.map L.fold) := by
  have hspecial : ∀ c ∈ patternSpecials, L.fold c = c := fun c hc => (L.fold_eq_iff c hc c).mpr rfl
  have hpercent := hspecial '%' (by decide)
  have hunder := hspecial '_' (by decide)
  have hbackslash := hspecial '\\' (by decide)
  fun_induction likeTokens s with
  | case1 => rfl
  | case2 s ih =>
    rw [List.map_cons, hpercent, likeTokens, ih]
    rfl
  | case3 s ih =>
    rw [List.map_cons, hunder, likeTokens, ih]
    rfl
  | case4 s ih =>
    rw [List.map_cons, List.map_cons, hbackslash, hpercent, likeTokens, ih, List.map_cons,
      LikeToken.map, hpercent]
  | case5 s ih =>
    rw [List.map_cons, List.map_cons, hbackslash, hunder, likeTokens, ih, List.map_cons,
      LikeToken.map, hunder]
  | case6 s ih =>
    rw [List.map_cons, List.map_cons, hbackslash, likeTokens, ih, List.map_cons, LikeToken.map,
      hbackslash]
  | case7 c s hany hone hnany hnone hnbackslash ih =>
    by_cases hc : c = '\\'
    · -- A backslash that escapes nothing.
      subst hc
      rw [List.map_cons, List.map_cons, ← ih]
      show _ = LikeToken.char (L.fold '\\') :: _
      rw [hbackslash]
      cases s with
      | nil => rfl
      | cons d s =>
        refine likeTokens_backslash (fun hd => ?_) _
        have hself : L.fold d = d := ((L.fold_eq_iff _ hd d).mp rfl).symm
        rw [hself] at hd
        simp only [patternSpecials, List.mem_cons, List.not_mem_nil, or_false] at hd
        rcases hd with rfl | rfl | rfl
        · exact hnbackslash s rfl rfl
        · exact hnany s rfl rfl
        · exact hnone s rfl rfl
    · have hc' : L.fold c ≠ '\\' := fun h => hc ((L.fold_eq_iff _ (by decide) c).mp h)
      rw [List.map_cons, likeTokens_cons hc', ih, ← map_wild, wild]
      · rfl
      · exact fun h => hany h
      · exact fun h => hone h

theorem lowerLike_iff_ilike (text body : List Char) :
    lowerLike text body ↔ ilike LetterCase.ascii text body := by
  rw [lowerLike, ilike]
  exact iff_of_eq (congrArg (Matches · _) (likeTokens_map_fold LetterCase.ascii _))

/-- A text that matches a pattern, with nothing for a `%`. -/
def sample : List LikeToken → List Char
  | [] => []
  | .any :: ts => sample ts
  | .one :: ts => 'a' :: sample ts
  | .char c :: ts => c :: sample ts

theorem matches_sample (f : Char → Char) (ts : List LikeToken) :
    Matches (ts.map (LikeToken.map f)) ((sample ts).map f) := by
  induction ts with
  | nil => exact matches_nil_iff.mpr rfl
  | cons t ts ih =>
    cases t with
    | any => exact matches_any_iff.mpr ⟨[], _, rfl, ih⟩
    | one => exact matches_one_iff.mpr ⟨_, _, rfl, ih⟩
    | char c => exact matches_char_iff.mpr ⟨_, rfl, ih⟩

/-! ### Literals -/

/-- The body of a literal and what stands behind it, from the character after the quote that opens it. -/
def literalBody : List Char → Option (List Char × List Char)
  | [] => none
  | '\\' :: c :: s => (literalBody s).map fun p => ('\\' :: c :: p.1, p.2)
  | '\'' :: '\'' :: s => (literalBody s).map fun p => ('\'' :: '\'' :: p.1, p.2)
  | '\'' :: s => some ([], s)
  | c :: s => (literalBody s).map fun p => (c :: p.1, p.2)

theorem literalBody_cons {c : Char} (hbackslash : c ≠ '\\') (hquote : c ≠ '\'') (s : List Char) :
    literalBody (c :: s) = (literalBody s).map fun p => (c :: p.1, p.2) := by
  rw [literalBody]
  · exact fun d t h => absurd h hbackslash
  · exact fun t h => absurd h hquote
  · exact fun h => absurd h hquote

end ClickHouse
