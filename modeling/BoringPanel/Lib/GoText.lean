import BoringPanel.Lib.Go
import BoringPanel.Lib.Substitution

/-!
# Texts and maps in Go

Functions of the package `strings`, on the characters of a text, and maps with string keys. A `range`
over a map visits its entries in an order that the language leaves open (`MapOrder`).
-/

namespace Go

/-! ### The package `strings` -/

/-- `strings.ReplaceAll(s, old, new)`. -/
def replaceAll (s old new : String) : String :=
  String.ofList (Substitution.replaceAll old.toList new.toList s.toList)

@[simp] theorem toList_replaceAll (s old new : String) :
    (replaceAll s old new).toList = Substitution.replaceAll old.toList new.toList s.toList :=
  String.toList_ofList

/-- `strings.Trim(s, cutset)`. -/
def trim (s cutset : String) : String :=
  let cut := fun c => cutset.toList.contains c
  String.ofList (((s.toList.dropWhile cut).reverse.dropWhile cut).reverse)

/-- `strings.HasPrefix(s, prefix)`. -/
def hasPrefix (s start : String) : Bool := start.toList.isPrefixOf s.toList

/-- `strings.HasSuffix(s, suffix)`. -/
def hasSuffix (s tail : String) : Bool := tail.toList.isSuffixOf s.toList

/-- `strings.Contains(s, substr)`. -/
def contains (s substr : String) : Bool := s.toList.tails.any substr.toList.isPrefixOf

/-- `strings.TrimPrefix(s, prefix)`. -/
def trimPrefix (s start : String) : String :=
  if hasPrefix s start then String.ofList (s.toList.drop start.length) else s

/-- `strings.TrimSuffix(s, suffix)`. -/
def trimSuffix (s tail : String) : String :=
  if hasSuffix s tail then String.ofList (s.toList.take (s.length - tail.length)) else s

/-- `unicode.IsSpace`. -/
def isSpace (c : Char) : Bool :=
  c.toNat ∈ [0x09, 0x0a, 0x0b, 0x0c, 0x0d, 0x20, 0x85, 0xa0, 0x1680, 0x2028, 0x2029, 0x202f, 0x205f,
    0x3000] ∨ (0x2000 ≤ c.toNat ∧ c.toNat ≤ 0x200a)

/-- The words of a text, with the word that is being read. -/
def fieldsFrom (word : List Char) : List Char → List String
  | [] => if word = [] then [] else [String.ofList word]
  | c :: s =>
    if isSpace c then
      if word = [] then fieldsFrom [] s else String.ofList word :: fieldsFrom [] s
    else fieldsFrom (word ++ [c]) s

/-- `strings.Fields`. -/
def fields (s : String) : List String := fieldsFrom [] s.toList

/-- The letters of Unicode, of which the language has a table. -/
class Unicode where
  /-- `unicode.ToLower`. -/
  toLower : Char → Char
  toLower_ascii : ∀ c, c.toNat < 128 → toLower c = c.toLower
  /-- A character that changes becomes a letter. -/
  toLower_letter : ∀ c, toLower c ≠ c → (toLower c).isLower ∨
    128 ≤ (toLower c).toNat ∧ (toLower c).toNat ∉ [0x2028, 0x2029]

/-- `strings.ToLower(s)`. -/
def toLower [Unicode] (s : String) : String := String.ofList (s.toList.map Unicode.toLower)

@[simp] theorem toList_toLower [Unicode] (s : String) :
    (toLower s).toList = s.toList.map Unicode.toLower := String.toList_ofList

/-- `fmt.Sprintf(format, args...)` for a format whose verbs are all `%s`. -/
def formatS : List Char → List String → String
  | '%' :: 's' :: format, arg :: args => arg ++ formatS format args
  | c :: format, args => c.toString ++ formatS format args
  | [], _ => ""

/-- `strings.Replace(s, old, new, 1)`. -/
def replaceFirst (old new : List Char) : List Char → List Char
  | [] => if old = [] then new else []
  | c :: s =>
    if old.isPrefixOf (c :: s) then new ++ (c :: s).drop old.length else c :: replaceFirst old new s

/-- `strconv.ParseBool`. -/
def parseBool (s : String) : Option Bool :=
  if s ∈ ["1", "t", "T", "TRUE", "true", "True"] then some true
  else if s ∈ ["0", "f", "F", "FALSE", "false", "False"] then some false
  else none

/-- The number that decimal digits write; `none` if there is none or another character. -/
def parseDigits (s : List Char) : Option Nat :=
  if s = [] ∨ ¬ s.all Char.isDigit then none
  else some (s.foldl (fun n c => 10 * n + (c.toNat - '0'.toNat)) 0)

/-- `strconv.ParseInt(s, 10, 64)`, `none` where it returns an error. -/
def parseInt (s : String) : Option Int := do
  let n ← match s.toList with
    | '+' :: digits => (parseDigits digits).map Int.ofNat
    | '-' :: digits => (parseDigits digits).map fun n => -(Int.ofNat n)
    | digits => (parseDigits digits).map Int.ofNat
  if -2 ^ 63 ≤ n ∧ n < 2 ^ 63 then some n else none

/-- The number that `strconv.Atoi(s)` returns beside its error: the nearest one of an `int` where it is
out of range, and zero where there is none. -/
def atoi (s : String) : Int :=
  match parseInt s, s.toList with
  | some n, _ => n
  | none, '+' :: digits => if (parseDigits digits).isSome then 2 ^ 63 - 1 else 0
  | none, '-' :: digits => if (parseDigits digits).isSome then -2 ^ 63 else 0
  | none, digits => if (parseDigits digits).isSome then 2 ^ 63 - 1 else 0

/-- The characters of `strings.Split(s, sep)[0]`, those before the first separator. -/
def beforeFirst (sep : List Char) : List Char → List Char
  | [] => []
  | c :: s => if sep.isPrefixOf (c :: s) then [] else c :: beforeFirst sep s

/-- What comes before a separator whose second character is not in it. -/
theorem beforeFirst_append {d e : Char} {sep s : List Char} (hne : d ≠ e) (h : e ∉ s) :
    beforeFirst (d :: e :: sep) (s ++ d :: e :: sep) = s := by
  induction s with
  | nil =>
    have hstarts : (d :: e :: sep).isPrefixOf (d :: e :: sep) = true :=
      List.isPrefixOf_iff_prefix.mpr (List.prefix_refl _)
    rw [List.nil_append, beforeFirst, if_pos hstarts]
  | cons c s ih =>
    simp only [List.mem_cons, not_or] at h
    have hno : ¬ (d :: e :: sep).isPrefixOf (c :: (s ++ d :: e :: sep)) = true := by
      rw [List.isPrefixOf_iff_prefix, List.cons_prefix_cons]
      rintro ⟨-, hstarts⟩
      cases s with
      | nil => exact hne (List.cons_prefix_cons.mp hstarts).1.symm
      | cons c' s => exact h.2 (by simp [(List.cons_prefix_cons.mp hstarts).1])
    rw [List.cons_append, beforeFirst, if_neg hno, ih h.2]

/-! ### Maps -/

/-- A `map[string]V`. -/
@[ext] structure Map (V : Type) where
  entries : List (String × V)
  nodup : (entries.map Prod.fst).Nodup

namespace Map

variable {V W : Type}

def empty : Map V := ⟨[], List.nodup_nil⟩

/-- `m[k]`. -/
def lookup (m : Map V) (k : String) : Option V :=
  (m.entries.find? fun e => e.1 = k).map Prod.snd

/-- `m[k] = v`. -/
def set (m : Map V) (k : String) (v : V) : Map V where
  entries := if k ∈ m.entries.map Prod.fst
    then m.entries.map fun e => if e.1 = k then (k, v) else e
    else m.entries ++ [(k, v)]
  nodup := by
    split
    · have hkeys : (m.entries.map fun e => if e.1 = k then (k, v) else e).map Prod.fst =
          m.entries.map Prod.fst := by
        rw [List.map_map]
        refine List.map_congr_left fun e _ => ?_
        by_cases he : e.1 = k
        · simp [he]
        · simp [he]
      rw [hkeys]
      exact m.nodup
    · rename_i hk
      rw [List.map_append]
      refine List.nodup_append.mpr ⟨m.nodup, List.nodup_singleton k, ?_⟩
      rintro a ha b hb rfl
      obtain rfl : a = k := List.mem_singleton.mp hb
      exact hk ha

/-- The map with each value changed. -/
def mapValues (f : V → W) (m : Map V) : Map W where
  entries := m.entries.map fun e => (e.1, f e.2)
  nodup := by
    rw [List.map_map]
    exact m.nodup

/-- The map with each value changed, for its key. -/
def mapKeyValues (f : String → V → W) (m : Map V) : Map W where
  entries := m.entries.map fun e => (e.1, f e.1 e.2)
  nodup := by
    rw [List.map_map]
    exact m.nodup

theorem lookup_of_mem {m : Map V} {k : String} {v : V} (h : (k, v) ∈ m.entries) :
    m.lookup k = some v := by
  have hsome : (m.entries.find? fun e => e.1 = k).isSome := by
    rw [List.find?_isSome]
    exact ⟨(k, v), h, by simp⟩
  obtain ⟨e, he⟩ := Option.isSome_iff_exists.mp hsome
  have hek : e.1 = k := by simpa using List.find?_some he
  have hev : e = (k, v) := List.inj_on_of_nodup_map m.nodup (List.mem_of_find?_eq_some he) h hek
  rw [lookup, he, hev]
  rfl

theorem mem_of_lookup {m : Map V} {k : String} {v : V} (h : m.lookup k = some v) :
    (k, v) ∈ m.entries := by
  obtain ⟨e, he, rfl⟩ := Option.map_eq_some_iff.mp h
  have hek : e.1 = k := by simpa using List.find?_some he
  rw [← hek]
  exact List.mem_of_find?_eq_some he

theorem mem_keys_iff {m : Map V} {k : String} :
    k ∈ m.entries.map Prod.fst ↔ (m.lookup k).isSome := by
  constructor
  · intro h
    obtain ⟨⟨k', v⟩, he, rfl⟩ := List.mem_map.mp h
    rw [lookup_of_mem he]
    rfl
  · intro h
    obtain ⟨v, hv⟩ := Option.isSome_iff_exists.mp h
    exact List.mem_map_of_mem (mem_of_lookup hv)

theorem entries_set_of_mem {m : Map V} {k : String} {v : V} (hk : k ∈ m.entries.map Prod.fst) :
    (m.set k v).entries = m.entries.map fun e => if e.1 = k then (k, v) else e :=
  if_pos hk

theorem entries_set_of_not_mem {m : Map V} {k : String} {v : V}
    (hk : k ∉ m.entries.map Prod.fst) : (m.set k v).entries = m.entries ++ [(k, v)] :=
  if_neg hk

/-- The entries of a map after an assignment. -/
theorem mem_entries_set {m : Map V} {k j : String} {v w : V} :
    (j, w) ∈ (m.set k v).entries ↔ (j = k ∧ w = v) ∨ (j ≠ k ∧ (j, w) ∈ m.entries) := by
  by_cases hk : k ∈ m.entries.map Prod.fst
  · rw [entries_set_of_mem hk, List.mem_map]
    constructor
    · rintro ⟨⟨i, x⟩, he, h⟩
      by_cases hik : i = k
      · simp only [hik, if_true, Prod.mk.injEq] at h
        exact .inl ⟨h.1.symm, h.2.symm⟩
      · simp only [hik, if_false, Prod.mk.injEq] at h
        exact .inr ⟨h.1 ▸ hik, by rw [← h.1, ← h.2]; exact he⟩
    · rintro (⟨rfl, rfl⟩ | ⟨hjk, he⟩)
      · obtain ⟨e, he, hek⟩ := List.mem_map.mp hk
        exact ⟨e, he, by simp [hek]⟩
      · exact ⟨(j, w), he, by simp [hjk]⟩
  · rw [entries_set_of_not_mem hk, List.mem_append, List.mem_singleton, Prod.mk.injEq]
    constructor
    · rintro (he | h)
      · refine .inr ⟨fun hjk => hk ?_, he⟩
        exact hjk ▸ List.mem_map_of_mem he
      · exact .inl h
    · rintro (h | ⟨-, he⟩)
      · exact .inr h
      · exact .inl he

theorem lookup_set (m : Map V) (k j : String) (v : V) :
    (m.set k v).lookup j = if j = k then some v else m.lookup j := by
  split
  · rename_i h
    exact lookup_of_mem (mem_entries_set.mpr (.inl ⟨h, rfl⟩))
  · rename_i h
    cases hm : m.lookup j with
    | some w => exact lookup_of_mem (mem_entries_set.mpr (.inr ⟨h, mem_of_lookup hm⟩))
    | none =>
      cases hs : (m.set k v).lookup j with
      | none => rfl
      | some w =>
        rcases mem_entries_set.mp (mem_of_lookup hs) with ⟨hjk, -⟩ | ⟨-, he⟩
        · exact absurd hjk h
        · rw [lookup_of_mem he] at hm
          cases hm

/-- An assignment that changes nothing. -/
theorem set_eq_self {m : Map V} {k : String} {v : V} (h : m.lookup k = some v) : m.set k v = m := by
  obtain ⟨entries, nodup⟩ := m
  have hk : k ∈ entries.map Prod.fst := mem_keys_iff.mpr (by rw [h]; rfl)
  unfold set
  simp only [if_pos hk, mk.injEq]
  refine (List.map_congr_left fun e he => ?_).trans (List.map_id _)
  split
  · rename_i hek
    have hmem := lookup_of_mem (m := ⟨entries, nodup⟩) (k := e.1) (v := e.2) he
    rw [hek, h] at hmem
    rw [Option.some.inj hmem, ← hek]
    rfl
  · rfl

/-- `delete(m, k)`. -/
def erase (m : Map V) (k : String) : Map V where
  entries := m.entries.filter fun e => e.1 ≠ k
  nodup := m.nodup.sublist (List.filter_sublist.map Prod.fst)

theorem mem_entries_erase {m : Map V} {k : String} {e : String × V} :
    e ∈ (m.erase k).entries ↔ e ∈ m.entries ∧ e.1 ≠ k := by
  rw [erase, List.mem_filter, decide_eq_true_eq]

theorem lookup_erase (m : Map V) (k j : String) :
    (m.erase k).lookup j = if j = k then none else m.lookup j := by
  split
  · rename_i h
    cases hm : (m.erase k).lookup j with
    | none => rfl
    | some v => exact absurd h (mem_entries_erase.mp (mem_of_lookup hm)).2
  · rename_i h
    cases hm : m.lookup j with
    | some v => exact lookup_of_mem (mem_entries_erase.mpr ⟨mem_of_lookup hm, h⟩)
    | none =>
      cases he : (m.erase k).lookup j with
      | none => rfl
      | some v =>
        rw [lookup_of_mem (mem_entries_erase.mp (mem_of_lookup he)).1] at hm
        cases hm

/-- One assignment after the other. -/
def setAll (m : Map V) (l : List (String × V)) : Map V := l.foldl (fun m e => m.set e.1 e.2) m

theorem lookup_setAll_of_not_mem {l : List (String × V)} {k : String} (h : k ∉ l.map Prod.fst) :
    ∀ m : Map V, (m.setAll l).lookup k = m.lookup k := by
  induction l with
  | nil => exact fun m => rfl
  | cons e l ih =>
    intro m
    rw [List.map_cons, List.mem_cons, not_or] at h
    change ((m.set e.1 e.2).setAll l).lookup k = _
    rw [ih h.2, lookup_set, if_neg h.1]

theorem lookup_setAll_of_mem {l : List (String × V)} (hnd : (l.map Prod.fst).Nodup) {k : String}
    {v : V} (h : (k, v) ∈ l) : ∀ m : Map V, (m.setAll l).lookup k = some v := by
  induction l with
  | nil => exact absurd h List.not_mem_nil
  | cons e l ih =>
    intro m
    obtain ⟨he, hnd'⟩ := List.nodup_cons.mp hnd
    change ((m.set e.1 e.2).setAll l).lookup k = some v
    rcases List.mem_cons.mp h with rfl | h
    · rw [lookup_setAll_of_not_mem he, lookup_set, if_pos rfl]
    · exact ih hnd' h _

/-- Assignments that change nothing. -/
theorem setAll_eq_self {l : List (String × V)} {m : Map V}
    (h : ∀ e ∈ l, m.lookup e.1 = some e.2) : m.setAll l = m := by
  induction l with
  | nil => rfl
  | cons e l ih =>
    change (m.set e.1 e.2).setAll l = m
    rw [set_eq_self (h e List.mem_cons_self)]
    exact ih fun e' he' => h e' (List.mem_cons_of_mem e he')

/-- Assigning twice is assigning once. -/
theorem setAll_setAll {l : List (String × V)} (hnd : (l.map Prod.fst).Nodup) (m : Map V) :
    (m.setAll l).setAll l = m.setAll l :=
  setAll_eq_self fun _ he => lookup_setAll_of_mem hnd he m

theorem mapKeyValues_set (f : String → V → W) (m : Map V) (k : String) (v : V) :
    (m.set k v).mapKeyValues f = (m.mapKeyValues f).set k (f k v) := by
  have hkeys : (m.mapKeyValues f).entries.map Prod.fst = m.entries.map Prod.fst := by
    rw [mapKeyValues, List.map_map]
    rfl
  rw [Map.ext_iff]
  by_cases hk : k ∈ m.entries.map Prod.fst
  · rw [entries_set_of_mem (hkeys ▸ hk)]
    simp only [mapKeyValues, entries_set_of_mem hk, List.map_map]
    refine List.map_congr_left fun e _ => ?_
    by_cases he : e.1 = k <;> simp [he]
  · rw [entries_set_of_not_mem (hkeys ▸ hk)]
    simp [mapKeyValues, entries_set_of_not_mem hk]

theorem mapKeyValues_setAll (f : String → V → W) (l : List (String × V)) :
    ∀ m : Map V, (m.setAll l).mapKeyValues f =
      (m.mapKeyValues f).setAll (l.map fun e => (e.1, f e.1 e.2)) := by
  induction l with
  | nil => exact fun m => rfl
  | cons e l ih =>
    intro m
    change ((m.set e.1 e.2).setAll l).mapKeyValues f = _
    rw [ih, mapKeyValues_set]
    rfl

theorem mapKeyValues_mapKeyValues {f : String → V → V} (hf : ∀ k v, f k (f k v) = f k v)
    (m : Map V) : (m.mapKeyValues f).mapKeyValues f = m.mapKeyValues f := by
  rw [Map.ext_iff]
  simp only [mapKeyValues, List.map_map]
  exact List.map_congr_left fun e _ => congrArg (e.1, ·) (hf e.1 e.2)

/-- Entries that have been set, and changed for their keys, may be set again. -/
theorem mapKeyValues_setAll_again {f : String → V → V} (hf : ∀ k v, f k (f k v) = f k v)
    {l : List (String × V)} (hnd : (l.map Prod.fst).Nodup) (m : Map V) :
    (((m.setAll l).mapKeyValues f).setAll l).mapKeyValues f = (m.setAll l).mapKeyValues f := by
  have hnd' : ((l.map fun e => (e.1, f e.1 e.2)).map Prod.fst).Nodup := by
    rw [List.map_map]
    exact hnd
  rw [mapKeyValues_setAll f l ((m.setAll l).mapKeyValues f), mapKeyValues_mapKeyValues hf,
    mapKeyValues_setAll, setAll_setAll hnd']

theorem mem_keys_setAll {l : List (String × V)} {k : String} :
    ∀ {m : Map V}, k ∈ m.entries.map Prod.fst → k ∈ (m.setAll l).entries.map Prod.fst := by
  induction l with
  | nil => exact id
  | cons e l ih =>
    intro m h
    refine ih (m := m.set e.1 e.2) ?_
    rw [mem_keys_iff, lookup_set]
    split
    · rfl
    · exact mem_keys_iff.mp h

end Map

/-- The order in which a `range` visits the entries of a map. -/
structure MapOrder (V : Type) where
  order : Map V → List (String × V)
  perm : ∀ m, (order m).Perm m.entries

end Go
