import BoringPanel.Lib.GoText
import BoringPanel.Lib.OrderedEntries

/-!
# Documents of a YAML library

The values that a document is read into, and what is asked of a library: it reads back what it has
written, and a dollar sign is an ordinary character for it, so that one may be replaced by several in
the text of a document as well as in its strings.

* `Value`: the values, a map by its entries in the order of the keys (`Canonical`).
* `Library`, `Library.Lawful`: `yaml.Marshal` and `yaml.Unmarshal`, and what is asked of them.
-/

namespace Yaml

/-- The values of an `interface{}` that a document is read into. -/
inductive Value where
  | null
  | str (s : String)
  /-- A number, a truth value or a time, or a map whose keys are no strings; `json` says whether
  `encoding/json` takes it. -/
  | other (text : String) (json : Bool)
  | seq (items : List Value)
  | map (entries : List (String × Value))

/-- The entries of a `map[string]interface{}`. -/
abbrev Entries := List (String × Value)

mutual

/-- The value with every string and key changed. -/
def Value.mapStrings (f : String → String) : Value → Value
  | .null => .null
  | .str s => .str (f s)
  | .other text json => .other text json
  | .seq items => .seq (mapItems f items)
  | .map entries => .map (mapEntries f entries)

def mapItems (f : String → String) : List Value → List Value
  | [] => []
  | v :: vs => v.mapStrings f :: mapItems f vs

def mapEntries (f : String → String) : Entries → Entries
  | [] => []
  | (k, v) :: es => (f k, v.mapStrings f) :: mapEntries f es

end

mutual

/-- `encoding/json` takes the value. -/
def Value.json : Value → Bool
  | .null => true
  | .str _ => true
  | .other _ json => json
  | .seq items => itemsJson items
  | .map entries => entriesJson entries

def itemsJson : List Value → Bool
  | [] => true
  | v :: vs => v.json && itemsJson vs

def entriesJson : Entries → Bool
  | [] => true
  | (_, v) :: es => v.json && entriesJson es

end

/-- The entries of every map stand in the order of their keys, each key once. -/
inductive Value.Canonical : Value → Prop
  | null : Canonical .null
  | str (s : String) : Canonical (.str s)
  | other {text : String} (json : Bool) (h : '$' ∉ text.toList) : Canonical (.other text json)
  | seq {items : List Value} (h : ∀ v ∈ items, Canonical v) : Canonical (.seq items)
  | map {entries : List (String × Value)} (hs : OrderedEntries.Sorted entries)
      (h : ∀ e ∈ entries, Canonical e.2) : Canonical (.map entries)

/-- A text in which a loader that expands `$name` leaves every dollar sign. -/
def escapeDollars (s : String) : String := Go.replaceAll s "$" "$$$"

/-- The functions of a library. -/
structure Library where
  /-- `yaml.Marshal`. -/
  marshal : Value → String
  /-- `yaml.Unmarshal` into an empty `interface{}`. -/
  unmarshal : String → Except String Value

structure Library.Lawful (Y : Library) : Prop where
  canonical : ∀ text v, Y.unmarshal text = .ok v → v.Canonical
  unmarshal_marshal : ∀ v, v.Canonical → Y.unmarshal (Y.marshal v) = .ok v
  /-- A dollar sign means nothing in a document. -/
  unmarshal_escapeDollars : ∀ v, v.Canonical →
    Y.unmarshal (escapeDollars (Y.marshal v)) = .ok (v.mapStrings escapeDollars)

/-! ### Canonical values -/

theorem Value.Canonical.sorted {es : Entries} (h : (Value.map es).Canonical) :
    OrderedEntries.Sorted es := by
  cases h with
  | map hs _ => exact hs

theorem Value.Canonical.mem {es : Entries} (h : (Value.map es).Canonical) {e : String × Value}
    (he : e ∈ es) : e.2.Canonical := by
  cases h with
  | map _ hes => exact hes e he

theorem Value.Canonical.get {es : Entries} (h : (Value.map es).Canonical) {k : String} {v : Value}
    (hget : OrderedEntries.get k es = some v) : v.Canonical :=
  h.mem (OrderedEntries.mem_of_get hget)

theorem Value.Canonical.insert {es : Entries} (h : (Value.map es).Canonical) (k : String) {v : Value}
    (hv : v.Canonical) : (Value.map (OrderedEntries.insert k v es)).Canonical := by
  refine .map (h.sorted.insert k v) fun e he => ?_
  rcases OrderedEntries.mem_insert he with rfl | he
  · exact hv
  · exact h.mem he

theorem Value.Canonical.insertAll {es new : Entries} (h : (Value.map es).Canonical)
    (hnew : ∀ e ∈ new, e.2.Canonical) :
    (Value.map (OrderedEntries.insertAll new es)).Canonical := by
  refine .map (h.sorted.insertAll new) fun e he => ?_
  rcases OrderedEntries.mem_insertAll he with he | he
  · exact hnew e he
  · exact h.mem he

theorem Value.Canonical.filterKeys {es : Entries} (h : (Value.map es).Canonical)
    (p : String → Bool) : (Value.map (OrderedEntries.filterKeys p es)).Canonical :=
  .map (h.sorted.filterKeys p) fun _ he => h.mem (List.mem_of_mem_filter he)

/-! ### JSON -/

theorem entriesJson_iff {es : Entries} : entriesJson es ↔ ∀ e ∈ es, e.2.json := by
  induction es with
  | nil => simp [entriesJson]
  | cons e es ih =>
    obtain ⟨k, v⟩ := e
    rw [entriesJson, Bool.and_eq_true, ih]
    simp

theorem json_insert {es : Entries} {k : String} {v : Value} (h : (Value.map es).json)
    (hv : v.json) : (Value.map (OrderedEntries.insert k v es)).json := by
  rw [Value.json, entriesJson_iff] at *
  intro e he
  rcases OrderedEntries.mem_insert he with rfl | he
  · exact hv
  · exact h e he

theorem json_get {es : Entries} {k : String} {v : Value} (h : (Value.map es).json)
    (hget : OrderedEntries.get k es = some v) : v.json :=
  entriesJson_iff.mp h _ (OrderedEntries.mem_of_get hget)

end Yaml
