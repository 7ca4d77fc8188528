import BoringPanel.Lib.JsJson

/-!
# Objects of JavaScript

Members that are set and read. Where an object does not have a member itself, `Object.prototype` is read
(`JsReading`); what is stored can only be read where it is a member or an item.

* `set`, `assign`: an assignment, and `Object.assign`; `get_set` and `get_assign` say what is read then.
* `keyed`: the object of some entries, set one after the other.
-/

/-- Numbers that texts are converted to. -/
class JsNumeric (N : Type) extends JsNumber N where
  /-- `Number(s)` -/
  parse : JsText → N
  ofNat : Nat → N
  nan : N
  isFinite : N → Bool
  /-- The whole number that `Number.isInteger` has found. -/
  integer : N → Option Int
  lt : N → N → Bool
  le : N → N → Bool

namespace JsNumeric

def isDigit (c : UInt16) : Bool := 0x30 ≤ c ∧ c ≤ 0x39

/-- The whole number that decimal digits spell. -/
def ofDigits (s : JsText) : Int := s.foldl (fun n c => 10 * n + (c.toNat - 0x30 : Nat)) 0

/-- Whole numbers and `NaN`, of texts with digits only. -/
instance : JsNumeric (Option Int) where
  text n := n.elim (JsText.of "NaN") JsNumber.text
  isZero n := n = none ∨ n = some 0
  parse s :=
    let digits := JsText.trim s
    if digits.all isDigit then some (ofDigits digits) else none
  ofNat n := some n
  nan := none
  isFinite n := n.isSome
  integer n := n
  lt a b := a.any fun x => b.any fun y => x < y
  le a b := a.any fun x => b.any fun y => x ≤ y

end JsNumeric

namespace JsValue

section Members

variable {V W : Type}

/-- `object[key] = value`: a new member is the last one. -/
def set (members : List (JsText × V)) (key : JsText) (value : V) : List (JsText × V) :=
  match members with
  | [] => [(key, value)]
  | (k, v) :: rest => if k = key then (k, value) :: rest else (k, v) :: set rest key value

/-- `Object.assign(target, source)` -/
def assign (target source : List (JsText × V)) : List (JsText × V) :=
  source.foldl (fun members member => set members member.1 member.2) target

/-- The members of an object that has been given these entries. -/
def keyed (entries : List (JsText × V)) : List (JsText × V) := assign [] entries

/-- A key of an object to which a member is assigned. -/
theorem mem_keys_set {members : List (JsText × V)} {key : JsText} {value : V} {k : JsText}
    (h : k ∈ (set members key value).map Prod.fst) : k = key ∨ k ∈ members.map Prod.fst := by
  induction members with
  | nil => exact .inl (List.mem_singleton.mp h)
  | cons member rest ih =>
    obtain ⟨j, w⟩ := member
    rw [set] at h
    split at h
    · exact .inr h
    · rcases List.mem_cons.mp h with rfl | h
      · exact .inr List.mem_cons_self
      · exact (ih h).imp_right (List.mem_cons_of_mem _)

theorem mem_keys_assign {target source : List (JsText × V)} {k : JsText}
    (h : k ∈ (assign target source).map Prod.fst) : k ∈ source.map Prod.fst ∨ k ∈ target.map Prod.fst := by
  induction source generalizing target with
  | nil => exact .inr h
  | cons member rest ih =>
    rcases ih h with h | h
    · exact .inl (List.mem_cons_of_mem _ h)
    · rcases mem_keys_set h with rfl | h
      · exact .inl List.mem_cons_self
      · exact .inr h

/-- An object has no key twice. -/
theorem nodup_keys_set {members : List (JsText × V)} (h : (members.map Prod.fst).Nodup) (key : JsText) (value : V) :
    ((set members key value).map Prod.fst).Nodup := by
  induction members with
  | nil => simp [set]
  | cons member rest ih =>
    obtain ⟨j, w⟩ := member
    obtain ⟨hj, hrest⟩ := List.nodup_cons.mp h
    rw [set]
    split
    · exact h
    · rename_i hne
      refine List.nodup_cons.mpr ⟨fun hmem => ?_, ih hrest⟩
      rcases mem_keys_set hmem with heq | hmem
      · exact hne heq
      · exact hj hmem

theorem nodup_keys_assign {target : List (JsText × V)} (h : (target.map Prod.fst).Nodup)
    (source : List (JsText × V)) : ((assign target source).map Prod.fst).Nodup := by
  induction source generalizing target with
  | nil => exact h
  | cons member rest ih => exact ih (nodup_keys_set h _ _)

/-- The entries that are kept are among those that were given. -/
theorem mem_keyed {entries : List (JsText × V)} {entry : JsText × V} (h : entry ∈ keyed entries) : entry ∈ entries := by
  have hset : ∀ {members : List (JsText × V)} {key : JsText} {value : V},
      entry ∈ set members key value → entry = (key, value) ∨ entry ∈ members := by
    intro members key value h
    induction members with
    | nil => exact .inl (List.mem_singleton.mp h)
    | cons member rest ih =>
      obtain ⟨j, w⟩ := member
      rw [set] at h
      split at h
      · rename_i hj
        rcases List.mem_cons.mp h with h | h
        · exact .inl (hj ▸ h)
        · exact .inr (List.mem_cons_of_mem _ h)
      · rcases List.mem_cons.mp h with h | h
        · exact .inr (h ▸ List.mem_cons_self)
        · exact (ih h).imp_right (List.mem_cons_of_mem _)
  have hassign : ∀ target : List (JsText × V), entry ∈ assign target entries → entry ∈ entries ∨ entry ∈ target := by
    clear h
    induction entries with
    | nil => exact fun _ h => .inr h
    | cons member rest ih =>
      intro target h
      rcases ih (set target member.1 member.2) h with h | h
      · exact .inl (List.mem_cons_of_mem _ h)
      · rcases hset h with heq | h
        · exact .inl (List.mem_cons.mpr (.inl heq))
        · exact .inr h
  exact (hassign [] h).resolve_right List.not_mem_nil

theorem set_map (f : V → W) (members : List (JsText × V)) (key : JsText) (value : V) :
    set (members.map (Prod.map id f)) key (f value) = (set members key value).map (Prod.map id f) := by
  induction members with
  | nil => rfl
  | cons member rest ih =>
    obtain ⟨k, v⟩ := member
    rw [List.map_cons, Prod.map_apply, set, set, ih, id_eq]
    by_cases h : k = key
    · rw [if_pos h, if_pos h]
      rfl
    · rw [if_neg h, if_neg h]
      rfl

theorem assign_map (f : V → W) (target source : List (JsText × V)) :
    assign (target.map (Prod.map id f)) (source.map (Prod.map id f)) = (assign target source).map (Prod.map id f) := by
  induction source generalizing target with
  | nil => rfl
  | cons member rest ih =>
    change assign (set (target.map (Prod.map id f)) member.1 (f member.2)) _ = _
    rw [set_map]
    exact ih _

/-- What is done to the values does not matter for which of them are kept. -/
theorem keyed_map (f : V → W) (entries : List (JsText × V)) :
    keyed (entries.map (Prod.map id f)) = (keyed entries).map (Prod.map id f) :=
  assign_map f [] entries

/-- Neither does another spelling of the keys. -/
theorem keyed_map_key {f : JsText → JsText} (hf : Function.Injective f) (entries : List (JsText × V)) :
    keyed (entries.map (Prod.map f id)) = (keyed entries).map (Prod.map f id) := by
  have hset : ∀ (members : List (JsText × V)) (key : JsText) (value : V),
      set (members.map (Prod.map f id)) (f key) value = (set members key value).map (Prod.map f id) := by
    intro members key value
    induction members with
    | nil => rfl
    | cons member rest ih =>
      obtain ⟨k, v⟩ := member
      rw [List.map_cons, Prod.map_apply, set, set, ih, id_eq]
      by_cases h : k = key
      · rw [if_pos h, if_pos (congrArg f h)]
        rfl
      · rw [if_neg h, if_neg (fun hc => h (hf hc))]
        rfl
  have hassign : ∀ target : List (JsText × V), assign (target.map (Prod.map f id))
      (entries.map (Prod.map f id)) = (assign target entries).map (Prod.map f id) := by
    induction entries with
    | nil => exact fun _ => rfl
    | cons member rest ih =>
      intro target
      change assign (set (target.map (Prod.map f id)) (f member.1) member.2) _ = _
      rw [hset]
      exact ih _
  exact hassign []

end Members

variable {N : Type}

theorem get_cons (k key : JsText) (v : JsValue N) (rest : List (JsText × JsValue N)) :
    get ((k, v) :: rest) key = if k = key then some v else get rest key := by
  unfold get
  rw [List.lookup_cons]
  by_cases h : k = key
  · rw [if_pos h, beq_iff_eq.mpr h.symm]
  · rw [if_neg h, beq_eq_false_iff_ne.mpr (Ne.symm h)]

theorem get_set (members : List (JsText × JsValue N)) (k key : JsText) (v : JsValue N) :
    get (set members k v) key = if k = key then some v else get members key := by
  induction members with
  | nil => rw [set, get_cons]
  | cons member rest ih =>
    obtain ⟨j, w⟩ := member
    rw [set]
    by_cases hj : j = k
    · rw [if_pos hj, get_cons, get_cons, hj]
      by_cases hk : k = key
      · rw [if_pos hk, if_pos hk]
      · rw [if_neg hk, if_neg hk, if_neg hk]
    · rw [if_neg hj, get_cons, get_cons, ih]
      by_cases hjk : j = key
      · rw [if_pos hjk, if_pos hjk, if_neg fun hk => hj (hjk.trans hk.symm)]
      · rw [if_neg hjk, if_neg hjk]

/-- The members of the source are read, and those of the target under the other keys. -/
theorem get_assign (target : List (JsText × JsValue N)) {source : List (JsText × JsValue N)}
    (h : (source.map Prod.fst).Nodup) (key : JsText) :
    get (assign target source) key = (get source key).or (get target key) := by
  induction source generalizing target with
  | nil => rfl
  | cons member rest ih =>
    obtain ⟨k, v⟩ := member
    rw [List.map_cons, List.nodup_cons] at h
    change get (assign (set target k v) rest) key = _
    rw [ih _ h.2, get_set, get_cons]
    by_cases hk : k = key
    · have hnone : get rest key = none := by
        refine List.lookup_eq_none_iff.mpr fun member hmem => ?_
        refine bne_iff_ne.mpr fun hkey : key = member.1 => h.1 ?_
        exact List.mem_map.mpr ⟨member, hmem, (hk.trans hkey).symm⟩
      rw [if_pos hk, if_pos hk, hnone]
      rfl
    · rw [if_neg hk, if_neg hk]

/-! ### What is read -/

/-- What the reading of a property gives. -/
inductive Reading (N : Type) where
  | undefined
  | value (v : JsValue N)
  /-- `Object.prototype` -/
  | prototype
  /-- The method of `Object.prototype` with this name. -/
  | method (name : JsText)

def prototypeKey : JsText := JsText.of "__proto__"

def methodNames : List JsText :=
  ["constructor", "hasOwnProperty", "isPrototypeOf", "propertyIsEnumerable", "toLocaleString", "toString",
    "valueOf", "__defineGetter__", "__defineSetter__", "__lookupGetter__", "__lookupSetter__"].map JsText.of

/-- What an object is read as that has no such member itself. -/
def inherited (key : JsText) : Reading N :=
  if key = prototypeKey then .prototype else if key ∈ methodNames then .method key else .undefined

namespace Reading

/-- `typeof` says that it is an object, and it is not `null`. -/
def isObject : Reading N → Bool
  | value (.array _) => true
  | value (.object _) => true
  | prototype => true
  | _ => false

/-- It is a value, and not `undefined` or `null`. -/
def isPresent : Reading N → Bool
  | undefined => false
  | value .null => false
  | _ => true

variable [JsNumeric N]

/-- `String(value)`, where it can be converted. -/
def text : Reading N → Option JsText
  | undefined => some (JsText.of "undefined")
  | value v => v.toText
  | prototype => some (JsText.of "[object Object]")
  | method name =>
    let shown := if name = JsText.of "constructor" then JsText.of "Object" else name
    some (JsText.of "function " ++ shown ++ JsText.of "() \x7b [native code] \x7d")

/-- `Number(value)`, where it can be converted. -/
def number : Reading N → Option N
  | undefined => some JsNumeric.nan
  | value .null => some (JsNumeric.ofNat 0)
  | value (.bool b) => some (JsNumeric.ofNat b.toNat)
  | value (.number n) => some n
  | reading => reading.text.map JsNumeric.parse

/-- `items[index]` -/
def item (items : List (JsValue N)) (index : Int) : Reading N :=
  if 0 ≤ index then items[index.toNat]?.elim undefined value else undefined

end Reading

end JsValue
