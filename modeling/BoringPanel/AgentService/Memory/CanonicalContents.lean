import BoringPanel.AgentService.Evidence.Items
import BoringPanel.Lib.JsEntries
import BoringPanel.Lib.JsJsonBytes

/-!
# Contents whose keys are in another order

Memories and evidence are found again by the hash of a content's text, in which `stableValue` has sorted the
keys. The text does not depend on the order of the keys if `localeCompare` tells them apart
(`canonical_eq_of_reordered`). It leaves two keys in their order if they are written with different
characters for the same letters (`exists_reordered_ne`). A text that does not fit is cut before it is quoted,
and what is stored takes more bytes than the limit (`lt_byteLength_json`). So a content has one text that is
short enough exactly if the text fits and no keys are tied (`canonical_iff`).
-/

namespace AgentService

open JsText (byteLength quote)
open JsValue (arrayIndex keysUntied separated sortedEntries)

variable {N : Type}

/-! ### Contents and their orders -/

/-- Array indices come before the other keys, and are sorted. -/
def precedes (key key' : JsText) : Bool :=
  match arrayIndex key, arrayIndex key' with
  | some n, some m => n < m
  | some _, none => true
  | none, some _ => false
  | none, none => true

/-- The keys of an object that has at most 300. -/
structure AreKeys (keys : List JsText) : Prop where
  length : keys.length ≤ 300
  nodup : keys.Nodup
  enumerated : keys.Pairwise fun key key' => precedes key key' = true

instance (keys : List JsText) : Decidable (AreKeys keys) :=
  decidable_of_iff (keys.length ≤ 300 ∧ keys.Nodup ∧ keys.Pairwise fun key key' => precedes key key' = true)
    ⟨fun h => ⟨h.1, h.2.1, h.2.2⟩, fun h => ⟨h.length, h.nodup, h.enumerated⟩⟩

mutual

/-- A value of JSON whose objects have at most 300 keys. -/
def isContent : JsValue N → Bool
  | .array items => areContents items
  | .object members => AreKeys (members.map Prod.fst) && membersAreContents members
  | _ => true

def areContents : List (JsValue N) → Bool
  | [] => true
  | item :: items => isContent item && areContents items

def membersAreContents : List (JsText × JsValue N) → Bool
  | [] => true
  | (_, child) :: members => isContent child && membersAreContents members

end

mutual

/-- Two values that are equal up to the order of keys. -/
inductive Reordered : JsValue N → JsValue N → Prop
  | same {value} : Reordered value value
  | array {items items'} (h : ReorderedItems items items') : Reordered (.array items) (.array items')
  | object {members middle members'} (h : ReorderedMembers members middle) (hperm : middle.Perm members') :
      Reordered (.object members) (.object members')

inductive ReorderedItems : List (JsValue N) → List (JsValue N) → Prop
  | nil : ReorderedItems [] []
  | cons {item item' items items'} (hitem : Reordered item item') (h : ReorderedItems items items') :
      ReorderedItems (item :: items) (item' :: items')

inductive ReorderedMembers : List (JsText × JsValue N) → List (JsText × JsValue N) → Prop
  | nil : ReorderedMembers [] []
  | cons {key child child' members members'} (hchild : Reordered child child')
      (h : ReorderedMembers members members') :
      ReorderedMembers ((key, child) :: members) ((key, child') :: members')

end

section Conditions

variable (localeCompare : JsText → JsText → Ordering)

mutual

/-- `localeCompare` tells the keys apart, in all objects of a content that are stored. -/
def untied (depth : Nat) : JsValue N → Bool
  | .array items => 8 < depth || ((untiedItems (depth + 1) items).take 300).all id
  | .object members =>
    8 < depth || (keysUntied localeCompare (members.map Prod.fst) && (untiedMembers (depth + 1) members).all id)
  | _ => true

def untiedItems (depth : Nat) : List (JsValue N) → List Bool
  | [] => []
  | item :: items => untied depth item :: untiedItems depth items

def untiedMembers (depth : Nat) : List (JsText × JsValue N) → List Bool
  | [] => []
  | (key, child) :: members => (secretKey.test key || untied depth child) :: untiedMembers depth members

end

end Conditions

def tooDeepBytes : Nat := byteLength (quote (JsText.of "[内容层级过深]"))

mutual

/-- The bytes of a content's text, in which the secrets are hidden. -/
def contentBytes [JsNumber N] (depth : Nat) : JsValue N → Nat
  | .string s => if 8 < depth then tooDeepBytes else byteLength (quote ((redactString s).take 80000))
  | .array items =>
    if 8 < depth then tooDeepBytes else 2 + separated ((itemSizes (depth + 1) items).take 300)
  | .object members => if 8 < depth then tooDeepBytes else 2 + separated (memberSizes (depth + 1) members)
  | value => if 8 < depth then tooDeepBytes else byteLength value.stringify

def itemSizes [JsNumber N] (depth : Nat) : List (JsValue N) → List Nat
  | [] => []
  | item :: items => contentBytes depth item :: itemSizes depth items

def memberSizes [JsNumber N] (depth : Nat) : List (JsText × JsValue N) → List Nat
  | [] => []
  | (key, child) :: members =>
    (byteLength (quote key) + 1 + if secretKey.test key then byteLength (quote hidden) else contentBytes depth child) ::
      memberSizes depth members

end

/-! ### Parts of contents -/

theorem areContents_iff {items : List (JsValue N)} :
    areContents items = true ↔ ∀ item ∈ items, isContent item = true := by
  induction items with
  | nil => exact iff_of_true rfl fun _ h => absurd h List.not_mem_nil
  | cons item items ih => rw [areContents, Bool.and_eq_true, ih, List.forall_mem_cons]

theorem membersAreContents_iff {members : List (JsText × JsValue N)} :
    membersAreContents members = true ↔ ∀ member ∈ members, isContent member.2 = true := by
  induction members with
  | nil => exact iff_of_true rfl fun _ h => absurd h List.not_mem_nil
  | cons member members ih => rw [membersAreContents, Bool.and_eq_true, ih, List.forall_mem_cons]

theorem isContent_object_iff {members : List (JsText × JsValue N)} :
    isContent (.object members) = true ↔
      AreKeys (members.map Prod.fst) ∧ ∀ member ∈ members, isContent member.2 = true := by
  rw [isContent, Bool.and_eq_true, decide_eq_true_eq, membersAreContents_iff]

theorem untiedItems_eq (localeCompare : JsText → JsText → Ordering) (depth : Nat) (items : List (JsValue N)) :
    untiedItems localeCompare depth items = items.map (untied localeCompare depth) := by
  induction items with
  | nil => rfl
  | cons item items ih => rw [untiedItems, ih, List.map_cons]

theorem untiedMembers_eq (localeCompare : JsText → JsText → Ordering) (depth : Nat)
    (members : List (JsText × JsValue N)) :
    untiedMembers localeCompare depth members =
      members.map fun member => secretKey.test member.1 || untied localeCompare depth member.2 := by
  induction members with
  | nil => rfl
  | cons member members ih => rw [untiedMembers, ih, List.map_cons]

theorem untied_array_iff {localeCompare : JsText → JsText → Ordering} {depth : Nat} (hdepth : ¬ 8 < depth)
    {items : List (JsValue N)} :
    untied localeCompare depth (.array items) = true ↔
      ∀ item ∈ items.take 300, untied localeCompare (depth + 1) item = true := by
  rw [untied, decide_eq_false hdepth, Bool.false_or, untiedItems_eq, ← List.map_take, List.all_map,
    List.all_eq_true]
  rfl

theorem untied_object_iff {localeCompare : JsText → JsText → Ordering} {depth : Nat} (hdepth : ¬ 8 < depth)
    {members : List (JsText × JsValue N)} :
    untied localeCompare depth (.object members) = true ↔
      keysUntied localeCompare (members.map Prod.fst) = true ∧
        ∀ member ∈ members, secretKey.test member.1 = true ∨ untied localeCompare (depth + 1) member.2 = true := by
  rw [untied, decide_eq_false hdepth, Bool.false_or, Bool.and_eq_true, untiedMembers_eq, List.all_map,
    List.all_eq_true]
  refine and_congr_right fun _ => forall₂_congr fun member _ => ?_
  exact Bool.or_eq_true_iff

theorem itemSizes_eq [JsNumber N] (depth : Nat) (items : List (JsValue N)) :
    itemSizes depth items = items.map (contentBytes depth) := by
  induction items with
  | nil => rfl
  | cons item items ih => rw [itemSizes, ih, List.map_cons]

theorem memberSizes_eq [JsNumber N] (depth : Nat) (members : List (JsText × JsValue N)) :
    memberSizes depth members = members.map fun member =>
      byteLength (quote member.1) + 1 +
        if secretKey.test member.1 then byteLength (quote hidden) else contentBytes depth member.2 := by
  induction members with
  | nil => rfl
  | cons member members ih => rw [memberSizes, ih, List.map_cons]

/-! ### Texts that are stored -/

section Canonical

variable (localeCompare : JsText → JsText → Ordering)

theorem sanitizeItems_eq (depth : Nat) (items : List (JsValue N)) :
    sanitizeItems depth items = items.map (sanitizeValue depth) := by
  induction items with
  | nil => rfl
  | cons item items ih => rw [sanitizeItems, ih, List.map_cons]

theorem sanitizeMembers_eq (depth : Nat) (members : List (JsText × JsValue N)) :
    sanitizeMembers depth members = members.map fun member =>
      (member.1, if secretKey.test member.1 then .string hidden else sanitizeValue depth member.2) := by
  induction members with
  | nil => rfl
  | cons member members ih => rw [sanitizeMembers, ih, List.map_cons]

theorem stableItems_eq (items : List (JsValue N)) :
    stableItems localeCompare items = items.map (stableValue localeCompare) := by
  induction items with
  | nil => rfl
  | cons item items ih => rw [stableItems, ih, List.map_cons]

theorem stableMembers_eq (members : List (JsText × JsValue N)) :
    stableMembers localeCompare members =
      members.map fun member => (member.1, stableValue localeCompare member.2) := by
  induction members with
  | nil => rfl
  | cons member members ih => rw [stableMembers, ih, List.map_cons]

/-- The value whose text is stored, if it fits. -/
def canonical (depth : Nat) (value : JsValue N) : JsValue N :=
  stableValue localeCompare (sanitizeValue depth value)

def canonicalMember (depth : Nat) (member : JsText × JsValue N) : JsText × JsValue N :=
  (member.1, if secretKey.test member.1 then .string hidden else canonical localeCompare depth member.2)

theorem map_fst_canonicalMember (depth : Nat) (members : List (JsText × JsValue N)) :
    (members.map (canonicalMember localeCompare depth)).map Prod.fst = members.map Prod.fst := by
  rw [List.map_map]
  rfl

variable {depth : Nat}

theorem canonical_of_deep (h : 8 < depth) (value : JsValue N) : canonical localeCompare depth value = tooDeep := by
  rw [canonical, sanitizeValue_of_deep h]
  rfl

theorem canonical_array (h : ¬ 8 < depth) (items : List (JsValue N)) :
    canonical localeCompare depth (.array items) =
      .array ((items.take 300).map (canonical localeCompare (depth + 1))) := by
  rw [canonical, sanitizeValue, if_neg h, stableValue, sanitizeItems_eq, stableItems_eq, ← List.map_take,
    List.map_map]
  rfl

theorem canonical_object (h : ¬ 8 < depth) {members : List (JsText × JsValue N)} (hlength : members.length ≤ 300) :
    canonical localeCompare depth (.object members) =
      sortedEntries localeCompare (members.map (canonicalMember localeCompare (depth + 1))) := by
  have hmember : (fun member : JsText × JsValue N => (member.1, stableValue localeCompare member.2)) ∘
      (fun member => (member.1, if secretKey.test member.1 then JsValue.string hidden
        else sanitizeValue (depth + 1) member.2)) = canonicalMember localeCompare (depth + 1) := by
    funext member
    show (member.1, stableValue localeCompare (if secretKey.test member.1 then JsValue.string hidden
        else sanitizeValue (depth + 1) member.2)) = _
    rw [apply_ite (stableValue localeCompare)]
    rfl
  rw [canonical, sanitizeValue, if_neg h, stableValue, sanitizeMembers_eq, ← List.map_take,
    List.take_of_length_le hlength, stableMembers_eq, List.map_map, hmember]
  rfl

end Canonical

theorem contentBytes_of_deep [JsNumber N] {depth : Nat} (h : 8 < depth) (value : JsValue N) :
    contentBytes depth value = tooDeepBytes := by
  cases value with
  | _ => exact if_pos h

/-- **The bytes of the text do not depend on how the keys are compared.** -/
theorem byteLength_canonical [JsNumber N] (localeCompare : JsText → JsText → Ordering) {depth : Nat}
    {value : JsValue N} (hvalue : isContent value = true) :
    byteLength (canonical localeCompare depth value).stringify = contentBytes depth value := by
  induction value using JsValue.induction generalizing depth with
  | null =>
    show byteLength (stableValue localeCompare (if 8 < depth then tooDeep else .null)).stringify =
      if 8 < depth then tooDeepBytes else _
    split <;> rfl
  | bool b =>
    show byteLength (stableValue localeCompare (if 8 < depth then tooDeep else .bool b)).stringify =
      if 8 < depth then tooDeepBytes else _
    split <;> rfl
  | number n =>
    show byteLength (stableValue localeCompare (if 8 < depth then tooDeep else .number n)).stringify =
      if 8 < depth then tooDeepBytes else _
    split <;> rfl
  | string s =>
    rw [canonical, sanitizeValue, contentBytes]
    split <;> rfl
  | array items ih =>
    by_cases hdepth : 8 < depth
    · rw [canonical_of_deep _ hdepth, contentBytes_of_deep hdepth]
      rfl
    · rw [isContent, areContents_iff] at hvalue
      have hsizes : ((items.take 300).map (canonical localeCompare (depth + 1))).map (fun v => byteLength v.stringify) =
          (items.take 300).map (contentBytes (depth + 1)) := by
        rw [List.map_map]
        refine List.map_congr_left fun item hitem => ?_
        exact ih item (List.mem_of_mem_take hitem) (hvalue item (List.mem_of_mem_take hitem))
      rw [canonical_array _ hdepth, contentBytes, if_neg hdepth, itemSizes_eq, JsValue.byteLength_array, hsizes,
        List.map_take]
  | object members ih =>
    by_cases hdepth : 8 < depth
    · rw [canonical_of_deep _ hdepth, contentBytes_of_deep hdepth]
      rfl
    · obtain ⟨hkeys, hchildren⟩ := isContent_object_iff.mp hvalue
      have hsizes : (members.map (canonicalMember localeCompare (depth + 1))).map JsValue.memberBytes =
          memberSizes (depth + 1) members := by
        rw [List.map_map, memberSizes_eq]
        refine List.map_congr_left fun member hmember => ?_
        show byteLength (quote member.1) + 1 + byteLength (if secretKey.test member.1 then JsValue.string hidden
          else canonical localeCompare (depth + 1) member.2).stringify = _
        split
        · rfl
        · rw [ih member hmember (hchildren member hmember)]
      have hlength := hkeys.length
      rw [List.length_map] at hlength
      rw [canonical_object _ hdepth hlength, contentBytes, if_neg hdepth, sortedEntries, JsValue.fromEntries_eq,
        JsValue.byteLength_object, ← hsizes]
      refine congrArg (2 + ·) (JsValue.separated_perm (List.Perm.map _ ?_))
      exact (JsValue.entryMembers_perm _).trans (List.mergeSort_perm _ _)

/-! ### Contents without tied keys -/

section Reordered

variable {localeCompare : JsText → JsText → Ordering}

mutual

/-- **The order of the keys does not matter if none are tied.** -/
theorem canonical_eq_of_reordered [Std.TransCmp localeCompare] {depth : Nat} {value value' : JsValue N} :
    Reordered value value' → isContent value = true → untied localeCompare depth value = true →
      canonical localeCompare depth value' = canonical localeCompare depth value
  | .same, _, _ => rfl
  | .array h, hvalue, huntied => by
    by_cases hdepth : 8 < depth
    · rw [canonical_of_deep _ hdepth, canonical_of_deep _ hdepth]
    · rw [isContent, areContents_iff] at hvalue
      rw [canonical_array _ hdepth, canonical_array _ hdepth,
        canonicalItems_eq_of_reordered h hvalue ((untied_array_iff hdepth).mp huntied)]
  | .object h hperm, hvalue, huntied => by
    by_cases hdepth : 8 < depth
    · rw [canonical_of_deep _ hdepth, canonical_of_deep _ hdepth]
    · obtain ⟨hkeys, hchildren⟩ := isContent_object_iff.mp hvalue
      obtain ⟨hkeysUntied, hchildrenUntied⟩ := (untied_object_iff hdepth).mp huntied
      have hmembers := canonicalMembers_eq_of_reordered h hchildren hchildrenUntied
      have hentries := hperm.symm.map (canonicalMember localeCompare (depth + 1))
      rw [hmembers] at hentries
      have hlength := hkeys.length
      rw [List.length_map] at hlength
      have hlength' := hentries.length_eq
      rw [List.length_map, List.length_map] at hlength'
      rw [canonical_object _ hdepth hlength, canonical_object _ hdepth (hlength'.le.trans hlength)]
      refine JsValue.sortedEntries_eq_of_perm ?_ hentries ?_
      · rw [map_fst_canonicalMember]
        exact hkeys.nodup
      · rw [map_fst_canonicalMember]
        exact hkeysUntied

theorem canonicalItems_eq_of_reordered [Std.TransCmp localeCompare] {depth n : Nat}
    {items items' : List (JsValue N)} :
    ReorderedItems items items' → (∀ item ∈ items, isContent item = true) →
      (∀ item ∈ items.take n, untied localeCompare depth item = true) →
      (items'.take n).map (canonical localeCompare depth) = (items.take n).map (canonical localeCompare depth)
  | .nil, _, _ => rfl
  | .cons hitem h, hitems, huntied => by
    cases n with
    | zero => rfl
    | succ n =>
      rw [List.take_succ_cons, List.forall_mem_cons] at huntied
      rw [List.forall_mem_cons] at hitems
      rw [List.take_succ_cons, List.take_succ_cons, List.map_cons, List.map_cons,
        canonical_eq_of_reordered hitem hitems.1 huntied.1, canonicalItems_eq_of_reordered h hitems.2 huntied.2]

theorem canonicalMembers_eq_of_reordered [Std.TransCmp localeCompare] {depth : Nat}
    {members members' : List (JsText × JsValue N)} :
    ReorderedMembers members members' → (∀ member ∈ members, isContent member.2 = true) →
      (∀ member ∈ members, secretKey.test member.1 = true ∨ untied localeCompare depth member.2 = true) →
      members'.map (canonicalMember localeCompare depth) = members.map (canonicalMember localeCompare depth)
  | .nil, _, _ => rfl
  | .cons hchild h, hmembers, huntied => by
    rw [List.forall_mem_cons] at hmembers huntied
    rw [List.map_cons, List.map_cons, canonicalMembers_eq_of_reordered h hmembers.2 huntied.2, canonicalMember,
      canonicalMember]
    obtain hsecret | hchildUntied := huntied.1
    · rw [if_pos hsecret, if_pos hsecret]
    · rw [canonical_eq_of_reordered hchild hmembers.1 hchildUntied]

end

end Reordered

/-! ### Contents with tied keys -/

theorem reorderedItems_refl (items : List (JsValue N)) : ReorderedItems items items := by
  induction items with
  | nil => exact .nil
  | cons item items ih => exact .cons .same ih

theorem reorderedMembers_refl (members : List (JsText × JsValue N)) : ReorderedMembers members members := by
  induction members with
  | nil => exact .nil
  | cons member members ih => exact .cons .same ih

theorem reorderedItems_set {item item' : JsValue N} (h : Reordered item item') (before after : List (JsValue N)) :
    ReorderedItems (before ++ item :: after) (before ++ item' :: after) := by
  induction before with
  | nil => exact .cons h (reorderedItems_refl after)
  | cons other before ih => exact .cons .same ih

theorem reorderedMembers_set {child child' : JsValue N} (h : Reordered child child') (key : JsText)
    (before after : List (JsText × JsValue N)) :
    ReorderedMembers (before ++ (key, child) :: after) (before ++ (key, child') :: after) := by
  induction before with
  | nil => exact .cons h (reorderedMembers_refl after)
  | cons other before ih => exact .cons .same ih

theorem exists_perm_cons_cons {α : Type} {l : List α} {a b : α} (ha : a ∈ l) (hb : b ∈ l) (hne : a ≠ b) :
    ∃ rest, l.Perm (a :: b :: rest) := by
  obtain ⟨before, after, rfl⟩ := List.append_of_mem ha
  have hb : b ∈ before ++ after := by
    rw [List.mem_append, List.mem_cons] at hb
    rw [List.mem_append]
    exact hb.imp_right fun h => h.resolve_left hne.symm
  obtain ⟨before', after', hrest⟩ := List.append_of_mem hb
  refine ⟨before' ++ after', List.perm_middle.trans (List.Perm.cons a ?_)⟩
  rw [hrest]
  exact List.perm_middle

/-- The members with the others in another order, behind the array indices. -/
def indicesThen (members others : List (JsText × JsValue N)) : List (JsText × JsValue N) :=
  (members.filter fun member => (arrayIndex member.1).isSome) ++ others

section Order

variable {members others : List (JsText × JsValue N)}
  (hothers : others.Perm (members.filter fun member => (arrayIndex member.1).isNone))
include hothers

theorem indicesThen_perm : (indicesThen members others).Perm members := by
  rw [JsValue.filter_isNone_eq] at hothers
  exact (hothers.append_left _).trans (List.filter_append_perm _ _)

/-- Array indices still come first, in their order. -/
theorem areKeys_indicesThen (h : AreKeys (members.map Prod.fst)) :
    AreKeys ((indicesThen members others).map Prod.fst) := by
  have hkeys := (indicesThen_perm hothers).map Prod.fst
  have hnone : ∀ member ∈ others, arrayIndex member.1 = none := fun member hmember =>
    Option.isNone_iff_eq_none.mp (List.mem_filter.mp (hothers.subset hmember)).2
  refine ⟨hkeys.length_eq.le.trans h.length, hkeys.nodup_iff.mpr h.nodup, ?_⟩
  rw [List.pairwise_map, indicesThen, List.pairwise_append]
  refine ⟨(List.pairwise_map.mp h.enumerated).filter _, ?_, fun member _ other hother => ?_⟩
  · refine List.pairwise_of_forall_mem_list fun member hmember other hother => ?_
    rw [precedes, hnone member hmember, hnone other hother]
  · rw [precedes, hnone other hother]
    cases arrayIndex member.1 with
    | none => rfl
    | some n => rfl

end Order

section Tied

variable {localeCompare : JsText → JsText → Ordering}

/-- An item among the first 300 is seen in the stored text. -/
theorem canonical_array_set_ne {depth : Nat} (hdepth : ¬ 8 < depth) {item item' : JsValue N}
    {before : List (JsValue N)} (hbefore : before.length < 300) (after : List (JsValue N))
    (hne : canonical localeCompare (depth + 1) item' ≠ canonical localeCompare (depth + 1) item) :
    canonical localeCompare depth (.array (before ++ item' :: after)) ≠
      canonical localeCompare depth (.array (before ++ item :: after)) := by
  intro heq
  rw [canonical_array _ hdepth, canonical_array _ hdepth] at heq
  have hget := congrArg (·[before.length]?) (JsValue.array.inj heq)
  have hitem : ∀ item : JsValue N,
      (((before ++ item :: after).take 300).map (canonical localeCompare (depth + 1)))[before.length]? =
        some (canonical localeCompare (depth + 1) item) := by
    intro item
    rw [List.getElem?_map, List.getElem?_take_of_lt hbefore, List.getElem?_append_right le_rfl, Nat.sub_self]
    rfl
  exact hne (Option.some.inj ((hitem item').symm.trans (hget.trans (hitem item))))

/-- A member whose key is not secret is seen in the stored text. -/
theorem canonical_object_set_ne {depth : Nat} (hdepth : ¬ 8 < depth) {child child' : JsValue N} {key : JsText}
    (hkey : secretKey.test key = false) {before after : List (JsText × JsValue N)}
    (hlength : (before ++ (key, child) :: after).length ≤ 300)
    (hne : canonical localeCompare (depth + 1) child' ≠ canonical localeCompare (depth + 1) child) :
    canonical localeCompare depth (.object (before ++ (key, child') :: after)) ≠
      canonical localeCompare depth (.object (before ++ (key, child) :: after)) := by
  intro heq
  have hlength' : (before ++ (key, child') :: after).length ≤ 300 := by
    rw [List.length_append, List.length_cons] at hlength ⊢
    exact hlength
  rw [canonical_object _ hdepth hlength, canonical_object _ hdepth hlength'] at heq
  have hperm := JsValue.perm_of_sortedEntries_eq heq
  rw [List.map_append, List.map_append, List.map_cons, List.map_cons, List.perm_append_left_iff] at hperm
  have hsingle : [canonicalMember localeCompare (depth + 1) (key, child')].Perm
      [canonicalMember localeCompare (depth + 1) (key, child)] :=
    (List.perm_append_right_iff _).mp hperm
  have hmember := List.singleton_perm_singleton.mp hsingle
  rw [canonicalMember, canonicalMember, hkey] at hmember
  exact hne (Prod.ext_iff.mp hmember).2

variable [Std.TransCmp localeCompare]

/-- **Two orders of tied keys have different texts.** -/
theorem canonical_object_ne_of_tied {depth : Nat} (hdepth : ¬ 8 < depth)
    {members members' : List (JsText × JsValue N)} {e e' : JsText × JsValue N}
    (hindex : arrayIndex e.1 = none) (hindex' : arrayIndex e'.1 = none) (htied : localeCompare e.1 e'.1 = .eq)
    (hkeys : AreKeys (members.map Prod.fst)) (hkeys' : AreKeys (members'.map Prod.fst))
    (h : [e, e'].Sublist members) (h' : [e', e].Sublist members') :
    canonical localeCompare depth (.object members) ≠ canonical localeCompare depth (.object members') := by
  have hlength := hkeys.length
  have hlength' := hkeys'.length
  rw [List.length_map] at hlength hlength'
  rw [canonical_object _ hdepth hlength, canonical_object _ hdepth hlength']
  have hsublist := h.map (canonicalMember localeCompare (depth + 1))
  have hsublist' := h'.map (canonicalMember localeCompare (depth + 1))
  refine JsValue.sortedEntries_ne_of_tied ?_ ?_ ?_ ?_ hsublist hsublist'
  · exact hindex
  · exact hindex'
  · exact htied
  · rw [map_fst_canonicalMember]
    exact hkeys.nodup

theorem exists_perm_ne {depth : Nat} (hdepth : ¬ 8 < depth) {members : List (JsText × JsValue N)}
    (hkeys : AreKeys (members.map Prod.fst)) (htied : keysUntied localeCompare (members.map Prod.fst) ≠ true) :
    ∃ members', AreKeys (members'.map Prod.fst) ∧ members.Perm members' ∧
      canonical localeCompare depth (.object members') ≠ canonical localeCompare depth (.object members) := by
  rw [Ne, JsValue.keysUntied_iff] at htied
  push Not at htied
  obtain ⟨key, hkey, key', hkey', hindex, hindex', hcompare, hne⟩ := htied
  obtain ⟨e, he, rfl⟩ := List.mem_map.mp hkey
  obtain ⟨e', he', rfl⟩ := List.mem_map.mp hkey'
  have hother : e ∈ members.filter fun member => (arrayIndex member.1).isNone :=
    List.mem_filter.mpr ⟨he, Option.isNone_iff_eq_none.mpr hindex⟩
  have hother' : e' ∈ members.filter fun member => (arrayIndex member.1).isNone :=
    List.mem_filter.mpr ⟨he', Option.isNone_iff_eq_none.mpr hindex'⟩
  obtain ⟨rest, hrest⟩ := exists_perm_cons_cons hother hother' fun h => hne (congrArg Prod.fst h)
  -- the two members come first behind the array indices, in either order
  have hfirst : (e :: e' :: rest).Perm (members.filter fun member => (arrayIndex member.1).isNone) := hrest.symm
  have hsecond := (List.Perm.swap e e' rest).trans hfirst
  have hkeysFirst := areKeys_indicesThen hfirst hkeys
  have hkeysSecond := areKeys_indicesThen hsecond hkeys
  have hsublist : ∀ a b : JsText × JsValue N, [a, b].Sublist (indicesThen members (a :: b :: rest)) := fun a b =>
    ((List.nil_sublist rest).cons_cons b |>.cons_cons a).trans (List.sublist_append_right _ _)
  have hdiffer := canonical_object_ne_of_tied hdepth hindex hindex' hcompare hkeysFirst hkeysSecond
    (hsublist e e') (hsublist e' e)
  by_cases heq : canonical localeCompare depth (.object (indicesThen members (e :: e' :: rest))) =
      canonical localeCompare depth (.object members)
  · rw [heq] at hdiffer
    exact ⟨_, hkeysSecond, (indicesThen_perm hsecond).symm, hdiffer.symm⟩
  · exact ⟨_, hkeysFirst, (indicesThen_perm hfirst).symm, heq⟩

/-- **A content with tied keys has another text in another order.** -/
theorem exists_reordered_ne {depth : Nat} {value : JsValue N} (hvalue : isContent value = true)
    (htied : untied localeCompare depth value ≠ true) :
    ∃ value', isContent value' = true ∧ Reordered value value' ∧
      canonical localeCompare depth value' ≠ canonical localeCompare depth value := by
  induction value using JsValue.induction generalizing depth with
  | null => exact absurd rfl htied
  | bool b => exact absurd rfl htied
  | number n => exact absurd rfl htied
  | string s => exact absurd rfl htied
  | array items ih =>
    have hdepth : ¬ 8 < depth := fun h => htied (by rw [untied, decide_eq_true h, Bool.true_or])
    rw [Ne, untied_array_iff hdepth] at htied
    push Not at htied
    obtain ⟨item, hitem, htied⟩ := htied
    rw [isContent, areContents_iff] at hvalue
    have hmem := List.mem_of_mem_take hitem
    obtain ⟨item', hcontent, hreordered, hne⟩ := ih item hmem (hvalue item hmem) htied
    obtain ⟨before, after, hsplit⟩ := List.append_of_mem hitem
    have hbefore : before.length < 300 := by
      have hlength := congrArg List.length hsplit
      rw [List.length_append, List.length_cons] at hlength
      have := List.length_take_le 300 items
      omega
    obtain ⟨rest, rfl⟩ : ∃ rest, items = before ++ item :: rest := by
      refine ⟨after ++ items.drop 300, ?_⟩
      rw [← List.cons_append, ← List.append_assoc, ← hsplit, List.take_append_drop]
    refine ⟨.array (before ++ item' :: rest), ?_, .array (reorderedItems_set hreordered before rest),
      canonical_array_set_ne hdepth hbefore rest hne⟩
    rw [isContent, areContents_iff]
    rw [List.forall_mem_append, List.forall_mem_cons] at hvalue ⊢
    exact ⟨hvalue.1, hcontent, hvalue.2.2⟩
  | object members ih =>
    have hdepth : ¬ 8 < depth := fun h => htied (by rw [untied, decide_eq_true h, Bool.true_or])
    obtain ⟨hkeys, hchildren⟩ := isContent_object_iff.mp hvalue
    rw [Ne, untied_object_iff hdepth, not_and_or] at htied
    obtain htied | htied := htied
    · obtain ⟨members', hkeys', hperm, hne⟩ := exists_perm_ne hdepth hkeys htied
      refine ⟨.object members', isContent_object_iff.mpr ⟨hkeys', fun member hmember => ?_⟩,
        .object (reorderedMembers_refl members) hperm, hne⟩
      exact hchildren member (hperm.mem_iff.mpr hmember)
    · push Not at htied
      obtain ⟨⟨key, child⟩, hmem, hsecret, htied⟩ := htied
      obtain ⟨child', hcontent, hreordered, hne⟩ := ih _ hmem (hchildren _ hmem) htied
      obtain ⟨before, after, rfl⟩ := List.append_of_mem hmem
      have hlength := hkeys.length
      rw [List.length_map] at hlength
      refine ⟨.object (before ++ (key, child') :: after), isContent_object_iff.mpr ⟨?_, ?_⟩,
        .object (reorderedMembers_set hreordered key before after) (List.Perm.refl _),
        canonical_object_set_ne hdepth (Bool.eq_false_iff.mpr hsecret) hlength hne⟩
      · rw [List.map_append, List.map_cons] at hkeys ⊢
        exact hkeys
      · rw [List.forall_mem_append, List.forall_mem_cons] at hchildren ⊢
        exact ⟨hchildren.1, hcontent, hchildren.2.2⟩

end Tied

/-! ### Both stores -/

section Serialized

variable [JsNumber N] {localeCompare : JsText → JsText → Ordering} {max : Nat} {value : JsValue N}

theorem json_of_le (h : byteLength (canonical localeCompare 0 value).stringify ≤ max) :
    (serializeContent localeCompare max value).json = (canonical localeCompare 0 value).stringify := by
  unfold canonical at h ⊢
  unfold serializeContent
  dsimp only
  rw [if_pos h]
  rfl

/-- **A text that is cut is too long when it is quoted.** -/
theorem lt_byteLength_json (h : max < byteLength (canonical localeCompare 0 value).stringify) :
    max < byteLength (serializeContent localeCompare max value).json := by
  have hjson : (serializeContent localeCompare max value).json = (JsValue.object
      [(JsText.of "truncated", .bool true),
        (JsText.of "preview", .string ((canonical localeCompare 0 value).stringify.take max))] : JsValue N).stringify := by
    unfold canonical at h ⊢
    unfold serializeContent
    dsimp only
    rw [if_neg (Nat.not_le.mpr h)]
    rfl
  have hpreview : byteLength (quote ((canonical localeCompare 0 value).stringify.take max)) ≤
      JsValue.memberBytes (JsText.of "preview",
        (.string ((canonical localeCompare 0 value).stringify.take max) : JsValue N)) :=
    Nat.le_add_left _ _
  calc max ≤ byteLength ((canonical localeCompare 0 value).stringify.take max) := JsText.le_byteLength_take h
    _ < byteLength (quote ((canonical localeCompare 0 value).stringify.take max)) := JsText.byteLength_lt_quote _
    _ ≤ byteLength (serializeContent localeCompare max value).json := by
      rw [hjson, JsValue.byteLength_object, separated, List.map_cons, List.map_cons, List.sum_cons, List.sum_cons]
      omega

end Serialized

/-- The stores that have a `serializeContent` each. -/
inductive ContentStore where
  | memory
  | evidence
deriving DecidableEq

/-- `MAX_CONTENT_BYTES`. -/
def ContentStore.maxContentBytes : ContentStore → Nat
  | memory => maxMemoryBytes
  | evidence => Evidence.maxContentBytes

section Stores

variable [JsNumber N] (texts : Texts) (store : ContentStore)

/-- The text of a content in a store. -/
def contentJson (value : JsValue N) : JsText :=
  (serializeContent texts.localeCompare store.maxContentBytes value).json

/-- All orders of a content's keys have the same text and the same hash, and the text is not too long. -/
structure IsCanonical (value : JsValue N) : Prop where
  json : ∀ value', isContent value' = true → Reordered value value' →
    contentJson texts store value' = contentJson texts store value
  contentHash : ∀ value', isContent value' = true → Reordered value value' →
    texts.sha256 (contentJson texts store value') = texts.sha256 (contentJson texts store value)
  length : byteLength (contentJson texts store value) ≤ store.maxContentBytes

variable {texts store} {value value' : JsValue N} [Std.TransCmp texts.localeCompare]

theorem contentJson_eq_of_reordered (hvalue : isContent value = true)
    (huntied : untied texts.localeCompare 0 value = true) (h : Reordered value value') :
    contentJson texts store value' = contentJson texts store value := by
  have hcanonical := canonical_eq_of_reordered h hvalue huntied
  unfold canonical at hcanonical
  rw [contentJson, contentJson, serializeContent, serializeContent, hcanonical]
  dsimp only
  split <;> rfl

theorem le_and_untied_of_isCanonical [LawfulJsNumber N] (hvalue : isContent value = true)
    (h : IsCanonical texts store value) :
    contentBytes 0 value ≤ store.maxContentBytes ∧ untied texts.localeCompare 0 value = true := by
  have hfits : byteLength (canonical texts.localeCompare 0 value).stringify ≤ store.maxContentBytes := by
    by_contra hlong
    exact absurd (lt_byteLength_json (Nat.not_le.mp hlong)) (Nat.not_lt.mpr h.length)
  refine ⟨?_, ?_⟩
  · rw [← byteLength_canonical texts.localeCompare hvalue]
    exact hfits
  · by_contra htied
    obtain ⟨value', hvalue', hreordered, hne⟩ := exists_reordered_ne hvalue htied
    have hjson := h.json value' hvalue' hreordered
    -- the text of the other order fits too, since it is the same
    have hfits' : byteLength (canonical texts.localeCompare 0 value').stringify ≤ store.maxContentBytes := by
      by_contra hlong
      have hlong := lt_byteLength_json (Nat.not_le.mp hlong)
      exact absurd (hjson ▸ hlong) (Nat.not_lt.mpr h.length)
    rw [contentJson, contentJson, json_of_le hfits, json_of_le hfits'] at hjson
    exact hne (JsValue.stringify_injective hjson)

/-- **A content has one text of an allowed length exactly if the text fits and no keys are tied.** -/
theorem isCanonical_iff [LawfulJsNumber N] (texts : Texts) [Std.TransCmp texts.localeCompare] (store : ContentStore)
    {value : JsValue N} (hvalue : isContent value = true) :
    IsCanonical texts store value ↔
      contentBytes 0 value ≤ store.maxContentBytes ∧ untied texts.localeCompare 0 value = true := by
  refine ⟨le_and_untied_of_isCanonical hvalue, fun h => ?_⟩
  obtain ⟨hfits, huntied⟩ := h
  rw [← byteLength_canonical texts.localeCompare hvalue] at hfits
  refine ⟨fun value' _ h => contentJson_eq_of_reordered hvalue huntied h,
    fun value' _ h => congrArg texts.sha256 (contentJson_eq_of_reordered hvalue huntied h), ?_⟩
  rw [contentJson, json_of_le hfits]
  exact hfits

end Stores

/-! ### Letters with accents -/

/-- `é` is an `e` with an accent. -/
def decomposed (text : JsText) : JsText := text.flatMap fun c => if c = 0xe9 then [0x65, 0x301] else [c]

/-- Texts in which letters with accents are compared as Unicode has them. -/
def accentTexts : Texts where
  nfkc text := text
  toLowerCase text := text.map JsText.toLower
  sha256 text := text
  localeCompare text text' := compare ((decomposed text).map UInt16.toNat) ((decomposed text').map UInt16.toNat)

instance : Std.TransCmp accentTexts.localeCompare :=
  inferInstanceAs (Std.TransCmp (compareOn fun text => (decomposed text).map UInt16.toNat))

instance : Std.TransCmp asciiTexts.localeCompare :=
  inferInstanceAs (Std.TransCmp (compareOn fun text : JsText => text.map UInt16.toNat))

/-- Two keys of the same letter. -/
def accents : JsValue Int := .object [([0xe9], .number 1), ([0x65, 0x301], .number 2)]

theorem isCanonical_iff_numbers :
    IsCanonical asciiTexts .memory (.object [(JsText.of "b", .number 1), (JsText.of "a", .null)] : JsValue Int) ↔
      contentBytes 0 (.object [(JsText.of "b", .number 1), (JsText.of "a", .null)] : JsValue Int) ≤ 120000 ∧
        untied asciiTexts.localeCompare 0
          (.object [(JsText.of "b", .number 1), (JsText.of "a", .null)] : JsValue Int) = true :=
  isCanonical_iff asciiTexts .memory (by decide)

/-- **The order of two such keys is kept**, in both stores. -/
theorem not_isCanonical_accents :
    ¬ IsCanonical accentTexts .memory accents ∧ ¬ IsCanonical accentTexts .evidence accents := by
  have htied : untied accentTexts.localeCompare 0 accents = false := by decide +kernel
  have hstore : ∀ store, ¬ IsCanonical accentTexts store accents := fun store h =>
    absurd (le_and_untied_of_isCanonical (by decide) h).2 (Bool.eq_false_iff.mp htied)
  exact ⟨hstore .memory, hstore .evidence⟩

end AgentService
