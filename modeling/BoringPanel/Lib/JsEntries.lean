import BoringPanel.Lib.JsJson
import Mathlib.Data.List.Nodup
import Mathlib.Data.Nat.Digits.Defs

/-!
# Objects of sorted entries

`Object.fromEntries` of entries that are sorted by their keys. Different keys of array indices are
different numbers (`arrayIndex_inj`), so that the order of the entries does not matter if no other keys are
tied (`sortedEntries_eq_of_perm`). If two of them are tied, it does (`sortedEntries_ne_of_tied`).
-/

namespace JsValue

/-! ### Array indices -/

/-- The values of decimal digits. -/
def digitsOf (key : JsText) : List Nat := key.map fun c => c.toNat - 0x30

/-- An array index is written without leading zeros. -/
structure WritesIndex (key : JsText) (n : Nat) : Prop where
  ne_nil : key ≠ []
  digits : ∀ c ∈ key, 0x30 ≤ c ∧ c ≤ 0x39
  head : key.head? = some 0x30 → key.length = 1
  value : n = Nat.ofDigits 10 (digitsOf key).reverse

theorem writesIndex_of_arrayIndex {key : JsText} {n : Nat} (h : arrayIndex key = some n) : WritesIndex key n := by
  unfold arrayIndex at h
  dsimp only at h
  split at h
  · rename_i hdigits
    obtain ⟨hne, hall, hhead⟩ := hdigits
    split at h
    · obtain rfl := Option.some.inj h
      refine ⟨hne, fun c hc => by simpa using List.all_eq_true.mp hall c hc, hhead, ?_⟩
      rw [Nat.ofDigits_eq_foldr, List.foldr_reverse]
      refine congrArg (fun f => List.foldl f 0 _) ?_
      funext n d
      exact Nat.add_comm _ _
    · cases h
  · cases h

theorem toNat_bounds {c : UInt16} (h : 0x30 ≤ c ∧ c ≤ 0x39) : 0x30 ≤ c.toNat ∧ c.toNat ≤ 0x39 :=
  ⟨UInt16.le_iff_toNat_le.mp h.1, UInt16.le_iff_toNat_le.mp h.2⟩

theorem digitsOf_inj {key key' : JsText} (h : ∀ c ∈ key, 0x30 ≤ c ∧ c ≤ 0x39)
    (h' : ∀ c ∈ key', 0x30 ≤ c ∧ c ≤ 0x39) (heq : digitsOf key = digitsOf key') : key = key' := by
  induction key generalizing key' with
  | nil => exact (List.map_eq_nil_iff.mp heq.symm).symm
  | cons c key ih =>
    obtain ⟨c', key', rfl, hc, hrest⟩ := List.map_eq_cons_iff.mp heq.symm
    rw [List.forall_mem_cons] at h h'
    have hbounds := toNat_bounds h.1
    have hbounds' := toNat_bounds h'.1
    have hvalue : c'.toNat - 0x30 = c.toNat - 0x30 := hc
    have hnat : c.toNat = c'.toNat := by omega
    rw [UInt16.toNat_inj.mp hnat, ih h.2 h'.2 hrest.symm]

namespace WritesIndex

variable {key key' : JsText} {n : Nat}

/-- A number that is not zero has one spelling. -/
theorem digits_eq (h : WritesIndex key n) (hhead : key.head? ≠ some 0x30) :
    Nat.digits 10 n = (digitsOf key).reverse := by
  rw [h.value]
  refine Nat.digits_ofDigits 10 (by decide) _ (fun d hd => ?_) fun hne => ?_
  · obtain ⟨c, hc, rfl⟩ := List.mem_map.mp (List.mem_reverse.mp hd)
    have := toNat_bounds (h.digits c hc)
    omega
  · rw [List.getLast_reverse]
    obtain ⟨c, rest, rfl⟩ := List.exists_cons_of_ne_nil h.ne_nil
    have hbounds := toNat_bounds (h.digits c List.mem_cons_self)
    have hzero : c.toNat ≠ 0x30 := fun hc => hhead (congrArg some (UInt16.toNat_inj.mp hc))
    show c.toNat - 0x30 ≠ 0
    omega

/-- Zero has one spelling. -/
theorem head_iff (h : WritesIndex key n) : key.head? = some 0x30 ↔ n = 0 := by
  constructor
  · intro hhead
    obtain ⟨c, rest, rfl⟩ := List.exists_cons_of_ne_nil h.ne_nil
    have hlength := h.head hhead
    obtain rfl : rest = [] := List.length_eq_zero_iff.mp (Nat.succ.inj hlength)
    obtain rfl := Option.some.inj hhead
    exact h.value
  · intro hn
    by_contra hhead
    have hdigits := h.digits_eq hhead
    rw [hn, Nat.digits_zero] at hdigits
    have hnil : digitsOf key = [] := List.reverse_eq_nil_iff.mp hdigits.symm
    exact h.ne_nil (List.map_eq_nil_iff.mp hnil)

theorem unique (h : WritesIndex key n) (h' : WritesIndex key' n) : key = key' := by
  refine digitsOf_inj h.digits h'.digits ?_
  by_cases hn : n = 0
  · have hone : ∀ {key : JsText}, WritesIndex key n → key = [0x30] := by
      intro key h
      obtain ⟨c, rest, rfl⟩ := List.exists_cons_of_ne_nil h.ne_nil
      have hhead := h.head_iff.mpr hn
      have hlength := h.head hhead
      obtain rfl : rest = [] := List.length_eq_zero_iff.mp (Nat.succ.inj hlength)
      rw [Option.some.inj hhead]
    rw [hone h, hone h']
  · have hdigits := h.digits_eq (mt h.head_iff.mp hn)
    rw [h'.digits_eq (mt h'.head_iff.mp hn)] at hdigits
    exact (List.reverse_injective hdigits).symm

end WritesIndex

/-- **Array indices are different numbers.** -/
theorem arrayIndex_inj {key key' : JsText} {n : Nat} (h : arrayIndex key = some n)
    (h' : arrayIndex key' = some n) : key = key' :=
  (writesIndex_of_arrayIndex h).unique (writesIndex_of_arrayIndex h')

/-! ### Entries -/

/-- No keys but array indices are tied. -/
def keysUntied (compareKeys : JsText → JsText → Ordering) (keys : List JsText) : Bool :=
  keys.all fun key => keys.all fun key' =>
    (arrayIndex key).isSome || (arrayIndex key').isSome || key = key' || compareKeys key key' != .eq

theorem keysUntied_iff {compareKeys : JsText → JsText → Ordering} {keys : List JsText} :
    keysUntied compareKeys keys = true ↔ ∀ key ∈ keys, ∀ key' ∈ keys,
      arrayIndex key = none → arrayIndex key' = none → compareKeys key key' = .eq → key = key' := by
  simp only [keysUntied, List.all_eq_true, Bool.or_eq_true, decide_eq_true_eq, bne_iff_ne]
  refine forall₂_congr fun key _ => forall₂_congr fun key' _ => ?_
  cases arrayIndex key with
  | some n => simp
  | none =>
    cases arrayIndex key' with
    | some n => simp
    | none =>
      simp only [Option.isSome_none, Bool.false_eq_true, false_or, forall_const]
      exact or_iff_not_imp_right.trans (by rw [not_not])

section Entries

variable {N : Type}

/-- Array indices are sorted as numbers. -/
def indexLe (e e' : JsText × JsValue N) : Bool := (arrayIndex e.1).getD 0 ≤ (arrayIndex e'.1).getD 0

theorem pairwise_indexLe (entries : List (JsText × JsValue N)) :
    (entries.mergeSort indexLe).Pairwise fun e e' => indexLe e e' = true := by
  refine List.pairwise_mergeSort (fun a b c hab hbc => ?_) (fun a b => ?_) entries
  · exact decide_eq_true (le_trans (of_decide_eq_true hab) (of_decide_eq_true hbc))
  · rw [Bool.or_eq_true, indexLe, indexLe, decide_eq_true_eq, decide_eq_true_eq]
    exact Nat.le_total _ _

/-- The members of an object that is made of entries. -/
def entryMembers (entries : List (JsText × JsValue N)) : List (JsText × JsValue N) :=
  (entries.filter fun e => (arrayIndex e.1).isSome).mergeSort indexLe ++
    entries.filter fun e => (arrayIndex e.1).isNone

theorem fromEntries_eq (entries : List (JsText × JsValue N)) : fromEntries entries = .object (entryMembers entries) :=
  rfl

theorem filter_isNone_eq (entries : List (JsText × JsValue N)) :
    (entries.filter fun e => (arrayIndex e.1).isNone) = entries.filter fun e => !(arrayIndex e.1).isSome :=
  List.filter_congr fun e _ => by rw [Option.not_isSome]

theorem entryMembers_perm (entries : List (JsText × JsValue N)) : (entryMembers entries).Perm entries := by
  rw [entryMembers, filter_isNone_eq]
  exact ((List.mergeSort_perm _ _).append_right _).trans (List.filter_append_perm _ _)

variable (compareKeys : JsText → JsText → Ordering)

/-- The entries are sorted by their keys before they are the members of an object. -/
def keyLe (entry entry' : JsText × JsValue N) : Bool := compareKeys entry.1 entry'.1 != .gt

def sortedEntries (entries : List (JsText × JsValue N)) : JsValue N :=
  fromEntries (entries.mergeSort (keyLe compareKeys))

variable {compareKeys} {entries entries' : List (JsText × JsValue N)}

/-- The members are those of the entries. -/
theorem perm_of_sortedEntries_eq (h : sortedEntries compareKeys entries = sortedEntries compareKeys entries') :
    entries.Perm entries' := by
  rw [sortedEntries, sortedEntries, fromEntries_eq, fromEntries_eq] at h
  have hmembers := JsValue.object.inj h
  have hperm := fun entries : List (JsText × JsValue N) =>
    (entryMembers_perm (entries.mergeSort (keyLe compareKeys))).trans (List.mergeSort_perm entries _)
  exact (hperm entries).symm.trans (hmembers ▸ hperm entries')

/-- Entries of distinct keys that agree on their keys are the same. -/
theorem eq_of_fst_eq (hnodup : (entries.map Prod.fst).Nodup) {e e' : JsText × JsValue N} (he : e ∈ entries)
    (he' : e' ∈ entries) (h : e.1 = e'.1) : e = e' :=
  List.inj_on_of_nodup_map hnodup he he' h

variable [Std.TransCmp compareKeys]

omit [Std.TransCmp compareKeys] in
theorem keyLe_iff {e e' : JsText × JsValue N} : keyLe compareKeys e e' = true ↔ (compareKeys e.1 e'.1).isLE = true := by
  unfold keyLe
  cases compareKeys e.1 e'.1 <;> decide

theorem keyLe_trans (a b c : JsText × JsValue N) (hab : keyLe compareKeys a b = true)
    (hbc : keyLe compareKeys b c = true) : keyLe compareKeys a c = true :=
  keyLe_iff.mpr (Std.TransCmp.isLE_trans (keyLe_iff.mp hab) (keyLe_iff.mp hbc))

theorem keyLe_total (a b : JsText × JsValue N) : (keyLe compareKeys a b || keyLe compareKeys b a) = true := by
  rw [Bool.or_eq_true, keyLe_iff, keyLe_iff, or_iff_not_imp_left]
  intro h
  rw [Std.OrientedCmp.lt_of_not_isLE h]
  rfl

theorem compareKeys_eq_of_keyLe {a b : JsText × JsValue N} (hab : keyLe compareKeys a b = true)
    (hba : keyLe compareKeys b a = true) : compareKeys a.1 b.1 = .eq :=
  Std.OrientedCmp.isLE_antisymm (keyLe_iff.mp hab) (keyLe_iff.mp hba)

theorem pairwise_keyLe (entries : List (JsText × JsValue N)) :
    (entries.mergeSort (keyLe compareKeys)).Pairwise fun e e' => keyLe compareKeys e e' = true :=
  List.pairwise_mergeSort keyLe_trans keyLe_total entries

omit [Std.TransCmp compareKeys] in
/-- The entries of array indices are sorted by their numbers, whatever their order was. -/
theorem mergeSort_indexLe_eq (hnodup : (entries.map Prod.fst).Nodup) (hperm : entries'.Perm entries) :
    (entries'.filter fun e => (arrayIndex e.1).isSome).mergeSort indexLe =
      (entries.filter fun e => (arrayIndex e.1).isSome).mergeSort indexLe := by
  refine List.Perm.eq_of_pairwise (fun a b ha hb hab hba => ?_) (pairwise_indexLe _) (pairwise_indexLe _) ?_
  · obtain ⟨ha, hasome⟩ := List.mem_filter.mp (List.mem_mergeSort.mp ha)
    obtain ⟨hb, hbsome⟩ := List.mem_filter.mp (List.mem_mergeSort.mp hb)
    obtain ⟨n, hn⟩ := Option.isSome_iff_exists.mp hasome
    obtain ⟨m, hm⟩ := Option.isSome_iff_exists.mp hbsome
    have hle := of_decide_eq_true hab
    have hge := of_decide_eq_true hba
    rw [hn, hm] at hle hge
    obtain rfl : n = m := le_antisymm hle hge
    exact eq_of_fst_eq hnodup (hperm.subset ha) hb (arrayIndex_inj hn hm)
  · exact (List.mergeSort_perm _ _).trans ((hperm.filter _).trans (List.mergeSort_perm _ _).symm)

/-- **The order of the entries does not matter if no keys are tied.** -/
theorem sortedEntries_eq_of_perm (hnodup : (entries.map Prod.fst).Nodup) (hperm : entries'.Perm entries)
    (huntied : keysUntied compareKeys (entries.map Prod.fst) = true) :
    sortedEntries compareKeys entries' = sortedEntries compareKeys entries := by
  have hsorted : (entries'.mergeSort (keyLe compareKeys)).Perm (entries.mergeSort (keyLe compareKeys)) :=
    (List.mergeSort_perm _ _).trans (hperm.trans (List.mergeSort_perm _ _).symm)
  have hkeys : ((entries.mergeSort (keyLe compareKeys)).map Prod.fst).Nodup :=
    (((List.mergeSort_perm entries _).map Prod.fst).nodup_iff).mpr hnodup
  have hpairwise : ∀ entries : List (JsText × JsValue N),
      ((entries.mergeSort (keyLe compareKeys)).filter fun e => (arrayIndex e.1).isNone).Pairwise
        fun e e' => keyLe compareKeys e e' = true := fun entries => (pairwise_keyLe entries).filter _
  rw [sortedEntries, sortedEntries, fromEntries_eq, fromEntries_eq, entryMembers, entryMembers,
    mergeSort_indexLe_eq hkeys hsorted]
  refine congrArg (fun members => JsValue.object (_ ++ members)) ?_
  refine List.Perm.eq_of_pairwise (fun a b ha hb hab hba => ?_) (hpairwise _) (hpairwise _) (hsorted.filter _)
  obtain ⟨ha, hanone⟩ := List.mem_filter.mp ha
  obtain ⟨hb, hbnone⟩ := List.mem_filter.mp hb
  have ha := hperm.subset (List.mem_mergeSort.mp ha)
  have hb := List.mem_mergeSort.mp hb
  exact eq_of_fst_eq hnodup ha hb (keysUntied_iff.mp huntied _ (List.mem_map_of_mem ha) _
    (List.mem_map_of_mem hb) (Option.isNone_iff_eq_none.mp hanone) (Option.isNone_iff_eq_none.mp hbnone)
    (compareKeys_eq_of_keyLe hab hba))

/-- Of two keys, one comes first. -/
theorem idxOf_lt_of_sublist {keys : List JsText} {key key' : JsText} (hnodup : keys.Nodup)
    (h : [key, key'].Sublist keys) : keys.idxOf key < keys.idxOf key' := by
  have hpositions : keys.Pairwise fun key key' => keys.idxOf key < keys.idxOf key' := by
    refine List.pairwise_iff_getElem.mpr fun i j hi hj hij => ?_
    rw [hnodup.idxOf_getElem, hnodup.idxOf_getElem]
    exact hij
  exact List.rel_of_pairwise_cons (hpositions.sublist h) List.mem_cons_self

/-- **It does if two keys are tied**: they stay in the order in which the entries have them. -/
theorem sortedEntries_ne_of_tied {e e' : JsText × JsValue N} (he : arrayIndex e.1 = none)
    (he' : arrayIndex e'.1 = none) (htied : compareKeys e.1 e'.1 = .eq)
    (hnodup : (entries.map Prod.fst).Nodup) (h : [e, e'].Sublist entries) (h' : [e', e].Sublist entries') :
    sortedEntries compareKeys entries ≠ sortedEntries compareKeys entries' := by
  intro heq
  have hperm := perm_of_sortedEntries_eq heq
  have hmembers := JsValue.object.inj heq
  have hle : keyLe compareKeys e e' = true := keyLe_iff.mpr (htied ▸ rfl)
  have hge : keyLe compareKeys e' e = true := keyLe_iff.mpr (Std.OrientedCmp.eq_symm htied ▸ rfl)
  -- behind the entries of array indices, both lists have the two entries in their own order
  have hsorted := (List.pair_sublist_mergeSort keyLe_trans keyLe_total hle h).filter
    fun e => (arrayIndex e.1).isNone
  have hsorted' := (List.pair_sublist_mergeSort keyLe_trans keyLe_total hge h').filter
    fun e => (arrayIndex e.1).isNone
  have hrest : ((entries.mergeSort (keyLe compareKeys)).filter fun e => (arrayIndex e.1).isNone) =
      (entries'.mergeSort (keyLe compareKeys)).filter fun e => (arrayIndex e.1).isNone := by
    refine (List.append_inj' hmembers ?_).2
    exact (((List.mergeSort_perm _ _).trans (hperm.trans (List.mergeSort_perm _ _).symm)).filter _).length_eq
  rw [← hrest] at hsorted'
  simp only [List.filter_cons, List.filter_nil, he, he', Option.isNone_none, if_true] at hsorted hsorted'
  have hkeys : (((entries.mergeSort (keyLe compareKeys)).filter
      fun e => (arrayIndex e.1).isNone).map Prod.fst).Nodup :=
    ((((List.mergeSort_perm entries _).map Prod.fst).nodup_iff).mpr hnodup).sublist (List.filter_sublist.map _)
  exact lt_asymm (idxOf_lt_of_sublist hkeys (hsorted.map Prod.fst)) (idxOf_lt_of_sublist hkeys (hsorted'.map Prod.fst))

end Entries

end JsValue
