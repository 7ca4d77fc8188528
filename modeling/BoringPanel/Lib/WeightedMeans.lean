import BoringPanel.Lib.Grouping
import Mathlib.Tactic.Linarith
import Mathlib.Tactic.Positivity
import Mathlib.Tactic.FieldSimp
import Mathlib.Tactic.Ring

/-!
# Weighted means by a key

Rates with weights are added one after the other, each to the mean with its key. A mean then has the
label of the first rate with its key, the sum of the weights, and the weighted mean of the rates
(`Means.foldl`).

Labels are averaged apart exactly if no two of them have the same key (`eachApart_iff`), and then the
order does not matter (`perm_foldl`).
-/

namespace WeightedMeans

open Grouping

/-- A rate with a label and a weight. -/
structure Entry (L F : Type) where
  label : L
  rate : F
  weight : F

variable {L K F : Type} [DecidableEq K]

/-- The entries with a key. -/
def withKey (key : L → K) (entries : List (Entry L F)) (k : K) : List (Entry L F) :=
  members (fun entry => key entry.label) entries k

section Field

variable [Field F]

/-- A mean with one more rate. -/
def Entry.merge (mean entry : Entry L F) : Entry L F :=
  ⟨mean.label, (mean.rate * mean.weight + entry.rate * entry.weight) / (mean.weight + entry.weight),
    mean.weight + entry.weight⟩

/-- Adds a rate to the mean with its key, or as a new mean. -/
def addTo (key : L → K) (means : List (Entry L F)) (entry : Entry L F) : List (Entry L F) :=
  if means.any (fun mean => key mean.label = key entry.label) then
    means.map fun mean => if key mean.label = key entry.label then mean.merge entry else mean
  else means ++ [entry]

def totalWeight (entries : List (Entry L F)) : F := (entries.map Entry.weight).sum

/-- The sum of the rates, each as often as its weight says. -/
def totalRate (entries : List (Entry L F)) : F := (entries.map fun entry => entry.rate * entry.weight).sum

/-- What the means are after these entries. -/
structure Means (key : L → K) (entries means : List (Entry L F)) : Prop where
  keys : means.map (fun mean => key mean.label) = keysOf (fun entry => key entry.label) entries
  first : ∀ mean ∈ means, ((withKey key entries (key mean.label)).head?.map Entry.label) = some mean.label
  weight : ∀ mean ∈ means, mean.weight = totalWeight (withKey key entries (key mean.label))
  rate : ∀ mean ∈ means, mean.rate * mean.weight = totalRate (withKey key entries (key mean.label))

theorem totalWeight_append (entries rest : List (Entry L F)) :
    totalWeight (entries ++ rest) = totalWeight entries + totalWeight rest := by
  rw [totalWeight, List.map_append, List.sum_append]
  rfl

theorem totalRate_append (entries rest : List (Entry L F)) :
    totalRate (entries ++ rest) = totalRate entries + totalRate rest := by
  rw [totalRate, List.map_append, List.sum_append]
  rfl

end Field

variable {key : L → K} {entries means : List (Entry L F)} {entry mean : Entry L F}

theorem mem_withKey {k : K} : entry ∈ withKey key entries k ↔ entry ∈ entries ∧ key entry.label = k :=
  mem_members

theorem withKey_concat (k : K) : withKey key (entries ++ [entry]) k =
    if key entry.label = k then withKey key entries k ++ [entry] else withKey key entries k :=
  members_append_singleton _ _ _ _

variable [Field F] [LinearOrder F] [IsStrictOrderedRing F]

theorem le_totalWeight (h : ∀ entry ∈ entries, 0 < entry.weight) (hentry : entry ∈ entries) :
    entry.weight ≤ totalWeight entries := by
  refine List.single_le_sum (fun w hw => ?_) _ (List.mem_map_of_mem hentry)
  obtain ⟨entry, hentry, rfl⟩ := List.mem_map.mp hw
  exact (h entry hentry).le

namespace Means

omit [LinearOrder F] [IsStrictOrderedRing F] in
theorem nil : Means key ([] : List (Entry L F)) [] where
  keys := rfl
  first := List.forall_mem_nil _
  weight := List.forall_mem_nil _
  rate := List.forall_mem_nil _

omit [LinearOrder F] [IsStrictOrderedRing F] in
/-- A mean has the label of an entry with its key. -/
theorem exists_of_mem (h : Means key entries means) (hmean : mean ∈ means) :
    ∃ entry ∈ withKey key entries (key mean.label), entry.label = mean.label := by
  obtain ⟨entry, hhead, hlabel⟩ := Option.map_eq_some_iff.mp (h.first mean hmean)
  exact ⟨entry, List.mem_of_mem_head? hhead, hlabel⟩

theorem weight_pos (h : Means key entries means) (hpos : ∀ entry ∈ entries, 0 < entry.weight)
    (hmean : mean ∈ means) : 0 < mean.weight := by
  obtain ⟨entry, hentry, -⟩ := h.exists_of_mem hmean
  calc 0 < entry.weight := hpos entry (mem_withKey.mp hentry).1
    _ ≤ totalWeight (withKey key entries (key mean.label)) :=
      le_totalWeight (fun entry hentry => hpos entry (mem_withKey.mp hentry).1) hentry
    _ = mean.weight := (h.weight mean hmean).symm

/-- A mean with one more rate has the sums of its key. -/
theorem merge (h : Means key entries means) (hpos : ∀ entry ∈ entries, 0 < entry.weight)
    (hentry : 0 < entry.weight) (hmean : mean ∈ means) (hkey : key entry.label = key mean.label) :
    (mean.merge entry).weight = totalWeight (withKey key (entries ++ [entry]) (key mean.label)) ∧
      (mean.merge entry).rate * (mean.merge entry).weight =
        totalRate (withKey key (entries ++ [entry]) (key mean.label)) := by
  have hsum : mean.weight + entry.weight ≠ 0 := (add_pos (h.weight_pos hpos hmean) hentry).ne'
  have hone : totalWeight [entry] = entry.weight ∧ totalRate [entry] = entry.rate * entry.weight :=
    ⟨List.sum_singleton, List.sum_singleton⟩
  rw [withKey_concat, if_pos hkey, totalWeight_append, totalRate_append, ← h.weight mean hmean,
    ← h.rate mean hmean, hone.1, hone.2]
  exact ⟨rfl, div_mul_cancel₀ _ hsum⟩

omit [LinearOrder F] [IsStrictOrderedRing F] in
theorem any_iff (h : Means key entries means) :
    (means.any fun mean => key mean.label = key entry.label) = true ↔
      key entry.label ∈ keysOf (fun entry => key entry.label) entries := by
  rw [← h.keys, List.mem_map, List.any_eq_true]
  simp

omit [Field F] [LinearOrder F] [IsStrictOrderedRing F] in
/-- The entries with another key are the same. -/
theorem withKey_of_ne (hne : ¬ key entry.label = key mean.label) :
    withKey key (entries ++ [entry]) (key mean.label) = withKey key entries (key mean.label) := by
  rw [withKey_concat, if_neg hne]

/-- One more entry with a key that occurs. -/
theorem addTo_of_mem (h : Means key entries means) (hpos : ∀ entry ∈ entries, 0 < entry.weight)
    (hentry : 0 < entry.weight) (hold : key entry.label ∈ keysOf (fun entry => key entry.label) entries) :
    Means key (entries ++ [entry]) (addTo key means entry) := by
  rw [WeightedMeans.addTo, if_pos (h.any_iff.mpr hold)]
  -- a mean is the one with the key, or is left alone
  have hcases : ∀ mean' ∈ means.map fun mean =>
      if key mean.label = key entry.label then mean.merge entry else mean,
      ∃ mean ∈ means, mean'.label = mean.label ∧
        (key entry.label = key mean.label ∧ mean' = mean.merge entry ∨
          ¬ key entry.label = key mean.label ∧ mean' = mean) := by
    intro mean' hmean'
    obtain ⟨mean, hmean, rfl⟩ := List.mem_map.mp hmean'
    refine ⟨mean, hmean, ?_⟩
    by_cases hkey : key mean.label = key entry.label
    · rw [if_pos hkey]
      exact ⟨rfl, .inl ⟨hkey.symm, rfl⟩⟩
    · rw [if_neg hkey]
      exact ⟨rfl, .inr ⟨fun hc => hkey hc.symm, rfl⟩⟩
  refine ⟨?_, fun mean' hmean' => ?_, fun mean' hmean' => ?_, fun mean' hmean' => ?_⟩
  · rw [keysOf_append_singleton, if_pos hold, ← h.keys, List.map_map]
    refine List.map_congr_left fun mean _ => ?_
    show key (if key mean.label = key entry.label then mean.merge entry else mean).label = key mean.label
    split
    · rfl
    · rfl
  · obtain ⟨mean, hmean, hlabel, ⟨hkey, -⟩ | ⟨hkey, -⟩⟩ := hcases mean' hmean'
    · rw [hlabel, withKey_concat, if_pos hkey, ← h.first mean hmean]
      obtain ⟨first, hhead, -⟩ := Option.map_eq_some_iff.mp (h.first mean hmean)
      rw [List.head?_append, hhead]
      rfl
    · rw [hlabel, withKey_of_ne hkey]
      exact h.first mean hmean
  · obtain ⟨mean, hmean, -, ⟨hkey, rfl⟩ | ⟨hkey, rfl⟩⟩ := hcases mean' hmean'
    · exact (h.merge hpos hentry hmean hkey).1
    · rw [withKey_of_ne hkey]
      exact h.weight _ hmean
  · obtain ⟨mean, hmean, -, ⟨hkey, rfl⟩ | ⟨hkey, rfl⟩⟩ := hcases mean' hmean'
    · exact (h.merge hpos hentry hmean hkey).2
    · rw [withKey_of_ne hkey]
      exact h.rate _ hmean

omit [LinearOrder F] [IsStrictOrderedRing F] in
/-- One more entry with a new key. -/
theorem addTo_of_not_mem (h : Means key entries means)
    (hnew : key entry.label ∉ keysOf (fun entry => key entry.label) entries) :
    Means key (entries ++ [entry]) (addTo key means entry) := by
  rw [WeightedMeans.addTo, if_neg (mt h.any_iff.mp hnew)]
  have hnone : withKey key entries (key entry.label) = [] := by
    refine List.eq_nil_iff_forall_not_mem.mpr fun other hother => hnew ?_
    exact mem_keysOf.mpr ⟨other, (mem_withKey.mp hother).1, (mem_withKey.mp hother).2⟩
  have hone : withKey key (entries ++ [entry]) (key entry.label) = [entry] := by
    rw [withKey_concat, if_pos rfl, hnone]
    rfl
  have hne : ∀ mean ∈ means, ¬ key entry.label = key mean.label := by
    intro mean hmean hkey
    refine hnew ?_
    rw [hkey, ← h.keys]
    exact List.mem_map_of_mem hmean
  refine ⟨?_, List.forall_mem_append.mpr ⟨fun mean hmean => ?_, List.forall_mem_singleton.mpr ?_⟩,
    List.forall_mem_append.mpr ⟨fun mean hmean => ?_, List.forall_mem_singleton.mpr ?_⟩,
    List.forall_mem_append.mpr ⟨fun mean hmean => ?_, List.forall_mem_singleton.mpr ?_⟩⟩
  · rw [keysOf_append_singleton, if_neg hnew, List.map_append, h.keys]
    rfl
  · rw [withKey_of_ne (hne mean hmean)]
    exact h.first mean hmean
  · rw [hone]
    rfl
  · rw [withKey_of_ne (hne mean hmean)]
    exact h.weight mean hmean
  · rw [hone]
    exact List.sum_singleton.symm
  · rw [withKey_of_ne (hne mean hmean)]
    exact h.rate mean hmean
  · rw [hone]
    exact List.sum_singleton.symm

/-- **The means of a list of entries.** -/
theorem foldl (hpos : ∀ entry ∈ entries, 0 < entry.weight) :
    Means key entries (entries.foldl (WeightedMeans.addTo key) []) := by
  induction entries using List.reverseRecOn with
  | nil => exact nil
  | append_singleton entries entry ih =>
    rw [List.forall_mem_append, List.forall_mem_singleton] at hpos
    rw [List.foldl_append]
    by_cases hold : key entry.label ∈ keysOf (fun entry => key entry.label) entries
    · exact (ih hpos.1).addTo_of_mem hpos.1 hpos.2 hold
    · exact (ih hpos.1).addTo_of_not_mem hold

/-- Rates between two bounds have means between them. -/
theorem rate_bounds (h : Means key entries means) (hpos : ∀ entry ∈ entries, 0 < entry.weight) {low high : F}
    (hbounds : ∀ entry ∈ entries, low ≤ entry.rate ∧ entry.rate ≤ high) (hmean : mean ∈ means) :
    low ≤ mean.rate ∧ mean.rate ≤ high := by
  have htotal : ∀ group : List (Entry L F), (∀ entry ∈ group, entry ∈ entries) →
      low * totalWeight group ≤ totalRate group ∧ totalRate group ≤ high * totalWeight group := by
    intro group hgroup
    induction group with
    | nil => simp [totalWeight, totalRate]
    | cons entry group ih =>
      rw [List.forall_mem_cons] at hgroup
      obtain ⟨hlow, hhigh⟩ := ih hgroup.2
      obtain ⟨hentryLow, hentryHigh⟩ := hbounds entry hgroup.1
      have hweight := (hpos entry hgroup.1).le
      have hlow' := mul_le_mul_of_nonneg_right hentryLow hweight
      have hhigh' := mul_le_mul_of_nonneg_right hentryHigh hweight
      have hsums : totalWeight (entry :: group) = entry.weight + totalWeight group ∧
          totalRate (entry :: group) = entry.rate * entry.weight + totalRate group :=
        ⟨List.sum_cons, List.sum_cons⟩
      rw [hsums.1, hsums.2, mul_add, mul_add]
      exact ⟨add_le_add hlow' hlow, add_le_add hhigh' hhigh⟩
  have hweight := h.weight_pos hpos hmean
  obtain ⟨hlow, hhigh⟩ := htotal (withKey key entries (key mean.label))
    fun entry hentry => (mem_withKey.mp hentry).1
  rw [← h.weight mean hmean, ← h.rate mean hmean] at hlow hhigh
  exact ⟨le_of_mul_le_mul_right hlow hweight, le_of_mul_le_mul_right hhigh hweight⟩

omit [LinearOrder F] [IsStrictOrderedRing F] in
/-- Means have different keys. -/
theorem pairwise (h : Means key entries means) :
    means.Pairwise fun mean mean' => key mean.label ≠ key mean'.label := by
  have hnodup := nodup_keysOf (fun entry : Entry L F => key entry.label) entries
  rw [← h.keys] at hnodup
  exact List.pairwise_map.mp hnodup

omit [LinearOrder F] [IsStrictOrderedRing F] in
theorem nodup (h : Means key entries means) : means.Nodup := by
  refine h.pairwise.imp fun hne heq => ?_
  subst heq
  exact hne rfl

omit [LinearOrder F] [IsStrictOrderedRing F] in
/-- Each key that occurs has a mean. -/
theorem exists_mean (h : Means key entries means) (hentry : entry ∈ entries) :
    ∃ mean ∈ means, key mean.label = key entry.label := by
  have hmem : key entry.label ∈ keysOf (fun entry => key entry.label) entries :=
    mem_keysOf.mpr ⟨entry, hentry, rfl⟩
  rw [← h.keys] at hmem
  exact List.mem_map.mp hmem

end Means

/-! ### Labels with different keys -/

section Labels

variable [DecidableEq L]

/-- Labels with the same key are the same. -/
def Separate (key : L → K) (entries : List (Entry L F)) : Prop :=
  ∀ entry ∈ entries, ∀ entry' ∈ entries, key entry.label = key entry'.label → entry.label = entry'.label

def withLabel (entries : List (Entry L F)) (l : L) : List (Entry L F) := members Entry.label entries l

omit [DecidableEq L] [LinearOrder F] [IsStrictOrderedRing F] in
theorem totalWeight_filter_add (p : Entry L F → Bool) (entries : List (Entry L F)) :
    totalWeight (entries.filter p) + totalWeight (entries.filter fun entry => !p entry) = totalWeight entries := by
  induction entries with
  | nil => exact add_zero 0
  | cons entry entries ih =>
    have hcons : ∀ rest : List (Entry L F), totalWeight (entry :: rest) = entry.weight + totalWeight rest :=
      fun _ => List.sum_cons
    cases hp : p entry with
    | true =>
      rw [List.filter_cons_of_pos hp, List.filter_cons_of_neg (by simp [hp]), hcons, hcons, add_assoc, ih]
    | false =>
      rw [List.filter_cons_of_neg (by simp [hp]), List.filter_cons_of_pos (by simp [hp]), hcons, hcons,
        add_left_comm, ih]

omit [Field F] [LinearOrder F] [IsStrictOrderedRing F] in
/-- The entries with a label are among those with its key. -/
theorem filter_withKey (l : L) :
    (withKey key entries (key l)).filter (fun entry => entry.label = l) = withLabel entries l := by
  rw [withKey, members, List.filter_filter]
  refine List.filter_congr fun entry _ => ?_
  by_cases hlabel : entry.label = l
  · simp [hlabel]
  · simp [hlabel]

omit [Field F] [LinearOrder F] [IsStrictOrderedRing F] in
theorem withKey_eq_withLabel (h : Separate key entries) (hentry : entry ∈ entries) :
    withKey key entries (key entry.label) = withLabel entries entry.label := by
  have hfilter : (withKey key entries (key entry.label)).filter (fun other => other.label = entry.label) =
      withLabel entries entry.label := filter_withKey _
  rw [← hfilter]
  refine (List.filter_eq_self.mpr fun other hother => decide_eq_true ?_).symm
  exact h other (mem_withKey.mp hother).1 entry hentry (mem_withKey.mp hother).2

/-- **Each label is averaged apart exactly if different labels have different keys.** -/
theorem eachApart_iff (h : Means key entries means) (hpos : ∀ entry ∈ entries, 0 < entry.weight) :
    (∀ mean ∈ means, mean.weight = totalWeight (withLabel entries mean.label)) ↔ Separate key entries := by
  constructor
  · intro hapart
    -- an entry with the key of a mean but not its label would add to the weight
    have hlabel : ∀ mean ∈ means, ∀ entry ∈ entries, key entry.label = key mean.label →
        entry.label = mean.label := by
      intro mean hmean entry hentry hkey
      by_contra hne
      have hsplit := totalWeight_filter_add (fun entry => entry.label = mean.label)
        (withKey key entries (key mean.label))
      rw [filter_withKey, ← hapart mean hmean, ← h.weight mean hmean] at hsplit
      have hmem : entry ∈ (withKey key entries (key mean.label)).filter
          fun entry => !decide (entry.label = mean.label) :=
        List.mem_filter.mpr ⟨mem_withKey.mpr ⟨hentry, hkey⟩, by simp [hne]⟩
      have hle := le_totalWeight (fun entry hentry =>
        hpos entry (mem_withKey.mp (List.mem_of_mem_filter hentry)).1) hmem
      have := hpos entry hentry
      linarith
    intro entry hentry entry' hentry' hkey
    obtain ⟨mean, hmean, hmeanKey⟩ := h.exists_mean hentry
    calc entry.label = mean.label := hlabel mean hmean entry hentry hmeanKey.symm
      _ = entry'.label := (hlabel mean hmean entry' hentry' (hkey.symm.trans hmeanKey.symm)).symm
  · intro hseparate mean hmean
    obtain ⟨entry, hentry, hlabel⟩ := h.exists_of_mem hmean
    rw [h.weight mean hmean, ← hlabel, withKey_eq_withLabel hseparate (mem_withKey.mp hentry).1]

omit [DecidableEq L] in
/-- The means do not depend on the order of the entries. -/
theorem mem_of_perm {entries' means' : List (Entry L F)} (h : Means key entries means)
    (h' : Means key entries' means') (hpos : ∀ entry ∈ entries, 0 < entry.weight)
    (hseparate : Separate key entries) (hperm : entries'.Perm entries) (hmean : mean ∈ means) :
    mean ∈ means' := by
  obtain ⟨entry, hentry, hlabel⟩ := h.exists_of_mem hmean
  obtain ⟨hentry, hkey⟩ := mem_withKey.mp hentry
  obtain ⟨mean', hmean', hkey'⟩ := h'.exists_mean (hperm.mem_iff.mpr hentry)
  obtain ⟨entry', hentry', hlabel'⟩ := h'.exists_of_mem hmean'
  obtain ⟨hentry', hkeyEntry'⟩ := mem_withKey.mp hentry'
  have hlabels : mean.label = mean'.label := by
    rw [← hlabel, ← hlabel']
    exact hseparate entry hentry entry' (hperm.mem_iff.mp hentry') (hkey'.symm.trans hkeyEntry'.symm)
  have hgroup : (withKey key entries' (key mean'.label)).Perm (withKey key entries (key mean.label)) := by
    rw [hlabels]
    exact hperm.filter _
  have hweight : mean'.weight = mean.weight := by
    rw [h.weight mean hmean, h'.weight mean' hmean']
    exact (hgroup.map _).sum_eq
  have hrate : mean'.rate * mean'.weight = mean.rate * mean.weight := by
    rw [h.rate mean hmean, h'.rate mean' hmean']
    exact (hgroup.map _).sum_eq
  have heq : mean = mean' := by
    obtain ⟨label, rate, weight⟩ := mean
    obtain ⟨label', rate', weight'⟩ := mean'
    obtain rfl : label = label' := hlabels
    obtain rfl : weight' = weight := hweight
    obtain rfl : rate' = rate := mul_right_cancel₀ (h.weight_pos hpos hmean).ne' hrate
    rfl
  rw [heq]
  exact hmean'

omit [DecidableEq L] in
/-- **The order of the entries does not matter.** -/
theorem perm_foldl {entries' : List (Entry L F)} (hpos : ∀ entry ∈ entries, 0 < entry.weight)
    (hseparate : Separate key entries) (hperm : entries'.Perm entries) :
    (entries'.foldl (addTo key) []).Perm (entries.foldl (addTo key) []) := by
  have hpos' : ∀ entry ∈ entries', 0 < entry.weight := fun entry hentry =>
    hpos entry (hperm.mem_iff.mp hentry)
  have hseparate' : Separate key entries' := fun entry hentry entry' hentry' =>
    hseparate entry (hperm.mem_iff.mp hentry) entry' (hperm.mem_iff.mp hentry')
  have h : Means key entries (entries.foldl (addTo key) []) := Means.foldl hpos
  have h' : Means key entries' (entries'.foldl (addTo key) []) := Means.foldl hpos'
  exact (List.perm_ext_iff_of_nodup h'.nodup h.nodup).mpr fun mean =>
    ⟨mem_of_perm h' h hpos' hseparate' hperm.symm, mem_of_perm h h' hpos hseparate hperm⟩

end Labels

end WeightedMeans
