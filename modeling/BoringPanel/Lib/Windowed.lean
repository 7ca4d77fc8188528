import Mathlib.Algebra.Order.Ring.Nat
import Mathlib.Data.List.Nodup

/-!
# Reading a sorted list window by window

A list sorted by a key, largest key first, is read through windows that are closed on both sides
and meet at their boundaries: `[b₁, hi]`, `[b₂, b₁]`, …, `[lo, bₖ]`. An element on an interior
boundary is read twice. `overlapping` is what the windows read together, `within` what one window
over the whole range reads.

* `take_overlapping` — the two agree up to the first boundary that holds an element;
* `getElem?_overlapping_ne` — from there on they differ at every position;
* `page_overlapping_iff` — so a page of `overlapping` is the same page of `within` exactly when it
  is empty, lies past the end, or ends before the first boundary element is read again.
-/

namespace Windowed

variable {α κ : Type*} [LinearOrder κ] (key : α → κ)

/-- The list is sorted by `key`, largest first. -/
abbrev NewestFirst (l : List α) : Prop := l.Pairwise fun a b => key b ≤ key a

/-- The elements with a key in `[lo, hi]`. -/
def within (lo hi : κ) (l : List α) : List α := l.filter fun a => lo ≤ key a ∧ key a ≤ hi

/-- The elements with a key in `(b, hi]`. -/
def newer (b hi : κ) (l : List α) : List α := l.filter fun a => b < key a ∧ key a ≤ hi

/-- The elements on a boundary. -/
def onBoundary (b : κ) (l : List α) : List α := l.filter fun a => key a = b

/-- The windows `[b₁, hi]`, `[b₂, b₁]`, …, `[lo, bₖ]`. -/
def windows (lo : κ) : κ → List κ → List (κ × κ)
  | hi, [] => [(lo, hi)]
  | hi, b :: bs => (b, hi) :: windows lo b bs

/-- The boundaries lie strictly between `lo` and `hi`, largest first. -/
structure Boundaries (lo hi : κ) (bs : List κ) : Prop where
  inside : ∀ b ∈ bs, lo < b ∧ b < hi
  decreasing : bs.Pairwise (· > ·)

/-- What the windows read together. -/
def overlapping (lo hi : κ) (bs : List κ) (l : List α) : List α :=
  (windows lo hi bs).flatMap fun w => within key w.1 w.2 l

variable {key} {lo hi b : κ} {bs : List κ} {l : List α}

theorem Boundaries.tail (h : Boundaries lo hi (b :: bs)) : Boundaries lo b bs where
  inside := fun b' hb' => ⟨(h.inside b' (List.mem_cons_of_mem _ hb')).1,
    (List.pairwise_cons.mp h.decreasing).1 b' hb'⟩
  decreasing := (List.pairwise_cons.mp h.decreasing).2

theorem Boundaries.cons (hlo : lo < b) (hhi : b < hi) (h : Boundaries lo b bs) :
    Boundaries lo hi (b :: bs) where
  inside := List.forall_mem_cons.mpr
    ⟨⟨hlo, hhi⟩, fun b' hb' => ⟨(h.inside b' hb').1, (h.inside b' hb').2.trans hhi⟩⟩
  decreasing := List.pairwise_cons.mpr ⟨fun b' hb' => (h.inside b' hb').2, h.decreasing⟩

theorem Boundaries.nil : Boundaries lo hi [] where
  inside := List.forall_mem_nil _
  decreasing := List.Pairwise.nil

/-- The windows lie in the range. -/
theorem mem_windows (hle : lo ≤ hi) (h : Boundaries lo hi bs) {w : κ × κ}
    (hw : w ∈ windows lo hi bs) : lo ≤ w.1 ∧ w.1 ≤ w.2 ∧ w.2 ≤ hi := by
  induction bs generalizing hi with
  | nil =>
    obtain rfl : w = (lo, hi) := by simpa [windows] using hw
    exact ⟨le_rfl, hle, le_rfl⟩
  | cons b bs ih =>
    have hb := h.inside b List.mem_cons_self
    rcases List.mem_cons.mp hw with rfl | hw
    · exact ⟨hb.1.le, hb.2.le, le_rfl⟩
    · obtain ⟨h₁, h₂, h₃⟩ := ih hb.1.le h.tail hw
      exact ⟨h₁, h₂, h₃.trans hb.2.le⟩

theorem windows_inside (h : Boundaries lo hi bs) {w : κ × κ} (hw : w ∈ windows lo hi bs) :
    lo ≤ w.1 ∧ w.2 ≤ hi := by
  cases bs with
  | nil =>
    obtain rfl : w = (lo, hi) := by simpa [windows] using hw
    exact ⟨le_rfl, le_rfl⟩
  | cons b bs =>
    have hb := h.inside b List.mem_cons_self
    obtain ⟨h₁, -, h₃⟩ := mem_windows (hb.1.le.trans hb.2.le) h hw
    exact ⟨h₁, h₃⟩

omit [LinearOrder κ] in
/-- Each window ends where the window before it starts. -/
theorem isChain_windows (lo : κ) : ∀ (bs : List κ) (hi : κ),
    (windows lo hi bs).IsChain fun w w' => w'.2 = w.1
  | [], _ => .singleton _
  | [_], _ => .cons_cons rfl (.singleton _)
  | _ :: c :: cs, _ => .cons_cons rfl (isChain_windows lo (c :: cs) _)

/-- The windows are ordered from the upper end down, and share no more than their end points. -/
theorem pairwise_windows (h : Boundaries lo hi bs) :
    (windows lo hi bs).Pairwise fun w w' => w'.2 ≤ w.1 := by
  induction bs generalizing hi with
  | nil => exact List.pairwise_singleton _ _
  | cons b bs ih =>
    rw [windows]
    exact List.pairwise_cons.mpr ⟨fun w hw => (windows_inside h.tail hw).2, ih h.tail⟩

/-- **The windows cover the range**, and no more than it. -/
theorem exists_mem_windows_iff (hle : lo ≤ hi) (h : Boundaries lo hi bs) {t : κ} :
    (∃ w ∈ windows lo hi bs, w.1 ≤ t ∧ t ≤ w.2) ↔ lo ≤ t ∧ t ≤ hi := by
  induction bs generalizing hi with
  | nil => simp [windows]
  | cons b bs ih =>
    have hb := h.inside b List.mem_cons_self
    rw [windows, List.exists_mem_cons_iff, ih hb.1.le h.tail]
    constructor
    · rintro (⟨h₁, h₂⟩ | ⟨h₁, h₂⟩)
      · exact ⟨hb.1.le.trans h₁, h₂⟩
      · exact ⟨h₁, h₂.trans hb.2.le⟩
    · rintro ⟨h₁, h₂⟩
      rcases le_total b t with hbt | htb
      · exact .inl ⟨hbt, h₂⟩
      · exact .inr ⟨h₁, htb⟩

omit [LinearOrder κ] in
theorem windows_ne_nil : windows lo hi bs ≠ [] := by
  cases bs <;> simp [windows]

omit [LinearOrder κ] in
/-- The boundaries are where all windows but the last start. -/
theorem dropLast_windows (lo : κ) : ∀ (bs : List κ) (hi : κ),
    (windows lo hi bs).dropLast.map Prod.fst = bs := by
  intro bs
  induction bs with
  | nil => simp [windows]
  | cons b bs ih =>
    intro hi
    rw [windows, List.dropLast_cons_of_ne_nil windows_ne_nil, List.map_cons, ih b]

/-! ### Splitting a sorted list at a key -/

/-- The elements that satisfy `p` come first if no other element has a larger key. -/
theorem filter_append_filter (h : NewestFirst key l) {p q r : α → Bool}
    (hr : ∀ a ∈ l, r a = (p a || q a)) (hpq : ∀ a ∈ l, p a = true → q a = false)
    (hkey : ∀ a ∈ l, ∀ b ∈ l, q a = true → p b = true → key a < key b) :
    l.filter r = l.filter p ++ l.filter q := by
  induction l with
  | nil => rfl
  | cons a l ih =>
    obtain ⟨hhead, htail⟩ := List.pairwise_cons.mp h
    have ih' := ih htail (fun x hx => hr x (List.mem_cons_of_mem a hx))
      (fun x hx => hpq x (List.mem_cons_of_mem a hx))
      (fun x hx y hy => hkey x (List.mem_cons_of_mem a hx) y (List.mem_cons_of_mem a hy))
    have hra := hr a List.mem_cons_self
    cases hp : p a with
    | true =>
      have hq := hpq a List.mem_cons_self hp
      rw [List.filter_cons_of_pos (by simp [hra, hp]), List.filter_cons_of_pos hp,
        List.filter_cons_of_neg (by simp [hq]), ih', List.cons_append]
    | false =>
      cases hq : q a with
      | false =>
        rw [List.filter_cons_of_neg (by simp [hra, hp, hq]),
          List.filter_cons_of_neg (by simp [hp]), List.filter_cons_of_neg (by simp [hq]), ih']
      | true =>
        -- all later elements have a smaller key, so none of them satisfies `p`
        have hnone : l.filter p = [] := by
          rw [List.filter_eq_nil_iff]
          intro x hx hpx
          exact absurd (hkey a List.mem_cons_self x (List.mem_cons_of_mem a hx) hq hpx)
            (not_lt.mpr (hhead x hx))
        rw [List.filter_cons_of_pos (by simp [hra, hq]), List.filter_cons_of_neg (by simp [hp]),
          List.filter_cons_of_pos hq, ih', hnone, List.nil_append, List.nil_append]

theorem within_split (h : NewestFirst key l) (hlo : lo ≤ b) (hhi : b ≤ hi) :
    within key lo hi l = newer key b hi l ++ within key lo b l := by
  refine filter_append_filter h (fun a _ => ?_) (fun a _ ha => ?_) (fun a _ c _ ha hc => ?_)
  · rw [Bool.eq_iff_iff]
    simp only [decide_eq_true_eq, Bool.or_eq_true]
    constructor
    · rintro ⟨h₁, h₂⟩
      rcases lt_or_ge b (key a) with hb | hb
      · exact .inl ⟨hb, h₂⟩
      · exact .inr ⟨h₁, hb⟩
    · rintro (⟨h₁, h₂⟩ | ⟨h₁, h₂⟩)
      · exact ⟨hlo.trans h₁.le, h₂⟩
      · exact ⟨h₁, h₂.trans hhi⟩
  · simp only [decide_eq_true_eq, decide_eq_false_iff_not] at ha ⊢
    exact fun hc => absurd hc.2 (not_le.mpr ha.1)
  · simp only [decide_eq_true_eq] at ha hc
    exact ha.2.trans_lt hc.1

theorem within_eq_newer_append_onBoundary (h : NewestFirst key l) (hhi : b ≤ hi) :
    within key b hi l = newer key b hi l ++ onBoundary key b l := by
  rw [within_split h le_rfl hhi]
  refine congrArg _ (List.filter_congr fun a _ => ?_)
  simp only [decide_eq_decide]
  exact ⟨fun ha => le_antisymm ha.2 ha.1, fun ha => ⟨ha.ge, ha.le⟩⟩

theorem within_eq_onBoundary_append (h : NewestFirst key l) (hlo : lo < b) :
    within key lo b l = onBoundary key b l ++ l.filter fun a => lo ≤ key a ∧ key a < b := by
  refine filter_append_filter h (fun a _ => ?_) (fun a _ ha => ?_) (fun a _ c _ ha hc => ?_)
  · rw [Bool.eq_iff_iff]
    simp only [decide_eq_true_eq, Bool.or_eq_true]
    constructor
    · rintro ⟨h₁, h₂⟩
      rcases h₂.eq_or_lt with hb | hb
      · exact .inl hb
      · exact .inr ⟨h₁, hb⟩
    · rintro (rfl | ⟨h₁, h₂⟩)
      · exact ⟨hlo.le, le_rfl⟩
      · exact ⟨h₁, h₂.le⟩
  · simp only [decide_eq_true_eq, decide_eq_false_iff_not] at ha ⊢
    exact fun hc => absurd hc.2 (by rw [ha]; exact lt_irrefl _)
  · simp only [decide_eq_true_eq] at ha hc
    rw [hc]
    exact ha.2

/-- A window of a range holds what it holds of the whole list. -/
theorem within_within {w : κ × κ} (hlo : lo ≤ w.1) (hhi : w.2 ≤ hi) :
    within key w.1 w.2 (within key lo hi l) = within key w.1 w.2 l := by
  unfold within
  rw [List.filter_filter]
  refine List.filter_congr fun a _ => ?_
  rw [Bool.eq_iff_iff]
  simp only [Bool.and_eq_true, decide_eq_true_eq]
  exact ⟨fun h => h.1, fun h => ⟨h, hlo.trans h.1, h.2.trans hhi⟩⟩

@[simp] theorem onBoundary_eq_nil_iff : onBoundary key b l = [] ↔ ∀ a ∈ l, key a ≠ b := by
  simp [onBoundary, List.filter_eq_nil_iff]

/-! ### Two readings of one list -/

@[simp] theorem overlapping_nil : overlapping key lo hi [] l = within key lo hi l := by
  simp [overlapping, windows]

theorem overlapping_cons (h : NewestFirst key l) (hb : Boundaries lo hi (b :: bs)) :
    overlapping key lo hi (b :: bs) l =
      newer key b hi l ++ (onBoundary key b l ++ overlapping key lo b bs l) := by
  have hbhi := (hb.inside b List.mem_cons_self).2.le
  rw [← List.append_assoc, ← within_eq_newer_append_onBoundary h hbhi]
  simp [overlapping, windows]

theorem within_cons (h : NewestFirst key l) (hb : Boundaries lo hi (b :: bs)) :
    within key lo hi l = newer key b hi l ++ within key lo b l :=
  within_split h (hb.inside b List.mem_cons_self).1.le (hb.inside b List.mem_cons_self).2.le

/-- How many elements lie above a boundary of the rest of the windows. -/
theorem length_within_of_tail (h : NewestFirst key l) (hb : Boundaries lo hi (b :: bs)) {c : κ}
    (hc : c ∈ bs) :
    (within key c hi l).length = (newer key b hi l).length + (within key c b l).length := by
  rw [within_split h ((hb.tail.inside c hc).2.le) (hb.inside b List.mem_cons_self).2.le,
    List.length_append]

/-- **Up to the first boundary element that is read again, the readings agree.** -/
theorem take_overlapping (h : NewestFirst key l) :
    ∀ (bs : List κ) (hi : κ) (n : ℕ), Boundaries lo hi bs →
      (∀ b ∈ bs, onBoundary key b l ≠ [] → n ≤ (within key b hi l).length) →
      (overlapping key lo hi bs l).take n = (within key lo hi l).take n := by
  intro bs
  induction bs with
  | nil => simp
  | cons b bs ih =>
    intro hi n hb hn
    rw [overlapping_cons h hb, within_cons h hb]
    by_cases hat : onBoundary key b l = []
    · rw [hat, List.nil_append, List.take_append, List.take_append]
      congr 1
      refine ih b _ hb.tail fun c hc hatc => ?_
      have := hn c (List.mem_cons_of_mem b hc) hatc
      rw [length_within_of_tail h hb hc] at this
      omega
    · have hn' := hn b List.mem_cons_self hat
      rw [within_eq_newer_append_onBoundary h (hb.inside b List.mem_cons_self).2.le] at hn'
      rw [within_eq_onBoundary_append h (hb.inside b List.mem_cons_self).1, ← List.append_assoc,
        ← List.append_assoc, List.take_append_of_le_length hn', List.take_append_of_le_length hn']

/-- An element read through the windows stands no later in the list itself. -/
theorem overlapping_getElem? (h : NewestFirst key l) :
    ∀ (bs : List κ) (hi : κ) (k : ℕ) (a : α), Boundaries lo hi bs →
      (overlapping key lo hi bs l)[k]? = some a →
      ∃ j ≤ k, (within key lo hi l)[j]? = some a := by
  intro bs
  induction bs with
  | nil => exact fun hi k a _ hk => ⟨k, le_rfl, by simpa using hk⟩
  | cons b bs ih =>
    intro hi k a hb hk
    rw [overlapping_cons h hb, ← List.append_assoc] at hk
    have hbhi := (hb.inside b List.mem_cons_self).2.le
    by_cases hlt : k < (newer key b hi l ++ onBoundary key b l).length
    · rw [List.getElem?_append_left hlt] at hk
      refine ⟨k, le_rfl, ?_⟩
      rw [within_cons h hb, within_eq_onBoundary_append h (hb.inside b List.mem_cons_self).1,
        ← List.append_assoc, List.getElem?_append_left hlt]
      exact hk
    · rw [List.getElem?_append_right (not_lt.mp hlt)] at hk
      obtain ⟨j, hj, hja⟩ := ih b _ a hb.tail hk
      rw [List.length_append] at hj hlt
      refine ⟨(newer key b hi l).length + j, by omega, ?_⟩
      rw [within_cons h hb, List.getElem?_append_right (by omega)]
      simpa using hja

/-- Past a boundary that holds an element, it stands strictly earlier. -/
theorem overlapping_getElem?_lt (h : NewestFirst key l) :
    ∀ (bs : List κ) (hi : κ) (k : ℕ) (a : α), Boundaries lo hi bs →
      (∃ b ∈ bs, onBoundary key b l ≠ [] ∧ (within key b hi l).length ≤ k) →
      (overlapping key lo hi bs l)[k]? = some a →
      ∃ j < k, (within key lo hi l)[j]? = some a := by
  intro bs
  induction bs with
  | nil => rintro hi k a _ ⟨b, hb, -⟩; cases hb
  | cons b bs ih =>
    rintro hi k a hb ⟨c, hc, hatc, hck⟩ hk
    have hbhi := (hb.inside b List.mem_cons_self).2.le
    -- every boundary of the list stands no earlier than the first one
    have hlen : (newer key b hi l ++ onBoundary key b l).length ≤ k := by
      rw [← within_eq_newer_append_onBoundary h hbhi]
      rcases List.mem_cons.mp hc with rfl | hc'
      · exact hck
      · refine le_trans ?_ hck
        rw [length_within_of_tail h hb hc', within_eq_newer_append_onBoundary h hbhi, List.length_append,
          within_eq_onBoundary_append h (hb.tail.inside c hc').2, List.length_append]
        omega
    rw [overlapping_cons h hb, ← List.append_assoc, List.getElem?_append_right hlen] at hk
    rw [List.length_append] at hk hlen
    have hshift : ∀ j, (within key lo b l)[j]? = some a →
        (within key lo hi l)[(newer key b hi l).length + j]? = some a := by
      intro j hj
      rw [within_cons h hb, List.getElem?_append_right (by omega)]
      simpa using hj
    by_cases hatb : onBoundary key b l = []
    · have hc' : c ∈ bs := by
        rcases List.mem_cons.mp hc with rfl | hc'
        · exact absurd hatb hatc
        · exact hc'
      have hck' : (within key c b l).length ≤
          k - ((newer key b hi l).length + (onBoundary key b l).length) := by
        rw [length_within_of_tail h hb hc'] at hck
        rw [hatb, List.length_nil]
        omega
      obtain ⟨j, hj, hja⟩ := ih b _ a hb.tail ⟨c, hc', hatc, hck'⟩ hk
      exact ⟨_, by omega, hshift j hja⟩
    · obtain ⟨j, hj, hja⟩ := overlapping_getElem? h bs b _ a hb.tail hk
      have hpos : 0 < (onBoundary key b l).length := List.length_pos_of_ne_nil hatb
      exact ⟨_, by omega, hshift j hja⟩

/-- **From the first boundary element that is read again on, the readings differ** at every
position that the windows reach. -/
theorem getElem?_overlapping_ne (h : NewestFirst key l) (hnodup : l.Nodup)
    (hb : Boundaries lo hi bs) {k : ℕ} (hk : k < (overlapping key lo hi bs l).length)
    (hbk : ∃ b ∈ bs, onBoundary key b l ≠ [] ∧ (within key b hi l).length ≤ k) :
    (overlapping key lo hi bs l)[k]? ≠ (within key lo hi l)[k]? := by
  intro heq
  have hsome := List.getElem?_eq_getElem hk
  obtain ⟨j, hj, hja⟩ := overlapping_getElem?_lt h bs hi k _ hb hbk hsome
  have hnd : (within key lo hi l).Nodup := hnodup.filter _
  have hjlt : j < (within key lo hi l).length := (List.getElem?_eq_some_iff.mp hja).1
  have := (List.getElem?_inj hjlt hnd).mp (hja.trans (hsome.symm.trans heq))
  omega

/-- The windows read each element on a boundary once more. -/
theorem length_overlapping (h : NewestFirst key l) :
    ∀ (bs : List κ) (hi : κ), Boundaries lo hi bs →
      (overlapping key lo hi bs l).length =
        (within key lo hi l).length + (bs.map fun b => (onBoundary key b l).length).sum := by
  intro bs
  induction bs with
  | nil => simp
  | cons b bs ih =>
    intro hi hb
    rw [overlapping_cons h hb, within_cons h hb]
    simp only [List.length_append, ih b hb.tail, List.map_cons, List.sum_cons]
    omega

/-- What the windows read is at least what there is. -/
theorem length_within_le_overlapping (h : NewestFirst key l) :
    ∀ (bs : List κ) (hi : κ), Boundaries lo hi bs →
      (within key lo hi l).length ≤ (overlapping key lo hi bs l).length := by
  intro bs hi hb
  rw [length_overlapping h bs hi hb]
  exact Nat.le_add_right _ _

/-- Below a boundary that holds an element the windows read at least this element again. -/
theorem length_within_lt_overlapping (h : NewestFirst key l) :
    ∀ (bs : List κ) (hi : κ), Boundaries lo hi bs → b ∈ bs → onBoundary key b l ≠ [] →
      (within key b hi l).length < (overlapping key lo hi bs l).length := by
  intro bs
  induction bs with
  | nil => exact fun hi _ hb => absurd hb List.not_mem_nil
  | cons c bs ih =>
    intro hi hb hbm hatb
    rw [overlapping_cons h hb]
    simp only [List.length_append]
    rcases List.mem_cons.mp hbm with rfl | hbm'
    · have hle := length_within_le_overlapping h bs b hb.tail
      have hpos : 0 < (onBoundary key b l).length := List.length_pos_of_ne_nil hatb
      rw [within_eq_onBoundary_append h (hb.inside b List.mem_cons_self).1, List.length_append] at hle
      rw [within_eq_newer_append_onBoundary h (hb.inside b List.mem_cons_self).2.le, List.length_append]
      omega
    · have := ih c hb.tail hbm' hatb
      rw [length_within_of_tail h hb hbm']
      omega

/-- **The page at `offset` of the windows is the page of the whole range** exactly when it is
empty, when the offset skips all that the windows read, or when it ends before a boundary element
would be read again. -/
theorem page_overlapping_iff (h : NewestFirst key l) (hnodup : l.Nodup)
    (hb : Boundaries lo hi bs) (offset limit : ℕ) :
    ((overlapping key lo hi bs l).drop offset).take limit =
        ((within key lo hi l).drop offset).take limit ↔
      limit = 0 ∨ (overlapping key lo hi bs l).length ≤ offset ∨
        ∀ b ∈ bs, onBoundary key b l ≠ [] → offset + limit ≤ (within key b hi l).length := by
  constructor
  · intro heq
    by_contra hne
    simp only [not_or, not_forall, not_le] at hne
    obtain ⟨hlim, hoff, b, hbm, hatb, hlt⟩ := hne
    -- a position of the page that stands past the boundary
    set k := max offset (within key b hi l).length with hk
    have hkD : k < (overlapping key lo hi bs l).length :=
      max_lt hoff (length_within_lt_overlapping h bs hi hb hbm hatb)
    refine getElem?_overlapping_ne h hnodup hb hkD ⟨b, hbm, hatb, le_max_right _ _⟩ ?_
    have := congrArg (fun l : List α => l[k - offset]?) heq
    simp only [List.getElem?_take, List.getElem?_drop] at this
    have hko : offset + (k - offset) = k := by omega
    rwa [hko, if_pos (by omega), if_pos (by omega)] at this
  · rintro (rfl | hlen | hall)
    · simp
    · have hle := length_within_le_overlapping h bs hi hb
      rw [List.drop_eq_nil_of_le hlen, List.drop_eq_nil_of_le (hle.trans hlen)]
    · have := take_overlapping h bs hi (offset + limit) hb hall
      rw [List.take_drop, List.take_drop, this]

end Windowed
