import BoringPanel.Lib.Windowed
import Mathlib.Data.List.Induction

/-!
# Paging through windows with a cursor

The windows of `Windowed` again, but each of them is read with a cursor: only the elements whose
`id` is smaller than that of the last element read so far are taken, at most `cap` in a window,
until `size` elements have been read (`cursorPages`). `cursorPages_eq_take_iff` says when this gives
the first `cap` elements of the whole range: at each boundary the cursor must hide the elements that
have been read and show the ones that have not (`CursorAgrees`).
-/

namespace Windowed

variable {α κ ι : Type*} [LinearOrder κ] [LinearOrder ι] (key : α → κ) (id : α → ι)

/-- The element comes after the last one read. -/
def after (data : List α) (a : α) : Prop := ∀ last, data.getLast? = some last → id a < id last

instance (data : List α) (a : α) : Decidable (after id data a) :=
  match h : data.getLast? with
  | none => isTrue (by simp [after, h])
  | some last => decidable_of_iff (id a < id last) (by simp [after, h])

/-- The elements of a window that come after the last one read. -/
def visible (w : κ × κ) (l data : List α) : List α :=
  (within key w.1 w.2 l).filter fun a => after id data a

/-- Reads windows until there are `size` elements. -/
def cursorPages (size cap : ℕ) (l : List α) : List (κ × κ) → List α → List α
  | [], data => data
  | w :: ws, data =>
    let data' := data ++ (visible key id w l data).take (min (size - data.length) cap)
    if size ≤ data'.length then data' else cursorPages size cap l ws data'

/-- **The cursor agrees with the order at the upper boundary of a window.** `page` is the page that
is wanted from the elements `l`, and `last` the last of its elements above the window. -/
def CursorAgrees (size cap : ℕ) (l page : List α) (w : κ × κ) : Prop :=
  let shown := page.filter fun a => w.2 ≤ key a
  ∀ last, shown.getLast? = some last → shown.length < size →
    ∀ a ∈ l, w.1 ≤ key a → key a ≤ w.2 →
      (key a = w.2 → ¬ id a < id last) ∧
      (key a < w.2 → a ∈ page → id a < id last) ∧
      (cap < size → a ∉ page → ¬ id a < id last)

variable {key id} {lo hi b c : κ} {bs : List κ} {l page data X : List α} {size cap : ℕ}

/-! ### The cursor -/

@[simp] theorem after_nil (a : α) : after id [] a := by
  simp [after]

/-- What comes after later elements comes after the earlier ones. -/
theorem after_of_append {a : α} (hX : ∀ x ∈ X, after id data x) (h : after id (data ++ X) a) :
    after id data a := by
  intro last hlast
  cases X using List.reverseRecOn with
  | nil => exact h last (by simpa using hlast)
  | append_singleton X x =>
    have hx := hX x (by simp) last hlast
    have ha := h x (by simp)
    exact ha.trans hx

theorem after_visible {w : κ × κ} {a : α} (ha : a ∈ visible key id w l data) : after id data a := by
  simpa using (List.mem_filter.mp ha).2

theorem mem_visible {w : κ × κ} {a : α} :
    a ∈ visible key id w l data ↔ (a ∈ l ∧ w.1 ≤ key a ∧ key a ≤ w.2) ∧ after id data a := by
  simp only [visible, within, List.mem_filter, decide_eq_true_eq]

/-- Windows of a range read what they read of the whole list. -/
theorem cursorPages_within {ws : List (κ × κ)} (hws : ∀ w ∈ ws, lo ≤ w.1 ∧ w.2 ≤ hi) :
    ∀ data : List α, cursorPages key id size cap (within key lo hi l) ws data =
      cursorPages key id size cap l ws data := by
  induction ws with
  | nil => exact fun _ => rfl
  | cons w ws ih =>
    intro data
    obtain ⟨hlo, hhi⟩ := hws w List.mem_cons_self
    have hvisible : visible key id w (within key lo hi l) data = visible key id w l data := by
      unfold visible
      rw [within_within hlo hhi]
    simp only [cursorPages, hvisible, ih fun v hv => hws v (List.mem_cons_of_mem w hv)]

variable (key id l size cap) in
/-- The windows only add elements of their own that come after the ones read. -/
theorem cursorPages_append (ws : List (κ × κ)) :
    ∀ data : List α, ∃ Y, cursorPages key id size cap l ws data = data ++ Y ∧
      ∀ y ∈ Y, (∃ w ∈ ws, w.1 ≤ key y ∧ key y ≤ w.2) ∧ after id data y := by
  induction ws with
  | nil => exact fun data => ⟨[], by simp [cursorPages], by simp⟩
  | cons w ws ih =>
    intro data
    set X := (visible key id w l data).take (min (size - data.length) cap) with hX
    have hXmem : ∀ x ∈ X, (∃ v ∈ w :: ws, v.1 ≤ key x ∧ key x ≤ v.2) ∧ after id data x := by
      intro x hx
      have hx' := mem_visible.mp (List.mem_of_mem_take hx)
      exact ⟨⟨w, List.mem_cons_self, hx'.1.2⟩, hx'.2⟩
    by_cases hfull : size ≤ (data ++ X).length
    · refine ⟨X, ?_, hXmem⟩
      simp only [cursorPages, ← hX]
      rw [if_pos hfull]
    · obtain ⟨Y, hY, hYmem⟩ := ih (data ++ X)
      refine ⟨X ++ Y, ?_, fun y hy => ?_⟩
      · simp only [cursorPages, ← hX]
        rw [if_neg hfull, hY, List.append_assoc]
      · rcases List.mem_append.mp hy with hy | hy
        · exact hXmem y hy
        · obtain ⟨⟨v, hv, hkey⟩, hafter⟩ := hYmem y hy
          exact ⟨⟨v, List.mem_cons_of_mem w hv, hkey⟩,
            after_of_append (fun x hx => (hXmem x hx).2) hafter⟩

/-! ### The page at a boundary -/

/-- The elements with a key of at least `b`. -/
def since (key : α → κ) (b : κ) (l : List α) : List α := l.filter fun a => b ≤ key a

/-- The elements with a key in `[b, c)`. -/
def older (key : α → κ) (b c : κ) (l : List α) : List α := l.filter fun a => b ≤ key a ∧ key a < c

theorem since_append_rest (h : NewestFirst key l) (c : κ) :
    l = since key c l ++ l.filter fun a => key a < c := by
  conv_lhs => rw [← List.filter_true l]
  refine filter_append_filter h (fun a _ => ?_) (fun a _ ha => ?_) (fun a _ x _ ha hx => ?_)
  · simp [le_or_gt]
  · simpa using ha
  · simp only [decide_eq_true_eq] at ha hx
    exact ha.trans_le hx

theorem since_eq_since_append_older (h : NewestFirst key l) (hbc : b ≤ c) :
    since key b l = since key c l ++ older key b c l := by
  refine filter_append_filter h (fun a _ => ?_) (fun a _ ha => ?_) (fun a _ x _ ha hx => ?_)
  · rw [Bool.eq_iff_iff]
    simp only [decide_eq_true_eq, Bool.or_eq_true]
    constructor
    · intro hb
      rcases le_or_gt c (key a) with hc | hc
      · exact .inl hc
      · exact .inr ⟨hb, hc⟩
    · rintro (hc | ⟨hb, -⟩)
      · exact hbc.trans hc
      · exact hb
  · simp only [decide_eq_true_eq, decide_eq_false_iff_not] at ha ⊢
    exact fun hc => absurd hc.2 (not_lt.mpr ha)
  · simp only [decide_eq_true_eq] at ha hx
    exact ha.2.trans_le hx

/-- The elements of a page above a boundary are a page of the elements above it. -/
theorem since_take (h : NewestFirst key l) (c : κ) (n : ℕ) :
    since key c (l.take n) = (since key c l).take n := by
  conv_lhs => rw [since_append_rest h c, List.take_append]
  unfold since
  rw [List.filter_append]
  have h₁ : ((l.filter fun a => c ≤ key a).take n).filter (fun a => decide (c ≤ key a)) =
      (l.filter fun a => c ≤ key a).take n :=
    List.filter_eq_self.mpr fun a ha => (List.mem_filter.mp (List.mem_of_mem_take ha)).2
  have h₂ : ((l.filter fun a => key a < c).take
      (n - (l.filter fun a => decide (c ≤ key a)).length)).filter
        (fun a => decide (c ≤ key a)) = [] := by
    rw [List.filter_eq_nil_iff]
    intro a ha
    have := (List.mem_filter.mp (List.mem_of_mem_take ha)).2
    simpa using this
  rw [h₁, h₂, List.append_nil]

/-- A page is its part above `b` once nothing lies below. -/
theorem since_eq_self (hlo : ∀ a ∈ l, b ≤ key a) : since key b l = l :=
  List.filter_eq_self.mpr fun a ha => by simpa using hlo a ha

/-- The page down to `b` is the page down to `c` with the next elements. -/
theorem since_take_eq_append (h : NewestFirst key l) (hbc : b ≤ c) (n : ℕ) :
    since key b (l.take n) = since key c (l.take n) ++
      (older key b c l).take (n - (since key c (l.take n)).length) := by
  rw [since_take h, since_take h, since_eq_since_append_older h hbc, List.take_append]
  congr 2
  rw [List.length_take]
  omega

theorem mem_older {a : α} : a ∈ older key b c l ↔ a ∈ l ∧ b ≤ key a ∧ key a < c := by
  simp [older]

/-- What a window can show: the elements on its upper boundary, then the older ones. -/
theorem visible_eq (h : NewestFirst key l) (hbc : b < c) (data : List α) :
    visible key id (b, c) l data =
      ((onBoundary key c l).filter fun a => after id data a) ++
        (older key b c l).filter fun a => after id data a := by
  unfold visible
  rw [within_eq_onBoundary_append h hbc, List.filter_append]
  rfl

/-- If nothing of a nonempty page lies above a boundary, nothing at all does. -/
theorem since_eq_nil_of_take (h : NewestFirst key l) (hcap : 0 < cap)
    (hshown : since key c (l.take cap) = []) : since key c l = [] := by
  rw [since_take h, List.take_eq_nil_iff] at hshown
  exact hshown.resolve_left (by omega)

variable (id) in
/-- **One window shows the next elements of the page** exactly when the cursor agrees with the order
at its upper boundary. -/
theorem take_visible_eq_iff (h : NewestFirst key l) (hnd : l.Nodup) (hbc : b < c) (hcap : 0 < cap)
    (hle : cap ≤ size) (hfull : (since key c (l.take cap)).length < size) :
    (visible key id (b, c) l (since key c (l.take cap))).take
        (min (size - (since key c (l.take cap)).length) cap) =
      (older key b c l).take (cap - (since key c (l.take cap)).length) ↔
    CursorAgrees key id size cap l (l.take cap) (b, c) := by
  set shown := since key c (l.take cap) with hshown
  have hlen : shown.length ≤ cap := by
    rw [hshown, since_take h, List.length_take]
    omega
  cases hlast : shown.getLast? with
  | none =>
    -- nothing has been read, the window shows all it has
    have hnil : shown = [] := List.getLast?_eq_none_iff.mp hlast
    have hbnd : onBoundary key c l = [] := by
      rw [onBoundary_eq_nil_iff]
      intro a ha hc
      have : a ∈ since key c l := by simp [since, ha, hc]
      rw [since_eq_nil_of_take h hcap (hshown.symm.trans hnil)] at this
      exact List.not_mem_nil this
    constructor
    · intro _ last hl
      exact absurd (hl.symm.trans hlast) (by simp)
    · intro _
      rw [hnil, visible_eq h hbc, hbnd]
      simp [Nat.min_eq_right hle]
  | some last =>
    have hpos : 0 < shown.length := by
      rw [List.length_pos_iff]
      rintro hnil
      rw [hnil] at hlast
      cases hlast
    have hafter : ∀ a, after id shown a ↔ id a < id last := by
      intro a
      constructor
      · exact fun ha => ha last hlast
      · intro ha last' hlast'
        obtain rfl : last' = last := Option.some.inj (hlast'.symm.trans hlast)
        exact ha
    set k := cap - shown.length with hk
    set half := (older key b c l).take k with hhalf
    set rest := (older key b c l).drop k with hrest
    have hsplit : older key b c l = half ++ rest := (List.take_append_drop k _).symm
    have hhalflen : half.length ≤ k := List.length_take_le _ _
    -- the elements of the page in the window
    have hpage : ∀ a ∈ older key b c l, (a ∈ l.take cap ↔ a ∈ half) := by
      intro a ha
      have hmem : a ∈ since key b (l.take cap) ↔ a ∈ l.take cap := by
        have := (mem_older.mp ha).2.1
        simp [since, this]
      have hnot : a ∉ shown := by
        intro hs
        have : c ≤ key a := by simpa [hshown, since] using (List.mem_filter.mp hs).2
        exact absurd (mem_older.mp ha).2.2 (not_lt.mpr this)
      rw [← hmem, since_take_eq_append h hbc.le, List.mem_append, ← hshown, ← hk, ← hhalf]
      exact ⟨fun hor => hor.resolve_left hnot, .inr⟩
    have hdisj : ∀ a ∈ rest, a ∉ half := by
      have hnd' : (half ++ rest).Nodup := hsplit ▸ hnd.filter _
      exact fun a ha hh => (List.nodup_append.mp hnd').2.2 a hh a ha rfl
    set B := (onBoundary key c l).filter fun a => after id shown a with hB
    set H := (older key b c l).filter fun a => after id shown a with hH
    have hHsplit : H = half.filter (fun a => after id shown a) ++
        rest.filter (fun a => after id shown a) := by
      rw [hH, hsplit, List.filter_append]
    rw [visible_eq h hbc, ← hB, ← hH]
    constructor
    · intro heq last' hlast' _ a ha hba hac
      obtain rfl : last' = last := Option.some.inj (hlast'.symm.trans hlast)
      -- an element on the boundary would stand first in the window
      have hBnil : B = [] := by
        cases hBc : B with
        | nil => rfl
        | cons x B' =>
          rw [hBc] at heq
          obtain ⟨m, hm⟩ : ∃ m, min (size - shown.length) cap = m + 1 :=
            ⟨min (size - shown.length) cap - 1, by omega⟩
          rw [hm, List.cons_append, List.take_succ_cons] at heq
          have hx : x ∈ older key b c l := by
            rw [hsplit, List.mem_append, ← heq]
            exact .inl List.mem_cons_self
          have hxc : key x = c := by
            have : x ∈ B := by rw [hBc]; exact List.mem_cons_self
            simpa [onBoundary] using (List.mem_filter.mp (List.mem_filter.mp this).1).2
          exact absurd (mem_older.mp hx).2.2 (by rw [hxc]; exact lt_irrefl c)
      rw [hBnil, List.nil_append] at heq
      refine ⟨fun hc hid => ?_, fun hc hp => ?_, fun hcut hnp hid => ?_⟩
      · have : a ∈ B := by simp [hB, onBoundary, ha, hc, (hafter a).mpr hid]
        rw [hBnil] at this
        exact List.not_mem_nil this
      · have hold := mem_older.mpr ⟨ha, hba, hc⟩
        have hmem : a ∈ H.take (min (size - shown.length) cap) := by
          rw [heq]
          exact (hpage a hold).mp hp
        exact (hafter a).mp (by simpa using (List.mem_filter.mp (List.mem_of_mem_take hmem)).2)
      · rcases hac.eq_or_lt with hc | hc
        · have : a ∈ B := by simp [hB, onBoundary, ha, hc, (hafter a).mpr hid]
          rw [hBnil] at this
          exact List.not_mem_nil this
        · have hold := mem_older.mpr ⟨ha, hba, hc⟩
          have hrestmem : a ∈ rest := by
            have := hsplit ▸ hold
            exact (List.mem_append.mp this).resolve_left fun hh => hnp ((hpage a hold).mpr hh)
          -- the window has room for one more element than the page wants
          have hsub : half.filter (fun a => after id shown a) = half := by
            refine List.filter_eq_self.mpr fun x hx => ?_
            have : x ∈ H.take (min (size - shown.length) cap) := heq ▸ hx
            exact (List.mem_filter.mp (List.mem_of_mem_take this)).2
          have hlong : half.length < H.length := by
            rw [hHsplit, hsub, List.length_append]
            have : 0 < (rest.filter fun a => after id shown a).length :=
              List.length_pos_of_mem (List.mem_filter.mpr ⟨hrestmem, by simp [hafter a, hid]⟩)
            omega
          have := congrArg List.length heq
          rw [List.length_take] at this
          omega
    · intro hagree
      have hagree' := hagree last hlast hfull
      have hBnil : B = [] := by
        rw [hB, List.filter_eq_nil_iff]
        intro a ha
        obtain ⟨hal, hac⟩ := List.mem_filter.mp ha
        have hac : key a = c := by simpa using hac
        simpa [hafter a] using (hagree' a hal (by rw [hac]; exact hbc.le) hac.le).1 hac
      have hsub : half.filter (fun a => after id shown a) = half := by
        refine List.filter_eq_self.mpr fun a ha => ?_
        have hold : a ∈ older key b c l := by
          rw [hsplit]
          exact List.mem_append_left _ ha
        obtain ⟨hal, hba, hac⟩ := mem_older.mp hold
        simpa [hafter a] using (hagree' a hal hba hac.le).2.1 hac ((hpage a hold).mpr ha)
      rw [hBnil, List.nil_append, hHsplit, hsub]
      by_cases hcut : cap < size
      · have hrestnil : rest.filter (fun a => after id shown a) = [] := by
          rw [List.filter_eq_nil_iff]
          intro a ha
          have hold : a ∈ older key b c l := by
            rw [hsplit]
            exact List.mem_append_right _ ha
          obtain ⟨hal, hba, hac⟩ := mem_older.mp hold
          simpa [hafter a] using (hagree' a hal hba hac.le).2.2 hcut
            fun hp => hdisj a ha ((hpage a hold).mp hp)
        rw [hrestnil, List.append_nil, List.take_of_length_le (by omega)]
      · have hmin : min (size - shown.length) cap = k := by omega
        rw [hmin]
        by_cases hrestnil : rest = []
        · rw [hrestnil, List.filter_nil, List.append_nil, List.take_of_length_le hhalflen]
        · have hkeq : half.length = k := by
            have := List.length_pos_of_ne_nil hrestnil
            rw [hrest, List.length_drop] at this
            rw [hhalf, List.length_take]
            omega
          rw [List.take_append_of_le_length hkeq.ge, List.take_of_length_le hkeq.le]

/-! ### All windows -/

/-- A full page stays what it is. -/
theorem since_eq_of_full (hle : cap ≤ size)
    (hfull : size ≤ (since key c (l.take cap)).length) : since key c (l.take cap) = l.take cap := by
  refine List.Sublist.eq_of_length_le List.filter_sublist ?_
  have := List.length_take_le cap l
  omega

/-- Below a full page the cursor agrees whatever it shows. -/
theorem cursorAgrees_of_full {w : κ × κ} (h : size ≤ (since key w.2 page).length) :
    CursorAgrees key id size cap l page w := by
  intro last _ hlt
  exact absurd hlt (not_lt.mpr h)

theorem since_length_mono (hbc : b ≤ c) :
    (since key c page).length ≤ (since key b page).length := by
  unfold since
  rw [← List.countP_eq_length_filter, ← List.countP_eq_length_filter]
  refine List.countP_mono_left fun a _ ha => ?_
  simp only [decide_eq_true_eq] at ha ⊢
  exact hbc.trans ha

/-- A run that ends with the page has read the right elements in its first window. -/
theorem take_visible_eq_of_run (h : NewestFirst key l) (hnd : l.Nodup) (hbc : b < c)
    {ws : List (κ × κ)} (hws : ∀ w ∈ ws, w.2 ≤ b)
    (hrun : cursorPages key id size cap l ((b, c) :: ws) (since key c (l.take cap)) = l.take cap) :
    (visible key id (b, c) l (since key c (l.take cap))).take
        (min (size - (since key c (l.take cap)).length) cap) =
      (older key b c l).take (cap - (since key c (l.take cap)).length) := by
  set shown := since key c (l.take cap) with hshown
  set V := visible key id (b, c) l shown with hV
  set X := V.take (min (size - shown.length) cap) with hX
  set half := (older key b c l).take (cap - shown.length) with hhalf
  -- the rest of the run, and the rest of the page
  obtain ⟨Y, hY, hYmem⟩ : ∃ Y, cursorPages key id size cap l ((b, c) :: ws) shown =
      shown ++ (X ++ Y) ∧ ∀ y ∈ Y, (key y ≤ b ∧ after id shown y) ∧
        (shown ++ X).length < size := by
    by_cases hfull : size ≤ (shown ++ X).length
    · refine ⟨[], ?_, by simp⟩
      simp only [cursorPages, ← hV, ← hX]
      rw [if_pos hfull, List.append_nil]
    · obtain ⟨Y, hY, hYmem⟩ :=
        cursorPages_append key id l size cap ws (shown ++ X)
      refine ⟨Y, ?_, fun y hy => ?_⟩
      · simp only [cursorPages, ← hV, ← hX]
        rw [if_neg hfull, hY, List.append_assoc]
      · obtain ⟨⟨w, hw, -, hkey⟩, hafter⟩ := hYmem y hy
        exact ⟨⟨hkey.trans (hws w hw), after_of_append
          (fun x hx => after_visible (List.mem_of_mem_take hx)) hafter⟩, not_le.mp hfull⟩
  obtain ⟨O, hO, hOmem⟩ : ∃ O, l.take cap = shown ++ (half ++ O) ∧ ∀ o ∈ O, key o < b := by
    refine ⟨(l.take cap).filter fun a => key a < b, ?_, fun o ho => ?_⟩
    · rw [← List.append_assoc, hhalf, hshown, ← since_take_eq_append h hbc.le]
      exact since_append_rest (h.sublist (List.take_sublist cap l)) b
    · simpa using (List.mem_filter.mp ho).2
  have heq : X ++ Y = half ++ O := List.append_cancel_left (hY.symm.trans (hrun.trans hO))
  have hpagelen : (l.take cap).length ≤ cap := List.length_take_le _ _
  rcases List.append_eq_append_iff.mp heq with ⟨A, hhalfA, hYA⟩ | ⟨A, hXA, hOA⟩
  · cases A with
    | nil => rw [hhalfA, List.append_nil]
    | cons r A =>
      -- `r` was left out of the window, and read from a later one
      exfalso
      have hrhalf : r ∈ half := by
        rw [hhalfA]
        exact List.mem_append_right _ List.mem_cons_self
      have hrY : r ∈ Y := by
        rw [hYA]
        exact List.mem_append_left _ List.mem_cons_self
      obtain ⟨hrl, hrb, hrc⟩ := mem_older.mp (List.mem_of_mem_take hrhalf)
      obtain ⟨⟨-, hrafter⟩, hlt⟩ := hYmem r hrY
      have hrV : r ∈ V := mem_visible.mpr ⟨⟨hrl, hrb, hrc.le⟩, hrafter⟩
      have hrX : r ∉ X := by
        have hnd' : (X ++ r :: A).Nodup :=
          hhalfA ▸ (hnd.filter _).sublist (List.take_sublist _ _)
        exact fun hr => (List.nodup_append.mp hnd').2.2 r hr r List.mem_cons_self rfl
      have hcut : X.length = min (size - shown.length) cap := by
        rw [hX, List.length_take]
        refine min_eq_left ?_
        by_contra hshort
        exact hrX (by rw [hX, List.take_of_length_le (by omega)]; exact hrV)
      have := congrArg List.length hO
      rw [hhalfA] at this
      simp only [List.length_append, List.length_cons] at this hlt
      omega
  · cases A with
    | nil => rw [hXA, List.append_nil]
    | cons r A =>
      exfalso
      have hrX : r ∈ X := by
        rw [hXA]
        exact List.mem_append_right _ List.mem_cons_self
      have hrO : r ∈ O := by
        rw [hOA]
        exact List.mem_append_left _ List.mem_cons_self
      have hrb := (mem_visible.mp (List.mem_of_mem_take hrX)).1.2.1
      exact absurd (hOmem r hrO) (not_lt.mpr hrb)

/-- The windows below a boundary, read with the page down to it. -/
theorem cursorPages_since_iff (h : NewestFirst key l) (hnd : l.Nodup) (hcap : 0 < cap)
    (hle : cap ≤ size) (hlo : ∀ a ∈ l, lo ≤ key a) :
    ∀ (bs : List κ) (c : κ), lo < c → Boundaries lo c bs →
      (since key c (l.take cap)).length < size →
      (cursorPages key id size cap l (windows lo c bs) (since key c (l.take cap)) = l.take cap ↔
        ∀ w ∈ windows lo c bs, CursorAgrees key id size cap l (l.take cap) w) := by
  -- one window, with what is known of the rest
  have step : ∀ (b c : κ) (ws : List (κ × κ)), b < c → (∀ w ∈ ws, w.2 ≤ b) →
      (since key c (l.take cap)).length < size →
      ((since key b (l.take cap)).length < size →
        (cursorPages key id size cap l ws (since key b (l.take cap)) = l.take cap ↔
          ∀ w ∈ ws, CursorAgrees key id size cap l (l.take cap) w)) →
      (cursorPages key id size cap l ((b, c) :: ws) (since key c (l.take cap)) = l.take cap ↔
        ∀ w ∈ (b, c) :: ws, CursorAgrees key id size cap l (l.take cap) w) := by
    intro b c ws hbc hws hlt hrest
    have hiff := take_visible_eq_iff id h hnd hbc hcap hle hlt
    have hread := since_take_eq_append h hbc.le cap
    rw [List.forall_mem_cons]
    constructor
    · intro hrun
      have hX := take_visible_eq_of_run h hnd hbc hws hrun
      refine ⟨hiff.mp hX, ?_⟩
      by_cases hfull : size ≤ (since key b (l.take cap)).length
      · exact fun w hw => cursorAgrees_of_full (hfull.trans (since_length_mono (hws w hw)))
      · refine (hrest (not_le.mp hfull)).mp ?_
        simp only [cursorPages, hX, ← hread] at hrun
        rwa [if_neg hfull] at hrun
    · rintro ⟨hagree, hagrees⟩
      simp only [cursorPages, hiff.mpr hagree, ← hread]
      by_cases hfull : size ≤ (since key b (l.take cap)).length
      · rw [if_pos hfull, since_eq_of_full hle hfull]
      · rw [if_neg hfull]
        exact (hrest (not_le.mp hfull)).mpr hagrees
  intro bs
  induction bs with
  | nil =>
    intro c hc _ hlt
    refine step lo c [] hc (List.forall_mem_nil _) hlt fun _ => ?_
    have hall : since key lo (l.take cap) = l.take cap :=
      since_eq_self fun a ha => hlo a (List.mem_of_mem_take ha)
    simp [cursorPages, hall]
  | cons b bs ih =>
    intro c hc hb hlt
    have hbin := hb.inside b List.mem_cons_self
    refine step b c (windows lo b bs) hbin.2 (fun w hw => ?_) hlt (ih b hbin.1 hb.tail)
    exact (mem_windows hbin.1.le hb.tail hw).2.2

variable (id l) in
/-- **The windows give the page** exactly when the cursor agrees with the order at every interior
boundary. -/
theorem cursorPages_eq_take_iff (h : NewestFirst key l) (hnd : l.Nodup) (hcap : 0 < cap)
    (hle : cap ≤ size) (hin : ∀ a ∈ l, lo ≤ key a ∧ key a ≤ hi) (hb : Boundaries lo hi bs) :
    cursorPages key id size cap l (windows lo hi bs) [] = l.take cap ↔
      ∀ w ∈ (windows lo hi bs).tail, CursorAgrees key id size cap l (l.take cap) w := by
  have hfirst : ∀ b,
      (visible key id (b, hi) l []).take (min (size - 0) cap) = since key b (l.take cap) := by
    intro b
    rw [since_take h, Nat.min_eq_right (by omega)]
    congr 1
    unfold visible since within
    rw [List.filter_filter]
    refine List.filter_congr fun a ha => ?_
    simp [(hin a ha).2]
  cases bs with
  | nil =>
    have hall : since key lo (l.take cap) = l.take cap :=
      since_eq_self fun a ha => (hin a (List.mem_of_mem_take ha)).1
    have hX := hfirst lo
    simp only [windows, cursorPages, List.nil_append, List.length_nil, hX, hall, List.tail_cons]
    simp
  | cons b bs =>
    have hbin := hb.inside b List.mem_cons_self
    have hX := hfirst b
    simp only [windows, cursorPages, List.nil_append, List.length_nil, hX, List.tail_cons]
    by_cases hfull : size ≤ (since key b (l.take cap)).length
    · rw [if_pos hfull, since_eq_of_full hle hfull]
      refine ⟨fun _ w hw => cursorAgrees_of_full (hfull.trans (since_length_mono ?_)), fun _ => rfl⟩
      exact (mem_windows hbin.1.le hb.tail hw).2.2
    · rw [if_neg hfull]
      exact cursorPages_since_iff h hnd hcap hle (fun a ha => (hin a ha).1) bs b hbin.1 hb.tail
        (not_le.mp hfull)

end Windowed
