import Mathlib.Logic.Basic

/-!
# A variable and its copy

A struct is copied with the pointers in it: the copy of a pointer points to the same object, until
one of the two is set. `Pointers` holds what a pointer and its copy point to, with the one object
where they share it, so that a change through one is seen through the other.

A JSON document is decoded into a value in place (`Pointers.decode`): an object that is there is
changed, one that is not is made, and `null` sets the pointer to nil.
-/

/-- Options that are related are both there or both not. -/
theorem Option.Rel.none_or_some {α β : Type} {R : α → β → Prop} {o : Option α} {o' : Option β}
    (h : Option.Rel R o o') :
    (o = .none ∧ o' = .none) ∨ ∃ a b, o = .some a ∧ o' = .some b ∧ R a b := by
  cases h with
  | none => exact .inl ⟨rfl, rfl⟩
  | some h => exact .inr ⟨_, _, rfl, rfl, h⟩

/-- What a document says of an attribute. -/
inductive Change (β : Type) where
  | keep
  | null
  | set (b : β)
deriving DecidableEq

namespace Change

variable {α β : Type}

/-- The attribute with what is said of it; `zero` is the object made for a nil pointer. -/
def apply (apply : β → α → α) (zero : α) : Change β → Option α → Option α
  | keep, a => a
  | null, _ => none
  | set b, a => some (apply b (a.getD zero))

/-- The attribute replaced by what is said of it. -/
def replace : Change α → Option α → Option α
  | keep, a => a
  | null, _ => none
  | set b, _ => some b

/-- A document leaves an attribute in the object that was there. -/
def shares (o : Option α) : Change β → Bool
  | null => false
  | _ => o.isSome

theorem replace_replace (c : Change α) (a : Option α) : c.replace (c.replace a) = c.replace a := by
  cases c <;> rfl

/-- A relation between attributes that a document keeps. -/
theorem apply_rel {R : α → α → Prop} {f : β → α → α} {zero : α} (hzero : R zero zero)
    (h : ∀ b x y, R x y → R (f b x) (f b y)) (c : Change β) {o o' : Option α}
    (ho : Option.Rel R o o') : Option.Rel R (c.apply f zero o) (c.apply f zero o') := by
  cases c with
  | keep => exact ho
  | null => exact .none
  | set b => cases ho with
    | none => exact .some (h b _ _ hzero)
    | some hxy => exact .some (h b _ _ hxy)

end Change

/-- The variable, or its copy. -/
inductive Var where
  | original
  | copy
deriving DecidableEq

/-- What a pointer and its copy point to. -/
inductive Pointers (α : Type) where
  | shared (a : α)
  | apart (original copy : Option α)

namespace Pointers

variable {α β : Type}

/-- A pointer right after it has been copied. -/
def copied : Option α → Pointers α
  | some a => shared a
  | none => apart none none

def get : Pointers α → Var → Option α
  | shared a, _ => some a
  | apart o _, .original => o
  | apart _ c, .copy => c

/-- The object of a pointer is changed. -/
def modify (f : α → α) : Pointers α → Var → Pointers α
  | shared a, _ => shared (f a)
  | apart o c, .original => apart (o.map f) c
  | apart o c, .copy => apart o (c.map f)

/-- The copy is set. -/
def setCopy (p : Pointers α) (a : Option α) : Pointers α := apart (p.get .original) a

/-- A document is decoded into the copy. -/
def decode (apply : β → α → α) (zero : α) (p : Pointers α) : Change β → Pointers α
  | .keep => p
  | .null => p.setCopy none
  | .set b =>
    match p.get .copy with
    | some _ => p.modify (apply b) .copy
    | none => p.setCopy (some (apply b zero))

@[simp] theorem get_copied (o : Option α) (v : Var) : (copied o).get v = o := by
  cases o <;> cases v <;> rfl

@[simp] theorem get_modify_self (f : α → α) (p : Pointers α) (v : Var) :
    (p.modify f v).get v = (p.get v).map f := by
  cases p <;> cases v <;> rfl

@[simp] theorem get_setCopy (p : Pointers α) (a : Option α) : (p.setCopy a).get .copy = a := rfl

/-- What the copy points to when the original is changed. -/
theorem get_modify_original (f : α → α) (p : Pointers α) :
    (p.modify f .original).get .copy = p.get .copy ∨
      (p.modify f .original).get .copy = (p.get .copy).map f := by
  cases p with
  | shared a => exact .inr rfl
  | apart o c => exact .inl rfl

/-- The copy gets the document. -/
theorem get_decode (apply : β → α → α) (zero : α) (p : Pointers α) (c : Change β) :
    (p.decode apply zero c).get .copy = c.apply apply zero (p.get .copy) := by
  cases c with
  | keep => rfl
  | null => rfl
  | set b =>
    rw [decode]
    cases h : p.get .copy with
    | some a => rw [get_modify_self, h]; rfl
    | none => rfl

/-- The copy is parted from the original, which points to `o`, unless they share an object. -/
def Split (o : Option α) (shares : Bool) (p : Pointers α) : Prop :=
  if shares then ∃ a, p = shared a else ∃ c, p = apart o c

/-- A pointer and its copy share an object if there is one, and a document that sets the copy to nil
parts the two. -/
theorem split_decode (apply : β → α → α) (zero : α) (o : Option α) (c : Change β) :
    Split o (c.shares o) ((copied o).decode apply zero c) := by
  cases c with
  | keep => cases o with
    | none => exact ⟨none, rfl⟩
    | some a => exact ⟨a, rfl⟩
  | null =>
    refine ⟨none, ?_⟩
    rw [decode, setCopy, get_copied]
  | set b => cases o with
    | none => exact ⟨_, rfl⟩
    | some a => exact ⟨_, rfl⟩

theorem Split.modify {o : Option α} {shares : Bool} {p : Pointers α} (h : Split o shares p)
    (f : α → α) : Split o shares (p.modify f .copy) := by
  cases shares with
  | true =>
    obtain ⟨a, rfl⟩ := h
    exact ⟨f a, rfl⟩
  | false =>
    obtain ⟨c, rfl⟩ := h
    exact ⟨c.map f, rfl⟩

/-- A copy that is nil shares no object, and may be set. -/
theorem Split.setCopy {o : Option α} {shares : Bool} {p : Pointers α} (h : Split o shares p)
    (hnil : p.get .copy = none) (a : Option α) : Split o shares (p.setCopy a) := by
  cases shares with
  | true =>
    obtain ⟨b, rfl⟩ := h
    cases hnil
  | false =>
    obtain ⟨c, rfl⟩ := h
    exact ⟨a, rfl⟩

/-- What the original points to. -/
theorem Split.get_original {o : Option α} {shares : Bool} {p : Pointers α} (h : Split o shares p) :
    p.get .original = if shares then p.get .copy else o := by
  cases shares with
  | true =>
    obtain ⟨a, rfl⟩ := h
    rfl
  | false =>
    obtain ⟨c, rfl⟩ := h
    rfl

end Pointers
