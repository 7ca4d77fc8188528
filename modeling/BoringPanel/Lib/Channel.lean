import Mathlib.Data.List.Basic

/-!
# Buffered channels

A channel with a buffer, together with all that was ever placed in it. A send that does not block drops
its value when the buffer is full, so what is placed are the values that were offered, up to these drops
(`Fills`). A send on a closed channel panics, and so does a second close.
-/

namespace Go

variable {α : Type} {cap : Nat}

/-- A channel: what was placed in it so far, and how much of that was received. -/
structure Chan (α : Type) where
  placed : List α
  received : Nat
  closed : Bool
deriving Repr

namespace Chan

/-- `make(chan α, cap)`. -/
def make : Chan α := ⟨[], 0, false⟩

/-- How many values wait in the buffer. -/
def unread (ch : Chan α) : Nat := ch.placed.length - ch.received

/-- A `select` that sends or does nothing; `none` is a panic. -/
def trySend (cap : Nat) (ch : Chan α) (v : α) : Option (Chan α) :=
  if ch.closed then none
  else if ch.unread < cap then some { ch with placed := ch.placed ++ [v] }
  else some ch

/-- `close(ch)`; `none` is a panic. -/
def close (ch : Chan α) : Option (Chan α) :=
  if ch.closed then none else some { ch with closed := true }

/-- A receive that gets a value; `none` where there is none to get. -/
def receive (ch : Chan α) : Option (Chan α) :=
  if ch.received < ch.placed.length then some { ch with received := ch.received + 1 } else none

end Chan

/-- The channel holds the values that were offered, without those that were offered while `cap` values
were unread; it is closed at most once, and nothing is offered after that. -/
inductive Fills (cap : Nat) : List α → Chan α → Prop
  | make : Fills cap [] Chan.make
  | placed {offered : List α} {ch : Chan α} (h : Fills cap offered ch) (hopen : ch.closed = false)
      (hroom : ch.unread < cap) (v : α) :
      Fills cap (offered ++ [v]) { ch with placed := ch.placed ++ [v] }
  | dropped {offered : List α} {ch : Chan α} (h : Fills cap offered ch) (hopen : ch.closed = false)
      (hfull : cap ≤ ch.unread) (v : α) : Fills cap (offered ++ [v]) ch
  | received {offered : List α} {ch : Chan α} (h : Fills cap offered ch)
      (hsome : ch.received < ch.placed.length) :
      Fills cap offered { ch with received := ch.received + 1 }
  | closed {offered : List α} {ch : Chan α} (h : Fills cap offered ch) (hopen : ch.closed = false) :
      Fills cap offered { ch with closed := true }

namespace Fills

variable {offered : List α} {ch ch' : Chan α}

theorem trySend (h : Fills cap offered ch) {v : α} (hsend : ch.trySend cap v = some ch') :
    Fills cap (offered ++ [v]) ch' := by
  unfold Chan.trySend at hsend
  split at hsend
  · cases hsend
  · rename_i hopen
    split at hsend
    · rename_i hroom
      obtain rfl := Option.some.inj hsend
      exact h.placed (eq_false_of_ne_true hopen) hroom v
    · rename_i hfull
      obtain rfl := Option.some.inj hsend
      exact h.dropped (eq_false_of_ne_true hopen) (Nat.le_of_not_lt hfull) v

theorem close (h : Fills cap offered ch) (hclose : ch.close = some ch') : Fills cap offered ch' := by
  unfold Chan.close at hclose
  split at hclose
  · cases hclose
  · rename_i hopen
    obtain rfl := Option.some.inj hclose
    exact h.closed (eq_false_of_ne_true hopen)

theorem receive (h : Fills cap offered ch) (hreceive : ch.receive = some ch') :
    Fills cap offered ch' := by
  unfold Chan.receive at hreceive
  split at hreceive
  · rename_i hsome
    obtain rfl := Option.some.inj hreceive
    exact h.received hsome
  · cases hreceive

/-- Nothing is placed that was not offered, and in the order of the offers. -/
theorem sublist (h : Fills cap offered ch) : ch.placed.Sublist offered := by
  induction h with
  | make => exact List.Sublist.refl _
  | placed _ _ _ v ih => exact ih.append_right [v]
  | dropped _ _ _ v ih => exact ih.trans (List.sublist_append_left _ _)
  | received _ _ ih => exact ih
  | closed _ _ ih => exact ih

end Fills

end Go
