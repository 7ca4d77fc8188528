import Mathlib.Data.List.Basic

/-!
# Hexadecimal texts

Bytes as two hexadecimal digits each, and the bytes of a text.

* `encodeToString`: the digits of bytes, one after the other.
* `utf8Bytes`: the bytes of a text. None of them is `0xff`.
* `eq_replicate_of_take`: the digits of bytes begin with these very bytes only if all of them are the
  digit `3`, which is its own first digit and its own second digit.
-/

namespace HexText

def hexDigit (n : Nat) : Char := if n < 10 then Char.ofNat (48 + n) else Char.ofNat (87 + n)

/-- The two digits of a byte. -/
def hexByte (b : UInt8) : List Char := [hexDigit (b.toNat / 16), hexDigit (b.toNat % 16)]

/-- The digits of bytes. -/
def encodeToString (bs : List UInt8) : String := String.ofList (bs.flatMap hexByte)

/-- The bytes of a text. -/
def utf8Bytes (s : String) : List UInt8 := s.toList.flatMap String.utf8EncodeChar

/-- No byte of UTF-8 has all bits set. -/
theorem ff_notMem_utf8EncodeChar (c : Char) : 0xff ∉ String.utf8EncodeChar c := by
  have hne : ∀ n < 255, (0xff : UInt8) ≠ UInt8.ofNat n := by
    intro n hn heq
    have hval := congrArg UInt8.toNat heq
    rw [UInt8.toNat_ofNat_of_lt' (Nat.lt_trans hn (by decide))] at hval
    have hff : UInt8.toNat 0xff = 255 := rfl
    omega
  unfold String.utf8EncodeChar
  generalize c.val.toNat = v
  simp only []
  split_ifs with h₁ h₂ h₃ <;> simp only [List.mem_cons, List.not_mem_nil, or_false, not_or]
  · exact hne _ (by omega)
  · exact ⟨hne _ (by omega), hne _ (by omega)⟩
  · exact ⟨hne _ (by omega), hne _ (by omega), hne _ (by omega)⟩
  · exact ⟨hne _ (by omega), hne _ (by omega), hne _ (by omega), hne _ (by omega)⟩

theorem ff_notMem_utf8Bytes (s : String) : 0xff ∉ utf8Bytes s := by
  intro hmem
  obtain ⟨c, -, hc⟩ := List.mem_flatMap.mp hmem
  exact ff_notMem_utf8EncodeChar c hc

/-- The byte of a digit. -/
def digitByte (n : Nat) : UInt8 := (hexDigit n).toNat.toUInt8

theorem utf8EncodeChar_hexDigit {n : Nat} (h : n < 16) :
    String.utf8EncodeChar (hexDigit n) = [digitByte n] := by
  revert n
  decide

theorem utf8Bytes_encodeToString (bs : List UInt8) :
    utf8Bytes (encodeToString bs) = bs.flatMap fun b => [digitByte (b.toNat / 16), digitByte (b.toNat % 16)] := by
  rw [utf8Bytes, encodeToString, String.toList_ofList, List.flatMap_assoc]
  refine congrArg (bs.flatMap ·) (funext fun b => ?_)
  have hb := b.toNat_lt
  rw [hexByte, List.flatMap_cons, List.flatMap_cons, List.flatMap_nil, utf8EncodeChar_hexDigit (by omega),
    utf8EncodeChar_hexDigit (Nat.mod_lt _ (by decide))]
  rfl

/-- Two elements for each one of a list. -/
theorem getElem?_flatMap_pair {α β : Type} (f g : α → β) (l : List α) (i : Nat) :
    (l.flatMap fun a => [f a, g a])[i]? = l[i / 2]?.map fun a => if i % 2 = 0 then f a else g a := by
  induction l generalizing i with
  | nil => rfl
  | cons a l ih =>
    match i with
    | 0 => rfl
    | 1 => rfl
    | i + 2 =>
      have hdiv : (i + 2) / 2 = i / 2 + 1 := by omega
      have hmod : (i + 2) % 2 = i % 2 := by omega
      rw [hdiv, hmod, List.getElem?_cons_succ, ← ih i]
      rfl

/-- A byte that is its own first digit. -/
theorem eq_of_digitByte_div (b : UInt8) (h : digitByte (b.toNat / 16) = b) : b = 0x33 := by
  -- The first digit of the byte of a digit is that digit for no other one.
  have hall : ∀ n < 16, (digitByte n).toNat / 16 = n → n = 3 := by decide
  have hb := b.toNat_lt
  have hthree := hall (b.toNat / 16) (by omega) (by rw [h])
  rw [← h, hthree]
  rfl

/-- The digits begin with the bytes that they write. -/
theorem eq_replicate_of_take {bs : List UInt8}
    (h : (utf8Bytes (encodeToString bs)).take bs.length = bs) : bs = List.replicate bs.length 0x33 := by
  have hdigit : ∀ i < bs.length, bs[i]? = bs[i / 2]?.map fun b =>
      if i % 2 = 0 then digitByte (b.toNat / 16) else digitByte (b.toNat % 16) := by
    intro i hi
    have hget := congrArg (·[i]?) h
    simp only [List.getElem?_take_of_lt hi, utf8Bytes_encodeToString, getElem?_flatMap_pair] at hget
    exact hget.symm
  have hall : ∀ i < bs.length, bs[i]? = some 0x33 := by
    intro i
    induction i using Nat.strongRecOn with
    | _ i ih =>
      intro hi
      have hi' := hdigit i hi
      rcases Nat.eq_zero_or_pos i with rfl | hpos
      · rw [List.getElem?_eq_getElem hi] at hi' ⊢
        exact congrArg some (eq_of_digitByte_div _ (Option.some.inj hi').symm)
      · rw [ih (i / 2) (by omega) (by omega)] at hi'
        rw [hi']
        split
        · rfl
        · rfl
  refine List.ext_getElem? fun i => ?_
  rcases Nat.lt_or_ge i bs.length with hi | hi
  · rw [hall i hi, List.getElem?_replicate_of_lt hi]
  · rw [List.getElem?_eq_none hi, List.getElem?_eq_none (by rwa [List.length_replicate])]

theorem length_utf8Bytes_encodeToString (bs : List UInt8) :
    (utf8Bytes (encodeToString bs)).length = 2 * bs.length := by
  rw [utf8Bytes_encodeToString]
  induction bs with
  | nil => rfl
  | cons b bs ih =>
    rw [List.flatMap_cons, List.length_append, ih, List.length_cons]
    simp only [List.length_cons, List.length_nil]
    omega

/-- The digits of the digit `3` are its bytes again. -/
theorem utf8Bytes_replicate (n : Nat) :
    utf8Bytes (encodeToString (List.replicate n 0x33)) = List.replicate (2 * n) 0x33 := by
  rw [utf8Bytes_encodeToString]
  induction n with
  | zero => rfl
  | succ n ih => rw [List.replicate_succ, List.flatMap_cons, ih]; rfl

end HexText
