import Millipede.Library.Utf8

/-!
# Proxy credentials

`percent_decode` reads the user name and the password of a proxy URL. It goes over the bytes
with an index; the model reads a byte by its index and fails where there is none, as the code
would panic.
-/

namespace Millipede.PercentDecode

open Utf8

def percent : UInt8 := 0x25

def hex (byte : UInt8) : Option UInt8 :=
  if 0x30 ≤ byte ∧ byte ≤ 0x39 then some (byte - 0x30)
  else if 0x61 ≤ byte ∧ byte ≤ 0x66 then some (byte - 0x61 + 10)
  else if 0x41 ≤ byte ∧ byte ≤ 0x46 then some (byte - 0x41 + 10)
  else none

def decodeFrom (bytes : List UInt8) (index : ℕ) (decoded : List UInt8) : Option (List UInt8) :=
  if index < bytes.length then
    match bytes[index]? with
    | none => none
    | some byte =>
      if byte = percent ∧ index + 2 < bytes.length then
        match bytes[index + 1]?, bytes[index + 2]? with
        | some first, some second =>
          match hex first, hex second with
          | some high, some low => decodeFrom bytes (index + 3) (decoded ++ [high * 16 + low])
          | _, _ => decodeFrom bytes (index + 1) (decoded ++ [byte])
        | _, _ => none
      else decodeFrom bytes (index + 1) (decoded ++ [byte])
  else some decoded
  termination_by bytes.length - index

def percentDecode (value : String) : Option String :=
  (decodeFrom (encode value.toList) 0 []).map fun decoded => String.ofList (lossy decoded)

def Escape (bytes : List UInt8) : Prop :=
  ∃ first second rest high low, bytes = percent :: first :: second :: rest ∧
    hex first = some high ∧ hex second = some low

/-- The escapes are read; every other byte stays as it is, that of a broken escape too. -/
inductive Unescapes : List UInt8 → List UInt8 → Prop
  | nil : Unescapes [] []
  | escape {first second high low : UInt8} {rest out : List UInt8} :
      hex first = some high → hex second = some low → Unescapes rest out →
      Unescapes (percent :: first :: second :: rest) ((high * 16 + low) :: out)
  | literal {byte : UInt8} {rest out : List UInt8} :
      ¬ Escape (byte :: rest) → Unescapes rest out → Unescapes (byte :: rest) (byte :: out)

theorem getElem?_front (front rest : List UInt8) (k : ℕ) :
    (front ++ rest)[front.length + k]? = rest[k]? := by
  rw [List.getElem?_append_right (Nat.le_add_right _ _), Nat.add_sub_cancel_left]

theorem decodeFrom_escape {first second high low : UInt8} (hhigh : hex first = some high)
    (hlow : hex second = some low) (front rest decoded : List UInt8) :
    decodeFrom (front ++ percent :: first :: second :: rest) front.length decoded =
      decodeFrom (front ++ percent :: first :: second :: rest) (front.length + 3)
        (decoded ++ [high * 16 + low]) := by
  have hlength : front.length + 2 < (front ++ percent :: first :: second :: rest).length := by
    simp only [List.length_append, List.length_cons]
    omega
  have hzero := getElem?_front front (percent :: first :: second :: rest) 0
  rw [Nat.add_zero, List.getElem?_cons_zero] at hzero
  rw [decodeFrom, if_pos (by omega), hzero]
  simp only
  rw [if_pos ⟨trivial, hlength⟩, getElem?_front, getElem?_front]
  simp only [List.getElem?_cons_succ, List.getElem?_cons_zero, hhigh, hlow]

theorem decodeFrom_literal {byte : UInt8} {rest : List UInt8} (hbroken : ¬ Escape (byte :: rest))
    (front decoded : List UInt8) :
    decodeFrom (front ++ byte :: rest) front.length decoded =
      decodeFrom (front ++ byte :: rest) (front.length + 1) (decoded ++ [byte]) := by
  have hlength : (front ++ byte :: rest).length = front.length + (rest.length + 1) := by
    rw [List.length_append, List.length_cons]
  have hzero := getElem?_front front (byte :: rest) 0
  rw [Nat.add_zero, List.getElem?_cons_zero] at hzero
  rw [decodeFrom, if_pos (by omega), hzero]
  simp only
  split_ifs with hpercent
  · obtain ⟨rfl, hroom⟩ := hpercent
    rw [getElem?_front, getElem?_front]
    simp only [List.getElem?_cons_succ]
    obtain ⟨first, tail, rfl⟩ : ∃ first tail, rest = first :: tail :=
      List.exists_cons_of_length_pos (by omega)
    rw [List.length_cons] at hlength
    obtain ⟨second, tail, rfl⟩ : ∃ second rest, tail = second :: rest :=
      List.exists_cons_of_length_pos (by omega)
    simp only [List.getElem?_cons_succ, List.getElem?_cons_zero]
    cases hhigh : hex first with
    | none => rfl
    | some high =>
      cases hlow : hex second with
      | none => rfl
      | some low => exact absurd ⟨first, second, tail, high, low, rfl, hhigh, hlow⟩ hbroken
  · rfl

theorem decodeFrom_eq {rest out : List UInt8} (h : Unescapes rest out) :
    ∀ front decoded : List UInt8,
      decodeFrom (front ++ rest) front.length decoded = some (decoded ++ out) := by
  induction h with
  | nil =>
    intro front decoded
    rw [decodeFrom, List.append_nil, if_neg (Nat.lt_irrefl _), List.append_nil]
  | @escape first second high low rest out hhigh hlow _ ih =>
    intro front decoded
    have hnext := ih (front ++ [percent, first, second]) (decoded ++ [high * 16 + low])
    rw [decodeFrom_escape hhigh hlow]
    simpa using hnext
  | @literal byte rest out hbroken _ ih =>
    intro front decoded
    have hnext := ih (front ++ [byte]) (decoded ++ [byte])
    rw [decodeFrom_literal hbroken]
    simpa using hnext

theorem exists_unescapes (bytes : List UInt8) : ∃ out, Unescapes bytes out := by
  induction hn : bytes.length using Nat.strong_induction_on generalizing bytes with
  | h n ih =>
    cases bytes with
    | nil => exact ⟨[], .nil⟩
    | cons byte rest =>
      rw [List.length_cons] at hn
      by_cases hescape : Escape (byte :: rest)
      · obtain ⟨first, second, rest, high, low, heq, hhigh, hlow⟩ := hescape
        obtain ⟨rfl, rfl⟩ := List.cons.inj heq
        rw [List.length_cons, List.length_cons] at hn
        obtain ⟨out, hout⟩ := ih rest.length (by omega) rest rfl
        exact ⟨_, .escape hhigh hlow hout⟩
      · obtain ⟨out, hout⟩ := ih rest.length (by omega) rest rfl
        exact ⟨_, .literal hescape hout⟩

def Digit (n : ℕ) (digit : UInt8) : Prop :=
  n < 10 ∧ digit.toNat = 0x30 + n ∨
    10 ≤ n ∧ n < 16 ∧ (digit.toNat = 0x61 + (n - 10) ∨ digit.toNat = 0x41 + (n - 10))

/-- An encoding of bytes in which at least every percent sign is encoded. -/
inductive Encodes : List UInt8 → List UInt8 → Prop
  | nil : Encodes [] []
  | literal {byte : UInt8} {bytes out : List UInt8} :
      byte ≠ percent → Encodes bytes out → Encodes (byte :: bytes) (byte :: out)
  | escape {byte first second : UInt8} {bytes out : List UInt8} :
      Digit (byte.toNat / 16) first → Digit (byte.toNat % 16) second → Encodes bytes out →
      Encodes (byte :: bytes) (percent :: first :: second :: out)

theorem hex_of_digit {n : ℕ} {digit : UInt8} (h : Digit n digit) :
    hex digit = some (UInt8.ofNat n) := by
  have hdecimal : ∀ n < 10, hex (UInt8.ofNat (0x30 + n)) = some (UInt8.ofNat n) := by decide
  have hlower : ∀ n < 6, hex (UInt8.ofNat (0x61 + n)) = some (UInt8.ofNat (n + 10)) := by decide
  have hupper : ∀ n < 6, hex (UInt8.ofNat (0x41 + n)) = some (UInt8.ofNat (n + 10)) := by decide
  rcases h with ⟨hn, heq⟩ | ⟨hten, hn, heq | heq⟩
  · rw [← hdecimal n hn, ← heq, UInt8.ofNat_toNat]
  · have hvalue := hlower (n - 10) (by omega)
    rwa [← heq, UInt8.ofNat_toNat, Nat.sub_add_cancel hten] at hvalue
  · have hvalue := hupper (n - 10) (by omega)
    rwa [← heq, UInt8.ofNat_toNat, Nat.sub_add_cancel hten] at hvalue

theorem digits_value (byte : UInt8) :
    UInt8.ofNat (byte.toNat / 16) * 16 + UInt8.ofNat (byte.toNat % 16) = byte := by
  have hbyte := byte.toNat_lt
  refine UInt8.toNat_inj.mp ?_
  have hhigh : byte.toNat / 16 < 256 := by omega
  have hlow : byte.toNat % 16 < 256 := by omega
  rw [UInt8.toNat_add, UInt8.toNat_mul, UInt8.toNat_ofNat_of_lt' hhigh,
    UInt8.toNat_ofNat_of_lt' hlow]
  show (byte.toNat / 16 * 16 % 256 + byte.toNat % 16) % 256 = byte.toNat
  omega

theorem Encodes.unescapes {bytes out : List UInt8} (h : Encodes bytes out) :
    Unescapes out bytes := by
  induction h with
  | nil => exact .nil
  | @literal byte bytes out hbyte _ ih =>
    refine .literal ?_ ih
    rintro ⟨first, second, rest, high, low, heq, -⟩
    exact hbyte (List.cons.inj heq).1
  | @escape byte first second bytes out hfirst hsecond _ ih =>
    have hescape := Unescapes.escape (hex_of_digit hfirst) (hex_of_digit hsecond) ih
    rwa [digits_value] at hescape

/-- Every encoding of a string is decoded to it. Whatever the input, the code reads only
bytes that are there, and a broken escape stays as it is. -/
theorem percent_decode_correct :
    (∀ s value : String, Encodes (encode s.toList) (encode value.toList) →
      percentDecode value = some s) ∧
    ∀ value : String, ∃ out, Unescapes (encode value.toList) out ∧
      percentDecode value = some (String.ofList (lossy out)) := by
  have hdecode : ∀ (value : String) (out : List UInt8), Unescapes (encode value.toList) out →
      percentDecode value = some (String.ofList (lossy out)) := by
    intro value out hout
    have hloop := decodeFrom_eq hout [] []
    rw [List.nil_append, List.length_nil, List.nil_append] at hloop
    rw [percentDecode, hloop, Option.map_some]
  constructor
  · intro s value hencodes
    rw [hdecode value _ hencodes.unescapes, lossy_encode, String.ofList_toList]
  · intro value
    obtain ⟨out, hout⟩ := exists_unescapes (encode value.toList)
    exact ⟨out, hout, hdecode value out hout⟩

theorem percent_decode_correct_slash : percentDecode "p%2Fw" = some "p/w" := by
  refine percent_decode_correct.1 "p/w" "p%2Fw" ?_
  refine .literal (by decide) (.escape ?_ ?_ (.literal (by decide) .nil))
  · exact .inl (by decide)
  · exact .inr (by decide)

end Millipede.PercentDecode
