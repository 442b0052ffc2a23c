import Mathlib.Data.List.Infix

/-!
# Lossy UTF-8

The decoding that puts U+FFFD in the place of every maximal part of an ill-formed sequence.
It gives back what was encoded, and since a character starts with a byte that continues no
other one, what is encoded somewhere inside of a byte string is decoded there.
-/

namespace Utf8

def encode (s : List Char) : List UInt8 := s.flatMap String.utf8EncodeChar

def decode? (bytes : List UInt8) : Option Char := bytes.toByteArray.utf8DecodeChar? 0

def isContinuation (b : UInt8) : Bool := decide (0x80 ≤ b) && decide (b ≤ 0xbf)

def width (lead : UInt8) : ℕ :=
  if lead < 0x80 then 1
  else if 0xc2 ≤ lead ∧ lead ≤ 0xdf then 2
  else if 0xe0 ≤ lead ∧ lead ≤ 0xef then 3
  else if 0xf0 ≤ lead ∧ lead ≤ 0xf4 then 4
  else 0

/-- The second bytes of characters of three and four bytes. -/
def isSecond (lead b : UInt8) : Bool :=
  isContinuation b &&
    if lead = 0xe0 then decide (0xa0 ≤ b)
    else if lead = 0xed then decide (b ≤ 0x9f)
    else if lead = 0xf0 then decide (0x90 ≤ b)
    else if lead = 0xf4 then decide (b ≤ 0x8f)
    else true

/-- The length of the maximal part of a sequence that is no character. -/
def brokenLength : List UInt8 → ℕ
  | lead :: second :: rest =>
    if 3 ≤ width lead ∧ isSecond lead second then
      if width lead = 4 ∧ rest.head?.any isContinuation then 3 else 2
    else 1
  | _ => 1

def lossy (bytes : List UInt8) : List Char :=
  match bytes with
  | [] => []
  | b :: bs =>
    match decode? (b :: bs) with
    | some c => c :: lossy (bs.drop (c.utf8Size - 1))
    | none => '\uFFFD' :: lossy (bs.drop (brokenLength (b :: bs) - 1))
  termination_by bytes.length
  decreasing_by
  · simp only [List.length_drop, List.length_cons]
    omega
  · simp only [List.length_drop, List.length_cons]
    omega

theorem utf8EncodeChar_ne_nil (c : Char) : String.utf8EncodeChar c ≠ [] := by
  intro hnil
  have hlength := String.length_utf8EncodeChar c
  rw [hnil] at hlength
  exact absurd hlength.symm (Nat.ne_of_gt c.utf8Size_pos)

theorem decode?_eq_some_iff {bytes : List UInt8} {c : Char} :
    decode? bytes = some c ↔ String.utf8EncodeChar c <+: bytes := by
  constructor
  · intro h
    obtain ⟨l, hl⟩ := ByteArray.exists_of_utf8DecodeChar?_eq_some h
    have hdata := congrArg (fun b : ByteArray => b.data.toList) hl
    exact ⟨l.data.toList, by simpa using hdata.symm⟩
  · rintro ⟨rest, rfl⟩
    unfold decode?
    rw [List.toByteArray_append]
    exact ByteArray.utf8DecodeChar?_utf8EncodeChar_append

theorem isContinuation_iff {b : UInt8} :
    isContinuation b = true ↔ 0x80 ≤ b.toNat ∧ b.toNat ≤ 0xbf := by
  unfold isContinuation
  rw [Bool.and_eq_true, decide_eq_true_eq, decide_eq_true_eq, UInt8.le_iff_toNat_le,
    UInt8.le_iff_toNat_le]
  exact Iff.rfl

theorem isContinuation_ofNat {n : ℕ} (hn : n < 0x40) :
    isContinuation (UInt8.ofNat (n + 0x80)) = true := by
  have hnat : (UInt8.ofNat (n + 0x80)).toNat = n + 0x80 := UInt8.toNat_ofNat_of_lt' (by
    show n + 0x80 < 256
    omega)
  rw [isContinuation_iff, hnat]
  omega

theorem not_isContinuation_ofNat {n : ℕ} (hsmall : n < 256) (hn : n < 0x80 ∨ 0xc0 ≤ n) :
    isContinuation (UInt8.ofNat n) = false := by
  have hnat : (UInt8.ofNat n).toNat = n := UInt8.toNat_ofNat_of_lt' hsmall
  rw [← Bool.not_eq_true, isContinuation_iff, hnat]
  omega

theorem isContinuation_of_mem_tail {c : Char} {b : UInt8}
    (hb : b ∈ (String.utf8EncodeChar c).tail) : isContinuation b = true := by
  have hmod : ∀ n, n % 0x40 < 0x40 := fun n => Nat.mod_lt _ (by decide)
  unfold String.utf8EncodeChar at hb
  simp only at hb
  split_ifs at hb
  · cases hb
  · rw [List.tail_cons, List.mem_singleton] at hb
    rw [hb]
    exact isContinuation_ofNat (hmod _)
  · rcases List.mem_cons.mp hb with rfl | hb
    · exact isContinuation_ofNat (hmod _)
    · rw [List.mem_singleton.mp hb]
      exact isContinuation_ofNat (hmod _)
  · rcases List.mem_cons.mp hb with rfl | hb
    · exact isContinuation_ofNat (hmod _)
    · rcases List.mem_cons.mp hb with rfl | hb
      · exact isContinuation_ofNat (hmod _)
      · rw [List.mem_singleton.mp hb]
        exact isContinuation_ofNat (hmod _)

theorem not_isContinuation_head {c : Char} {b : UInt8} {rest : List UInt8}
    (h : String.utf8EncodeChar c = b :: rest) : isContinuation b = false := by
  unfold String.utf8EncodeChar at h
  simp only at h
  split_ifs at h with hone
  · obtain ⟨rfl, -⟩ := List.cons.inj h
    exact not_isContinuation_ofNat (by omega) (.inl (by omega))
  · obtain ⟨rfl, -⟩ := List.cons.inj h
    exact not_isContinuation_ofNat (by omega) (.inr (by omega))
  · obtain ⟨rfl, -⟩ := List.cons.inj h
    exact not_isContinuation_ofNat (by omega) (.inr (by omega))
  · obtain ⟨rfl, -⟩ := List.cons.inj h
    exact not_isContinuation_ofNat (by omega) (.inr (by omega))

@[simp] theorem lossy_nil : lossy [] = [] := by
  rw [lossy]

theorem lossy_of_decode? {bytes : List UInt8} {c : Char} (h : decode? bytes = some c) :
    lossy bytes = c :: lossy (bytes.drop c.utf8Size) := by
  have hsize := c.utf8Size_pos
  cases bytes with
  | nil =>
    obtain ⟨rest, hrest⟩ := decode?_eq_some_iff.mp h
    exact absurd (List.append_eq_nil_iff.mp hrest).1 (utf8EncodeChar_ne_nil c)
  | cons b bs =>
    rw [lossy, h]
    conv_rhs => rw [← Nat.sub_add_cancel hsize, List.drop_succ_cons]

theorem brokenLength_pos (bytes : List UInt8) : 0 < brokenLength bytes := by
  unfold brokenLength
  split
  · split_ifs <;> decide
  · decide

theorem lossy_of_broken {bytes : List UInt8} (hne : bytes ≠ []) (h : decode? bytes = none) :
    lossy bytes = '\uFFFD' :: lossy (bytes.drop (brokenLength bytes)) := by
  cases bytes with
  | nil => exact absurd rfl hne
  | cons b bs =>
    rw [lossy, h]
    have hpos := brokenLength_pos (b :: bs)
    conv_rhs => rw [← Nat.sub_add_cancel hpos, List.drop_succ_cons]

theorem lossy_utf8EncodeChar_append (c : Char) (rest : List UInt8) :
    lossy (String.utf8EncodeChar c ++ rest) = c :: lossy rest := by
  rw [lossy_of_decode? (decode?_eq_some_iff.mpr (List.prefix_append _ _)),
    ← String.length_utf8EncodeChar, List.drop_left]

theorem lossy_encode_append (s : List Char) (rest : List UInt8) :
    lossy (encode s ++ rest) = s ++ lossy rest := by
  induction s with
  | nil => rfl
  | cons c s ih =>
    have hcons : encode (c :: s) = String.utf8EncodeChar c ++ encode s := List.flatMap_cons
    rw [hcons, List.append_assoc, lossy_utf8EncodeChar_append, ih, List.cons_append]

theorem lossy_encode (s : List Char) : lossy (encode s) = s := by
  simpa using lossy_encode_append s []

/-- A byte that continues no character ends what stands before it. -/
theorem decode?_append {a : List UInt8} (ha : a ≠ []) {b : UInt8}
    (hb : isContinuation b = false) (rest : List UInt8) :
    decode? (a ++ b :: rest) = decode? a := by
  refine Option.ext fun c => ?_
  rw [decode?_eq_some_iff, decode?_eq_some_iff]
  constructor
  · rintro ⟨more, hmore⟩
    rcases List.append_eq_append_iff.mp hmore with ⟨a', rfl, -⟩ | ⟨inside, hinside, hrest⟩
    · exact List.prefix_append _ _
    · cases inside with
      | nil =>
        rw [List.append_nil] at hinside
        rw [hinside]
      | cons b' inside =>
        obtain ⟨rfl, -⟩ := List.cons.inj hrest
        obtain ⟨lead, a, rfl⟩ := List.exists_cons_of_ne_nil ha
        have hmem : b ∈ (String.utf8EncodeChar c).tail := by
          rw [hinside]
          exact List.mem_append_right _ List.mem_cons_self
        rw [isContinuation_of_mem_tail hmem] at hb
        cases hb
  · exact fun hprefix => hprefix.trans (List.prefix_append _ _)

theorem brokenLength_append {a : List UInt8} (ha : a ≠ []) {b : UInt8}
    (hb : isContinuation b = false) (rest : List UInt8) :
    brokenLength (a ++ b :: rest) = brokenLength a := by
  have hsecond : ∀ lead, isSecond lead b = false := by
    intro lead
    unfold isSecond
    rw [hb, Bool.false_and]
  cases a with
  | nil => exact absurd rfl ha
  | cons lead a =>
    cases a with
    | nil => simp [brokenLength, hsecond]
    | cons second a =>
      cases a with
      | nil => simp [brokenLength, hb]
      | cons third a => rfl

theorem brokenLength_le {bytes : List UInt8} (hne : bytes ≠ []) :
    brokenLength bytes ≤ bytes.length := by
  unfold brokenLength
  split
  · rename_i lead second rest
    cases rest with
    | nil =>
      simp only [List.head?_nil, Option.any_none, Bool.false_eq_true, and_false, if_false,
        List.length_cons, List.length_nil]
      split_ifs <;> omega
    | cons third rest =>
      simp only [List.length_cons]
      split_ifs <;> omega
  · exact List.length_pos_of_ne_nil hne

theorem lossy_append {b : UInt8} (hb : isContinuation b = false) (rest : List UInt8) :
    ∀ a : List UInt8, lossy (a ++ b :: rest) = lossy a ++ lossy (b :: rest) := by
  intro a
  induction hn : a.length using Nat.strong_induction_on generalizing a with
  | h n ih =>
    by_cases ha : a = []
    · rw [ha, lossy_nil]
      rfl
    · have hdecode := decode?_append ha hb rest
      have hpos : 0 < a.length := List.length_pos_of_ne_nil ha
      cases hchar : decode? a with
      | some c =>
        have hle : c.utf8Size ≤ a.length := by
          rw [← String.length_utf8EncodeChar]
          exact (decode?_eq_some_iff.mp hchar).length_le
        rw [lossy_of_decode? hchar, lossy_of_decode? (hdecode.trans hchar),
          List.drop_append_of_le_length hle]
        have hsize := c.utf8Size_pos
        rw [ih (a.drop c.utf8Size).length (by rw [List.length_drop]; omega) _ rfl,
          List.cons_append]
      | none =>
        have hne : a ++ b :: rest ≠ [] := List.append_ne_nil_of_left_ne_nil ha _
        rw [lossy_of_broken ha hchar, lossy_of_broken hne (hdecode.trans hchar),
          brokenLength_append ha hb, List.drop_append_of_le_length (brokenLength_le ha)]
        have hbroken := brokenLength_pos a
        rw [ih (a.drop (brokenLength a)).length (by rw [List.length_drop]; omega) _ rfl,
          List.cons_append]

/-- What is encoded inside of a byte string is decoded there. -/
theorem lossy_around {s : List Char} (hs : s ≠ []) (a rest : List UInt8) :
    lossy (a ++ encode s ++ rest) = lossy a ++ s ++ lossy rest := by
  obtain ⟨c, s, rfl⟩ := List.exists_cons_of_ne_nil hs
  obtain ⟨b, bs, hbytes⟩ := List.exists_cons_of_ne_nil (utf8EncodeChar_ne_nil c)
  have hencode : encode (c :: s) ++ rest = b :: (bs ++ encode s ++ rest) := by
    show String.utf8EncodeChar c ++ encode s ++ rest = _
    rw [hbytes]
    simp only [List.cons_append]
  rw [List.append_assoc, hencode, lossy_append (not_isContinuation_head hbytes), ← hencode,
    lossy_encode_append, List.append_assoc]

end Utf8
