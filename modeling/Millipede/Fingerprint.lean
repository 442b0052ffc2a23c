import Mathlib.Data.Nat.Digits.Defs
import Mathlib.Data.Nat.Totient
import Mathlib.FieldTheory.Finite.Basic
import Millipede.Request

/-!
# The identifiers of unique keys

FNV-1a over the ASCII keys reaches every 64-bit value, so there are at least `2 ^ 64`
keys with pairwise different identifiers. One step of the hash is the exclusive
or with a byte and the product with an odd prime. The product is undone by its own
powers; what remains moves a value by any seven low bits, and by an odd multiple of
`2 ^ 7`.
-/

namespace Millipede.Fingerprint

def fnvPrime : ℕ := 2 ^ 40 + 435

def wordSize : ℕ := 2 ^ 64

def Reached (x : ℕ) : Prop :=
  ∃ key : String, (fnv1a64 key.toUTF8.data.toList).toNat = x

theorem Reached.lt {x : ℕ} (h : Reached x) : x < wordSize := by
  obtain ⟨key, rfl⟩ := h
  exact UInt64.toNat_lt _

theorem utf8_ascii : ∀ b < 128, String.utf8EncodeChar (Char.ofNat b) = [UInt8.ofNat b] := by
  decide

theorem Reached.step {x : ℕ} (h : Reached x) {b : ℕ} (hb : b < 128) :
    Reached ((x ^^^ b) * fnvPrime % wordSize) := by
  obtain ⟨key, rfl⟩ := h
  refine ⟨key ++ String.singleton (Char.ofNat b), ?_⟩
  have hbytes : (key ++ String.singleton (Char.ofNat b)).toUTF8.data.toList =
      key.toUTF8.data.toList ++ [UInt8.ofNat b] := by
    rw [← utf8_ascii b hb]
    simp [List.utf8Encode]
  have hbyte : (UInt8.ofNat b).toUInt64.toNat = b := by
    simp only [UInt8.toNat_toUInt64, UInt8.toNat_ofNat']
    omega
  rw [hbytes, fnv1a64, fnv1a64Seeded, List.foldl_append]
  simp only [List.foldl_cons, List.foldl_nil, UInt64.toNat_mul, UInt64.toNat_xor, hbyte]
  rfl

theorem xor_div_mod (x y : ℕ) (hy : y < 128) :
    (x ^^^ y) / 128 = x / 128 ∧ (x ^^^ y) % 128 = x % 128 ^^^ y := by
  have hdiv : (x ^^^ y) / 2 ^ 7 = x / 2 ^ 7 ^^^ y / 2 ^ 7 := Nat.xor_div_two_pow
  have hmod : (x ^^^ y) % 2 ^ 7 = x % 2 ^ 7 ^^^ y % 2 ^ 7 := Nat.xor_mod_two_pow
  have hzero : y / 2 ^ 7 = 0 := Nat.div_eq_of_lt hy
  have hself : y % 2 ^ 7 = y := Nat.mod_eq_of_lt hy
  rw [hzero, Nat.xor_zero] at hdiv
  rw [hself] at hmod
  exact ⟨hdiv, hmod⟩

theorem xor_eq_add {x y : ℕ} (hx : x % 128 = 0) (hy : y < 128) : x ^^^ y = x + y := by
  obtain ⟨hdiv, hmod⟩ := xor_div_mod x y hy
  rw [hx, Nat.zero_xor] at hmod
  omega

theorem xor_mod_self (x : ℕ) : x ^^^ (x % 128) = x - x % 128 := by
  obtain ⟨hdiv, hmod⟩ := xor_div_mod x (x % 128) (Nat.mod_lt x (by decide))
  rw [Nat.xor_self] at hmod
  omega

theorem fnvPrime_inverse : ∃ k, fnvPrime * fnvPrime ^ k ≡ 1 [MOD wordSize] := by
  have hcop : fnvPrime.Coprime wordSize := by
    refine Nat.Coprime.pow_right 64 ?_
    decide
  have htot : wordSize.totient = 2 ^ 63 := by
    rw [wordSize, Nat.totient_prime_pow Nat.prime_two (by decide)]
    rfl
  have hpos : 0 < wordSize.totient := by
    rw [htot]
    exact Nat.pow_pos (by decide)
  obtain ⟨k, hk⟩ := Nat.exists_eq_add_of_lt hpos
  refine ⟨k, ?_⟩
  have hpow := Nat.ModEq.pow_totient hcop
  rw [hk, zero_add, pow_succ, mul_comm] at hpow
  exact hpow

theorem Reached.mul_pow {x : ℕ} (h : Reached x) (k : ℕ) :
    Reached (x * fnvPrime ^ k % wordSize) := by
  induction k with
  | zero =>
    rw [pow_zero, mul_one, Nat.mod_eq_of_lt h.lt]
    exact h
  | succ k ih =>
    have hs := ih.step (b := 0) (by decide)
    rw [Nat.xor_zero, Nat.mod_mul_mod, mul_assoc, ← pow_succ] at hs
    exact hs

theorem Reached.xor {x : ℕ} (h : Reached x) {b : ℕ} (hb : b < 128) : Reached (x ^^^ b) := by
  have hlt : x ^^^ b < wordSize := by
    apply Nat.xor_lt_two_pow h.lt
    omega
  obtain ⟨k, hk⟩ := fnvPrime_inverse
  have hs := (h.step hb).mul_pow k
  rw [Nat.mod_mul_mod, mul_assoc] at hs
  have hcancel : (x ^^^ b) * (fnvPrime * fnvPrime ^ k) ≡ x ^^^ b [MOD wordSize] := by
    simpa using hk.mul_left (x ^^^ b)
  rw [hcancel, Nat.mod_eq_of_lt hlt] at hs
  exact hs

def stride : ℕ := 2 ^ 33 + 3

theorem Reached.advance {x : ℕ} (h : Reached x) (hx : x % 128 = 0) :
    Reached ((x + 128 * stride) % wordSize) := by
  -- undo one product, so that a low bit set before the next one comes out as the prime
  obtain ⟨k, hk⟩ := fnvPrime_inverse
  have hy := h.mul_pow k
  generalize hyx : x * fnvPrime ^ k % wordSize = y at hy
  have hy0 : y % 128 = 0 := by
    have hd : 128 ∣ x * fnvPrime ^ k := Dvd.dvd.mul_right (Nat.dvd_of_mod_eq_zero hx) _
    rw [← hyx, Nat.mod_mod_of_dvd _ (by decide : 128 ∣ wordSize)]
    exact Nat.mod_eq_zero_of_dvd hd
  have hz := hy.step (b := 1) (by decide)
  rw [xor_eq_add hy0 (by decide)] at hz
  have hback : (y + 1) * fnvPrime ≡ x + fnvPrime [MOD wordSize] := by
    have hyx' : y * fnvPrime ≡ x [MOD wordSize] := by
      have hmod : y ≡ x * fnvPrime ^ k [MOD wordSize] := by
        rw [← hyx]
        exact Nat.mod_modEq _ _
      calc y * fnvPrime ≡ x * fnvPrime ^ k * fnvPrime [MOD wordSize] :=
            hmod.mul_right _
        _ = x * (fnvPrime * fnvPrime ^ k) := by ring
        _ ≡ x * 1 [MOD wordSize] := hk.mul_left x
        _ = x := mul_one x
    rw [Nat.add_mul, one_mul]
    exact hyx'.add_right fnvPrime
  rw [hback] at hz
  have hclear := hz.xor (b := (x + fnvPrime) % wordSize % 128) (Nat.mod_lt _ (by decide))
  rw [xor_mod_self] at hclear
  have hlow : (x + fnvPrime) % wordSize % 128 = 51 := by
    simp only [wordSize, fnvPrime]
    omega
  have hshift : (x + fnvPrime) % wordSize - 51 = (x + 128 * stride) % wordSize := by
    simp only [wordSize, fnvPrime, stride] at hlow ⊢
    omega
  rw [hlow, hshift] at hclear
  exact hclear

theorem Reached.advance_many {x : ℕ} (h : Reached x) (hx : x % 128 = 0) (k : ℕ) :
    Reached ((x + 128 * stride * k) % wordSize) := by
  induction k with
  | zero =>
    rw [mul_zero, add_zero, Nat.mod_eq_of_lt h.lt]
    exact h
  | succ k ih =>
    have hlow : (x + 128 * stride * k) % wordSize % 128 = 0 := by
      rw [Nat.mod_mod_of_dvd _ (by decide : 128 ∣ wordSize), mul_assoc]
      omega
    have hs := ih.advance hlow
    rw [Nat.mod_add_mod, add_assoc, ← Nat.mul_succ] at hs
    exact hs

theorem reached_all {x : ℕ} (hx : x < wordSize) : Reached x := by
  -- the hash of the empty key, with its low bits cleared, is where the walk starts
  have hbase : Reached (fnv1a64 []).toNat := ⟨"", rfl⟩
  have hstart := hbase.xor (b := (fnv1a64 []).toNat % 128) (Nat.mod_lt _ (by decide))
  rw [xor_mod_self] at hstart
  generalize hx₀ : (fnv1a64 []).toNat - (fnv1a64 []).toNat % 128 = x₀ at hstart
  have hx₀' : x₀ % 128 = 0 := by omega
  have hcop : stride.Coprime (2 ^ 57) := by
    refine Nat.Coprime.pow_right 57 ?_
    decide
  obtain ⟨k, -, hk⟩ := Nat.exists_mul_mod_eq_of_coprime (x / 128 + 2 ^ 57 - x₀ / 128) hcop
    (by decide)
  have hwalk := (hstart.advance_many hx₀' k).xor (Nat.mod_lt x (by decide : 0 < 128))
  have hx₀lt := hstart.lt
  have hland : (x₀ + 128 * stride * k) % wordSize = x - x % 128 := by
    have hmul : 128 * stride * k = 128 * (stride * k) := by ring
    rw [hmul]
    generalize stride * k = j at hk
    simp only [wordSize] at hx hx₀lt ⊢
    omega
  rw [hland, xor_eq_add (by omega) (Nat.mod_lt x (by decide))] at hwalk
  have hsum : x - x % 128 + x % 128 = x := Nat.sub_add_cancel (Nat.mod_le x 128)
  rwa [hsum] at hwalk

def hexValue (c : Char) : ℕ :=
  if c.isDigit then c.toNat - '0'.toNat else c.toNat - 'a'.toNat + 10

def readHex (digits : List Char) : ℕ := digits.foldl (fun n c => 16 * n + hexValue c) 0

theorem hexValue_digitChar : ∀ n < 16, hexValue (Nat.digitChar n) = n := by decide

theorem readHex_toDigits (n : ℕ) : readHex (Nat.toDigits 16 n) = n := by
  induction n using Nat.strong_induction_on with
  | h n ih =>
    by_cases hn : n < 16
    · rw [Nat.toDigits_of_lt_base hn]
      simp [readHex, hexValue_digitChar n hn]
    · have hrec := ih (n / 16) (Nat.div_lt_self (by omega) (by decide))
      rw [Nat.toDigits_of_base_le (by decide) (Nat.not_lt.mp hn), readHex, List.foldl_append]
      rw [readHex] at hrec
      simp only [hrec, List.foldl_cons, List.foldl_nil,
        hexValue_digitChar (n % 16) (Nat.mod_lt n (by decide))]
      omega

theorem readHex_zeros (k : ℕ) (digits : List Char) :
    readHex (List.replicate k '0' ++ digits) = readHex digits := by
  induction k with
  | zero => rfl
  | succ k ih => exact ih

theorem readHex_hex16 (n : ℕ) : readHex (hex16 n) = n := by
  rw [hex16, readHex_zeros, readHex_toDigits]

theorem length_hex16 {n : ℕ} (h : n < wordSize) : (hex16 n).length = 16 := by
  have hle := Nat.toDigits_length 16 n 16 (by decide) h
  simp only [hex16, List.length_append, List.length_replicate]
  omega

theorem fnv1a64_of_fromUniqueKey_eq {k k' : String}
    (h : RequestId.fromUniqueKey k = RequestId.fromUniqueKey k') :
    (fnv1a64 k.toUTF8.data.toList).toNat = (fnv1a64 k'.toUTF8.data.toList).toNat := by
  simp only [RequestId.fromUniqueKey, RequestId.mk.injEq, String.ofList_inj] at h
  have hlen := fun k : String => length_hex16 (UInt64.toNat_lt (fnv1a64 k.toUTF8.data.toList))
  obtain ⟨hfirst, -⟩ := List.append_inj h ((hlen k).trans (hlen k').symm)
  have hread := congrArg readHex hfirst
  rwa [readHex_hex16, readHex_hex16] at hread

/-- There are `2 ^ 64` keys with different identifiers. -/
theorem exists_keys : ∃ key : ℕ → String, ∀ i j, i < wordSize → j < wordSize →
    RequestId.fromUniqueKey (key i) = RequestId.fromUniqueKey (key j) → i = j := by
  have hkey : ∀ i, ∃ key : String, i < wordSize → (fnv1a64 key.toUTF8.data.toList).toNat = i := by
    intro i
    by_cases hi : i < wordSize
    · obtain ⟨key, hk⟩ := reached_all hi
      exact ⟨key, fun _ => hk⟩
    · exact ⟨"", fun h => absurd h hi⟩
  choose key hkey using hkey
  refine ⟨key, ?_⟩
  intro i j hi hj hid
  rw [← hkey i hi, ← hkey j hj]
  exact fnv1a64_of_fromUniqueKey_eq hid

end Millipede.Fingerprint
