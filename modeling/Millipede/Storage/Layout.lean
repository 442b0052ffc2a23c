import Mathlib.Data.List.Infix
import Millipede.Storage.Queue

/-!
# File names of the file-system backend

Every file is written under a temporary name in the same directory and renamed.
A temporary name ends in sixteen hexadecimal digits, so no temporary file can be
taken for a request file, and no request file for a temporary one.
-/

namespace Millipede.Layout

def rsplitOnce (pattern : List Char) : List Char → Option (List Char × List Char)
  | [] => none
  | c :: cs =>
    match rsplitOnce pattern cs with
    | some (before, after) => some (c :: before, after)
    | none =>
      if pattern.isPrefixOf (c :: cs) then some ([], (c :: cs).drop pattern.length) else none

def isAsciiHexdigit (c : Char) : Bool :=
  c.isDigit || ('a' ≤ c && c ≤ 'f') || ('A' ≤ c && c ≤ 'F')

def temporarySuffix (random : UInt64) : String :=
  String.ofList ("tmp-".toList ++ hex16 random.toNat)

def isTemporaryFile (name : String) : Bool :=
  match rsplitOnce ".tmp-".toList name.toList with
  | none => false
  | some (destination, suffix) =>
    match rsplitOnce ".".toList destination with
    | none => false
    | some (key, extension) =>
      !(key.isEmpty || extension.isEmpty) && suffix.length == 16 && suffix.all isAsciiHexdigit

def hasJsonExtension (name : String) : Bool := ".json".toList.isSuffixOf name.toList

def requestFileName (id : RequestId) : String := id.value ++ ".json"

/-- The name `atomic_write` gives the file before the rename. -/
def temporaryName (destination : String) (random : UInt64) : String :=
  destination ++ "." ++ temporarySuffix random

def validateComponent (debugStr : String → String) (value kind : String) : StorageResult Unit :=
  let chars := value.toList
  if chars.isEmpty || chars.contains '/' || chars.contains '\\' ||
      decide (['.', '.'] <:+: chars) || chars.contains '\x00' then
    .error (.backend ("invalid " ++ kind ++ " " ++ debugStr value ++
      ": must be non-empty and contain no '/', '\\', '..', or NUL"))
  else .ok ()

def storeName (debugStr : String → String) (name : Option String) : StorageResult String :=
  let name := name.getD "default"
  match validateComponent debugStr name "storage name" with
  | .error e => .error e
  | .ok () => .ok name

/-- The names that `scan_queue` reads. -/
def isRequestFile (name : String) : Bool := !isTemporaryFile name && hasJsonExtension name

theorem requestFileName_injective : Function.Injective requestFileName := by
  intro a b h
  have hs := congrArg String.toList h
  simp only [requestFileName, String.toList_append] at hs
  have hv := List.append_cancel_right hs
  cases a
  cases b
  exact congrArg RequestId.mk (String.toList_inj.mp hv)

theorem rsplitOnce_eq_append {pattern s before after : List Char}
    (h : rsplitOnce pattern s = some (before, after)) : s = before ++ pattern ++ after := by
  induction s generalizing before with
  | nil => simp [rsplitOnce] at h
  | cons c cs ih =>
    simp only [rsplitOnce] at h
    cases hr : rsplitOnce pattern cs with
    | some p =>
      obtain ⟨b, a⟩ := p
      rw [hr] at h
      simp only [Option.some.injEq, Prod.mk.injEq] at h
      obtain ⟨rfl, rfl⟩ := h
      rw [ih hr]
      rfl
    | none =>
      rw [hr] at h
      simp only at h
      split_ifs at h with hp
      simp only [Option.some.injEq, Prod.mk.injEq] at h
      obtain ⟨rfl, rfl⟩ := h
      obtain ⟨t, ht⟩ := List.isPrefixOf_iff_prefix.mp hp
      simp [← ht]

theorem hexdigit_of_isTemporaryFile {name : String} (h : isTemporaryFile name = true) :
    ∃ init last, name.toList = init ++ [last] ∧ isAsciiHexdigit last = true := by
  simp only [isTemporaryFile] at h
  cases hs : rsplitOnce ".tmp-".toList name.toList with
  | none =>
    rw [hs] at h
    cases h
  | some p =>
    obtain ⟨destination, suffix⟩ := p
    simp only [hs] at h
    split at h
    · cases h
    · simp only [Bool.and_eq_true, beq_iff_eq] at h
      have hne : suffix ≠ [] := by
        intro h0
        simp [h0] at h
      have hn := rsplitOnce_eq_append hs
      refine ⟨destination ++ ".tmp-".toList ++ suffix.dropLast, suffix.getLast hne, ?_, ?_⟩
      · rw [hn, List.append_assoc _ suffix.dropLast, List.dropLast_append_getLast hne]
      · exact List.all_eq_true.mp h.2 _ (List.getLast_mem hne)

theorem isTemporaryFile_eq_false {name : String} {init : List Char} {last : Char}
    (hname : name.toList = init ++ [last]) (hlast : isAsciiHexdigit last = false) :
    isTemporaryFile name = false := by
  by_contra hf
  obtain ⟨init', last', hl, hd⟩ := hexdigit_of_isTemporaryFile (Bool.eq_true_of_not_eq_false hf)
  rw [hname] at hl
  have heq := (List.append_inj' hl rfl).2
  simp only [List.cons.injEq, and_true] at heq
  rw [heq, hd] at hlast
  cases hlast

theorem isRequestFile_requestFileName (id : RequestId) :
    isRequestFile (requestFileName id) = true := by
  have hlist : (requestFileName id).toList =
      (id.value.toList ++ ['.', 'j', 's', 'o']) ++ ['n'] := by
    simp [requestFileName, String.toList_append]
  have ht : isTemporaryFile (requestFileName id) = false :=
    isTemporaryFile_eq_false hlist (by decide)
  rw [isRequestFile, ht]
  simp [hasJsonExtension, requestFileName, String.toList_append]

theorem hex16_ne_nil (n : ℕ) : hex16 n ≠ [] := by
  intro h
  have hd := (List.append_eq_nil_iff.mp h).2
  exact Nat.toDigits_ne_nil hd

theorem digitChar_hex : ∀ n < 16, isAsciiHexdigit (Nat.digitChar n) = true := by decide

theorem toDigitsCore_all_hex (fuel n : ℕ) (acc : List Char)
    (h : ∀ c ∈ acc, isAsciiHexdigit c = true) :
    ∀ c ∈ Nat.toDigitsCore 16 fuel n acc, isAsciiHexdigit c = true := by
  induction fuel generalizing n acc with
  | zero => exact h
  | succ fuel ih =>
    have hd : ∀ c ∈ Nat.digitChar (n % 16) :: acc, isAsciiHexdigit c = true := by
      intro c hc
      rcases List.mem_cons.mp hc with hc | hc
      · rw [hc]
        exact digitChar_hex _ (Nat.mod_lt _ (by decide))
      · exact h c hc
    simp only [Nat.toDigitsCore]
    split_ifs
    · exact hd
    · exact ih _ _ hd

theorem toList_temporarySuffix (random : UInt64) :
    (temporarySuffix random).toList = "tmp-".toList ++ hex16 random.toNat :=
  String.toList_ofList

theorem isRequestFile_temporaryName (destination : String) (random : UInt64) :
    isRequestFile (temporaryName destination random) = false := by
  simp only [isRequestFile, Bool.and_eq_false_iff]
  right
  by_contra hf
  have hj := List.isSuffixOf_iff_suffix.mp (Bool.eq_true_of_not_eq_false hf)
  obtain ⟨pre, hp⟩ := hj
  have hx := hex16_ne_nil random.toNat
  have hn : (temporaryName destination random).toList =
      (destination.toList ++ ".".toList ++ "tmp-".toList ++ (hex16 random.toNat).dropLast) ++
        [(hex16 random.toNat).getLast hx] := by
    rw [List.append_assoc _ (hex16 random.toNat).dropLast, List.dropLast_append_getLast hx,
      temporaryName, String.toList_append, String.toList_append, toList_temporarySuffix,
      ← List.append_assoc]
  have hs : pre ++ ".json".toList = (pre ++ ['.', 'j', 's', 'o']) ++ ['n'] := by simp
  rw [hn, hs] at hp
  have hlast := (List.append_inj' hp rfl).2
  simp only [List.cons.injEq, and_true] at hlast
  have hmem := List.getLast_mem hx
  rw [← hlast] at hmem
  have hhex : isAsciiHexdigit 'n' = true := by
    rcases List.mem_append.mp hmem with hm | hm
    · exact absurd (List.eq_of_mem_replicate hm) (by decide)
    · exact toDigitsCore_all_hex _ _ [] (by simp) _ hm
  exact absurd hhex (by decide)

theorem rsplitOnce_of_notMem {c : Char} {pattern s : List Char} (h : c ∉ s) :
    rsplitOnce (c :: pattern) s = none := by
  induction s with
  | nil => rfl
  | cons d s ih =>
    have hne : (c == d) = false := by
      rw [beq_eq_false_iff_ne]
      rintro rfl
      exact h List.mem_cons_self
    simp [rsplitOnce, ih fun hmem => h (List.mem_cons_of_mem _ hmem), List.isPrefixOf, hne]

theorem rsplitOnce_append {c : Char} {pattern before after : List Char}
    (h : c ∉ pattern ++ after) :
    rsplitOnce (c :: pattern) (before ++ c :: (pattern ++ after)) = some (before, after) := by
  induction before with
  | nil =>
    have hhere : (c :: pattern).isPrefixOf (c :: (pattern ++ after)) = true :=
      List.isPrefixOf_iff_prefix.mpr ⟨after, rfl⟩
    simp only [List.nil_append, rsplitOnce, rsplitOnce_of_notMem h]
    rw [if_pos hhere]
    simp
  | cons d before ih => simp only [List.cons_append, rsplitOnce, ih]

theorem hex16_all_hex (n : ℕ) : ∀ c ∈ hex16 n, isAsciiHexdigit c = true := by
  intro c hc
  rcases List.mem_append.mp hc with hzero | hdigit
  · rw [List.eq_of_mem_replicate hzero]
    rfl
  · exact toDigitsCore_all_hex _ _ [] (by simp) _ hdigit

theorem length_hex16 (random : UInt64) : (hex16 random.toNat).length = 16 := by
  have hle : (Nat.toDigits 16 random.toNat).length ≤ 16 := by
    rw [Nat.length_toDigits_le_iff (by decide) (by decide)]
    exact random.toNat_lt
  simp only [hex16, List.length_append, List.length_replicate]
  omega

/-- `{key}.{extension}` -/
def keyFileName (key extension : String) : String := key ++ "." ++ extension

theorem rsplitOnce_keyFileName {key extension : String} (h : '.' ∉ extension.toList) :
    rsplitOnce ".".toList (keyFileName key extension).toList =
      some (key.toList, extension.toList) := by
  have hlist : (keyFileName key extension).toList =
      key.toList ++ '.' :: ([] ++ extension.toList) := by
    simp [keyFileName, String.toList_append]
  rw [hlist]
  exact rsplitOnce_append h

/-- What is written under a temporary name is taken for a temporary file. -/
theorem isTemporaryFile_temporaryName {key extension : String} (random : UInt64)
    (hkey : key ≠ "") (hextension : extension ≠ "") (hdot : '.' ∉ extension.toList) :
    isTemporaryFile (temporaryName (keyFileName key extension) random) = true := by
  have hnodot : '.' ∉ "tmp-".toList ++ hex16 random.toNat := by
    rw [List.mem_append]
    rintro (hpattern | hhex)
    · exact absurd hpattern (by decide)
    · exact absurd (hex16_all_hex _ _ hhex) (by decide)
  have hlist : (temporaryName (keyFileName key extension) random).toList =
      (keyFileName key extension).toList ++ '.' :: ("tmp-".toList ++ hex16 random.toNat) := by
    rw [temporaryName, String.toList_append, String.toList_append, toList_temporarySuffix]
    simp
  have hsplit : rsplitOnce ".tmp-".toList
      (temporaryName (keyFileName key extension) random).toList =
      some ((keyFileName key extension).toList, hex16 random.toNat) := by
    rw [hlist]
    exact rsplitOnce_append hnodot
  have hkey' : key.toList ≠ [] := fun h => hkey (String.toList_eq_nil_iff.mp h)
  have hextension' : extension.toList ≠ [] := fun h => hextension (String.toList_eq_nil_iff.mp h)
  simp only [isTemporaryFile, hsplit, rsplitOnce_keyFileName hdot, length_hex16]
  simpa [hkey', hextension'] using hex16_all_hex random.toNat

end Millipede.Layout
