import Mathlib.Data.List.Basic
import Millipede.Request

/-!
# The bytes of form bodies

The canonical bytes of a form body join its pairs without escaping anything. Two bodies with
the same bytes are the same body as long as no key holds an equals sign and no value an
ampersand; against arbitrary other bodies hardly any body keeps its identity.
-/

theorem List.cut_inj {α : Type*} {c : α} {a a' b b' : List α} (ha : c ∉ a) (ha' : c ∉ a')
    (h : a ++ c :: b = a' ++ c :: b') : a = a' ∧ b = b' := by
  induction a generalizing a' with
  | nil =>
    cases a' with
    | nil => exact ⟨rfl, List.tail_eq_of_cons_eq h⟩
    | cons d a' => exact absurd ((List.cons.inj h).1 ▸ List.mem_cons_self) ha'
  | cons d a ih =>
    cases a' with
    | nil => exact absurd ((List.cons.inj h).1 ▸ List.mem_cons_self) ha
    | cons d' a' =>
      obtain ⟨hd, htail⟩ := List.cons.inj h
      obtain ⟨heq, hb⟩ := ih (fun hc => ha (List.mem_cons_of_mem _ hc))
        (fun hc => ha' (List.mem_cons_of_mem _ hc)) htail
      exact ⟨by rw [hd, heq], hb⟩

namespace Millipede.FormBody

abbrev Pairs := List (String × String)

def canonicalBytes (toVec : Json → List UInt8) (pairs : Pairs) : List UInt8 :=
  (RequestBody.form pairs).canonicalBytes toVec

def lines : Pairs → List Char
  | [] => []
  | (key, value) :: pairs => key.toList ++ '=' :: (value.toList ++ '&' :: lines pairs)

def Plain (pairs : Pairs) : Prop :=
  ∀ pair ∈ pairs, '=' ∉ pair.1.toList ∧ '&' ∉ pair.2.toList

/-- No pairs, or a single one without another equals sign than the one between its parts. -/
def Short : Pairs → Prop
  | [] => True
  | [(key, value)] => '=' ∉ key.toList ∧ '=' ∉ value.toList
  | _ => False

variable {toVec : Json → List UInt8} {pairs pairs' : Pairs} {key value : String}

def joined (pairs : Pairs) : String :=
  "&".intercalate (pairs.map fun (key, value) => key ++ "=" ++ value)

theorem joined_append (h : pairs ≠ []) : (joined pairs).toList ++ ['&'] = lines pairs := by
  induction pairs with
  | nil => exact absurd rfl h
  | cons pair pairs ih =>
    obtain ⟨key, value⟩ := pair
    cases pairs with
    | nil => simp [joined, lines]
    | cons next pairs =>
      have hrest := ih (List.cons_ne_nil _ _)
      rw [lines, ← hrest, joined, List.map_cons,
        String.intercalate_cons_of_ne_nil (by simp)]
      simp [joined]

theorem mem_lines (h : pairs ≠ []) : '=' ∈ (joined pairs).toList := by
  have hmem : '=' ∈ lines pairs := by
    cases pairs with
    | nil => exact absurd rfl h
    | cons pair pairs => simp [lines]
  rw [← joined_append h] at hmem
  simpa using hmem

theorem joined_inj : joined pairs = joined pairs' ↔ lines pairs = lines pairs' := by
  have hempty : (joined []).toList = [] := by simp [joined]
  by_cases h : pairs = []
  · by_cases h' : pairs' = []
    · simp [h, h']
    · constructor
      · intro heq
        have hmem := mem_lines h'
        rw [← heq, h, hempty] at hmem
        cases hmem
      · intro heq
        have hmem := mem_lines h'
        rw [h, lines, ← joined_append h'] at heq
        exact absurd heq (by simp)
  · by_cases h' : pairs' = []
    · constructor
      · intro heq
        have hmem := mem_lines h
        rw [heq, h', hempty] at hmem
        cases hmem
      · intro heq
        rw [h', lines, ← joined_append h] at heq
        exact absurd heq (by simp)
    · rw [← joined_append h, ← joined_append h', List.append_left_inj, String.toList_inj]

theorem canonicalBytes_inj : canonicalBytes toVec pairs = canonicalBytes toVec pairs' ↔
    lines pairs = lines pairs' := by
  rw [← joined_inj, ← String.toByteArray_inj]
  constructor
  · intro h
    exact ByteArray.ext (Array.toList_inj.mp h)
  · intro h
    simp only [canonicalBytes, RequestBody.canonicalBytes, String.toUTF8_eq_toByteArray]
    exact congrArg (fun bytes => bytes.data.toList) h

theorem Plain.eq_of_lines (h : Plain pairs) (h' : Plain pairs')
    (heq : lines pairs = lines pairs') : pairs = pairs' := by
  induction pairs generalizing pairs' with
  | nil =>
    cases pairs' with
    | nil => rfl
    | cons pair pairs' => simp [lines] at heq
  | cons pair pairs ih =>
    cases pairs' with
    | nil => simp [lines] at heq
    | cons pair' pairs' =>
      obtain ⟨hhere, hrest⟩ := List.forall_mem_cons.mp h
      obtain ⟨hhere', hrest'⟩ := List.forall_mem_cons.mp h'
      obtain ⟨hkey, htail⟩ := List.cut_inj hhere.1 hhere'.1 heq
      obtain ⟨hvalue, hlines⟩ := List.cut_inj hhere.2 hhere'.2 htail
      have hpair : pair = pair' :=
        Prod.ext (String.toList_inj.mp hkey) (String.toList_inj.mp hvalue)
      rw [hpair, ih hrest hrest' hlines]

theorem lines_merge (key value key' value' : String) (pairs : Pairs) :
    lines ((key, value ++ "&" ++ key' ++ "=" ++ value') :: pairs) =
      lines ((key, value) :: (key', value') :: pairs) := by
  simp [lines]

theorem lines_shift (key middle value : String) :
    lines [(key ++ "=" ++ middle, value)] = lines [(key, middle ++ "=" ++ value)] := by
  simp [lines]

theorem exists_split {s : String} (h : '=' ∈ s.toList) : ∃ a b, s = a ++ "=" ++ b := by
  obtain ⟨front, back, heq⟩ := List.append_of_mem h
  refine ⟨String.ofList front, String.ofList back, ?_⟩
  rw [← String.toList_inj, heq]
  simp

theorem count_lines (pairs : Pairs) : pairs.length ≤ (lines pairs).count '=' := by
  induction pairs with
  | nil => exact Nat.zero_le _
  | cons pair pairs ih =>
    simp only [lines, List.count_append, List.count_cons, List.length_cons]
    simp
    omega

theorem Short.unique (h : Short pairs) (heq : lines pairs' = lines pairs) : pairs' = pairs := by
  have hlength := count_lines pairs'
  rw [heq] at hlength
  rcases pairs with _ | ⟨⟨key, value⟩, _ | ⟨next, pairs⟩⟩
  · exact List.length_eq_zero_iff.mp (Nat.le_zero.mp hlength)
  · have hcount : (lines [(key, value)]).count '=' = 1 := by
      have hkey := List.count_eq_zero.mpr h.1
      have hvalue := List.count_eq_zero.mpr h.2
      simp [lines, List.count_append, hkey, hvalue]
    rw [hcount] at hlength
    rcases pairs' with _ | ⟨⟨key', value'⟩, _ | ⟨next, pairs'⟩⟩
    · simp [lines] at heq
    · have hcount' := congrArg (List.count '=') heq
      rw [hcount] at hcount'
      simp only [lines, List.count_append, List.count_cons] at hcount'
      have hkey' : '=' ∉ key'.toList := List.count_eq_zero.mp (by simp at hcount'; omega)
      have hvalue' : '=' ∉ value'.toList := List.count_eq_zero.mp (by simp at hcount'; omega)
      obtain ⟨hk, htail⟩ := List.cut_inj hkey' h.1 heq
      have hv := List.append_cancel_right htail
      rw [String.toList_inj.mp hk, String.toList_inj.mp hv]
    · simp at hlength
  · exact absurd h id

theorem exists_other (h : ¬ Short pairs) :
    ∃ pairs', pairs' ≠ pairs ∧ lines pairs' = lines pairs := by
  rcases pairs with _ | ⟨⟨key, value⟩, _ | ⟨⟨key', value'⟩, pairs⟩⟩
  · exact absurd trivial h
  · by_cases hkey : '=' ∈ key.toList
    · obtain ⟨a, b, rfl⟩ := exists_split hkey
      refine ⟨[(a, b ++ "=" ++ value)], ?_, (lines_shift a b value).symm⟩
      intro heq
      have hlength := congrArg (fun pairs : Pairs => pairs.map fun p => p.1.length) heq
      have hone : "=".length = 1 := rfl
      simp [hone] at hlength
      omega
    · have hvalue : '=' ∈ value.toList := by
        by_contra hvalue
        exact h ⟨hkey, hvalue⟩
      obtain ⟨a, b, rfl⟩ := exists_split hvalue
      refine ⟨[(key ++ "=" ++ a, b)], ?_, lines_shift key a b⟩
      intro heq
      have hlength := congrArg (fun pairs : Pairs => pairs.map fun p => p.1.length) heq
      have hone : "=".length = 1 := rfl
      simp [hone] at hlength
      omega
  · refine ⟨_, ?_, lines_merge key value key' value' pairs⟩
    intro heq
    have hlen := congrArg List.length heq
    simp at hlen

/-- A form body shares its canonical bytes with no other one exactly if it is short. Bodies
whose keys hold no equals sign and whose values hold no ampersand are told apart. -/
theorem form_identity (toVec : Json → List UInt8) :
    (∀ pairs, (∀ pairs', canonicalBytes toVec pairs' = canonicalBytes toVec pairs →
      pairs' = pairs) ↔ Short pairs) ∧
    ∀ pairs pairs', Plain pairs → Plain pairs' →
      canonicalBytes toVec pairs' = canonicalBytes toVec pairs → pairs' = pairs := by
  simp only [canonicalBytes_inj]
  refine ⟨?_, fun pairs pairs' h h' heq => h'.eq_of_lines h heq⟩
  intro pairs
  constructor
  · intro hunique
    by_contra hlong
    obtain ⟨pairs', hne, heq⟩ := exists_other hlong
    exact hne (hunique pairs' heq)
  · exact fun hshort pairs' heq => hshort.unique heq

/-- Two different form bodies posted to one URL, with one unique key. -/
theorem form_identity_lost :
    [("a", "b&c=d")] ≠ [("a", "b"), ("c", "d")] ∧
    canonicalBytes (fun _ => []) [("a", "b&c=d")] =
      canonicalBytes (fun _ => []) [("a", "b"), ("c", "d")] ∧
    Request.computeUniqueKey ⟨"https://a.test/", some "a.test"⟩ "POST"
        (some (canonicalBytes (fun _ => []) [("a", "b&c=d")])) =
      Request.computeUniqueKey ⟨"https://a.test/", some "a.test"⟩ "POST"
        (some (canonicalBytes (fun _ => []) [("a", "b"), ("c", "d")])) := by
  have hbytes : canonicalBytes (fun _ => []) [("a", "b&c=d")] =
      canonicalBytes (fun _ => []) [("a", "b"), ("c", "d")] :=
    canonicalBytes_inj.mpr (lines_merge "a" "b" "c" "d" [])
  exact ⟨by decide, hbytes, by rw [hbytes]⟩

end Millipede.FormBody
