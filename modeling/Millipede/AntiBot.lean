import Mathlib
import Millipede.Errors
import Millipede.Library.Utf8

/-!
# Anti-bot markers

`DefaultAntiBotDetector::detect`: headers and the first bytes of the body are searched for what
the vendors' pages hold, then for the markers of the caller. A marker is put into lower case by
the rules of Unicode, the body in ASCII only.

Of Unicode's tables only laws are assumed (`Casing`); texts are lists of characters.
-/

namespace Millipede.AntiBot

/-- `char::to_lowercase`, `char::to_uppercase` and the two properties that decide which of the
lower-case sigmas ends a word. -/
structure Casing where
  lower : Char → List Char
  upper : Char → List Char
  cased : Char → Bool
  caseIgnorable : Char → Bool
  lower_ascii : ∀ c : Char, c.toNat < 128 → lower c = [c.toLower]
  upper_ascii : ∀ c : Char, c.toNat < 128 → upper c = [c.toUpper]
  lower_ne_nil : ∀ c, lower c ≠ []
  upper_ne_nil : ∀ c, upper c ≠ []
  lower_idem : ∀ c, ∀ d ∈ lower c, lower d = [d]
  upper_idem : ∀ c, ∀ d ∈ upper c, upper d = [d]
  lower_sigma : lower 'Σ' = ['σ']
  lower_finalSigma : lower 'ς' = ['ς']

namespace Casing

variable (casing : Casing)

def caseIgnorableThenCased (text : List Char) : Bool :=
  (text.dropWhile casing.caseIgnorable).head?.any casing.cased

/-- What becomes of a character, after these (the nearest first) and before those. -/
def lowerWithin (before : List Char) (c : Char) (after : List Char) : List Char :=
  if c = 'Σ' then
    if casing.caseIgnorableThenCased before && !casing.caseIgnorableThenCased after then ['ς']
    else ['σ']
  else casing.lower c

def lowercaseFrom (before : List Char) : List Char → List Char
  | [] => []
  | c :: after => casing.lowerWithin before c after ++ lowercaseFrom (c :: before) after

/-- `str::to_lowercase` -/
def toLowercase (text : List Char) : List Char := casing.lowercaseFrom [] text

end Casing

def toAsciiLowercase (text : List Char) : List Char := text.map Char.toLower

/-- `HeaderValue::to_str` -/
def toStr (value : List UInt8) : Option (List Char) :=
  if value.all fun b => (decide (32 ≤ b) && decide (b < 127)) || decide (b = 9) then
    some (value.map fun b => Char.ofNat b.toNat)
  else none

structure AntiBotSignals where
  headers : List (String × List UInt8)
  body : List UInt8

structure DefaultAntiBotDetector where
  inspectionLimit : ℕ := 64 * 1024
  customMarkers : List (List Char × AntiBotTech) := []

namespace DefaultAntiBotDetector

def withInspectionLimit (detector : DefaultAntiBotDetector) (inspectionLimit : ℕ) :
    DefaultAntiBotDetector :=
  { detector with inspectionLimit := inspectionLimit }

def withCustomMarker (casing : Casing) (detector : DefaultAntiBotDetector) (marker : List Char)
    (label : String) : DefaultAntiBotDetector :=
  { detector with
    customMarkers := detector.customMarkers ++ [(casing.toLowercase marker, .custom label)] }

end DefaultAntiBotDetector

def contains (text : List Char) (part : String) : Bool := decide (part.toList <:+: text)

def containsAny (haystack : List Char) (needles : List String) : Bool :=
  needles.any fun needle => contains haystack needle

structure HeaderEvidence where
  cfHeader : Bool := false
  cloudflareServer : Bool := false
  cloudflareCookie : Bool := false
  datadomeHeader : Bool := false
  datadomeCookie : Bool := false
  perimeterxCookie : Bool := false
  kasadaHeader : Bool := false
  impervaHeader : Bool := false
  impervaCookie : Bool := false
  akamaiHeader : Bool := false
  akamaiCookie : Bool := false

def HeaderEvidence.addName (e : HeaderEvidence) (name : List Char) : HeaderEvidence :=
  { e with
    cfHeader := e.cfHeader || name == "cf-ray".toList || name == "cf-mitigated".toList
    datadomeHeader := e.datadomeHeader || name == "x-datadome".toList || name == "x-dd-b".toList
    kasadaHeader := e.kasadaHeader || name == "x-kpsdk-ct".toList || name == "x-kpsdk-cd".toList
    impervaHeader := e.impervaHeader || name == "x-iinfo".toList
    akamaiHeader := e.akamaiHeader || "x-akamai".toList.isPrefixOf name }

def HeaderEvidence.addValue (e : HeaderEvidence) (name value : List Char) : HeaderEvidence :=
  let isCookie := name == "set-cookie".toList
  { e with
    cloudflareServer :=
      e.cloudflareServer || name == "server".toList && contains value "cloudflare"
    cloudflareCookie :=
      e.cloudflareCookie ||
        isCookie && (contains value "__cf_bm" || contains value "cf_clearance")
    datadomeCookie := e.datadomeCookie || isCookie && contains value "datadome"
    perimeterxCookie :=
      e.perimeterxCookie || isCookie && (contains value "_px" || contains value "_pxhd")
    impervaCookie :=
      e.impervaCookie ||
        isCookie && (contains value "visid_incap" || contains value "incap_ses")
    akamaiCookie :=
      e.akamaiCookie || isCookie && (contains value "_abck" || contains value "ak_bmsc") }

def HeaderEvidence.addHeader (e : HeaderEvidence) (header : String × List UInt8) :
    HeaderEvidence :=
  let name := toAsciiLowercase header.1.toList
  let e := e.addName name
  match toStr header.2 with
  | none => e
  | some value => e.addValue name (toAsciiLowercase value)

def vendor (evidence : Bool) (body : List Char) (markers : List String) (technology : AntiBotTech) :
    Option AntiBotTech :=
  if evidence || containsAny body markers then some technology else none

def byVendor (e : HeaderEvidence) (body : List Char) : Option AntiBotTech :=
  (vendor (e.cfHeader || e.cloudflareServer || e.cloudflareCookie) body
    ["just a moment", "cf-chl", "challenges.cloudflare.com", "checking your browser"]
    .cloudflare).or <|
  (vendor (e.datadomeHeader || e.datadomeCookie) body
    ["datadome", "geo.captcha-delivery.com"] .dataDome).or <|
  (vendor e.perimeterxCookie body ["px-captcha", "perimeterx", "/_px"] .perimeterX).or <|
  (vendor e.kasadaHeader body ["kpsdk", "kasada"] .kasada).or <|
  (vendor (e.impervaHeader || e.impervaCookie) body
    ["incapsula", "_incap_", "incident id"] .imperva).or <|
  vendor (e.akamaiCookie || e.akamaiHeader) body
    ["akamai bot manager", "akamaighost"] .akamai

def isCaptchaPage (body : List Char) : Bool :=
  contains body "captcha" &&
    containsAny body ["access denied", "verify you are human", "are you a human"]

def DefaultAntiBotDetector.detect (detector : DefaultAntiBotDetector) (signals : AntiBotSignals) :
    Option AntiBotTech :=
  let body := toAsciiLowercase (Utf8.lossy (signals.body.take detector.inspectionLimit))
  let evidence := signals.headers.foldl HeaderEvidence.addHeader {}
  match byVendor evidence body with
  | some technology => some technology
  | none =>
    match detector.customMarkers.find? fun m => decide (m.1 <:+: body) with
    | some m => some m.2
    | none => if isCaptchaPage body then some .unknown else none

theorem toLower_of_not_ascii {c : Char} (h : ¬ c.toNat < 128) : c.toLower = c := by
  apply Char.toLower_eq_of_not_isUpper
  intro hupper
  simp only [Char.isUpper, decide_eq_true_eq, UInt32.le_iff_toNat_le] at hupper
  have hlast : c.toNat ≤ 90 := hupper.2
  omega

theorem toLower_eq_of_not_ascii {c d : Char} (h : ¬ c.toNat < 128) (hd : d.toLower = c) :
    d = c := by
  by_cases hascii : d.isUpper
  · exfalso
    apply h
    rw [← hd, Char.toLower_eq_of_isUpper hascii]
    simp only [Char.isUpper, decide_eq_true_eq, UInt32.le_iff_toNat_le] at hascii
    have hlast : d.toNat ≤ 90 := hascii.2
    rw [Char.toNat_ofNat]
    split_ifs
    · omega
    · omega
  · rw [← hd, Char.toLower_eq_of_not_isUpper hascii]

theorem mem_toAsciiLowercase_of_not_ascii {text : List Char} {c : Char} (h : ¬ c.toNat < 128) :
    c ∈ toAsciiLowercase text ↔ c ∈ text := by
  rw [toAsciiLowercase, List.mem_map]
  constructor
  · rintro ⟨d, hd, hlower⟩
    rwa [← toLower_eq_of_not_ascii h hlower]
  · intro hc
    exact ⟨c, hc, toLower_of_not_ascii h⟩

theorem toAsciiLowercase_infix {part text : List Char} (h : part <:+: text) :
    toAsciiLowercase part <:+: toAsciiLowercase text := h.map Char.toLower

namespace Casing

variable {casing : Casing}

theorem lower_smallSigma : casing.lower 'σ' = ['σ'] :=
  casing.lower_idem 'Σ' 'σ' (by rw [casing.lower_sigma]; exact List.mem_singleton_self _)

theorem lowerWithin_ne_nil (before : List Char) (c : Char) (after : List Char) :
    casing.lowerWithin before c after ≠ [] := by
  rw [lowerWithin]
  split_ifs
  · exact List.cons_ne_nil _ _
  · exact List.cons_ne_nil _ _
  · exact casing.lower_ne_nil c

theorem lower_of_mem_lowerWithin {before after : List Char} {c d : Char}
    (h : d ∈ casing.lowerWithin before c after) : casing.lower d = [d] := by
  rw [lowerWithin] at h
  split_ifs at h
  · rw [List.mem_singleton.mp h, casing.lower_finalSigma]
  · rw [List.mem_singleton.mp h, lower_smallSigma]
  · exact casing.lower_idem c d h

theorem length_le_lowercaseFrom (text before : List Char) :
    text.length ≤ (casing.lowercaseFrom before text).length := by
  induction text generalizing before with
  | nil => exact Nat.zero_le _
  | cons c after ih =>
    rw [lowercaseFrom, List.length_append, List.length_cons]
    have hpos := List.length_pos_of_ne_nil
      (@lowerWithin_ne_nil casing before c after)
    have hrest := ih (c :: before)
    omega

theorem lower_of_mem_lowercaseFrom {text before : List Char} {c : Char}
    (h : c ∈ casing.lowercaseFrom before text) : casing.lower c = [c] := by
  induction text generalizing before with
  | nil => cases h
  | cons d after ih =>
    rw [lowercaseFrom, List.mem_append] at h
    cases h with
    | inl hhere => exact lower_of_mem_lowerWithin hhere
    | inr hrest => exact ih hrest

def Plain (casing : Casing) (c : Char) : Prop :=
  c.toNat < 128 ∨ (casing.lower c = [c] ∧ casing.upper c = [c])

theorem Plain.lower {c : Char} (h : casing.Plain c) : casing.lower c = [c.toLower] := by
  by_cases hascii : c.toNat < 128
  · exact casing.lower_ascii c hascii
  · rw [toLower_of_not_ascii hascii]
    exact (h.resolve_left hascii).1

theorem Plain.ne_sigma {c : Char} (h : casing.Plain c) : c ≠ 'Σ' := by
  rintro rfl
  have hlower := h.lower
  rw [casing.lower_sigma] at hlower
  revert hlower
  decide

theorem lowercaseFrom_of_plain {text : List Char} (h : ∀ c ∈ text, casing.Plain c)
    (before : List Char) : casing.lowercaseFrom before text = toAsciiLowercase text := by
  induction text generalizing before with
  | nil => rfl
  | cons c after ih =>
    have hc := h c (List.mem_cons_self ..)
    rw [lowercaseFrom, ih (fun d hd => h d (List.mem_cons_of_mem _ hd)), lowerWithin,
      if_neg hc.ne_sigma, hc.lower]
    rfl

def variants (casing : Casing) : List Char → List (List Char)
  | [] => [[]]
  | c :: text =>
    [[c], casing.lower c, casing.upper c].flatMap fun piece =>
      (casing.variants text).map (piece ++ ·)

theorem mem_variants_cons {c : Char} {text variant : List Char} :
    variant ∈ casing.variants (c :: text) ↔
      ∃ piece ∈ [[c], casing.lower c, casing.upper c], ∃ rest ∈ casing.variants text,
        piece ++ rest = variant := by
  simp only [variants, List.mem_flatMap, List.mem_map]

theorem verbatim_mem_variants (text : List Char) : text ∈ casing.variants text := by
  induction text with
  | nil => exact List.mem_singleton_self _
  | cons c text ih =>
    exact mem_variants_cons.mpr ⟨[c], List.mem_cons_self .., text, ih, rfl⟩

theorem upper_mem_variants (text : List Char) :
    text.flatMap casing.upper ∈ casing.variants text := by
  induction text with
  | nil => exact List.mem_singleton_self _
  | cons c text ih =>
    exact mem_variants_cons.mpr ⟨casing.upper c, by simp, _, ih, rfl⟩

theorem ne_nil_of_mem_variants {text variant : List Char} (htext : text ≠ [])
    (h : variant ∈ casing.variants text) : variant ≠ [] := by
  obtain ⟨c, text, rfl⟩ := List.exists_cons_of_ne_nil htext
  obtain ⟨piece, hpiece, rest, -, rfl⟩ := mem_variants_cons.mp h
  have hne : piece ≠ [] := by
    simp only [List.mem_cons, List.not_mem_nil, or_false] at hpiece
    rcases hpiece with rfl | rfl | rfl
    · exact List.cons_ne_nil _ _
    · exact casing.lower_ne_nil c
    · exact casing.upper_ne_nil c
  exact List.append_ne_nil_of_left_ne_nil hne rest

theorem Plain.piece {c : Char} (h : casing.Plain c) {piece : List Char}
    (hpiece : piece ∈ [[c], casing.lower c, casing.upper c]) :
    toAsciiLowercase piece = [c.toLower] := by
  simp only [List.mem_cons, List.not_mem_nil, or_false] at hpiece
  rcases hpiece with rfl | rfl | rfl
  · rfl
  · rw [h.lower, toAsciiLowercase, List.map_singleton, Char.toLower_toLower_eq_toLower]
  · by_cases hascii : c.toNat < 128
    · rw [casing.upper_ascii c hascii, toAsciiLowercase, List.map_singleton,
        Char.toLower_toUpper_eq_toLower]
    · rw [(h.resolve_left hascii).2]
      rfl

theorem toAsciiLowercase_of_plain {text variant : List Char} (h : ∀ c ∈ text, casing.Plain c)
    (hvariant : variant ∈ casing.variants text) :
    toAsciiLowercase variant = toAsciiLowercase text := by
  induction text generalizing variant with
  | nil => rw [List.mem_singleton.mp hvariant]
  | cons c text ih =>
    obtain ⟨piece, hpiece, rest, hrest, rfl⟩ := mem_variants_cons.mp hvariant
    have htail := ih (fun d hd => h d (List.mem_cons_of_mem _ hd)) hrest
    rw [toAsciiLowercase, List.map_append, ← toAsciiLowercase, ← toAsciiLowercase, htail,
      (h c (List.mem_cons_self ..)).piece hpiece]
    rfl

/-- The lower-case marker is in all of its variants exactly when it has plain characters only:
a capital outside of ASCII is kept in the marker itself, and the capitals of a small letter take
its place when the marker is written in them. -/
theorem infix_variants_iff {marker : List Char} :
    (∀ variant ∈ casing.variants marker,
        casing.toLowercase marker <:+: toAsciiLowercase variant) ↔
      ∀ c ∈ marker, casing.Plain c := by
  constructor
  · intro hall c hc
    by_cases hascii : c.toNat < 128
    · exact Or.inl hascii
    · have hverbatim := hall marker (verbatim_mem_variants marker)
      have hlength : (toAsciiLowercase marker).length ≤ (casing.toLowercase marker).length := by
        rw [toAsciiLowercase, List.length_map]
        exact length_le_lowercaseFrom marker []
      have hsame := hverbatim.eq_of_length_le hlength
      have hmem : c ∈ casing.toLowercase marker := by
        rw [hsame]
        exact (mem_toAsciiLowercase_of_not_ascii hascii).mpr hc
      have hlower : casing.lower c = [c] := lower_of_mem_lowercaseFrom hmem
      have hupper := (hall _ (upper_mem_variants marker)).subset hmem
      rw [mem_toAsciiLowercase_of_not_ascii hascii] at hupper
      obtain ⟨d, -, hd⟩ := List.mem_flatMap.mp hupper
      exact Or.inr ⟨hlower, casing.upper_idem d c hd⟩
  · intro hplain variant hvariant
    rw [toAsciiLowercase_of_plain hplain hvariant, toLowercase, lowercaseFrom_of_plain hplain]

end Casing

theorem containsAny_mono {part text : List Char} (h : part <:+: text) {needles : List String}
    (hpart : containsAny part needles = true) : containsAny text needles = true := by
  rw [containsAny, List.any_eq_true] at hpart ⊢
  obtain ⟨needle, hmem, hin⟩ := hpart
  exact ⟨needle, hmem, decide_eq_true ((of_decide_eq_true hin).trans h)⟩

theorem vendor_isSome {evidence : Bool} {body : List Char} {markers : List String}
    {technology : AntiBotTech} :
    (vendor evidence body markers technology).isSome = (evidence || containsAny body markers) := by
  rw [vendor]
  split_ifs with hfound
  · exact hfound.symm
  · exact (Bool.eq_false_of_not_eq_true hfound).symm

theorem vendor_mono {part text : List Char} (h : part <:+: text) {evidence : Bool}
    {markers : List String} {technology : AntiBotTech}
    (hpart : (vendor false part markers technology).isSome = true) :
    (vendor evidence text markers technology).isSome = true := by
  rw [vendor_isSome, Bool.false_or] at hpart
  rw [vendor_isSome, containsAny_mono h hpart, Bool.or_true]

def isRecognised (e : HeaderEvidence) (body : List Char) : Bool :=
  (byVendor e body).isSome || isCaptchaPage body

theorem isRecognised_mono {part text : List Char} (h : part <:+: text) (e : HeaderEvidence)
    (hpart : isRecognised {} part = true) : isRecognised e text = true := by
  simp only [isRecognised, byVendor, Option.isSome_or, Bool.or_eq_true] at hpart ⊢
  apply Or.imp ?_ ?_ hpart
  · exact Or.imp (vendor_mono h) <| Or.imp (vendor_mono h) <| Or.imp (vendor_mono h) <|
      Or.imp (vendor_mono h) <| Or.imp (vendor_mono h) (vendor_mono h)
  · intro hcaptcha
    rw [isCaptchaPage, Bool.and_eq_true] at hcaptcha ⊢
    refine ⟨?_, containsAny_mono h hcaptcha.2⟩
    exact decide_eq_true ((of_decide_eq_true hcaptcha.1).trans h)

def inspected (limit : ℕ) (body : List UInt8) : List Char :=
  toAsciiLowercase (Utf8.lossy (body.take limit))

theorem detect_isSome {detector : DefaultAntiBotDetector} {signals : AntiBotSignals} :
    (detector.detect signals).isSome = true ↔
      isRecognised (signals.headers.foldl HeaderEvidence.addHeader {})
          (inspected detector.inspectionLimit signals.body) = true ∨
        ∃ m ∈ detector.customMarkers,
          m.1 <:+: inspected detector.inspectionLimit signals.body := by
  rw [DefaultAntiBotDetector.detect, isRecognised, ← inspected]
  cases byVendor (signals.headers.foldl HeaderEvidence.addHeader {})
      (inspected detector.inspectionLimit signals.body) with
  | some technology => simp
  | none =>
    cases hfind : detector.customMarkers.find? fun m =>
        decide (m.1 <:+: inspected detector.inspectionLimit signals.body) with
    | some m =>
      have hin := List.find?_some hfind
      simp only [decide_eq_true_eq] at hin
      simp only [Option.isSome_some, true_iff]
      exact Or.inr ⟨m, List.mem_of_find?_eq_some hfind, hin⟩
    | none =>
      rw [List.find?_eq_none] at hfind
      have hno : ¬ ∃ m ∈ detector.customMarkers,
          m.1 <:+: inspected detector.inspectionLimit signals.body := by
        rintro ⟨m, hm, hin⟩
        exact hfind m hm (decide_eq_true hin)
      rw [or_iff_left hno]
      cases isCaptchaPage (inspected detector.inspectionLimit signals.body) <;> simp

def configured (casing : Casing) (limit : ℕ) (markers : List (List Char × String)) :
    DefaultAntiBotDetector :=
  markers.foldl (fun detector m => detector.withCustomMarker casing m.1 m.2)
    (DefaultAntiBotDetector.withInspectionLimit {} limit)

theorem configured_eq (casing : Casing) (limit : ℕ) (markers : List (List Char × String)) :
    configured casing limit markers =
      ⟨limit, markers.map fun m => (casing.toLowercase m.1, .custom m.2)⟩ := by
  induction markers using List.reverseRecOn with
  | nil => rfl
  | append_singleton markers m ih =>
    rw [configured, List.foldl_concat, ← configured, ih, List.map_append]
    rfl

/-- The marker is found in all of its variants, in any page and beside any other markers. -/
def FoundInAnyCase (casing : Casing) (marker : List Char) : Prop :=
  ∀ (limit : ℕ) (markers : List (List Char × String)) (headers : List (String × List UInt8))
    (text : List Char), marker ∈ markers.map Prod.fst →
    ∀ variant ∈ casing.variants marker,
      Utf8.encode variant <:+: (Utf8.encode text).take limit →
      ((configured casing limit markers).detect ⟨headers, Utf8.encode text⟩).isSome = true

theorem inspected_of_infix {variant : List Char} (hvariant : variant ≠ []) {limit : ℕ}
    {body : List UInt8} (h : Utf8.encode variant <:+: body.take limit) :
    toAsciiLowercase variant <:+: inspected limit body := by
  obtain ⟨a, rest, hbody⟩ := h
  rw [inspected, ← hbody, Utf8.lossy_around hvariant]
  exact toAsciiLowercase_infix ⟨Utf8.lossy a, Utf8.lossy rest, rfl⟩

/-- A custom marker is found in any case exactly when its characters are in ASCII or have no
case, or a page with the marker is recognised without it. -/
theorem custom_marker_found (casing : Casing) {marker : List Char} (hmarker : marker ≠ []) :
    FoundInAnyCase casing marker ↔
      (∀ c ∈ marker, casing.Plain c) ∨
        ∀ variant ∈ casing.variants marker,
          ¬ casing.toLowercase marker <:+: toAsciiLowercase variant →
            isRecognised {} (toAsciiLowercase variant) = true := by
  constructor
  · intro hfound
    right
    intro variant hvariant hmissed
    have hsome := hfound (Utf8.encode variant).length [(marker, "")] [] variant
      (List.mem_cons_self ..) variant hvariant (by rw [List.take_length])
    rw [detect_isSome, configured_eq, inspected, List.take_length, Utf8.lossy_encode] at hsome
    apply hsome.resolve_right
    rintro ⟨m, hm, hin⟩
    rw [List.map_singleton, List.mem_singleton] at hm
    rw [hm] at hin
    exact hmissed hin
  · intro hcases limit markers headers text hmem variant hvariant hin
    have hbody := inspected_of_infix (Casing.ne_nil_of_mem_variants hmarker hvariant) hin
    rw [detect_isSome, configured_eq]
    by_cases hlower : casing.toLowercase marker <:+: toAsciiLowercase variant
    · right
      obtain ⟨m, hm, rfl⟩ := List.mem_map.mp hmem
      exact ⟨_, List.mem_map_of_mem hm, hlower.trans hbody⟩
    · left
      have hrecognised : isRecognised {} (toAsciiLowercase variant) = true := by
        cases hcases with
        | inl hplain => exact absurd (Casing.infix_variants_iff.mpr hplain variant hvariant) hlower
        | inr hother => exact hother variant hvariant hlower
      exact isRecognised_mono hbody _ hrecognised

def someLower (c : Char) : Char :=
  if c = 'É' then 'é' else if c = 'Σ' then 'σ' else c.toLower

def someUpper (c : Char) : Char :=
  if c = 'é' then 'É' else if c = 'σ' ∨ c = 'ς' then 'Σ' else c.toUpper

theorem toUpper_eq_of_not_ascii {c d : Char} (h : ¬ c.toNat < 128) (hd : d.toUpper = c) :
    d = c := by
  have hlower : d.toLower = c := by
    rw [← toLower_of_not_ascii h, ← hd, Char.toLower_toUpper_eq_toLower]
  exact toLower_eq_of_not_ascii h hlower

theorem someLower_idem (c : Char) : someLower (someLower c) = someLower c := by
  rw [someLower.eq_def c]
  split_ifs with hacute hsigma
  · decide
  · decide
  · have hkeptAcute : c.toLower ≠ 'É' := fun h => hacute (toLower_eq_of_not_ascii (by decide) h)
    have hkeptSigma : c.toLower ≠ 'Σ' := fun h => hsigma (toLower_eq_of_not_ascii (by decide) h)
    rw [someLower, if_neg hkeptAcute, if_neg hkeptSigma, Char.toLower_toLower_eq_toLower]

theorem someUpper_idem (c : Char) : someUpper (someUpper c) = someUpper c := by
  rw [someUpper.eq_def c]
  split_ifs with hacute hsigma
  · decide
  · decide
  · have hkeptAcute : c.toUpper ≠ 'é' := fun h => hacute (toUpper_eq_of_not_ascii (by decide) h)
    have hkeptSigma : ¬ (c.toUpper = 'σ' ∨ c.toUpper = 'ς') := by
      intro h
      exact hsigma (h.imp (toUpper_eq_of_not_ascii (by decide))
        (toUpper_eq_of_not_ascii (by decide)))
    rw [someUpper, if_neg hkeptAcute, if_neg hkeptSigma, Char.toUpper_toUpper_eq_toUpper]

theorem someLower_ascii {c : Char} (h : c.toNat < 128) : someLower c = c.toLower := by
  have hacute : c ≠ 'É' := by
    rintro rfl
    exact absurd h (by decide)
  have hsigma : c ≠ 'Σ' := by
    rintro rfl
    exact absurd h (by decide)
  rw [someLower, if_neg hacute, if_neg hsigma]

theorem someUpper_ascii {c : Char} (h : c.toNat < 128) : someUpper c = c.toUpper := by
  have hacute : c ≠ 'é' := by
    rintro rfl
    exact absurd h (by decide)
  have hsigma : ¬ (c = 'σ' ∨ c = 'ς') := by
    rintro (rfl | rfl)
    · exact absurd h (by decide)
    · exact absurd h (by decide)
  rw [someUpper, if_neg hacute, if_neg hsigma]

def someCasing : Casing where
  lower c := [someLower c]
  upper c := [someUpper c]
  cased c := c.isAlpha || ['É', 'é', 'Σ', 'σ', 'ς'].contains c
  caseIgnorable c := c == '.' || c == ':'
  lower_ascii c hc := by rw [someLower_ascii hc]
  upper_ascii c hc := by rw [someUpper_ascii hc]
  lower_ne_nil c := List.cons_ne_nil _ _
  upper_ne_nil c := List.cons_ne_nil _ _
  lower_idem c d hd := by rw [List.mem_singleton.mp hd, someLower_idem]
  upper_idem c d hd := by rw [List.mem_singleton.mp hd, someUpper_idem]
  lower_sigma := rfl
  lower_finalSigma := rfl

theorem custom_marker_found_refused : FoundInAnyCase someCasing "Refused".toList := by
  apply (custom_marker_found someCasing (by decide)).mpr
  left
  intro c hc
  left
  have hascii : "Refused".toList.all fun c => decide (c.toNat < 128) := by decide +kernel
  exact of_decide_eq_true (List.all_eq_true.mp hascii c hc)

/-- The marker is put into lower case, the page's capital is kept. -/
theorem capital_marker_missed : ¬ FoundInAnyCase someCasing ['É'] := by
  intro hfound
  have hsome := hfound 65536 [(['É'], "accented")] [] ['É'] (by decide) ['É'] (by decide)
    (by decide +kernel)
  exact absurd hsome (by decide +kernel)

end Millipede.AntiBot
