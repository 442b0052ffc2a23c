import Mathlib.Data.List.Basic

/-!
# Comma-separated values

A reader of RFC 4180: records end with CRLF, the last one may do without it, and a field that
holds a comma, a quote or a line break stands in quotes, with its quotes doubled. Any other
character may stand in a field. What is written field by field is read back, but for a last
record that is written as nothing at all.
-/

namespace Csv

inductive Mode where
  | start
  | plain
  | quoted
  /-- A quote in a quoted field: half of a quote, or the end of the field. -/
  | quote
  | cr
deriving DecidableEq

structure Reader where
  mode : Mode
  field : List Char
  record : List (List Char)
  records : List (List (List Char))

def Reader.fresh (record : List (List Char)) (records : List (List (List Char))) : Reader :=
  ⟨.start, [], record, records⟩

def Reader.endField (r : Reader) : Reader := .fresh (r.record ++ [r.field]) r.records

def Reader.endRecord (r : Reader) : Reader := .fresh [] (r.records ++ [r.record ++ [r.field]])

def Reader.step (r : Reader) (c : Char) : Option Reader :=
  match r.mode with
  | .start =>
    if c = '"' then some { r with mode := .quoted }
    else if c = ',' then some r.endField
    else if c = '\r' then some { r with mode := .cr }
    else if c = '\n' then none
    else some { r with mode := .plain, field := r.field ++ [c] }
  | .plain =>
    if c = ',' then some r.endField
    else if c = '\r' then some { r with mode := .cr }
    else if c = '"' || c = '\n' then none
    else some { r with field := r.field ++ [c] }
  | .quoted =>
    if c = '"' then some { r with mode := .quote } else some { r with field := r.field ++ [c] }
  | .quote =>
    if c = '"' then some { r with mode := .quoted, field := r.field ++ [c] }
    else if c = ',' then some r.endField
    else if c = '\r' then some { r with mode := .cr }
    else none
  | .cr => if c = '\n' then some r.endRecord else none

/-- Nothing after the last line break is no record. -/
def Reader.finish (r : Reader) : Option (List (List (List Char))) :=
  match r.mode with
  | .start => if r.record = [] then some r.records else some (r.records ++ [r.record ++ [r.field]])
  | .plain | .quote => some (r.records ++ [r.record ++ [r.field]])
  | .quoted | .cr => none

def read (text : List Char) : Option (List (List (List Char))) :=
  (text.foldlM Reader.step (.fresh [] [])).bind Reader.finish

def double (c : Char) : List Char := if c = '"' then ['"', '"'] else [c]

inductive Written : List Char → List Char → Prop
  | plain {value : List Char} (h : ∀ c ∈ value, c ≠ ',' ∧ c ≠ '"' ∧ c ≠ '\r' ∧ c ≠ '\n') :
      Written value value
  | quoted (value : List Char) : Written ('"' :: (value.flatMap double ++ ['"'])) value

structure Reader.Read (record : List (List Char)) (records : List (List (List Char)))
    (text value : List Char) (r : Reader) : Prop where
  field : r.field = value
  record : r.record = record
  records : r.records = records
  mode : if text = [] then r.mode = .start else r.mode = .plain ∨ r.mode = .quote

theorem foldlM_plain {record : List (List Char)} {records : List (List (List Char))}
    {field value : List Char} (h : ∀ c ∈ value, c ≠ ',' ∧ c ≠ '"' ∧ c ≠ '\r' ∧ c ≠ '\n') :
    value.foldlM Reader.step ⟨.plain, field, record, records⟩ =
      some ⟨.plain, field ++ value, record, records⟩ := by
  induction value generalizing field with
  | nil => simp
  | cons c value ih =>
    obtain ⟨hcomma, hquote, hcr, hlf⟩ := h c List.mem_cons_self
    have hstep : Reader.step ⟨.plain, field, record, records⟩ c =
        some ⟨.plain, field ++ [c], record, records⟩ := by
      simp [Reader.step, hcomma, hquote, hcr, hlf]
    rw [List.foldlM_cons, hstep, Option.bind_eq_bind, Option.bind_some,
      ih fun c hc => h c (List.mem_cons_of_mem _ hc), List.append_assoc, List.singleton_append]

theorem foldlM_quoted (record : List (List Char)) (records : List (List (List Char)))
    (field value : List Char) :
    (value.flatMap double).foldlM Reader.step ⟨.quoted, field, record, records⟩ =
      some ⟨.quoted, field ++ value, record, records⟩ := by
  induction value generalizing field with
  | nil => simp
  | cons c value ih =>
    have hstep : (double c).foldlM Reader.step ⟨.quoted, field, record, records⟩ =
        some ⟨.quoted, field ++ [c], record, records⟩ := by
      by_cases hquote : c = '"'
      · simp [double, hquote, Reader.step]
      · simp [double, hquote, Reader.step]
    rw [List.flatMap_cons, List.foldlM_append, hstep, Option.bind_eq_bind, Option.bind_some, ih,
      List.append_assoc, List.singleton_append]

theorem foldlM_field (record : List (List Char)) (records : List (List (List Char)))
    {text value : List Char} (h : Written text value) :
    ∃ r, text.foldlM Reader.step (.fresh record records) = some r ∧
      r.Read record records text value := by
  cases h with
  | plain h =>
    cases text with
    | nil => exact ⟨_, rfl, rfl, rfl, rfl, rfl⟩
    | cons c value =>
      obtain ⟨hcomma, hquote, hcr, hlf⟩ := h c List.mem_cons_self
      have hstep : Reader.step (.fresh record records) c =
          some ⟨.plain, [c], record, records⟩ := by
        simp [Reader.step, Reader.fresh, hcomma, hquote, hcr, hlf]
      refine ⟨⟨.plain, c :: value, record, records⟩, ?_, rfl, rfl, rfl, .inl rfl⟩
      rw [List.foldlM_cons, hstep, Option.bind_eq_bind, Option.bind_some,
        foldlM_plain fun c hc => h c (List.mem_cons_of_mem _ hc)]
      rfl
  | quoted value =>
    refine ⟨⟨.quote, value, record, records⟩, ?_, rfl, rfl, rfl, .inr rfl⟩
    have hopen : Reader.step (.fresh record records) '"' =
        some ⟨.quoted, [], record, records⟩ := rfl
    rw [List.foldlM_cons, hopen, Option.bind_eq_bind, Option.bind_some, List.foldlM_append,
      foldlM_quoted]
    rfl

section Read
variable {record : List (List Char)} {records : List (List (List Char))} {text value : List Char}
  {r : Reader}

theorem Reader.Read.comma (h : r.Read record records text value) :
    r.step ',' = some (.fresh (record ++ [value]) records) := by
  obtain ⟨mode, field, record', records'⟩ := r
  obtain ⟨rfl, rfl, rfl, hmode⟩ := h
  split_ifs at hmode with hnil
  · simp only at hmode
    subst hmode
    rfl
  · simp only at hmode
    rcases hmode with rfl | rfl
    · rfl
    · rfl

theorem Reader.Read.crlf (h : r.Read record records text value) :
    ['\r', '\n'].foldlM Reader.step r = some (.fresh [] (records ++ [record ++ [value]])) := by
  obtain ⟨mode, field, record', records'⟩ := r
  obtain ⟨rfl, rfl, rfl, hmode⟩ := h
  split_ifs at hmode with hnil
  · simp only at hmode
    subst hmode
    rfl
  · simp only at hmode
    rcases hmode with rfl | rfl
    · rfl
    · rfl

theorem Reader.Read.finish (h : r.Read record records text value) :
    r.finish = if record = [] ∧ text = [] then some records
      else some (records ++ [record ++ [value]]) := by
  obtain ⟨mode, field, record', records'⟩ := r
  obtain ⟨rfl, rfl, rfl, hmode⟩ := h
  by_cases hnil : text = []
  · rw [if_pos hnil] at hmode
    simp only at hmode
    subst hmode
    simp [Reader.finish, hnil]
  · rw [if_neg hnil] at hmode
    simp only at hmode
    rcases hmode with rfl | rfl
    · simp [Reader.finish, hnil]
    · simp [Reader.finish, hnil]

end Read

theorem intercalate_concat {α : Type*} (sep : List α) (front : List (List α)) (last : List α) :
    sep.intercalate (front ++ [last]) = (front.flatMap fun part => part ++ sep) ++ last := by
  induction front with
  | nil => simp [List.intercalate]
  | cons first front ih =>
    rw [List.cons_append, List.intercalate_cons_of_ne_nil (by simp), ih, List.flatMap_cons]
    simp only [List.append_assoc]

section Records
variable {write : List Char → List Char} (hwrite : ∀ value, Written (write value) value)
include hwrite

theorem foldlM_record (record : List (List Char)) (records : List (List (List Char)))
    (front : List (List Char)) (last : List Char) :
    ∃ r, ([','].intercalate ((front ++ [last]).map write)).foldlM Reader.step
        (.fresh record records) = some r ∧
      r.Read (record ++ front) records (write last) last := by
  induction front generalizing record with
  | nil =>
    obtain ⟨r, hread, hfield⟩ := foldlM_field record records (hwrite last)
    refine ⟨r, ?_, ?_⟩
    · simpa [List.intercalate] using hread
    · rwa [List.append_nil]
  | cons value front ih =>
    obtain ⟨r, hread, hfield⟩ := foldlM_field record records (hwrite value)
    obtain ⟨r', hread', hfield'⟩ := ih (record ++ [value])
    refine ⟨r', ?_, ?_⟩
    · rw [List.cons_append, List.map_cons, List.intercalate_cons_of_ne_nil (by simp),
        List.append_assoc, List.foldlM_append, hread, Option.bind_eq_bind, Option.bind_some,
        List.singleton_append, List.foldlM_cons, hfield.comma, Option.bind_eq_bind,
        Option.bind_some, hread']
    · rwa [List.append_assoc, List.singleton_append] at hfield'

theorem foldlM_records {rows : List (List (List Char))} (h : ∀ row ∈ rows, row ≠ [])
    (records : List (List (List Char))) :
    (rows.flatMap fun row => [','].intercalate (row.map write) ++ ['\r', '\n']).foldlM
        Reader.step (.fresh [] records) = some (.fresh [] (records ++ rows)) := by
  induction rows generalizing records with
  | nil => simp
  | cons row rows ih =>
    have hne := h row List.mem_cons_self
    obtain ⟨r, hread, hfield⟩ :=
      foldlM_record hwrite [] records row.dropLast (row.getLast hne)
    rw [List.dropLast_append_getLast] at hread
    rw [List.flatMap_cons, List.foldlM_append, List.foldlM_append, hread, Option.bind_eq_bind,
      Option.bind_some, hfield.crlf, Option.bind_some,
      ih fun row hrow => h row (List.mem_cons_of_mem _ hrow), List.nil_append,
      List.dropLast_append_getLast, List.append_assoc, List.singleton_append]

/-- What is written is read back, but for a last record that is written as nothing. -/
theorem read_written {rows : List (List (List Char))} {last : List (List Char)}
    (h : ∀ row ∈ rows, row ≠ []) (hlast : last ≠ []) :
    read (['\r', '\n'].intercalate
        ((rows ++ [last]).map fun row => [','].intercalate (row.map write))) =
      some (if last.map write = [[]] then rows else rows ++ [last]) := by
  obtain ⟨r, hread, hfield⟩ := foldlM_record hwrite [] rows last.dropLast (last.getLast hlast)
  rw [List.dropLast_append_getLast] at hread
  rw [List.map_append, List.map_singleton, intercalate_concat, List.flatMap_map, read,
    List.foldlM_append, foldlM_records hwrite h, Option.bind_eq_bind, Option.bind_some,
    List.nil_append, hread, Option.bind_some, hfield.finish, List.nil_append,
    List.dropLast_append_getLast]
  have hempty : (last.dropLast = [] ∧ write (last.getLast hlast) = []) ↔
      last.map write = [[]] := by
    rcases List.eq_nil_or_concat last with hnil | ⟨front, value, hconcat⟩
    · exact absurd hnil hlast
    · subst hconcat
      cases front with
      | nil => simp
      | cons first front =>
        constructor
        · rintro ⟨hnil, -⟩
          rw [List.concat_eq_append, List.dropLast_concat] at hnil
          cases hnil
        · intro hmap
          simp at hmap
  split_ifs with hleft hright hright
  · rfl
  · exact absurd (hempty.mp hleft) hright
  · exact absurd (hempty.mpr hright) hleft
  · rfl

end Records

end Csv
