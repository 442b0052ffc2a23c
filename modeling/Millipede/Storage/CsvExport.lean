import Mathlib.Data.String.Basic
import Millipede.Library.Csv
import Millipede.Library.OrderedMap
import Millipede.Library.Utf8
import Millipede.Storage.DatasetRefinement

/-!
# CSV exports

`export_csv` of both datasets, which share their code but for where the items come from. The
rows are joined by CRLF without one at the end, and a field is quoted only for what it holds:
an empty field is written as nothing.
-/

namespace Millipede.CsvExport

inductive Value where
  | null
  | bool (value : Bool)
  | number (text : String)
  | string (value : String)
  | array (items : List Value)
  | object (members : List (String × Value))

abbrev Object := List (String × Value)

def Value.asObject : Value → Option Object
  | .object members => some members
  | _ => none

def csvField (value : String) : String :=
  if value.toList.any fun c => c = ',' || c = '"' || c = '\r' || c = '\n' then
    String.ofList
      ('"' :: (value.toList.flatMap (fun c => if c = '"' then ['"', '"'] else [c]) ++ ['"']))
  else value

def columns (objects : List Object) : List String :=
  (objects.foldl (fun keys object => object.foldl (fun keys member => keys.insert member.1 ()) keys)
    (OrderedMap.empty : OrderedMap String Unit)).entries.map Prod.fst

/-- `display` is `Value::to_string`. -/
def rowField (display : Value → String) (object : Object) (key : String) : String :=
  match object.lookup key with
  | none => ""
  | some (.string value) => csvField value
  | some value => csvField (display value)

def exportRows (display : Value → String) (objects : List Object) : String :=
  let keys := columns objects
  "\r\n".intercalate
    (",".intercalate (keys.map csvField) ::
      objects.map fun object => ",".intercalate (keys.map (rowField display object)))

def exportCsv (display : Value → String) (items : List Value) : StorageResult (List UInt8) :=
  match items.mapM Value.asObject with
  | none => .error (.unsupported "export_csv requires object items")
  | some objects => .ok (Utf8.encode (exportRows display objects).toList)

def Memory.exportCsv (display : Value → String) (items : List Value) :
    StorageResult (List UInt8) :=
  CsvExport.exportCsv display items

def Fs.exportCsv {β : Type*} (codec : FsDataset.ItemCodec Value β) (display : Value → String)
    (directory : FsDataset.Directory β) : StorageResult (List UInt8) :=
  CsvExport.exportCsv display (FsDataset.readItems codec directory)

/-- The records that a reader finds in the file. -/
def readRecords (bytes : List UInt8) : Option (List (List String)) :=
  (Csv.read (Utf8.lossy bytes)).map fun records => records.map fun record =>
    record.map String.ofList

def fieldValue (display : Value → String) (object : Object) (key : String) : String :=
  match object.lookup key with
  | none => ""
  | some (.string value) => value
  | some value => display value

/-- The objects have one key, and the field of the last one is empty. -/
def LastEmpty (display : Value → String) (objects : List Object) : Prop :=
  ∃ key, (∀ object ∈ objects, ∀ member ∈ object, member.1 = key) ∧
    ∃ last ∈ objects.getLast?, fieldValue display last key = ""

theorem csvField_written (value : List Char) :
    Csv.Written (csvField (String.ofList value)).toList value := by
  rw [csvField, String.toList_ofList]
  split_ifs with hspecial
  · rw [String.toList_ofList]
    exact .quoted value
  · rw [String.toList_ofList]
    refine .plain fun c hc => ?_
    simp only [List.any_eq_true, decide_eq_true_eq, Bool.or_eq_true, not_exists, not_and, not_or]
      at hspecial
    obtain ⟨⟨⟨hcomma, hquote⟩, hcr⟩, hlf⟩ := hspecial c hc
    exact ⟨hcomma, hquote, hcr, hlf⟩

theorem csvField_eq_empty {value : String} : csvField value = "" ↔ value = "" := by
  rw [csvField]
  split_ifs with hspecial
  · constructor
    · intro h
      have hlist := congrArg String.toList h
      rw [String.toList_ofList] at hlist
      cases hlist
    · rintro rfl
      simp at hspecial
  · rfl

theorem rowField_eq (display : Value → String) (object : Object) (key : String) :
    rowField display object key = csvField (fieldValue display object key) := by
  rw [rowField, fieldValue]
  split
  · exact (csvField_eq_empty.mpr rfl).symm
  · rfl
  · rfl

theorem find_keys (object : Object) (keys : OrderedMap String Unit) (key : String) :
    ((object.foldl (fun keys member => keys.insert member.1 ()) keys).find key).isSome = true ↔
      (keys.find key).isSome = true ∨ ∃ member ∈ object, member.1 = key := by
  induction object generalizing keys with
  | nil => simp
  | cons member object ih =>
    rw [List.foldl_cons, ih, OrderedMap.find_insert]
    by_cases hkey : key = member.1
    · simp [hkey]
    · simp [hkey, Ne.symm hkey]

theorem find_allKeys (objects : List Object) (keys : OrderedMap String Unit) (key : String) :
    ((objects.foldl (fun keys object =>
        object.foldl (fun keys member => keys.insert member.1 ()) keys) keys).find key).isSome =
        true ↔
      (keys.find key).isSome = true ∨ ∃ object ∈ objects, ∃ member ∈ object, member.1 = key := by
  induction objects generalizing keys with
  | nil => simp
  | cons object objects ih =>
    rw [List.foldl_cons, ih, find_keys]
    simp [or_assoc]

theorem mem_columns {objects : List Object} {key : String} :
    key ∈ columns objects ↔ ∃ object ∈ objects, ∃ member ∈ object, member.1 = key := by
  have hfind := find_allKeys objects .empty key
  simp only [OrderedMap.find_empty, Option.isSome_none, Bool.false_eq_true, false_or] at hfind
  rw [← hfind, columns, List.mem_map, Option.isSome_iff_exists]
  constructor
  · rintro ⟨⟨found, value⟩, hmem, rfl⟩
    exact ⟨value, OrderedMap.mem_entries_iff.mp hmem⟩
  · rintro ⟨value, hvalue⟩
    exact ⟨(key, value), OrderedMap.mem_entries_iff.mpr hvalue, rfl⟩

theorem columns_sorted (objects : List Object) : (columns objects).Pairwise (· < ·) :=
  List.pairwise_map.mpr (OrderedMap.sorted _)

theorem lastEmpty_iff {display : Value → String} {objects : List Object} {last : Object}
    (hkey : ∃ object ∈ objects, object ≠ []) (hlast : objects.getLast? = some last) :
    (columns objects).map (fun key => csvField (fieldValue display last key)) = [""] ↔
      LastEmpty display objects := by
  constructor
  · intro h
    obtain ⟨key, hcolumns, hfield⟩ := List.map_eq_singleton_iff.mp h
    refine ⟨key, fun object hobject member hmember => ?_, last, hlast, csvField_eq_empty.mp hfield⟩
    have hmem := mem_columns.mpr ⟨object, hobject, member, hmember, rfl⟩
    rw [hcolumns] at hmem
    exact List.mem_singleton.mp hmem
  · rintro ⟨key, hall, last', hlast', hfield⟩
    cases hlast.symm.trans hlast'
    have hcolumns : columns objects = [key] := by
      obtain ⟨object, hobject, hne⟩ := hkey
      obtain ⟨member, rest, rfl⟩ := List.exists_cons_of_ne_nil hne
      refine List.Pairwise.eq_of_mem_iff (columns_sorted objects) (List.pairwise_singleton _ _)
        fun k => ?_
      rw [mem_columns, List.mem_singleton]
      constructor
      · rintro ⟨object, hobject, member, hmember, rfl⟩
        exact hall object hobject member hmember
      · rintro rfl
        exact ⟨_, hobject, member, List.mem_cons_self, hall _ hobject _ List.mem_cons_self⟩
    rw [hcolumns, List.map_singleton, csvField_eq_empty.mpr hfield]

def expected (display : Value → String) (objects : List Object) : List (List String) :=
  columns objects :: objects.map fun object => (columns objects).map (fieldValue display object)

theorem toList_exportRows (display : Value → String) (objects : List Object) :
    (exportRows display objects).toList = ['\r', '\n'].intercalate
      (((expected display objects).map (List.map String.toList)).map fun row =>
        [','].intercalate (row.map fun value => (csvField (String.ofList value)).toList)) := by
  have hcomma : ",".toList = [','] := rfl
  have hcrlf : "\r\n".toList = ['\r', '\n'] := rfl
  simp only [exportRows, expected, String.toList_intercalate, List.map_cons, List.map_map,
    Function.comp_def, hcomma, hcrlf, rowField_eq, String.ofList_toList]

/-- The reader finds the header and a row for every item, unless the last row is empty. -/
theorem readRecords_exportRows (display : Value → String) {objects : List Object}
    (hitems : objects ≠ []) (hkey : ∃ object ∈ objects, object ≠ []) :
    ∃ records, readRecords (Utf8.encode (exportRows display objects).toList) = some records ∧
      (LastEmpty display objects → records = (expected display objects).dropLast) ∧
      (¬ LastEmpty display objects → records = expected display objects) := by
  obtain ⟨front, last, hsplit⟩ : ∃ front last, objects = front ++ [last] :=
    ⟨_, _, (List.dropLast_append_getLast hitems).symm⟩
  have hlast : objects.getLast? = some last := by rw [hsplit, List.getLast?_concat]
  have hcolumns : columns objects ≠ [] := by
    obtain ⟨object, hobject, hne⟩ := hkey
    obtain ⟨member, rest, rfl⟩ := List.exists_cons_of_ne_nil hne
    exact List.ne_nil_of_mem (mem_columns.mpr ⟨_, hobject, member, List.mem_cons_self, rfl⟩)
  let row : Object → List String := fun object =>
    (columns objects).map (fieldValue display object)
  have hrows : expected display objects = (columns objects :: front.map row) ++ [row last] := by
    rw [expected, List.cons_append, ← List.map_singleton, ← List.map_append, ← hsplit]
  have hne : ∀ texts ∈ (columns objects :: front.map row).map (List.map String.toList),
      texts ≠ [] := by
    intro texts htexts hnil
    obtain ⟨fields, hfields, rfl⟩ := List.mem_map.mp htexts
    have hempty := List.map_eq_nil_iff.mp hnil
    rcases List.mem_cons.mp hfields with rfl | hrow
    · exact hcolumns hempty
    · obtain ⟨object, -, rfl⟩ := List.mem_map.mp hrow
      exact hcolumns (List.map_eq_nil_iff.mp hempty)
  have hlastne : (row last).map String.toList ≠ [] := by
    intro hnil
    exact hcolumns (List.map_eq_nil_iff.mp (List.map_eq_nil_iff.mp hnil))
  have hread := Csv.read_written csvField_written hne hlastne
  -- a row is written as nothing when its only field is
  have hnothing : ((row last).map String.toList).map
      (fun value => (csvField (String.ofList value)).toList) = [[]] ↔
      LastEmpty display objects := by
    rw [← lastEmpty_iff hkey hlast, List.map_map, List.map_map, List.map_eq_singleton_iff,
      List.map_eq_singleton_iff]
    simp only [Function.comp_apply, String.ofList_toList, String.toList_eq_nil_iff]
  have hback : ∀ texts : List (List String),
      (texts.map (List.map String.toList)).map (List.map String.ofList) = texts := by
    intro texts
    simp [Function.comp_def]
  have htext : (exportRows display objects).toList = _ := toList_exportRows display objects
  rw [hrows, List.map_append, List.map_singleton] at htext
  rw [readRecords, Utf8.lossy_encode, htext, hread, Option.map_some]
  refine ⟨_, rfl, fun hempty => ?_, fun hempty => ?_⟩
  · rw [if_pos (hnothing.mpr hempty), hrows, List.dropLast_concat]
    exact hback _
  · rw [if_neg fun h => hempty (hnothing.mp h), hrows, ← List.map_singleton, ← List.map_append]
    exact hback _

theorem mapM_asObject (objects : List Object) :
    (objects.map Value.object).mapM Value.asObject = some objects := by
  induction objects with
  | nil => rfl
  | cons object objects ih =>
    rw [List.map_cons, List.mapM_cons, ih]
    rfl

theorem exportCsv_of_run {β : Type} {codec : FsDataset.ItemCodec Value β}
    {display : Value → String} {debugStr : String → String} {name : String}
    {leftovers : FsDataset.Directory β} {calls : List (FsDataset.Call Value β)}
    {s : FsDataset.Twin Value β}
    (hname : Layout.storeName debugStr (some name) = .ok name)
    (hleftovers : ∀ file ∈ leftovers, Layout.isTemporaryFile file = true)
    (run : Machine.Run (Machine.Guarded FsDataset.Within
      (Machine.Computes (FsDataset.call debugStr codec name)))
      (.start debugStr name leftovers) calls s) :
    Fs.exportCsv codec display (s.client.directory name) =
      CsvExport.exportCsv display
        ((calls.map FsDataset.Call.writes).flatten.filterMap codec.readBack) := by
  obtain ⟨hrefines, hmemory, -⟩ := FsDataset.refines_run hname hleftovers run
  rw [Fs.exportCsv, hrefines.read, hmemory]

/-- The file reads back as the items exactly when its last row is not empty, and both backends
write the same bytes for items that come back as they were pushed. -/
theorem csv_reads_back {display : Value → String} {items : List Value} {objects : List Object}
    (hobjects : items = objects.map .object) (hitems : items ≠ [])
    (hkey : ∃ object ∈ objects, object ≠ []) :
    (∃ bytes, exportCsv display items = .ok bytes ∧
      (readRecords bytes = some (expected display objects) ↔ ¬ LastEmpty display objects)) ∧
    (columns objects).Pairwise (· < ·) ∧
    (∀ key, key ∈ columns objects ↔ ∃ object ∈ objects, ∃ member ∈ object, member.1 = key) ∧
    ∀ {β : Type} (codec : FsDataset.ItemCodec Value β) (debugStr : String → String)
      (name : String) (leftovers : FsDataset.Directory β)
      (calls : List (FsDataset.Call Value β)) (s : FsDataset.Twin Value β),
      Layout.storeName debugStr (some name) = .ok name →
      (∀ file ∈ leftovers, Layout.isTemporaryFile file = true) →
      Machine.Run (Machine.Guarded FsDataset.Within
        (Machine.Computes (FsDataset.call debugStr codec name)))
        (.start debugStr name leftovers) calls s →
      (calls.map FsDataset.Call.writes).flatten = items →
      (∀ item ∈ items, codec.decode (codec.encode item) = some item) →
        Fs.exportCsv codec display (s.client.directory name) =
          Memory.exportCsv display s.memory ∧ s.memory = items := by
  have hne : objects ≠ [] := by
    rintro rfl
    exact hitems hobjects
  obtain ⟨records, hread, hempty, hfull⟩ := readRecords_exportRows display hne hkey
  refine ⟨⟨Utf8.encode (exportRows display objects).toList, ?_, ?_⟩, columns_sorted objects,
    fun key => mem_columns, ?_⟩
  · rw [exportCsv, hobjects, mapM_asObject]
  · rw [hread, Option.some.injEq]
    constructor
    · intro hsame hlast
      rw [hsame] at hempty
      have hlength := congrArg List.length (hempty hlast)
      rw [List.length_dropLast, expected, List.length_cons] at hlength
      omega
    · exact hfull
  · intro β codec debugStr name leftovers calls s hname hleftovers run hpushed hback
    have hmemory := (FsDataset.refines_run hname hleftovers run).2.1.trans hpushed
    rw [exportCsv_of_run hname hleftovers run, hpushed, hmemory, Memory.exportCsv,
      FsDataset.filterMap_readBack.mpr hback]
    exact ⟨rfl, rfl⟩

def oneEmptyField : List Object := [[("a", .string "")]]

theorem csv_row_lost :
    ∃ bytes, exportCsv (fun _ => "") (oneEmptyField.map .object) = .ok bytes ∧
      readRecords bytes = some [["a"]] ∧
      readRecords bytes ≠ some (expected (fun _ => "") oneEmptyField) := by
  have hempty : LastEmpty (fun _ => "") oneEmptyField :=
    ⟨"a", by simp [oneEmptyField], _, rfl, rfl⟩
  obtain ⟨records, hread, hlost, -⟩ :=
    @readRecords_exportRows (fun _ => "") oneEmptyField (by simp [oneEmptyField])
      ⟨_, List.mem_cons_self, by simp⟩
  have hheader : records = [["a"]] := hlost hempty
  refine ⟨_, rfl, hread.trans (congrArg some hheader), fun hsame => ?_⟩
  have hfull := Option.some.inj (hread.symm.trans hsame)
  rw [hheader] at hfull
  cases hfull

def awkwardFields : List Object :=
  [[("a,b", .string "x\"y"), ("c", .number "1")], [("c", .string "\r\n")]]

def plainValues : FsDataset.ItemCodec Value Value := ⟨id, some⟩

def awkwardPushes : List (FsDataset.Call Value Value) :=
  [.pushJsonBatch (awkwardFields.map .object)]

theorem csv_reads_back_awkwardFields :
    (∃ bytes, exportCsv (fun _ => "1") (awkwardFields.map .object) = .ok bytes ∧
      readRecords bytes = some [["a,b", "c"], ["x\"y", "1"], ["", "\r\n"]]) ∧
    ∃ s : FsDataset.Twin Value Value, s.memory = awkwardFields.map .object ∧
      Fs.exportCsv plainValues (fun _ => "1") (s.client.directory "news") =
        Memory.exportCsv (fun _ => "1") s.memory := by
  have hback := @csv_reads_back (fun _ => "1") _ awkwardFields rfl (by simp [awkwardFields])
    ⟨_, List.mem_cons_self, by simp⟩
  obtain ⟨⟨bytes, hexport, hread⟩, -, -, hsame⟩ := hback
  refine ⟨⟨bytes, hexport, hread.mpr ?_⟩, ?_⟩
  · rintro ⟨key, hall, -⟩
    have hfirst : "a,b" = key := hall _ List.mem_cons_self _ List.mem_cons_self
    have hsecond : "c" = key :=
      hall _ List.mem_cons_self _ (List.mem_cons_of_mem _ List.mem_cons_self)
    rw [← hfirst] at hsecond
    exact absurd hsecond (by decide)
  · have hrun : (awkwardPushes.foldlM (fun s c => if FsDataset.Within s c then
        FsDataset.call id plainValues "news" s c else none) (.start id "news" ∅)).isSome =
          true := by
      decide +kernel
    obtain ⟨s, hs⟩ := Option.isSome_iff_exists.mp hrun
    have run := Machine.guarded_run_of_foldlM hs
    obtain ⟨hbytes, hmemory⟩ := hsame plainValues id "news" ∅ awkwardPushes s (by decide) (by simp)
      run (by simp [awkwardPushes, FsDataset.Call.writes]) fun _ _ => rfl
    exact ⟨s, hmemory, hbytes⟩

end Millipede.CsvExport
