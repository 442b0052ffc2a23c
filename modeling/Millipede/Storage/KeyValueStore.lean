import Mathlib.Data.List.Sort
import Mathlib.Data.String.Basic
import Millipede.Library.OrderedMap
import Millipede.Library.Paging
import Millipede.Statistics
import Millipede.Storage.Layout

/-!
# Key-value stores

`MemoryKeyValueStore` and `FsKeyValueStore`. On disk a value is the file `{key}.{extension}`,
where the extension stands for the content type. A set writes a temporary file in the same
directory, renames it and removes the files that the key has with other extensions, so that
the key has two files when the set stops in between.

`readDir` is the order in which a directory is read. File operations succeed.
-/

namespace Millipede.KeyValueStore

abbrev Bytes := List UInt8

structure KvEntry where
  key : String
  value : Bytes
  contentType : String

structure ListKeysOptions where
  limit : Option ℕ := none
  exclusiveStartKey : Option String := none

structure KeyInfo where
  key : String
  size : ℕ
deriving DecidableEq

structure KeyList where
  keys : List KeyInfo
  isTruncated : Bool
  nextExclusiveStartKey : Option String

def usizeMax : ℕ := 2 ^ 64 - 1

namespace Memory

abbrev Store := HashMap String KvEntry

def getBytes (inner : Store) (key : String) : Option KvEntry := inner.lookup key

def setBytes (inner : Store) (key : String) (value : Bytes) (contentType : String) : Store :=
  inner.insert key ⟨key, value, contentType⟩

def delete (inner : Store) (key : String) : Store := inner.erase key

def listKeys (inner : Store) (opts : ListKeysOptions) : KeyList :=
  if opts.limit = some 0 then ⟨[], false, none⟩
  else
    let keys := inner.keys.insertionSort (· ≤ ·)
    let filtered := keys.filter fun key =>
      opts.exclusiveStartKey.all fun start => decide (start < key)
    let limit := opts.limit.getD usizeMax
    let selected := filtered.take limit
    let isTruncated := !(filtered.drop limit).isEmpty
    { keys := selected.map fun key =>
        ⟨key, ((inner.lookup key).map fun entry => entry.value.length).getD 0⟩
      isTruncated
      nextExclusiveStartKey := if isTruncated then selected.getLast? else none }

end Memory

abbrev Directory := HashMap String Bytes

abbrev ReadDir := Directory → List (Sigma fun _ : String => Bytes)

def toAsciiLowercase (s : String) : String := String.ofList (s.toList.map Char.toLower)

def extensionForContentType (contentType : String) : String :=
  let mediaType := contentType.toList.takeWhile (· ≠ ';')
  let trimmed := ((mediaType.dropWhile isWhitespace).reverse.dropWhile isWhitespace).reverse
  match toAsciiLowercase (String.ofList trimmed) with
  | "application/json" => "json"
  | "text/plain" => "txt"
  | "text/html" => "html"
  | "application/xml" => "xml"
  | "text/xml" => "xml"
  | "image/png" => "png"
  | "image/jpeg" => "jpeg"
  | "application/octet-stream" => "bin"
  | _ => "bin"

def contentTypeForExtension (extension : String) : String :=
  match toAsciiLowercase extension with
  | "json" => "application/json"
  | "txt" => "text/plain"
  | "html" => "text/html"
  | "xml" => "application/xml"
  | "png" => "image/png"
  | "jpeg" => "image/jpeg"
  | "bin" => "application/octet-stream"
  | _ => "application/octet-stream"

def validateKey (debugStr : String → String) (key : String) : StorageResult Unit :=
  Layout.validateComponent debugStr key "key"

/-- The key and the extension in the name of a file that is not temporary. -/
def storedKey (name : String) : Option (String × String) :=
  if Layout.isTemporaryFile name then none
  else (Layout.rsplitOnce ".".toList name.toList).map fun (key, extension) =>
    (String.ofList key, String.ofList extension)

def matchingFiles (readDir : ReadDir) (directory : Directory) (key : String) :
    List (String × String) :=
  ((readDir directory).filterMap fun entry =>
    match storedKey entry.1 with
    | some (stored, extension) =>
      if stored ≠ key || extension.isEmpty then none else some (extension, entry.1)
    | none => none).insertionSort fun left right => left.2 ≤ right.2

def getBytes (readDir : ReadDir) (debugStr : String → String) (directory : Directory)
    (key : String) : StorageResult (Option KvEntry) :=
  match validateKey debugStr key with
  | .error e => .error e
  | .ok () =>
    match (matchingFiles readDir directory key).head? with
    | none => .ok none
    | some (extension, path) =>
      .ok ((directory.lookup path).map fun value =>
        ⟨key, value, contentTypeForExtension extension⟩)

def destination (key contentType : String) : String :=
  Layout.keyFileName key (extensionForContentType contentType)

/-- What is left of a set that stops before the rename. -/
def writeTemporary (directory : Directory) (key : String) (bytes : Bytes) (contentType : String)
    (random : UInt64) : Directory :=
  directory.insert (Layout.temporaryName (destination key contentType) random) bytes

def renamed (directory : Directory) (key : String) (bytes : Bytes) (contentType : String)
    (random : UInt64) : Directory :=
  ((writeTemporary directory key bytes contentType random).erase
    (Layout.temporaryName (destination key contentType) random)).insert
      (destination key contentType) bytes

def removeFiles (directory : Directory) (names : List String) : Directory :=
  names.foldl (fun directory name => directory.erase name) directory

def oldFiles (readDir : ReadDir) (directory : Directory) (key contentType : String) :
    List String :=
  ((matchingFiles readDir directory key).map Prod.snd).filter (· ≠ destination key contentType)

def setBytes (readDir : ReadDir) (debugStr : String → String) (directory : Directory)
    (key : String) (bytes : Bytes) (contentType : String) (random : UInt64) :
    StorageResult Unit × Directory :=
  match validateKey debugStr key with
  | .error e => (.error e, directory)
  | .ok () =>
    let directory := renamed directory key bytes contentType random
    (.ok (), removeFiles directory (oldFiles readDir directory key contentType))

/-- What is left of a set that stops after the rename and `removed` of the removals. -/
def interrupted (readDir : ReadDir) (directory : Directory) (key : String) (bytes : Bytes)
    (contentType : String) (random : UInt64) (removed : ℕ) : Directory :=
  let directory := renamed directory key bytes contentType random
  removeFiles directory ((oldFiles readDir directory key contentType).take removed)

def delete (readDir : ReadDir) (debugStr : String → String) (directory : Directory)
    (key : String) : StorageResult Unit × Directory :=
  match validateKey debugStr key with
  | .error e => (.error e, directory)
  | .ok () => (.ok (), removeFiles directory ((matchingFiles readDir directory key).map Prod.snd))

/-- `keys.entry(key).or_insert(size)` -/
def orInsert (keys : OrderedMap String ℕ) (key : String) (size : ℕ) : OrderedMap String ℕ :=
  if (keys.find key).isSome then keys else keys.insert key size

def addSize (keys : OrderedMap String ℕ) (entry : Sigma fun _ : String => Bytes) :
    OrderedMap String ℕ :=
  match storedKey entry.1 with
  | some (key, extension) =>
    if key.isEmpty || extension.isEmpty then keys else orInsert keys key entry.2.length
  | none => keys

/-- The keys in a directory, each with the size of the first file that was read. -/
def sizes (entries : List (Sigma fun _ : String => Bytes)) : OrderedMap String ℕ :=
  entries.foldl addSize .empty

def listKeys (readDir : ReadDir) (directory : Directory) (opts : ListKeysOptions) : KeyList :=
  if opts.limit = some 0 then ⟨[], false, none⟩
  else
    let filtered := (sizes (readDir directory)).entries.filter fun e =>
      opts.exclusiveStartKey.all fun start => decide (start < e.1)
    let limit := opts.limit.getD usizeMax
    let selected := filtered.take limit
    let isTruncated := !(filtered.drop limit).isEmpty
    { keys := selected.map fun (key, size) => ⟨key, size⟩
      isTruncated
      nextExclusiveStartKey := if isTruncated then selected.getLast?.map Prod.fst else none }

theorem storedKey_temporary {name : String} (h : Layout.isTemporaryFile name = true) :
    storedKey name = none := by
  rw [storedKey, if_pos h]

theorem eq_of_storedKey {name key extension : String}
    (h : storedKey name = some (key, extension)) : name = Layout.keyFileName key extension := by
  rw [storedKey] at h
  split_ifs at h
  obtain ⟨⟨before, after⟩, hsplit, hparts⟩ := Option.map_eq_some_iff.mp h
  simp only [Prod.mk.injEq] at hparts
  obtain ⟨rfl, rfl⟩ := hparts
  rw [← String.toList_inj, Layout.rsplitOnce_eq_append hsplit]
  simp [Layout.keyFileName, String.toList_append]

theorem extensionForContentType_mem (contentType : String) :
    extensionForContentType contentType ∈ ["json", "txt", "html", "xml", "png", "jpeg", "bin"] := by
  simp only [extensionForContentType]
  split <;> decide

theorem extension_plain (contentType : String) :
    extensionForContentType contentType ≠ "" ∧
      '.' ∉ (extensionForContentType contentType).toList ∧
      ∃ init last, (extensionForContentType contentType).toList = init ++ [last] ∧
        Layout.isAsciiHexdigit last = false := by
  have hmem := extensionForContentType_mem contentType
  simp only [List.mem_cons, List.not_mem_nil, or_false] at hmem
  rcases hmem with h | h | h | h | h | h | h
  · rw [h]
    exact ⟨by decide, by decide, ['j', 's', 'o'], 'n', rfl, by decide⟩
  · rw [h]
    exact ⟨by decide, by decide, ['t', 'x'], 't', rfl, by decide⟩
  · rw [h]
    exact ⟨by decide, by decide, ['h', 't', 'm'], 'l', rfl, by decide⟩
  · rw [h]
    exact ⟨by decide, by decide, ['x', 'm'], 'l', rfl, by decide⟩
  · rw [h]
    exact ⟨by decide, by decide, ['p', 'n'], 'g', rfl, by decide⟩
  · rw [h]
    exact ⟨by decide, by decide, ['j', 'p', 'e'], 'g', rfl, by decide⟩
  · rw [h]
    exact ⟨by decide, by decide, ['b', 'i'], 'n', rfl, by decide⟩

theorem storedKey_destination (key contentType : String) :
    storedKey (destination key contentType) =
      some (key, extensionForContentType contentType) := by
  obtain ⟨-, hdot, init, last, hlist, hlast⟩ := extension_plain contentType
  have hname : (destination key contentType).toList = (key.toList ++ ['.'] ++ init) ++ [last] := by
    simp [destination, Layout.keyFileName, String.toList_append, hlist]
  rw [storedKey, Layout.isTemporaryFile_eq_false hname hlast, destination,
    Layout.rsplitOnce_keyFileName hdot]
  simp

structure File (directory : Directory) (key extension : String) (bytes : Bytes) : Prop where
  lookup : directory.lookup (Layout.keyFileName key extension) = some bytes
  stored : storedKey (Layout.keyFileName key extension) = some (key, extension)
  extension : extension ≠ ""

/-- The files of a key lie in the order of their names; the first one is read. -/
def First (directory : Directory) (key extension : String) : Prop :=
  ∀ other bytes, File directory key other bytes →
    Layout.keyFileName key extension ≤ Layout.keyFileName key other

theorem keyFileName_inj {key extension other : String}
    (h : Layout.keyFileName key extension = Layout.keyFileName key other) : extension = other := by
  rw [← String.toList_inj] at h ⊢
  simp only [Layout.keyFileName, String.toList_append] at h
  exact List.append_cancel_left h

theorem matchingFiles_sorted (readDir : ReadDir) (directory : Directory) (key : String) :
    (matchingFiles readDir directory key).Pairwise fun left right => left.2 ≤ right.2 := by
  have total : Std.Total fun left right : String × String => left.2 ≤ right.2 :=
    ⟨fun left right => le_total left.2 right.2⟩
  have trans : IsTrans (String × String) fun left right => left.2 ≤ right.2 :=
    ⟨fun _ _ _ => le_trans⟩
  exact List.pairwise_insertionSort _ _

section ReadDir
variable {readDir : ReadDir} (hread : ∀ directory, (readDir directory).Perm directory.entries)
include hread

theorem mem_matchingFiles {directory : Directory} {key extension name : String} :
    (extension, name) ∈ matchingFiles readDir directory key ↔
      name = Layout.keyFileName key extension ∧ ∃ bytes, File directory key extension bytes := by
  simp only [matchingFiles, List.mem_insertionSort, List.mem_filterMap, (hread directory).mem_iff]
  constructor
  · rintro ⟨⟨found, bytes⟩, hmem, hentry⟩
    split at hentry
    · rename_i stored extension' hstored
      split_ifs at hentry with hskip
      simp only [Option.some.injEq, Prod.mk.injEq] at hentry
      obtain ⟨rfl, rfl⟩ := hentry
      simp only [Bool.or_eq_true, decide_eq_true_eq, not_or, not_not] at hskip
      obtain ⟨rfl, hne⟩ := hskip
      have hname := eq_of_storedKey hstored
      rw [hname] at hstored
      refine ⟨hname, bytes, ?_, hstored, by simpa using hne⟩
      rw [← hname]
      exact AList.mem_entries_iff.mp hmem
    · cases hentry
  · rintro ⟨rfl, bytes, hfile⟩
    refine ⟨⟨_, bytes⟩, AList.mem_entries_iff.mpr hfile.lookup, ?_⟩
    simp [hfile.stored, hfile.extension]

theorem head_matchingFiles {directory : Directory} {key extension name : String}
    {tail : List (String × String)}
    (h : matchingFiles readDir directory key = (extension, name) :: tail) :
    name = Layout.keyFileName key extension ∧ (∃ bytes, File directory key extension bytes) ∧
      First directory key extension := by
  have hhead : (extension, name) ∈ matchingFiles readDir directory key := by
    rw [h]
    exact List.mem_cons_self
  obtain ⟨rfl, hfile⟩ := (mem_matchingFiles hread).mp hhead
  refine ⟨rfl, hfile, fun other bytes hother => ?_⟩
  have hmem := (mem_matchingFiles hread).mpr ⟨rfl, bytes, hother⟩
  have hsorted := matchingFiles_sorted readDir directory key
  rw [h] at hmem hsorted
  rcases List.mem_cons.mp hmem with heq | htail
  · simp only [Prod.mk.injEq] at heq
    rw [heq.2]
  · exact (List.pairwise_cons.mp hsorted).1 _ htail

theorem getBytes_cases {debugStr : String → String} {key : String}
    (hkey : validateKey debugStr key = .ok ()) (directory : Directory) :
    (getBytes readDir debugStr directory key = .ok none ∧
        ∀ extension bytes, ¬ File directory key extension bytes) ∨
      ∃ extension bytes, File directory key extension bytes ∧ First directory key extension ∧
        getBytes readDir debugStr directory key =
          .ok (some ⟨key, bytes, contentTypeForExtension extension⟩) := by
  cases hfiles : matchingFiles readDir directory key with
  | nil =>
    left
    constructor
    · simp only [getBytes, hkey, hfiles, List.head?_nil]
    · intro extension bytes hfile
      have hmem := (mem_matchingFiles hread).mpr ⟨rfl, bytes, hfile⟩
      rw [hfiles] at hmem
      cases hmem
  | cons head tail =>
    right
    obtain ⟨extension, name⟩ := head
    obtain ⟨rfl, ⟨bytes, hfile⟩, hfirst⟩ := head_matchingFiles hread hfiles
    refine ⟨extension, bytes, hfile, hfirst, ?_⟩
    simp only [getBytes, hkey, hfiles, List.head?_cons, hfile.lookup, Option.map_some]

theorem getBytes_congr {debugStr : String → String} {key : String}
    (hkey : validateKey debugStr key = .ok ()) {d d' : Directory}
    (h : ∀ extension bytes, File d key extension bytes ↔ File d' key extension bytes) :
    getBytes readDir debugStr d key = getBytes readDir debugStr d' key := by
  obtain ⟨hget, hnone⟩ | ⟨extension, bytes, hfile, hfirst, hget⟩ := getBytes_cases hread hkey d
  · obtain ⟨hget', -⟩ | ⟨extension, bytes, hfile, -⟩ := getBytes_cases hread hkey d'
    · rw [hget, hget']
    · exact absurd ((h extension bytes).mpr hfile) (hnone extension bytes)
  · obtain ⟨-, hnone⟩ | ⟨extension', bytes', hfile', hfirst', hget'⟩ :=
      getBytes_cases hread hkey d'
    · exact absurd ((h extension bytes).mp hfile) (hnone extension bytes)
    · have hsame : extension = extension' := keyFileName_inj
        (le_antisymm (hfirst _ _ ((h _ _).mpr hfile')) (hfirst' _ _ ((h _ _).mp hfile)))
      subst hsame
      have hbytes : some bytes = some bytes' :=
        ((h _ _).mp hfile).lookup.symm.trans hfile'.lookup
      rw [hget, hget', Option.some.inj hbytes]

end ReadDir

theorem ne_of_stored {d : Directory} {key extension name : String} {bytes : Bytes}
    (h : File d key extension bytes) (hname : storedKey name ≠ some (key, extension)) :
    Layout.keyFileName key extension ≠ name := by
  rintro rfl
  exact hname h.stored

theorem file_insert {d : Directory} {key extension name : String} {bytes new : Bytes}
    (hname : storedKey name ≠ some (key, extension)) :
    File (d.insert name new) key extension bytes ↔ File d key extension bytes := by
  constructor
  · intro h
    have hlookup := h.lookup
    rw [AList.lookup_insert_ne (ne_of_stored h hname)] at hlookup
    exact ⟨hlookup, h.stored, h.extension⟩
  · intro h
    refine ⟨?_, h.stored, h.extension⟩
    rw [AList.lookup_insert_ne (ne_of_stored h hname)]
    exact h.lookup

theorem file_erase {d : Directory} {key extension name : String} {bytes : Bytes}
    (hname : storedKey name ≠ some (key, extension)) :
    File (d.erase name) key extension bytes ↔ File d key extension bytes := by
  constructor
  · intro h
    have hlookup := h.lookup
    rw [AList.lookup_erase_ne (ne_of_stored h hname)] at hlookup
    exact ⟨hlookup, h.stored, h.extension⟩
  · intro h
    refine ⟨?_, h.stored, h.extension⟩
    rw [AList.lookup_erase_ne (ne_of_stored h hname)]
    exact h.lookup

theorem lookup_removeFiles (d : Directory) (names : List String) (name : String) :
    (removeFiles d names).lookup name = if name ∈ names then none else d.lookup name := by
  induction names generalizing d with
  | nil => rfl
  | cons first names ih =>
    have hcons : removeFiles d (first :: names) = removeFiles (d.erase first) names := rfl
    rw [hcons, ih]
    by_cases hmem : name ∈ names
    · rw [if_pos hmem, if_pos (List.mem_cons_of_mem _ hmem)]
    · by_cases hfirst : name = first
      · subst hfirst
        rw [if_neg hmem, if_pos List.mem_cons_self, AList.lookup_erase]
      · rw [if_neg hmem, if_neg (by simp [hfirst, hmem]), AList.lookup_erase_ne hfirst]

theorem file_removeFiles {d : Directory} {names : List String} {key extension : String}
    {bytes : Bytes} :
    File (removeFiles d names) key extension bytes ↔
      File d key extension bytes ∧ Layout.keyFileName key extension ∉ names := by
  constructor
  · intro h
    have hlookup := h.lookup
    rw [lookup_removeFiles] at hlookup
    split_ifs at hlookup with hmem
    exact ⟨⟨hlookup, h.stored, h.extension⟩, hmem⟩
  · rintro ⟨h, hmem⟩
    refine ⟨?_, h.stored, h.extension⟩
    rw [lookup_removeFiles, if_neg hmem]
    exact h.lookup

theorem storedKey_temporaryName {key : String} (hkey : key ≠ "") (contentType : String)
    (random : UInt64) :
    storedKey (Layout.temporaryName (destination key contentType) random) = none := by
  obtain ⟨hextension, hdot, -⟩ := extension_plain contentType
  exact storedKey_temporary
    (Layout.isTemporaryFile_temporaryName random hkey hextension hdot)

theorem file_writeTemporary {d : Directory} {key : String} (hkey : key ≠ "") {bytes new : Bytes}
    {contentType : String} {random : UInt64} {other extension : String} :
    File (writeTemporary d key new contentType random) other extension bytes ↔
      File d other extension bytes := by
  refine file_insert ?_
  rw [storedKey_temporaryName hkey]
  simp

theorem file_renamed {d : Directory} {key : String} (hkey : key ≠ "") {bytes new : Bytes}
    {contentType : String} {random : UInt64} {other extension : String} :
    File (renamed d key new contentType random) other extension bytes ↔
      if other = key ∧ extension = extensionForContentType contentType then bytes = new
      else File d other extension bytes := by
  have hstored := storedKey_destination key contentType
  by_cases hsame : other = key ∧ extension = extensionForContentType contentType
  · rw [if_pos hsame, hsame.1, hsame.2]
    constructor
    · intro h
      have hlookup := h.lookup
      rw [renamed, destination, AList.lookup_insert] at hlookup
      exact (Option.some.inj hlookup).symm
    · rintro rfl
      rw [destination] at hstored
      refine ⟨?_, hstored, (extension_plain contentType).1⟩
      rw [renamed, destination, AList.lookup_insert]
  · rw [if_neg hsame, renamed, file_insert, file_erase, file_writeTemporary hkey]
    · rw [storedKey_temporaryName hkey]
      simp
    · rw [hstored]
      intro heq
      simp only [Option.some.injEq, Prod.mk.injEq] at heq
      exact hsame ⟨heq.1.symm, heq.2.symm⟩

theorem ne_empty_of_validateKey {debugStr : String → String} {key : String}
    (h : validateKey debugStr key = .ok ()) : key ≠ "" := by
  rintro rfl
  simp [validateKey, Layout.validateComponent] at h

theorem file_of_interrupted {readDir : ReadDir} {d : Directory} {key : String} (hkey : key ≠ "")
    {bytes new : Bytes} {contentType : String} {random : UInt64} {removed : ℕ}
    {other extension : String}
    (h : File (interrupted readDir d key new contentType random removed) other extension bytes) :
    if other = key ∧ extension = extensionForContentType contentType then bytes = new
    else File d other extension bytes :=
  (file_renamed hkey).mp (file_removeFiles.mp h).1

theorem file_interrupted_new {readDir : ReadDir} {d : Directory} {key : String}
    (hkey : key ≠ "") {new : Bytes} {contentType : String} {random : UInt64} {removed : ℕ} :
    File (interrupted readDir d key new contentType random removed) key
      (extensionForContentType contentType) new := by
  refine file_removeFiles.mpr ⟨(file_renamed hkey).mpr (by rw [if_pos ⟨rfl, rfl⟩]), ?_⟩
  intro hmem
  have hold := List.mem_of_mem_take hmem
  simp only [oldFiles, List.mem_filter, decide_eq_true_eq] at hold
  exact hold.2 rfl

section Files
variable {readDir : ReadDir} (hread : ∀ directory, (readDir directory).Perm directory.entries)
include hread

theorem mem_matchingNames {d : Directory} {key name : String} :
    name ∈ (matchingFiles readDir d key).map Prod.snd ↔
      ∃ extension bytes, name = Layout.keyFileName key extension ∧ File d key extension bytes := by
  rw [List.mem_map]
  constructor
  · rintro ⟨⟨extension, name⟩, hmem, rfl⟩
    obtain ⟨hname, bytes, hfile⟩ := (mem_matchingFiles hread).mp hmem
    exact ⟨extension, bytes, hname, hfile⟩
  · rintro ⟨extension, bytes, rfl, hfile⟩
    exact ⟨(extension, _), (mem_matchingFiles hread).mpr ⟨rfl, bytes, hfile⟩, rfl⟩

theorem notMem_matchingNames {d d' : Directory} {key other extension : String} {bytes : Bytes}
    (hother : other ≠ key) (hfile : File d' other extension bytes) :
    Layout.keyFileName other extension ∉ (matchingFiles readDir d key).map Prod.snd := by
  intro hmem
  obtain ⟨extension', bytes', hname, hfile'⟩ := (mem_matchingNames hread).mp hmem
  have hstored := hfile'.stored
  rw [← hname, hfile.stored, Option.some.injEq, Prod.mk.injEq] at hstored
  exact hother hstored.1

/-- After a set the key has its new file and no other. -/
theorem file_setBytes {debugStr : String → String} {d : Directory} {key : String}
    {bytes new : Bytes} {contentType : String} {random : UInt64} {other extension : String}
    (hkey : validateKey debugStr key = .ok ()) :
    File (setBytes readDir debugStr d key new contentType random).2 other extension bytes ↔
      if other = key then extension = extensionForContentType contentType ∧ bytes = new
      else File d other extension bytes := by
  have hne := ne_empty_of_validateKey hkey
  simp only [setBytes, hkey, file_removeFiles, oldFiles, List.mem_filter, decide_eq_true_eq,
    not_and]
  by_cases hother : other = key
  · rw [if_pos hother, hother]
    constructor
    · rintro ⟨hfile, hkept⟩
      have hmem := (mem_matchingNames hread).mpr ⟨extension, bytes, rfl, hfile⟩
      have hextension : extension = extensionForContentType contentType :=
        keyFileName_inj (not_not.mp (hkept hmem))
      rw [file_renamed hne, if_pos ⟨rfl, hextension⟩] at hfile
      exact ⟨hextension, hfile⟩
    · rintro ⟨hextension, hbytes⟩
      refine ⟨?_, fun _ => not_not.mpr ?_⟩
      · rw [file_renamed hne, if_pos ⟨rfl, hextension⟩]
        exact hbytes
      · rw [hextension, destination]
  · have hnot : ¬ (other = key ∧ extension = extensionForContentType contentType) :=
      fun h => hother h.1
    rw [if_neg hother, file_renamed hne, if_neg hnot]
    constructor
    · exact And.left
    · intro hfile
      exact ⟨hfile, fun hmem => absurd hmem (notMem_matchingNames hread hother hfile)⟩

theorem file_interrupted_other {d : Directory} {key : String} (hkey : key ≠ "")
    {bytes new : Bytes} {contentType : String} {random : UInt64} {removed : ℕ}
    {other extension : String} (hother : other ≠ key) :
    File (interrupted readDir d key new contentType random removed) other extension bytes ↔
      File d other extension bytes := by
  have hrenamed : File (renamed d key new contentType random) other extension bytes ↔
      File d other extension bytes := by
    rw [file_renamed hkey, if_neg fun h => hother h.1]
  rw [interrupted, file_removeFiles, hrenamed]
  constructor
  · exact And.left
  · intro hfile
    refine ⟨hfile, fun hmem => ?_⟩
    have hold := List.mem_of_mem_take hmem
    simp only [oldFiles, List.mem_filter] at hold
    exact notMem_matchingNames hread hother hfile hold.1

theorem file_delete {debugStr : String → String} {d : Directory} {key : String}
    {bytes : Bytes} {other extension : String} (hkey : validateKey debugStr key = .ok ()) :
    File (delete readDir debugStr d key).2 other extension bytes ↔
      other ≠ key ∧ File d other extension bytes := by
  simp only [delete, hkey, file_removeFiles]
  constructor
  · rintro ⟨hfile, hkept⟩
    refine ⟨?_, hfile⟩
    rintro rfl
    exact hkept ((mem_matchingNames hread).mpr ⟨extension, bytes, rfl, hfile⟩)
  · rintro ⟨hother, hfile⟩
    exact ⟨hfile, notMem_matchingNames hread hother hfile⟩

end Files

def sizeOf (key : String) (entry : Sigma fun _ : String => Bytes) : Option ℕ :=
  match storedKey entry.1 with
  | some (stored, extension) =>
    if stored.isEmpty || extension.isEmpty || stored ≠ key then none else some entry.2.length
  | none => none

theorem find_orInsert (keys : OrderedMap String ℕ) (stored key : String) (size : ℕ) :
    (orInsert keys stored size).find key =
      (keys.find key).or (if stored = key then some size else none) := by
  rw [orInsert]
  by_cases hstored : stored = key
  · subst hstored
    rw [if_pos rfl]
    split_ifs with hsome
    · obtain ⟨old, hold⟩ := Option.isSome_iff_exists.mp hsome
      rw [hold]
      rfl
    · rw [Option.not_isSome_iff_eq_none.mp hsome, OrderedMap.find_insert, if_pos rfl]
      rfl
  · rw [if_neg hstored, Option.or_none]
    split_ifs
    · rfl
    · rw [OrderedMap.find_insert, if_neg (Ne.symm hstored)]

theorem find_addSize (keys : OrderedMap String ℕ) (entry : Sigma fun _ : String => Bytes)
    (key : String) :
    (addSize keys entry).find key = (keys.find key).or (sizeOf key entry) := by
  rw [addSize, sizeOf]
  split
  · rename_i stored extension hstored
    by_cases hempty : (stored.isEmpty || extension.isEmpty) = true
    · simp [hempty]
    · rw [if_neg hempty, find_orInsert]
      by_cases hkey : stored = key
      · simp [hkey] at hempty ⊢
        simp [hempty]
      · simp [hkey]
  · rw [Option.or_none]

/-- The files that were read first count. -/
theorem find_sizes (entries : List (Sigma fun _ : String => Bytes)) (key : String) :
    (sizes entries).find key = entries.findSome? (sizeOf key) := by
  have hfold : ∀ keys : OrderedMap String ℕ,
      (entries.foldl addSize keys).find key =
        (keys.find key).or (entries.findSome? (sizeOf key)) := by
    induction entries with
    | nil => simp
    | cons entry entries ih =>
      intro keys
      rw [List.foldl_cons, ih, find_addSize, List.findSome?_cons, Option.or_assoc]
      cases sizeOf key entry with
      | none => rfl
      | some size => rfl
  rw [sizes, hfold]
  rfl

theorem sizeOf_eq_some_iff {d : Directory} {key : String} {size : ℕ} :
    (∃ entry ∈ d.entries, sizeOf key entry = some size) ↔
      key ≠ "" ∧ ∃ extension bytes, File d key extension bytes ∧ bytes.length = size := by
  constructor
  · rintro ⟨⟨name, bytes⟩, hmem, hsize⟩
    rw [sizeOf] at hsize
    split at hsize
    · rename_i stored extension hstored
      split_ifs at hsize with hskip
      simp only [Bool.or_eq_true, decide_eq_true_eq, not_or, not_not, String.isEmpty_iff]
        at hskip
      obtain ⟨⟨hstoredne, hextension⟩, rfl⟩ := hskip
      have hname := eq_of_storedKey hstored
      simp only at hname
      subst hname
      exact ⟨hstoredne, extension, bytes, ⟨AList.mem_entries_iff.mp hmem, hstored, hextension⟩,
        Option.some.inj hsize⟩
    · cases hsize
  · rintro ⟨hkey, extension, bytes, hfile, rfl⟩
    refine ⟨⟨_, bytes⟩, AList.mem_entries_iff.mpr hfile.lookup, ?_⟩
    simp [sizeOf, hfile.stored, hkey, hfile.extension]

def KeyList.toPage (list : KeyList) : Paging.Page KeyInfo String :=
  ⟨list.keys, list.isTruncated, list.nextExclusiveStartKey⟩

def infos (readDir : ReadDir) (d : Directory) : List KeyInfo :=
  (sizes (readDir d)).entries.map fun e => ⟨e.1, e.2⟩

def Memory.info (inner : Memory.Store) (key : String) : KeyInfo :=
  ⟨key, ((inner.lookup key).map fun entry => entry.value.length).getD 0⟩

def Memory.infos (inner : Memory.Store) : List KeyInfo :=
  (inner.keys.insertionSort (· ≤ ·)).map (Memory.info inner)

theorem listKeys_toPage (readDir : ReadDir) (d : Directory) {limit : Option ℕ}
    (hlimit : ∀ n ∈ limit, 1 ≤ n) (start : Option String) :
    (listKeys readDir d ⟨limit, start⟩).toPage =
      Paging.page KeyInfo.key (limit.getD usizeMax) start (infos readDir d) := by
  have hzero : limit ≠ some 0 := fun h => absurd (hlimit 0 h) (by omega)
  simp only [listKeys, hzero, if_false, KeyList.toPage, infos, Paging.page_map]
  rfl

theorem Memory.listKeys_toPage (inner : Memory.Store) {limit : Option ℕ}
    (hlimit : ∀ n ∈ limit, 1 ≤ n) (start : Option String) :
    (Memory.listKeys inner ⟨limit, start⟩).toPage =
      Paging.page KeyInfo.key (limit.getD usizeMax) start (Memory.infos inner) := by
  have hzero : limit ≠ some 0 := fun h => absurd (hlimit 0 h) (by omega)
  have hkey : KeyInfo.key ∘ Memory.info inner = id := rfl
  simp only [Memory.listKeys, hzero, if_false, KeyList.toPage, Memory.infos, Paging.page_map,
    hkey]
  simp only [Paging.page, Option.map_id_fun, id_eq]
  rfl

theorem infos_ascending (readDir : ReadDir) (d : Directory) :
    Paging.Ascending KeyInfo.key (infos readDir d) :=
  List.pairwise_map.mpr (sizes (readDir d)).sorted

theorem Memory.infos_ascending (inner : Memory.Store) :
    Paging.Ascending KeyInfo.key (Memory.infos inner) := by
  have hsorted : (inner.keys.insertionSort (· ≤ ·)).Pairwise (· ≤ ·) :=
    List.pairwise_insertionSort _ _
  have hnodup : (inner.keys.insertionSort (· ≤ ·)).Pairwise (· ≠ ·) :=
    (List.perm_insertionSort _ _).nodup_iff.mpr inner.nodupKeys
  refine List.pairwise_map.mpr ((hsorted.and hnodup).imp ?_)
  rintro a b ⟨hle, hne⟩
  exact lt_of_le_of_ne hle hne

theorem mem_infos {readDir : ReadDir}
    (hread : ∀ directory, (readDir directory).Perm directory.entries) {d : Directory}
    {info : KeyInfo} (h : info ∈ infos readDir d) :
    ∃ extension bytes, File d info.key extension bytes ∧ bytes.length = info.size := by
  obtain ⟨⟨key, size⟩, hmem, rfl⟩ := List.mem_map.mp h
  have hfind := OrderedMap.mem_entries_iff.mp hmem
  rw [find_sizes] at hfind
  obtain ⟨entry, hentry, hsize⟩ := List.exists_of_findSome?_eq_some hfind
  exact (sizeOf_eq_some_iff.mp ⟨entry, (hread d).mem_iff.mp hentry, hsize⟩).2

theorem mem_keys_infos {readDir : ReadDir}
    (hread : ∀ directory, (readDir directory).Perm directory.entries) {d : Directory}
    {key : String} :
    key ∈ (infos readDir d).map KeyInfo.key ↔
      key ≠ "" ∧ ∃ extension bytes, File d key extension bytes := by
  have hkeys : key ∈ (infos readDir d).map KeyInfo.key ↔
      ∃ size, (sizes (readDir d)).find key = some size := by
    simp only [infos, List.map_map, List.mem_map, Prod.exists, Function.comp_apply,
      OrderedMap.mem_entries_iff]
    constructor
    · rintro ⟨key, size, hfind, rfl⟩
      exact ⟨size, hfind⟩
    · rintro ⟨size, hfind⟩
      exact ⟨key, size, hfind, rfl⟩
  rw [hkeys, find_sizes]
  constructor
  · rintro ⟨size, hfind⟩
    obtain ⟨entry, hentry, hsize⟩ := List.exists_of_findSome?_eq_some hfind
    obtain ⟨hne, extension, bytes, hfile, -⟩ :=
      sizeOf_eq_some_iff.mp ⟨entry, (hread d).mem_iff.mp hentry, hsize⟩
    exact ⟨hne, extension, bytes, hfile⟩
  · rintro ⟨hne, extension, bytes, hfile⟩
    obtain ⟨entry, hentry, hsize⟩ :=
      sizeOf_eq_some_iff.mpr ⟨hne, extension, bytes, hfile, rfl⟩
    refine Option.isSome_iff_exists.mp (List.findSome?_isSome_iff.mpr ?_)
    exact ⟨entry, (hread d).mem_iff.mpr hentry, Option.isSome_iff_exists.mpr ⟨_, hsize⟩⟩

theorem Memory.mem_keys_infos {inner : Memory.Store} {key : String} :
    key ∈ (Memory.infos inner).map KeyInfo.key ↔ key ∈ inner := by
  have hmap : (Memory.infos inner).map KeyInfo.key = inner.keys.insertionSort (· ≤ ·) := by
    rw [Memory.infos, List.map_map]
    exact List.map_id _
  rw [hmap, List.mem_insertionSort]
  exact AList.mem_keys

def pageFrom {σ : Type*} (listKeys : σ → ListKeysOptions → KeyList) (limit : Option ℕ) (s : σ)
    (start : Option String) : Paging.Page KeyInfo String :=
  (listKeys s ⟨limit, start⟩).toPage

/-- Listings by pages: over a store that does not change one ends and has every key once, in
order; over one that changes, what is there at every call comes once. -/
structure Complete {σ : Type*} (listKeys : σ → ListKeysOptions → KeyList)
    (present : σ → String → Prop) (limit : Option ℕ) : Prop where
  ends : ∀ s, ∃ calls, Paging.Listed (pageFrom listKeys limit) none calls ∧
    (∀ c ∈ calls, c.1 = s) ∧ ((Paging.listed calls).map KeyInfo.key).Pairwise (· < ·) ∧
    ∀ key, key ∈ (Paging.listed calls).map KeyInfo.key ↔ present s key
  changing : ∀ calls, Paging.Listed (pageFrom listKeys limit) none calls →
    ((Paging.listed calls).map KeyInfo.key).Pairwise (· < ·) ∧
    ∀ key, (∀ c ∈ calls, present c.1 key) →
      ((Paging.listed calls).map KeyInfo.key).count key = 1

theorem complete_of_pages {σ : Type*} {listKeys : σ → ListKeysOptions → KeyList}
    {present : σ → String → Prop} {limit : Option ℕ} {infos : σ → List KeyInfo}
    (hlimit : ∀ n ∈ limit, 1 ≤ n)
    (hpage : ∀ s start, pageFrom listKeys limit s start =
      Paging.page KeyInfo.key (limit.getD usizeMax) start (infos s))
    (hsorted : ∀ s, Paging.Ascending KeyInfo.key (infos s))
    (hpresent : ∀ s key, key ∈ (infos s).map KeyInfo.key ↔ present s key) :
    Complete listKeys present limit := by
  have hpos : 1 ≤ limit.getD usizeMax := by
    cases limit with
    | none => decide
    | some n => exact hlimit n rfl
  constructor
  · intro s
    obtain ⟨calls, hlisted, hsame, hitems⟩ :=
      Paging.exists_listed s none hpos (hpage s) (hsorted s)
    have hall : Paging.listed calls = infos s := by
      rw [hitems]
      exact List.filter_eq_self.mpr fun _ _ => rfl
    refine ⟨calls, hlisted, hsame, ?_, ?_⟩
    · rw [hall]
      exact List.pairwise_map.mpr (hsorted s)
    · rw [hall]
      exact hpresent s
  · intro calls hlisted
    have hascending := (hlisted.ascending hpos hpage hsorted).1
    refine ⟨List.pairwise_map.mpr hascending, fun key hkey => ?_⟩
    refine List.count_eq_one_of_mem hascending.nodup ?_
    refine hlisted.mem hpos hpage hsorted (fun _ h => nomatch h) fun c hc => ?_
    exact (hpresent c.1 key).mpr (hkey c hc)

theorem key_pages_complete {readDir : ReadDir}
    (hread : ∀ directory, (readDir directory).Perm directory.entries) {limit : Option ℕ}
    (hlimit : ∀ n ∈ limit, 1 ≤ n) :
    Complete (listKeys readDir)
        (fun d key => key ≠ "" ∧ ∃ extension bytes, File d key extension bytes) limit ∧
      Complete Memory.listKeys (fun inner key => key ∈ inner) limit :=
  ⟨complete_of_pages hlimit (fun d start => listKeys_toPage readDir d hlimit start)
      (infos_ascending readDir) fun _ _ => mem_keys_infos hread,
    complete_of_pages hlimit (fun inner start => Memory.listKeys_toPage inner hlimit start)
      Memory.infos_ascending fun _ _ => Memory.mem_keys_infos⟩

def entriesOrder : ReadDir := fun directory => directory.entries

def twoKeys : Memory.Store :=
  Memory.setBytes (Memory.setBytes ∅ "b" [1, 2] "text/plain") "a" [3] "image/png"

theorem key_pages_complete_twoKeys : ∃ calls,
    Paging.Listed (pageFrom Memory.listKeys (some 1)) none calls ∧
      (Paging.listed calls).map KeyInfo.key = ["a", "b"] := by
  have hcomplete : Complete (listKeys entriesOrder) _ (some 1) ∧
      Complete Memory.listKeys _ (some 1) :=
    key_pages_complete (fun _ => List.Perm.refl _) (by simp)
  obtain ⟨calls, hlisted, -, hsorted, hkeys⟩ := hcomplete.2.ends twoKeys
  refine ⟨calls, hlisted, hsorted.eq_of_mem_iff (by decide) fun key => ?_⟩
  rw [hkeys]
  simp only [twoKeys, Memory.setBytes, AList.mem_insert, AList.notMem_empty, or_false,
    List.mem_cons, List.not_mem_nil]

end Millipede.KeyValueStore
