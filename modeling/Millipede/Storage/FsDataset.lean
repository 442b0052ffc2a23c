import Mathlib.Data.List.Sort
import Mathlib.Data.List.TakeWhile
import Millipede.Library.Machine
import Millipede.Library.OrderedMap
import Millipede.Storage.Layout

/-!
# Datasets on disk

`FsStorageClient` as far as its datasets go, with every handle that it has returned. The
items of a dataset are the files `000000001.json`, `000000002.json`, … of its directory, and
each handle has its own next number. The client keeps one handle for each name; `purge`
empties the directories, resets the handles that it keeps and forgets them.

File operations succeed, so a write to a temporary file and its rename are one step. The
bytes of an item are those of `serde_json`, as a parameter.
-/

namespace Millipede.FsDataset
variable {V β : Type*}

/-- `serde_json::to_vec_pretty` and `from_slice`. -/
structure ItemCodec (V β : Type*) where
  encode : V → β
  decode : β → Option V

def ItemCodec.readBack (codec : ItemCodec V β) (item : V) : Option V :=
  codec.decode (codec.encode item)

def maxSequenceNumber : ℕ := 999999999

/-- `{next:09}` -/
def nineDigits (next : ℕ) : List Char :=
  List.replicate (9 - (Nat.toDigits 10 next).length) '0' ++ Nat.toDigits 10 next

def itemFileName (next : ℕ) : String := String.ofList (nineDigits next) ++ ".json"

/-- The first nine bytes of a name of fourteen bytes are what stands before its `.json`. -/
def datasetSequence (name : String) : Option ℕ :=
  if name.utf8ByteSize ≠ 14 || !Layout.hasJsonExtension name then none
  else
    let digits := name.toList.take (name.toList.length - 5)
    if digits.all Char.isDigit then
      (some (Nat.ofDigitChars 10 digits 0)).filter fun sequence => decide (0 < sequence)
    else none

abbrev Directory (β : Type*) := HashMap String β

def itemFile (e : Sigma fun _ : String => β) : Option (ℕ × β) :=
  if Layout.isTemporaryFile e.1 then none
  else (datasetSequence e.1).map fun sequence => (sequence, e.2)

def itemFiles (directory : Directory β) : List (ℕ × β) :=
  (directory.entries.filterMap itemFile).insertionSort fun a b => a.1 ≤ b.1

def maxSequence (directory : Directory β) : ℕ :=
  ((itemFiles directory).getLast?.map Prod.fst).getD 0

/-- Files that do not parse are skipped. -/
def readItems (codec : ItemCodec V β) (directory : Directory β) : List V :=
  (itemFiles directory).filterMap fun file => codec.decode file.2

structure Handle where
  name : String
  nextSequence : ℕ

structure Client (β : Type*) where
  directories : HashMap String (Directory β)
  datasets : HashMap String ℕ
  handles : List Handle

def Client.new (directories : HashMap String (Directory β)) : Client β := ⟨directories, ∅, []⟩

def Client.directory (c : Client β) (name : String) : Directory β :=
  (c.directories.lookup name).getD ∅

def createDirAll (c : Client β) (name : String) : Client β :=
  { c with directories := c.directories.insert name (c.directory name) }

def openDataset (debugStr : String → String) (c : Client β) (name : Option String) :
    StorageResult ℕ × Client β :=
  match Layout.storeName debugStr name with
  | .error e => (.error e, c)
  | .ok name =>
    let c := createDirAll c name
    match c.datasets.lookup name with
    | some h => (.ok h, c)
    | none =>
      let nextSequence := max (maxSequence (c.directory name) + 1) 1
      (.ok c.handles.length,
        { c with
          datasets := c.datasets.insert name c.handles.length
          handles := c.handles ++ [⟨name, nextSequence⟩] })

def appendLocked (codec : ItemCodec V β) (c : Client β) (h : ℕ) (handle : Handle) (item : V) :
    StorageResult Handle × Client β :=
  if maxSequenceNumber < handle.nextSequence then
    (.error (.backend
      ("dataset " ++ handle.name ++ " exhausted its nine-digit sequence space")), c)
  else
    let c := createDirAll c handle.name
    let directory := (c.directory handle.name).insert (itemFileName handle.nextSequence)
      (codec.encode item)
    let handle := { handle with nextSequence := handle.nextSequence + 1 }
    (.ok handle,
      { c with
        directories := c.directories.insert handle.name directory
        handles := c.handles.set h handle })

def pushAll (codec : ItemCodec V β) (h : ℕ) :
    Client β → Handle → List V → StorageResult Unit × Client β
  | c, _, [] => (.ok (), c)
  | c, handle, item :: items =>
    match appendLocked codec c h handle item with
    | (.error e, c) => (.error e, c)
    | (.ok handle, c) => pushAll codec h c handle items

structure ListOptions where
  offset : ℕ := 0
  limit : Option ℕ := none
  desc : Bool := false

structure Page (V : Type*) where
  items : List V
  total : ℕ
  offset : ℕ
  limit : Option ℕ

def Page.of (opts : ListOptions) (items : List V) : Page V :=
  let skipped := (if opts.desc then items.reverse else items).drop opts.offset
  { items := match opts.limit with
      | some limit => skipped.take limit
      | none => skipped
    total := items.length
    offset := opts.offset
    limit := opts.limit }

def listRaw (codec : ItemCodec V β) (c : Client β) (handle : Handle) (opts : ListOptions) :
    Page V × Client β :=
  let c := createDirAll c handle.name
  (.of opts (readItems codec (c.directory handle.name)), c)

/-- `purge_category`, `reset_sequence` of the handles that are kept, and the empty cache. -/
def purge (c : Client β) : Client β where
  directories := ∅
  datasets := ∅
  handles := c.handles.zipIdx.map fun (handle, i) =>
    if i ∈ c.datasets.values then { handle with nextSequence := 1 } else handle

inductive Op (V : Type*) where
  | openDataset (name : Option String)
  | pushJson (h : ℕ) (item : V)
  | pushJsonBatch (h : ℕ) (items : List V)
  | listRaw (h : ℕ) (opts : ListOptions)
  | purge

/-- The client, and the items that were pushed since the last purge, name by name. -/
structure Session (V β : Type*) where
  client : Client β
  pushed : String → List V

def Session.push (s : Session V β) (codec : ItemCodec V β) (h : ℕ) (items : List V) :
    Option (Session V β) :=
  s.client.handles[h]?.map fun handle =>
    match pushAll codec h s.client handle items with
    | (.ok (), client) =>
      { client
        pushed := Function.update s.pushed handle.name (s.pushed handle.name ++ items) }
    | (.error _, client) => { s with client }

/-- A call through a handle that was never returned is refused. -/
def step (debugStr : String → String) (codec : ItemCodec V β) (s : Session V β) :
    Op V → Option (Session V β)
  | .openDataset name => some { s with client := (openDataset debugStr s.client name).2 }
  | .pushJson h item => s.push codec h [item]
  | .pushJsonBatch h items => s.push codec h items
  | .listRaw h opts =>
    s.client.handles[h]?.map fun handle =>
      { s with client := (listRaw codec s.client handle opts).2 }
  | .purge => some { client := purge s.client, pushed := fun _ => [] }

def Session.start (codec : ItemCodec V β) (directories : HashMap String (Directory β)) :
    Session V β where
  client := .new directories
  pushed := fun name => readItems codec ((Client.new directories).directory name)

theorem length_nineDigits {n : ℕ} (h : n ≤ maxSequenceNumber) : (nineDigits n).length = 9 := by
  have hle : (Nat.toDigits 10 n).length ≤ 9 := by
    rw [Nat.length_toDigits_le_iff (by decide) (by decide)]
    exact Nat.lt_succ_of_le h
  simp only [nineDigits, List.length_append, List.length_replicate]
  omega

theorem nineDigits_isDigit (n : ℕ) : (nineDigits n).all Char.isDigit = true := by
  simp only [nineDigits, List.all_append, Bool.and_eq_true, List.all_eq_true]
  constructor
  · intro c hc
    rw [List.eq_of_mem_replicate hc]
    rfl
  · intro c hc
    exact Nat.isDigit_of_mem_toDigits (by decide) (by decide) hc

theorem utf8ByteSize_digits {cs : List Char} (h : cs.all Char.isDigit = true) :
    (String.ofList cs).utf8ByteSize = cs.length := by
  induction cs with
  | nil => rfl
  | cons c cs ih =>
    simp only [List.all_cons, Bool.and_eq_true] at h
    have hc : c.utf8Size = 1 := by
      have hdigit := h.1
      simp only [Char.isDigit, Bool.and_eq_true, decide_eq_true_eq] at hdigit
      rw [Char.utf8Size_eq_one_iff]
      exact UInt32.le_trans hdigit.2 (by decide)
    rw [String.ofList_cons, String.utf8ByteSize_append, ih h.2, String.utf8ByteSize_singleton,
      hc, List.length_cons, Nat.add_comm]

theorem datasetSequence_itemFileName {n : ℕ} (hpos : 0 < n) (hle : n ≤ maxSequenceNumber) :
    datasetSequence (itemFileName n) = some n := by
  have hlist : (itemFileName n).toList = nineDigits n ++ ".json".toList := by
    simp [itemFileName, String.toList_append]
  have hsize : (itemFileName n).utf8ByteSize = 14 := by
    rw [itemFileName, String.utf8ByteSize_append, utf8ByteSize_digits (nineDigits_isDigit n),
      length_nineDigits hle]
    rfl
  have hjson : Layout.hasJsonExtension (itemFileName n) = true := by
    simp [Layout.hasJsonExtension, hlist]
  have hdigits : (itemFileName n).toList.take ((itemFileName n).toList.length - 5) =
      nineDigits n := by
    simp [hlist]
  have hvalue : Nat.ofDigitChars 10 (nineDigits n) 0 = n := by
    simp [nineDigits, Nat.ofDigitChars_append]
  simp [datasetSequence, hsize, hjson, hdigits, nineDigits_isDigit, hvalue, hpos]

theorem isTemporaryFile_itemFileName (n : ℕ) :
    Layout.isTemporaryFile (itemFileName n) = false := by
  have h := Layout.isRequestFile_requestFileName ⟨String.ofList (nineDigits n)⟩
  simp only [Layout.isRequestFile, Bool.and_eq_true, Bool.not_eq_true'] at h
  exact h.1

theorem itemFile_itemFileName {n : ℕ} (hpos : 0 < n) (hle : n ≤ maxSequenceNumber) (bytes : β) :
    itemFile ⟨itemFileName n, bytes⟩ = some (n, bytes) := by
  simp only [itemFile, isTemporaryFile_itemFileName, datasetSequence_itemFileName hpos hle]
  rfl

theorem pairwise_itemFiles (directory : Directory β) :
    (itemFiles directory).Pairwise fun a b => a.1 ≤ b.1 := by
  have total : Std.Total fun a b : ℕ × β => a.1 ≤ b.1 := ⟨fun a b => Nat.le_total a.1 b.1⟩
  have trans : IsTrans (ℕ × β) fun a b => a.1 ≤ b.1 := ⟨fun _ _ _ => Nat.le_trans⟩
  exact List.pairwise_insertionSort _ _

theorem le_maxSequence {directory : Directory β} {file : ℕ × β}
    (h : file ∈ itemFiles directory) : file.1 ≤ maxSequence directory := by
  have hsorted := pairwise_itemFiles directory
  rcases List.eq_nil_or_concat (itemFiles directory) with hnil | ⟨init, last, hconcat⟩
  · rw [hnil] at h
    cases h
  · have hmax : maxSequence directory = last.1 := by simp [maxSequence, hconcat]
    rw [hconcat, List.concat_eq_append] at h hsorted
    rw [hmax]
    rcases List.mem_append.mp h with hinit | hlast
    · exact (List.pairwise_append.mp hsorted).2.2 file hinit last List.mem_cons_self
    · rw [List.mem_singleton.mp hlast]

theorem itemFileName_notMem {directory : Directory β} {n : ℕ} (h : maxSequence directory < n)
    (hle : n ≤ maxSequenceNumber) : itemFileName n ∉ directory := by
  intro hmem
  obtain ⟨bytes, hlookup⟩ := Option.isSome_iff_exists.mp (AList.lookup_isSome.mpr hmem)
  have hentry := AList.mem_lookup_iff.mp hlookup
  have hfile : (n, bytes) ∈ itemFiles directory := by
    rw [itemFiles, List.mem_insertionSort]
    exact List.mem_filterMap.mpr ⟨_, hentry, itemFile_itemFileName (by omega) hle bytes⟩
  have := le_maxSequence hfile
  omega

/-- A file with a number above all others is the last. -/
theorem itemFiles_insert {directory : Directory β} {n : ℕ} (h : maxSequence directory < n)
    (hle : n ≤ maxSequenceNumber) (bytes : β) :
    itemFiles (directory.insert (itemFileName n) bytes) =
      itemFiles directory ++ [(n, bytes)] := by
  have hentries : (directory.insert (itemFileName n) bytes).entries.filterMap itemFile =
      (n, bytes) :: directory.entries.filterMap itemFile := by
    rw [AList.entries_insert_of_notMem (itemFileName_notMem h hle),
      List.filterMap_cons_some (itemFile_itemFileName (by omega) hle bytes)]
  -- none of the old numbers reaches the new one
  have hless : ∀ file ∈ itemFiles directory, ¬ n ≤ file.1 := by
    intro file hfile
    have := le_maxSequence hfile
    omega
  rw [itemFiles, hentries, List.insertionSort_cons_eq_take_drop,
    List.takeWhile_eq_self_iff.mpr, List.dropWhile_eq_nil_iff.mpr]
  · rfl
  · intro file hfile
    exact decide_eq_true (hless file hfile)
  · intro file hfile
    exact decide_eq_true (hless file hfile)

theorem maxSequence_insert {directory : Directory β} {n : ℕ} (h : maxSequence directory < n)
    (hle : n ≤ maxSequenceNumber) (bytes : β) :
    maxSequence (directory.insert (itemFileName n) bytes) = n := by
  simp [maxSequence, itemFiles_insert h hle]

theorem readItems_insert {codec : ItemCodec V β} {directory : Directory β} {n : ℕ}
    (h : maxSequence directory < n) (hle : n ≤ maxSequenceNumber) (item : V) :
    readItems codec (directory.insert (itemFileName n) (codec.encode item)) =
      readItems codec directory ++ [item].filterMap codec.readBack := by
  simp only [readItems, itemFiles_insert h hle, List.filterMap_append, List.filterMap_cons,
    List.filterMap_nil, ItemCodec.readBack]

theorem filterMap_readBack {codec : ItemCodec V β} {items : List V} :
    items.filterMap codec.readBack = items ↔
      ∀ item ∈ items, codec.decode (codec.encode item) = some item := by
  induction items with
  | nil => simp
  | cons item items ih =>
    rw [List.forall_mem_cons, ← ih, ← ItemCodec.readBack]
    cases hback : codec.readBack item with
    | none =>
      have hshort := List.length_filterMap_le codec.readBack items
      rw [List.filterMap_cons_none hback]
      constructor
      · intro hall
        rw [hall, List.length_cons] at hshort
        omega
      · rintro ⟨hnone, -⟩
        cases hnone
    | some back =>
      rw [List.filterMap_cons_some hback, List.cons.injEq, Option.some.injEq]

@[simp] theorem directory_insert (c : Client β) (name n : String) (directory : Directory β)
    (datasets : HashMap String ℕ) (handles : List Handle) :
    (Client.mk (c.directories.insert name directory) datasets handles).directory n =
      if n = name then directory else c.directory n := by
  simp only [Client.directory, AList.lookup_insert_ite]
  split <;> rfl

@[simp] theorem directory_createDirAll (c : Client β) (name n : String) :
    (createDirAll c name).directory n = c.directory n := by
  simp only [createDirAll, directory_insert]
  split
  · rename_i h
    rw [h]
  · rfl

theorem directory_openDataset (debugStr : String → String) (c : Client β) (name : Option String)
    (n : String) : (openDataset debugStr c name).2.directory n = c.directory n := by
  simp only [openDataset]
  split
  · rfl
  · rename_i name _
    split
    · exact directory_createDirAll c name n
    · exact directory_createDirAll c name n

/-- The next number of the handle is above those of all item files. -/
def Ahead (c : Client β) (handle : Handle) : Prop :=
  maxSequence (c.directory handle.name) < handle.nextSequence

structure Appended (codec : ItemCodec V β) (h : ℕ) (handle : Handle) (items : List V)
    (c c' : Client β) : Prop where
  read : readItems codec (c'.directory handle.name) =
    readItems codec (c.directory handle.name) ++ items.filterMap codec.readBack
  others : ∀ n, n ≠ handle.name → c'.directory n = c.directory n
  datasets : c'.datasets = c.datasets
  handles : c'.handles = c.handles.set h
    { handle with nextSequence := handle.nextSequence + items.length }
  ahead : Ahead c' { handle with nextSequence := handle.nextSequence + items.length }

theorem appendLocked_appended (codec : ItemCodec V β) {c : Client β} {h : ℕ} {handle : Handle}
    (item : V) (hahead : Ahead c handle) (hroom : handle.nextSequence ≤ maxSequenceNumber) :
    ∃ c', appendLocked codec c h handle item =
        (.ok { handle with nextSequence := handle.nextSequence + 1 }, c') ∧
      Appended codec h handle [item] c c' := by
  simp only [appendLocked, if_neg (not_lt.mpr hroom)]
  refine ⟨_, rfl, ?_⟩
  constructor
  · simp only [directory_insert, directory_createDirAll, if_pos]
    exact readItems_insert hahead hroom item
  · intro n hn
    simp only [directory_insert, directory_createDirAll, if_neg hn]
  · rfl
  · rfl
  · simp only [Ahead, directory_insert, directory_createDirAll, if_pos]
    rw [maxSequence_insert hahead hroom]
    exact Nat.lt_succ_self _

theorem pushAll_appended {codec : ItemCodec V β} {h : ℕ} {items : List V} {c : Client β}
    {handle : Handle} (hget : c.handles[h]? = some handle) (hahead : Ahead c handle)
    (hroom : handle.nextSequence + items.length ≤ maxSequenceNumber + 1) :
    ∃ c', pushAll codec h c handle items = (.ok (), c') ∧
      Appended codec h handle items c c' := by
  induction items generalizing c handle with
  | nil =>
    refine ⟨c, rfl, ⟨by simp, fun _ _ => rfl, rfl, ?_, hahead⟩⟩
    obtain ⟨hlt, rfl⟩ := List.getElem?_eq_some_iff.mp hget
    exact (List.set_getElem_self hlt).symm
  | cons item items ih =>
    simp only [List.length_cons] at hroom
    obtain ⟨c₁, hone, happ⟩ := appendLocked_appended codec (h := h) item hahead (by omega)
    have hlt : h < c.handles.length := (List.getElem?_eq_some_iff.mp hget).1
    have hget₁ : c₁.handles[h]? =
        some { handle with nextSequence := handle.nextSequence + 1 } := by
      rw [happ.handles, List.getElem?_set_self hlt]
      rfl
    obtain ⟨c₂, hrest, happ₂⟩ := ih hget₁ happ.ahead (by
      simp only
      omega)
    have hcount : handle.nextSequence + 1 + items.length =
        handle.nextSequence + (items.length + 1) := by omega
    refine ⟨c₂, ?_, ?_⟩
    · simp only [pushAll, hone, hrest]
    · constructor
      · rw [happ₂.read, happ.read, List.append_assoc, ← List.filterMap_append,
          List.singleton_append]
      · intro n hn
        rw [happ₂.others n hn, happ.others n hn]
      · rw [happ₂.datasets, happ.datasets]
      · rw [happ₂.handles, happ.handles, List.set_set, List.length_cons, ← hcount]
      · have := happ₂.ahead
        rw [List.length_cons, ← hcount]
        exact this

/-- A push that adds to the end: the handle is ahead, the items can be read back, and their
numbers do not run out on the way. -/
def Appends (codec : ItemCodec V β) (c : Client β) (h : ℕ) (items : List V) : Prop :=
  ∀ handle, c.handles[h]? = some handle → items ≠ [] →
    Ahead c handle ∧ (∀ item ∈ items, codec.decode (codec.encode item) = some item) ∧
      (handle.nextSequence ≤ maxSequenceNumber →
        handle.nextSequence + items.length ≤ maxSequenceNumber + 1)

def Appending (codec : ItemCodec V β) (s : Session V β) : Op V → Prop
  | .pushJson h item => Appends codec s.client h [item]
  | .pushJsonBatch h items => Appends codec s.client h items
  | _ => True

instance (c : Client β) (handle : Handle) : Decidable (Ahead c handle) :=
  inferInstanceAs (Decidable (_ < _))

instance [DecidableEq V] (codec : ItemCodec V β) (c : Client β) (h : ℕ) (items : List V) :
    Decidable (Appends codec c h items) :=
  decidable_of_iff (∀ handle ∈ c.handles[h]?, items ≠ [] →
    Ahead c handle ∧ (∀ item ∈ items, codec.decode (codec.encode item) = some item) ∧
      (handle.nextSequence ≤ maxSequenceNumber →
        handle.nextSequence + items.length ≤ maxSequenceNumber + 1)) Iff.rfl

instance [DecidableEq V] (codec : ItemCodec V β) (s : Session V β) (op : Op V) :
    Decidable (Appending codec s op) :=
  match op with
  | .pushJson h item => inferInstanceAs (Decidable (Appends codec s.client h [item]))
  | .pushJsonBatch h items => inferInstanceAs (Decidable (Appends codec s.client h items))
  | .openDataset _ | .listRaw _ _ | .purge => isTrue trivial

def Listed (codec : ItemCodec V β) (s : Session V β) : Prop :=
  ∀ n, readItems codec (s.client.directory n) = s.pushed n

section Sessions
variable {debugStr : String → String} {codec : ItemCodec V β} {s t : Session V β} {op : Op V}

theorem push_cases {h : ℕ} {items : List V} (happends : Appends codec s.client h items)
    (hpush : s.push codec h items = some t) :
    ∃ handle, s.client.handles[h]? = some handle ∧
      ((Appended codec h handle items s.client t.client ∧
          t.pushed = Function.update s.pushed handle.name (s.pushed handle.name ++ items)) ∨
        t = s) := by
  obtain ⟨handle, hget, rfl⟩ := Option.map_eq_some_iff.mp hpush
  refine ⟨handle, hget, ?_⟩
  by_cases hnil : items = []
  · subst hnil
    right
    simp [pushAll]
  · obtain ⟨hahead, -, hroom⟩ := happends handle hget hnil
    by_cases hfull : maxSequenceNumber < handle.nextSequence
    · obtain ⟨item, rest, rfl⟩ := List.exists_cons_of_ne_nil hnil
      right
      simp [pushAll, appendLocked, hfull]
    · obtain ⟨c', hall, happ⟩ := pushAll_appended hget hahead (hroom (not_lt.mp hfull))
      left
      rw [hall]
      exact ⟨happ, rfl⟩

theorem Listed.push {h : ℕ} {items : List V} (hl : Listed codec s)
    (happends : Appends codec s.client h items) (hpush : s.push codec h items = some t) :
    Listed codec t := by
  obtain ⟨handle, hget, ⟨happ, hpushed⟩ | rfl⟩ := push_cases happends hpush
  · intro n
    rw [hpushed]
    by_cases hn : n = handle.name
    · have hback : items.filterMap codec.readBack = items := by
        by_cases hnil : items = []
        · rw [hnil, List.filterMap_nil]
        · exact filterMap_readBack.mpr (happends handle hget hnil).2.1
      rw [hn, happ.read, hback, Function.update_self, hl handle.name]
    · rw [happ.others n hn, Function.update_of_ne hn, hl n]
  · exact hl

theorem Listed.step (hl : Listed codec s) (happending : Appending codec s op)
    (hstep : step debugStr codec s op = some t) : Listed codec t := by
  cases op with
  | openDataset name =>
    cases hstep
    intro n
    rw [directory_openDataset]
    exact hl n
  | pushJson h item => exact hl.push happending hstep
  | pushJsonBatch h items => exact hl.push happending hstep
  | listRaw h opts =>
    obtain ⟨handle, -, rfl⟩ := Option.map_eq_some_iff.mp hstep
    intro n
    simp only [listRaw, directory_createDirAll]
    exact hl n
  | purge =>
    cases hstep
    intro n
    simp [purge, Client.directory, readItems, itemFiles]

/-- As long as every push adds to the end, a listing through any handle that was ever returned
gives the items pushed since the last purge, in their order. -/
theorem items_kept (debugStr : String → String) (codec : ItemCodec V β)
    (directories : HashMap String (Directory β)) (ops : List (Op V)) (s : Session V β)
    (run : Machine.Run (Machine.Guarded (Appending codec) (Machine.Computes (step debugStr codec)))
      (.start codec directories) ops s) :
    ∀ (h : ℕ) (handle : Handle) (opts : ListOptions), s.client.handles[h]? = some handle →
      (listRaw codec s.client handle opts).1 = .of opts (s.pushed handle.name) := by
  have hl : Listed codec s := by
    refine Machine.run_invariant ?_ run fun n => rfl
    rintro s op t hl ⟨happending, hstep⟩
    exact hl.step happending hstep
  intro h handle opts _
  simp only [listRaw, directory_createDirAll, hl handle.name]

def ThroughKept (codec : ItemCodec V β) (c : Client β) (h : ℕ) (items : List V) : Prop :=
  ∀ handle, c.handles[h]? = some handle → c.datasets.lookup handle.name = some h ∧
    (∀ item ∈ items, codec.decode (codec.encode item) = some item) ∧
    (handle.nextSequence ≤ maxSequenceNumber →
      handle.nextSequence + items.length ≤ maxSequenceNumber + 1)

def PushesThroughKept (codec : ItemCodec V β) (s : Session V β) : Op V → Prop
  | .pushJson h item => ThroughKept codec s.client h [item]
  | .pushJsonBatch h items => ThroughKept codec s.client h items
  | _ => True

def KeptAhead (c : Client β) : Prop :=
  ∀ name h, c.datasets.lookup name = some h →
    ∃ handle, c.handles[h]? = some handle ∧ handle.name = name ∧ Ahead c handle

theorem KeptAhead.appends {c : Client β} {h : ℕ} {items : List V} (hk : KeptAhead c)
    (hthrough : ThroughKept codec c h items) : Appends codec c h items := by
  intro handle hget _
  obtain ⟨hkept, hcodec, hroom⟩ := hthrough handle hget
  obtain ⟨handle', hget', -, hahead⟩ := hk handle.name h hkept
  rw [hget] at hget'
  cases hget'
  exact ⟨hahead, hcodec, hroom⟩

theorem KeptAhead.openDataset {c : Client β} (hk : KeptAhead c) (name : Option String) :
    KeptAhead (openDataset debugStr c name).2 := by
  intro n h hkept
  have hdirectory := directory_openDataset debugStr c name
  revert hkept hdirectory
  simp only [FsDataset.openDataset]
  split
  · intro hkept _
    exact hk n h hkept
  · rename_i name _
    split
    · intro hkept hdirectory
      obtain ⟨handle, hget, hname, hahead⟩ := hk n h hkept
      refine ⟨handle, hget, hname, ?_⟩
      simp only [Ahead, hdirectory]
      exact hahead
    · intro hkept hdirectory
      simp only [AList.lookup_insert_ite] at hkept
      split at hkept
      · rename_i hn
        cases hkept
        refine ⟨_, List.getElem?_concat_length, hn.symm, ?_⟩
        refine lt_of_eq_of_lt (congrArg maxSequence (hdirectory name)) ?_
        simp only [directory_createDirAll]
        omega
      · obtain ⟨handle, hget, hname, hahead⟩ := hk n h hkept
        have hlt : h < c.handles.length := (List.getElem?_eq_some_iff.mp hget).1
        refine ⟨handle, ?_, hname, ?_⟩
        · rw [← hget]
          exact List.getElem?_append_left hlt
        · simp only [Ahead, hdirectory]
          exact hahead

theorem KeptAhead.appended {c c' : Client β} {h : ℕ} {handle : Handle} {items : List V}
    (hk : KeptAhead c) (hget : c.handles[h]? = some handle)
    (hcurrent : c.datasets.lookup handle.name = some h)
    (happ : Appended codec h handle items c c') : KeptAhead c' := by
  intro n i hkept
  rw [happ.datasets] at hkept
  obtain ⟨other, hother, hname, hahead⟩ := hk n i hkept
  rw [happ.handles]
  by_cases hi : i = h
  · subst hi
    rw [hget] at hother
    cases hother
    have hlt : i < c.handles.length := (List.getElem?_eq_some_iff.mp hget).1
    exact ⟨_, List.getElem?_set_self hlt, hname, happ.ahead⟩
  · refine ⟨other, ?_, hname, ?_⟩
    · rw [List.getElem?_set_ne (Ne.symm hi)]
      exact hother
    · have hne : other.name ≠ handle.name := by
        intro heq
        rw [← hname, heq, hcurrent] at hkept
        exact hi (Option.some.inj hkept).symm
      simp only [Ahead, happ.others _ hne]
      exact hahead

theorem KeptAhead.push {h : ℕ} {items : List V} (hk : KeptAhead s.client)
    (hthrough : ThroughKept codec s.client h items) (hpush : s.push codec h items = some t) :
    KeptAhead t.client := by
  obtain ⟨handle, hget, ⟨happ, -⟩ | rfl⟩ := push_cases (hk.appends hthrough) hpush
  · exact hk.appended hget (hthrough handle hget).1 happ
  · exact hk

theorem KeptAhead.step (hk : KeptAhead s.client) (hthrough : PushesThroughKept codec s op)
    (hstep : step debugStr codec s op = some t) : KeptAhead t.client := by
  cases op with
  | openDataset name =>
    cases hstep
    exact hk.openDataset name
  | pushJson h item => exact hk.push hthrough hstep
  | pushJsonBatch h items => exact hk.push hthrough hstep
  | listRaw h opts =>
    obtain ⟨handle, -, rfl⟩ := Option.map_eq_some_iff.mp hstep
    intro n i hkept
    obtain ⟨other, hother, hname, hahead⟩ := hk n i hkept
    refine ⟨other, hother, hname, ?_⟩
    simp only [Ahead, listRaw, directory_createDirAll]
    exact hahead
  | purge =>
    cases hstep
    intro n i hkept
    cases hkept

/-- Pushing through the handle that the client keeps for the name is always safe: a handle
falls behind only when it is used although `purge` has dropped it. -/
theorem appending_of_through_kept {directories : HashMap String (Directory β)}
    {ops : List (Op V)}
    (run : Machine.Run (Machine.Guarded (PushesThroughKept codec)
      (Machine.Computes (step debugStr codec))) (.start codec directories) ops s) :
    Machine.Run (Machine.Guarded (Appending codec) (Machine.Computes (step debugStr codec)))
      (.start codec directories) ops s := by
  have key : KeptAhead s.client ∧ Machine.Run (Machine.Guarded (Appending codec)
      (Machine.Computes (step debugStr codec))) (.start codec directories) ops s := by
    induction run with
    | nil => exact ⟨fun n h hkept => (nomatch hkept), .nil _⟩
    | @snoc t u ops op _ hstep ih =>
      obtain ⟨hk, hrun⟩ := ih
      obtain ⟨hthrough, hcall⟩ := hstep
      refine ⟨hk.step hthrough hcall, .snoc hrun ⟨?_, hcall⟩⟩
      cases op with
      | pushJson h item => exact hk.appends hthrough
      | pushJsonBatch h items => exact hk.appends hthrough
      | openDataset name => trivial
      | listRaw h opts => trivial
      | purge => trivial
  exact key.2

end Sessions

-- Items that are their own bytes.
def plainItems : ItemCodec String String := ⟨id, some⟩

def reopened : List (Op String) :=
  [.openDataset (some "news"), .pushJson 0 "first", .purge, .openDataset (some "news"),
   .pushJsonBatch 1 ["second", "third"]]

def twoHandles : List (Op String) :=
  [.openDataset (some "news"), .purge, .openDataset (some "news"), .pushJson 0 "first",
   .pushJson 1 "second"]

theorem items_kept_reopened : ∃ s : Session String String,
    Machine.Run (Machine.Guarded (Appending plainItems)
      (Machine.Computes (step id plainItems))) (.start plainItems ∅) reopened s ∧
    ∃ handle, s.client.handles[0]? = some handle ∧
      (listRaw plainItems s.client handle {}).1 = .of {} ["second", "third"] := by
  have hrun : (reopened.foldlM (fun s op => if Appending plainItems s op then
      step id plainItems s op else none) (.start plainItems ∅)).map (fun s =>
        (s.pushed "news", s.client.handles[0]?.map Handle.name)) =
      some (["second", "third"], some "news") := by
    decide +kernel
  obtain ⟨s, hs, hdata⟩ := Option.map_eq_some_iff.mp hrun
  simp only [Prod.mk.injEq] at hdata
  obtain ⟨hpushed, hhandle⟩ := hdata
  obtain ⟨handle, hget, hname⟩ := Option.map_eq_some_iff.mp hhandle
  have run := Machine.guarded_run_of_foldlM hs
  refine ⟨s, run, handle, hget, ?_⟩
  rw [items_kept id plainItems ∅ reopened s run 0 handle {} hget, hname, hpushed]

theorem item_overwritten : ∃ s : Session String String,
    Machine.Run (Machine.Computes (step id plainItems)) (.start plainItems ∅) twoHandles s ∧
    s.pushed "news" = ["first", "second"] ∧
    ∃ handle, s.client.handles[0]? = some handle ∧ handle.name = "news" ∧
      (listRaw plainItems s.client handle {}).1.items = ["second"] := by
  have hrun : (twoHandles.foldlM (step id plainItems) (.start plainItems ∅)).map (fun s =>
      (s.pushed "news", s.client.handles[0]?.map fun handle =>
        (handle.name, (listRaw plainItems s.client handle {}).1.items))) =
      some (["first", "second"], some ("news", ["second"])) := by
    decide +kernel
  obtain ⟨s, hs, hdata⟩ := Option.map_eq_some_iff.mp hrun
  simp only [Prod.mk.injEq] at hdata
  obtain ⟨hpushed, hhandle⟩ := hdata
  obtain ⟨handle, hget, hlist⟩ := Option.map_eq_some_iff.mp hhandle
  simp only [Prod.mk.injEq] at hlist
  exact ⟨s, Machine.run_of_foldlM hs, hpushed, handle, hget, hlist⟩

end Millipede.FsDataset
