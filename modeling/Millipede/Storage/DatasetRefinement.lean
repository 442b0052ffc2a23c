import Millipede.Storage.FsDataset

/-!
# The dataset on disk and the dataset in memory

One `FsDataset` beside a `MemoryDataset` that gets the items whose files were written. A push
may fail or the process may die after some of its items; then the dataset is opened again on
what is in its directory, next to temporary files.
-/

namespace Millipede.FsDataset
variable {V β : Type*}

namespace Memory

def usizeMax : ℕ := 2 ^ 64 - 1

def pushJson (items : List V) (item : V) : List V := items ++ [item]

def pushJsonBatch (items batch : List V) : List V := items ++ batch

def slicedItems (items : List V) (opts : ListOptions) : List V × ℕ :=
  let total := items.length
  let items := if opts.desc then items.reverse else items
  ((items.drop opts.offset).take (opts.limit.getD usizeMax), total)

def listRaw (items : List V) (opts : ListOptions) : Page V :=
  let (slice, total) := slicedItems items opts
  { items := slice, total, offset := opts.offset, limit := opts.limit }

end Memory

inductive Call (V β : Type*) where
  | pushJson (item : V)
  | pushJsonBatch (items : List V)
  /-- The writing of an item fails after so many others. -/
  | failed (items : List V) (written : ℕ)
  /-- The process dies when so many items have been written. -/
  | crashed (items : List V) (written : ℕ)
  | leftover (file : String) (bytes : β)

def Call.writes : Call V β → List V
  | .pushJson item => [item]
  | .pushJsonBatch items => items
  | .failed items written => items.take written
  | .crashed items written => items.take written
  | .leftover _ _ => []

structure Twin (V β : Type*) where
  client : Client β
  memory : List V

/-- A new process opens the dataset. -/
def reopen (debugStr : String → String) (name : Option String)
    (directories : HashMap String (Directory β)) : Client β :=
  (openDataset debugStr (.new directories) name).2

def Twin.start (debugStr : String → String) (name : String) (leftovers : Directory β) :
    Twin V β where
  client := reopen debugStr (some name) ((∅ : HashMap String (Directory β)).insert name leftovers)
  memory := []

def Twin.write (codec : ItemCodec V β) (s : Twin V β) (items : List V) :
    Option (StorageResult Unit × Client β) :=
  s.client.handles[0]?.map fun handle => pushAll codec 0 s.client handle items

def call (debugStr : String → String) (codec : ItemCodec V β) (name : String) (s : Twin V β) :
    Call V β → Option (Twin V β)
  | .pushJson item =>
    (s.write codec [item]).map fun (_, client) => ⟨client, Memory.pushJson s.memory item⟩
  | .pushJsonBatch items =>
    (s.write codec items).map fun (_, client) => ⟨client, Memory.pushJsonBatch s.memory items⟩
  | .failed items written =>
    (s.write codec (items.take written)).map fun (_, client) =>
      ⟨client, Memory.pushJsonBatch s.memory (items.take written)⟩
  | .crashed items written =>
    (s.write codec (items.take written)).map fun (_, client) =>
      ⟨reopen debugStr (some name) client.directories,
        Memory.pushJsonBatch s.memory (items.take written)⟩
  | .leftover file bytes =>
    let directory := (s.client.directory name).insert file bytes
    some { s with
      client := { s.client with directories := s.client.directories.insert name directory } }

def Call.tidy : Call V β → Bool
  | .leftover file _ => Layout.isTemporaryFile file
  | _ => true

/-- Fewer than a thousand million items. -/
def Within (s : Twin V β) (c : Call V β) : Prop :=
  s.memory.length + c.writes.length < 10 ^ 9 ∧ c.tidy = true

instance (s : Twin V β) (c : Call V β) : Decidable (Within s c) :=
  inferInstanceAs (Decidable (_ ∧ _))

theorem itemFile_temporary {file : String} (h : Layout.isTemporaryFile file = true) (bytes : β) :
    itemFile ⟨file, bytes⟩ = none := by
  rw [itemFile, if_pos h]

theorem filterMap_kerase {entries : List (Sigma fun _ : String => β)} {file : String}
    (h : Layout.isTemporaryFile file = true) :
    (entries.kerase file).filterMap itemFile = entries.filterMap itemFile := by
  induction entries with
  | nil => rfl
  | cons entry entries ih =>
    by_cases hfile : entry.1 = file
    · obtain ⟨name, bytes⟩ := entry
      simp only at hfile
      subst hfile
      have herase : List.kerase name (⟨name, bytes⟩ :: entries) = entries :=
        List.kerase_cons_eq rfl
      rw [herase, List.filterMap_cons_none (itemFile_temporary h bytes)]
    · rw [List.kerase_cons_ne fun heq => hfile heq.symm]
      simp only [List.filterMap_cons, ih]

theorem itemFiles_leftover {directory : Directory β} {file : String} {bytes : β}
    (h : Layout.isTemporaryFile file = true) :
    itemFiles (directory.insert file bytes) = itemFiles directory := by
  rw [itemFiles, itemFiles, AList.entries_insert,
    List.filterMap_cons_none (itemFile_temporary h bytes), filterMap_kerase h]

theorem itemFiles_temporary {directory : Directory β}
    (h : ∀ file ∈ directory, Layout.isTemporaryFile file = true) : itemFiles directory = [] := by
  have hnone : directory.entries.filterMap itemFile = [] := by
    rw [List.filterMap_eq_nil_iff]
    rintro ⟨file, bytes⟩ hmem
    refine itemFile_temporary (h file ?_) bytes
    exact AList.mem_keys.mp (List.mem_map_of_mem (f := Sigma.fst) hmem)
  rw [itemFiles, hnone]
  rfl

variable {debugStr : String → String} {codec : ItemCodec V β} {name : String} {s t : Twin V β}

/-- The directory has a file for every item in memory, and the next number is free. -/
structure Twin.Refines (codec : ItemCodec V β) (name : String) (s : Twin V β) : Prop where
  read : readItems codec (s.client.directory name) = s.memory.filterMap codec.readBack
  handle : ∃ handle, s.client.handles[0]? = some handle ∧ handle.name = name ∧
    Ahead s.client handle ∧ handle.nextSequence ≤ s.memory.length + 1

theorem reopen_eq (hname : Layout.storeName debugStr (some name) = .ok name)
    (directories : HashMap String (Directory β)) :
    (reopen debugStr (some name) directories).directory name =
        (Client.new directories).directory name ∧
      (reopen debugStr (some name) directories).handles =
        [⟨name, max (maxSequence ((Client.new directories).directory name) + 1) 1⟩] := by
  constructor
  · exact directory_openDataset debugStr _ _ name
  · simp only [reopen, openDataset, hname]
    simp [createDirAll, Client.new, Client.directory]

theorem refines_start (hname : Layout.storeName debugStr (some name) = .ok name)
    {leftovers : Directory β}
    (h : ∀ file ∈ leftovers, Layout.isTemporaryFile file = true) :
    (Twin.start debugStr name leftovers).Refines codec name := by
  obtain ⟨hdirectory, hhandles⟩ :=
    reopen_eq hname ((∅ : HashMap String (Directory β)).insert name leftovers)
  have hnew : (Client.new ((∅ : HashMap String (Directory β)).insert name leftovers)).directory
      name = leftovers := by
    rw [Client.directory, Client.new, AList.lookup_insert]
    rfl
  have hmax : maxSequence leftovers = 0 := by
    rw [maxSequence, itemFiles_temporary h]
    rfl
  rw [hnew] at hdirectory hhandles
  constructor
  · simp only [Twin.start, hdirectory, readItems, itemFiles_temporary h, List.filterMap_nil]
  · refine ⟨⟨name, 1⟩, ?_, rfl, ?_, le_rfl⟩
    · simp only [Twin.start, hhandles, hmax]
      rfl
    · simp only [Ahead, Twin.start, hdirectory, hmax]
      exact Nat.one_pos

/-- A push in the limits does not fail and adds its items. -/
theorem Twin.Refines.write {items : List V} (h : s.Refines codec name)
    (hroom : s.memory.length + items.length < 10 ^ 9) :
    ∃ client, s.write codec items = some (.ok (), client) ∧
      Twin.Refines codec name ⟨client, s.memory ++ items⟩ := by
  obtain ⟨handle, hget, rfl, hahead, hnext⟩ := h.handle
  have hspace : handle.nextSequence + items.length ≤ maxSequenceNumber + 1 := by
    rw [maxSequenceNumber]
    omega
  obtain ⟨client, hpush, happended⟩ := pushAll_appended hget hahead hspace
  refine ⟨client, ?_, ?_, ?_⟩
  · rw [Twin.write, hget, Option.map_some, hpush]
  · rw [happended.read, h.read, ← List.filterMap_append]
  · have hlt : 0 < s.client.handles.length := (List.getElem?_eq_some_iff.mp hget).1
    refine ⟨{ handle with nextSequence := handle.nextSequence + items.length }, ?_, rfl,
      happended.ahead, ?_⟩
    · rw [happended.handles]
      exact List.getElem?_set_self hlt
    · simp only [List.length_append]
      omega

theorem Twin.Refines.reopen (hname : Layout.storeName debugStr (some name) = .ok name)
    (h : s.Refines codec name) :
    Twin.Refines codec name ⟨reopen debugStr (some name) s.client.directories, s.memory⟩ := by
  obtain ⟨hdirectory, hhandles⟩ := reopen_eq hname s.client.directories
  have hnew : (Client.new s.client.directories).directory name = s.client.directory name := rfl
  rw [hnew] at hdirectory hhandles
  obtain ⟨handle, hget, hsame, hahead, hnext⟩ := h.handle
  rw [Ahead, hsame] at hahead
  constructor
  · simp only [hdirectory, h.read]
  · refine ⟨_, by rw [hhandles]; rfl, rfl, ?_, ?_⟩
    · simp only [Ahead, hdirectory]
      omega
    · simp only
      omega

theorem Twin.Refines.leftover {file : String} {bytes : β} (h : s.Refines codec name)
    (hfile : Layout.isTemporaryFile file = true) :
    Twin.Refines codec name { s with
      client := { s.client with
        directories := s.client.directories.insert name
          ((s.client.directory name).insert file bytes) } } := by
  have hitems : itemFiles ((s.client.directory name).insert file bytes) =
      itemFiles (s.client.directory name) := itemFiles_leftover hfile
  obtain ⟨handle, hget, hsame, hahead, hnext⟩ := h.handle
  constructor
  · simp only [directory_insert, if_pos, readItems, hitems]
    exact h.read
  · refine ⟨handle, hget, hsame, ?_, hnext⟩
    simp only [Ahead, directory_insert, hsame, if_pos, maxSequence, hitems]
    rw [Ahead, hsame] at hahead
    exact hahead

theorem Twin.Refines.call {c : Call V β}
    (hname : Layout.storeName debugStr (some name) = .ok name) (h : s.Refines codec name)
    (hwithin : Within s c) (hcall : call debugStr codec name s c = some t) :
    t.Refines codec name := by
  obtain ⟨hroom, hfile⟩ := hwithin
  have hwrites : ∀ u, (s.write codec c.writes).map
      (fun (_, client) => Twin.mk client (s.memory ++ c.writes)) = some u →
      u.Refines codec name := by
    intro u hu
    obtain ⟨client, hwrite, hnext⟩ := h.write hroom
    rw [hwrite, Option.map_some, Option.some.injEq] at hu
    subst hu
    exact hnext
  cases c with
  | pushJson item => exact hwrites t hcall
  | pushJsonBatch items => exact hwrites t hcall
  | failed items written => exact hwrites t hcall
  | crashed items written =>
    obtain ⟨⟨result, client⟩, hwrite, rfl⟩ := Option.map_eq_some_iff.mp hcall
    have hnext := hwrites ⟨client, _⟩ (Option.map_eq_some_iff.mpr ⟨_, hwrite, rfl⟩)
    exact hnext.reopen hname
  | leftover file bytes =>
    cases hcall
    exact h.leftover hfile

theorem call_memory {c : Call V β} (hcall : call debugStr codec name s c = some t) :
    t.memory = s.memory ++ c.writes := by
  cases c with
  | pushJson item =>
    obtain ⟨_, -, rfl⟩ := Option.map_eq_some_iff.mp hcall
    rfl
  | pushJsonBatch items =>
    obtain ⟨_, -, rfl⟩ := Option.map_eq_some_iff.mp hcall
    rfl
  | failed items written =>
    obtain ⟨_, -, rfl⟩ := Option.map_eq_some_iff.mp hcall
    rfl
  | crashed items written =>
    obtain ⟨_, -, rfl⟩ := Option.map_eq_some_iff.mp hcall
    rfl
  | leftover file bytes =>
    cases hcall
    exact (List.append_nil _).symm

theorem listRaw_eq {items : List V} (h : items.length < 10 ^ 9) (opts : ListOptions) :
    Page.of opts items = Memory.listRaw items opts := by
  obtain ⟨offset, limit, desc⟩ := opts
  cases limit with
  | some limit => rfl
  | none =>
    have hshort : ((if desc then items.reverse else items).drop offset).length ≤
        Memory.usizeMax := by
      have hsame : (if desc then items.reverse else items).length = items.length := by
        split_ifs
        · exact List.length_reverse
        · rfl
      rw [List.length_drop, hsame, Memory.usizeMax]
      omega
    simp only [Page.of, Memory.listRaw, Memory.slicedItems, Option.getD_none,
      List.take_of_length_le hshort]

theorem refines_run {leftovers : Directory β} {calls : List (Call V β)}
    (hname : Layout.storeName debugStr (some name) = .ok name)
    (hleftovers : ∀ file ∈ leftovers, Layout.isTemporaryFile file = true)
    (run : Machine.Run (Machine.Guarded Within (Machine.Computes (call debugStr codec name)))
      (.start debugStr name leftovers) calls s) :
    s.Refines codec name ∧ s.memory = (calls.map Call.writes).flatten ∧
      s.memory.length < 10 ^ 9 := by
  induction run with
  | nil => exact ⟨refines_start hname hleftovers, rfl, by simp [Twin.start]⟩
  | snoc run hstep ih =>
    obtain ⟨hrefines, hmemory, -⟩ := ih
    obtain ⟨hwithin, hcall⟩ := hstep
    have hnext := call_memory hcall
    refine ⟨hrefines.call hname hwithin hcall, ?_, ?_⟩
    · rw [hnext, hmemory]
      simp
    · rw [hnext, List.length_append]
      exact hwithin.1

theorem listRaw_iff {items back : List V} (h : items.length < 10 ^ 9) :
    (∀ opts, Page.of opts back = Memory.listRaw items opts) ↔ back = items := by
  constructor
  · intro hall
    have hfirst := congrArg Page.items ((hall {}).trans (listRaw_eq h {}).symm)
    simpa [Page.of] using hfirst
  · rintro rfl opts
    exact listRaw_eq h opts

/-- Through crashes and failures the dataset lists what was pushed as the one in memory does,
exactly when all of it can be read back, and no push in the limits fails. -/
theorem dataset_refines {leftovers : Directory β} {calls : List (Call V β)}
    (hname : Layout.storeName debugStr (some name) = .ok name)
    (hleftovers : ∀ file ∈ leftovers, Layout.isTemporaryFile file = true)
    (run : Machine.Run (Machine.Guarded Within (Machine.Computes (call debugStr codec name)))
      (.start debugStr name leftovers) calls s) :
    s.memory = (calls.map Call.writes).flatten ∧
    ∃ handle, s.client.handles[0]? = some handle ∧
      ((∀ opts, (listRaw codec s.client handle opts).1 = Memory.listRaw s.memory opts) ↔
        ∀ item ∈ (calls.map Call.writes).flatten,
          codec.decode (codec.encode item) = some item) ∧
      ∀ items, s.memory.length + items.length < 10 ^ 9 →
        (pushAll codec 0 s.client handle items).1 = .ok () := by
  obtain ⟨hrefines, hmemory, hlength⟩ := refines_run hname hleftovers run
  obtain ⟨handle, hget, hsame, -⟩ := hrefines.handle
  refine ⟨hmemory, handle, hget, ?_, fun items hroom => ?_⟩
  · rw [← hmemory, ← filterMap_readBack, ← listRaw_iff hlength]
    simp only [listRaw, directory_createDirAll, hsame, hrefines.read]
  · obtain ⟨client, hwrite, -⟩ := hrefines.write hroom
    rw [Twin.write, hget, Option.map_some, Option.some.injEq] at hwrite
    rw [hwrite]

def crashedBatch : List (Call String String) :=
  [.pushJson "first", .leftover "000000002.json.tmp-0123456789abcdef" "half",
    .crashed ["second", "third", "fourth"] 2, .failed ["fifth"] 0, .pushJsonBatch ["sixth"]]

theorem dataset_refines_crashedBatch : ∃ s : Twin String String,
    Machine.Run (Machine.Guarded Within
      (Machine.Computes (call id plainItems "news"))) (.start id "news" ∅) crashedBatch s ∧
    s.memory = ["first", "second", "third", "sixth"] ∧
    ∃ handle, s.client.handles[0]? = some handle ∧
      (listRaw plainItems s.client handle { limit := some 2, desc := true }).1.items =
        ["sixth", "third"] := by
  have hrun : (crashedBatch.foldlM (fun s c => if Within s c then
      call id plainItems "news" s c else none) (.start id "news" ∅)).isSome = true := by
    decide +kernel
  obtain ⟨s, hs⟩ := Option.isSome_iff_exists.mp hrun
  have run := Machine.guarded_run_of_foldlM hs
  obtain ⟨hmemory, handle, hget, hlist, -⟩ := dataset_refines (by decide) (by simp) run
  refine ⟨s, run, hmemory, handle, hget, ?_⟩
  rw [hlist.mpr fun _ _ => rfl, hmemory]
  rfl

-- Arrays with one element each, `null` in the innermost, as items; an item is how deep they
-- are nested.
def prettyNested (indent : ℕ) : ℕ → List Char
  | 0 => "null".toList
  | depth + 1 =>
    '[' :: '\n' :: List.replicate (2 * (indent + 1)) ' ' ++ prettyNested (indent + 1) depth ++
      '\n' :: List.replicate (2 * indent) ' ' ++ [']']

def skipWhitespace (text : List Char) : List Char :=
  text.dropWhile fun c => c = ' ' || c = '\n' || c = '\r' || c = '\t'

/-- Each array takes one of the levels that remain, and the last one is not given out. -/
def readNested : ℕ → List Char → Option (ℕ × List Char)
  | 0, _ => none
  | remaining + 1, text =>
    match skipWhitespace text with
    | '[' :: text =>
      if remaining = 0 then none
      else
        (readNested remaining text).bind fun (depth, text) =>
          match skipWhitespace text with
          | ']' :: text => some (depth + 1, text)
          | _ => none
    | 'n' :: 'u' :: 'l' :: 'l' :: text => some (0, text)
    | _ => none

/-- The deserializer starts with 128 levels. -/
def nestedItems : ItemCodec ℕ (List Char) where
  encode := prettyNested 0
  decode text := (readNested 128 text).bind fun (depth, text) =>
    if (skipWhitespace text).isEmpty then some depth else none

theorem skipWhitespace_replicate (n : ℕ) (text : List Char) :
    skipWhitespace (List.replicate n ' ' ++ text) = skipWhitespace text := by
  induction n with
  | zero => rfl
  | succ n ih =>
    rw [List.replicate_succ, List.cons_append, ← ih]
    rfl

theorem readNested_newline (remaining : ℕ) (text : List Char) :
    readNested remaining ('\n' :: text) = readNested remaining text := by
  cases remaining with
  | zero => rfl
  | succ remaining => rfl

theorem readNested_pretty (remaining n indent depth : ℕ) (text : List Char) :
    readNested (remaining + 1)
        (List.replicate n ' ' ++ (prettyNested indent depth ++ text)) =
      if depth ≤ remaining then some (depth, text) else none := by
  induction depth generalizing remaining n indent text with
  | zero =>
    rw [readNested, skipWhitespace_replicate]
    rfl
  | succ depth ih =>
    have hopen : prettyNested indent (depth + 1) ++ text =
        '[' :: '\n' :: (List.replicate (2 * (indent + 1)) ' ' ++
          (prettyNested (indent + 1) depth ++
            '\n' :: (List.replicate (2 * indent) ' ' ++ ']' :: text))) := by
      simp [prettyNested]
    have hskip : skipWhitespace (List.replicate n ' ' ++
        (prettyNested indent (depth + 1) ++ text)) = prettyNested indent (depth + 1) ++ text := by
      rw [skipWhitespace_replicate, hopen]
      rfl
    rw [readNested, hskip, hopen]
    cases remaining with
    | zero => rfl
    | succ remaining =>
      simp only [readNested_newline, ih, Nat.add_one_ne_zero, if_false, Nat.add_le_add_iff_right]
      split_ifs with hdepth
      · have hclose : skipWhitespace ('\n' :: (List.replicate (2 * indent) ' ' ++ ']' :: text)) =
            ']' :: text := skipWhitespace_replicate (2 * indent) (']' :: text)
        rw [Option.bind_some, hclose]
        rfl
      · rfl

theorem readBack_nested (depth : ℕ) :
    nestedItems.readBack depth = if depth ≤ 127 then some depth else none := by
  have hread := readNested_pretty 127 0 0 depth []
  simp only [List.replicate_zero, List.nil_append, List.append_nil] at hread
  simp only [ItemCodec.readBack, nestedItems, hread]
  split_ifs
  · rfl
  · rfl

theorem nested_item_lost : ∃ s : Twin ℕ (List Char),
    Machine.Run (Machine.Guarded Within (Machine.Computes (call id nestedItems "news")))
      (.start id "news" ∅) [.pushJson 128] s ∧
    s.memory = [128] ∧
    ∃ handle, s.client.handles[0]? = some handle ∧
      (listRaw nestedItems s.client handle {}).1.items = [] ∧
      ¬ ∀ opts, (listRaw nestedItems s.client handle opts).1 = Memory.listRaw s.memory opts := by
  have hrun : ([Call.pushJson 128].foldlM (fun s c => if Within s c then
      call id nestedItems "news" s c else none) (.start id "news" ∅)).isSome = true := by
    decide +kernel
  obtain ⟨s, hs⟩ := Option.isSome_iff_exists.mp hrun
  have run := Machine.guarded_run_of_foldlM hs
  obtain ⟨hrefines, hmemory, -⟩ := refines_run (by decide) (by simp) run
  have hmemory : s.memory = [128] := hmemory
  obtain ⟨handle, hget, hsame, -⟩ := hrefines.handle
  have hlist : (listRaw nestedItems s.client handle {}).1.items = [] := by
    simp [listRaw, Page.of, hsame, hrefines.read, hmemory, readBack_nested]
  refine ⟨s, run, hmemory, handle, hget, hlist, fun hall => ?_⟩
  rw [hall, hmemory] at hlist
  cases hlist

end Millipede.FsDataset
