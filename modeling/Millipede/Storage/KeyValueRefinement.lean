import Mathlib.Data.Finset.Insert
import Mathlib.Data.Finset.Erase
import Millipede.Storage.KeyValueStore

/-!
# The key-value store on disk is a map

Sets and deletes on a directory beside the same calls on the store in memory. A set may stop
before its rename, which leaves a temporary file, or after it and some of its removals, which
leaves old files of the key beside the new one: the key is torn until its next set or delete.
-/

namespace Millipede.KeyValueStore

inductive Op where
  | setBytes (key : String) (bytes : Bytes) (contentType : String) (random : UInt64)
  | delete (key : String)
  /-- A set that stops before the rename. -/
  | abandoned (key : String) (bytes : Bytes) (contentType : String) (random : UInt64)
  /-- A set that stops after the rename and `removed` of the removals. -/
  | interrupted (key : String) (bytes : Bytes) (contentType : String) (random : UInt64)
      (removed : ℕ)

def Op.key : Op → String
  | .setBytes key _ _ _ => key
  | .delete key => key
  | .abandoned key _ _ _ => key
  | .interrupted key _ _ _ _ => key

structure Stores where
  directory : Directory
  /-- What the calls make of a store in memory; an interrupted set counts there. -/
  memory : Memory.Store
  torn : Finset String

def perform (readDir : ReadDir) (debugStr : String → String) (s : Stores) : Op → Stores
  | .setBytes key bytes contentType random =>
    { directory := (setBytes readDir debugStr s.directory key bytes contentType random).2
      memory := Memory.setBytes s.memory key bytes contentType
      torn := s.torn.erase key }
  | .delete key =>
    { directory := (delete readDir debugStr s.directory key).2
      memory := Memory.delete s.memory key
      torn := s.torn.erase key }
  | .abandoned key bytes contentType random =>
    { s with directory := writeTemporary s.directory key bytes contentType random }
  | .interrupted key bytes contentType random removed =>
    { directory := interrupted readDir s.directory key bytes contentType random removed
      memory := Memory.setBytes s.memory key bytes contentType
      torn := insert key s.torn }

def bytesOf (read : StorageResult (Option KvEntry)) : StorageResult (Option Bytes) :=
  read.map (Option.map KvEntry.value)

/-- Two pages with the same keys, and the same sizes but for torn keys. -/
def Alike (torn : Finset String) (list other : KeyList) : Prop :=
  list.isTruncated = other.isTruncated ∧
    list.nextExclusiveStartKey = other.nextExclusiveStartKey ∧
    List.Forall₂ (fun a b => a.key = b.key ∧ (a.key ∉ torn → a.size = b.size)) list.keys
      other.keys

theorem eq_of_alike {list other : KeyList} (h : Alike ∅ list other) : list = other := by
  obtain ⟨keys, truncated, next⟩ := list
  obtain ⟨keys', truncated', next'⟩ := other
  obtain ⟨htruncated, hnext, hkeys⟩ := h
  have hsame : keys = keys' := by
    refine List.forall₂_eq_eq_eq ▸ hkeys.imp fun a b hab => ?_
    cases a
    cases b
    simp_all
  simp_all

structure Represents (s : Stores) : Prop where
  key : ∀ key extension bytes, File s.directory key extension bytes → key ≠ ""
  present : ∀ key, (∃ extension bytes, File s.directory key extension bytes) ↔ key ∈ s.memory
  same : ∀ key extension bytes, key ∉ s.torn → File s.directory key extension bytes →
    (s.memory.lookup key).map KvEntry.value = some bytes

theorem represents_start {leftovers : Directory}
    (h : ∀ name ∈ leftovers, Layout.isTemporaryFile name = true) :
    Represents ⟨leftovers, ∅, ∅⟩ := by
  have hnone : ∀ key extension bytes, ¬ File leftovers key extension bytes := by
    intro key extension bytes hfile
    have hmem : Layout.keyFileName key extension ∈ leftovers := by
      rw [← AList.lookup_isSome, hfile.lookup]
      rfl
    have hstored := hfile.stored
    rw [storedKey_temporary (h _ hmem)] at hstored
    cases hstored
  refine ⟨fun key extension bytes hfile => absurd hfile (hnone _ _ _), fun key => ?_,
    fun key extension bytes _ hfile => absurd hfile (hnone _ _ _)⟩
  constructor
  · rintro ⟨extension, bytes, hfile⟩
    exact absurd hfile (hnone _ _ _)
  · intro hmem
    exact absurd hmem (AList.notMem_empty key)

section
variable {readDir : ReadDir} (hread : ∀ directory, (readDir directory).Perm directory.entries)
  {debugStr : String → String}
include hread

theorem Represents.perform {s : Stores} {op : Op} (h : Represents s)
    (hkey : validateKey debugStr op.key = .ok ()) : Represents (perform readDir debugStr s op) := by
  have hne := ne_empty_of_validateKey hkey
  cases op with
  | setBytes key bytes contentType random =>
    simp only [Op.key] at hkey hne
    refine ⟨?_, ?_, ?_⟩
    · intro other extension found hfile
      simp only [KeyValueStore.perform, file_setBytes hread hkey] at hfile
      split_ifs at hfile with hother
      · rw [hother]
        exact hne
      · exact h.key _ _ _ hfile
    · intro other
      simp only [KeyValueStore.perform, file_setBytes hread hkey, Memory.setBytes,
        AList.mem_insert]
      by_cases hother : other = key
      · simp [hother]
      · simp only [hother, if_false, false_or]
        exact h.present other
    · intro other extension found htorn hfile
      simp only [KeyValueStore.perform, file_setBytes hread hkey] at hfile
      simp only [KeyValueStore.perform, Memory.setBytes, Finset.mem_erase, not_and,
        AList.lookup_insert_ite] at htorn ⊢
      split_ifs at hfile ⊢ with hother
      · simp [hfile.2]
      · exact h.same other extension found (htorn hother) hfile
  | delete key =>
    simp only [Op.key] at hkey hne
    refine ⟨?_, ?_, ?_⟩
    · intro other extension found hfile
      simp only [KeyValueStore.perform, file_delete hread hkey] at hfile
      exact h.key _ _ _ hfile.2
    · intro other
      simp only [KeyValueStore.perform, file_delete hread hkey, Memory.delete, AList.mem_erase,
        exists_and_left, h.present]
    · intro other extension found htorn hfile
      simp only [KeyValueStore.perform, file_delete hread hkey] at hfile
      simp only [KeyValueStore.perform, Memory.delete, Finset.mem_erase, not_and] at htorn ⊢
      rw [AList.lookup_erase_ne hfile.1]
      exact h.same other extension found (htorn hfile.1) hfile.2
  | abandoned key bytes contentType random =>
    simp only [Op.key] at hkey hne
    refine ⟨?_, ?_, ?_⟩
    · intro other extension found hfile
      simp only [KeyValueStore.perform, file_writeTemporary hne] at hfile
      exact h.key _ _ _ hfile
    · intro other
      simp only [KeyValueStore.perform, file_writeTemporary hne]
      exact h.present other
    · intro other extension found htorn hfile
      simp only [KeyValueStore.perform, file_writeTemporary hne] at hfile
      exact h.same other extension found htorn hfile
  | interrupted key bytes contentType random removed =>
    simp only [Op.key] at hkey hne
    refine ⟨?_, ?_, ?_⟩
    · intro other extension found hfile
      have hold := file_of_interrupted hne hfile
      split_ifs at hold with hsame
      · rw [hsame.1]
        exact hne
      · exact h.key _ _ _ hold
    · intro other
      simp only [KeyValueStore.perform, Memory.setBytes, AList.mem_insert]
      by_cases hother : other = key
      · simp only [hother, true_or, iff_true]
        exact ⟨_, bytes, file_interrupted_new hne⟩
      · simp only [file_interrupted_other hread hne hother, hother, false_or]
        exact h.present other
    · intro other extension found htorn hfile
      simp only [KeyValueStore.perform, Finset.mem_insert, not_or] at htorn
      have hold := (file_interrupted_other hread hne htorn.1).mp hfile
      simp only [KeyValueStore.perform, Memory.setBytes, AList.lookup_insert_ne htorn.1]
      exact h.same other extension found htorn.2 hold

theorem Represents.run {s : Stores} {ops : List Op} (h : Represents s)
    (hops : ∀ op ∈ ops, validateKey debugStr op.key = .ok ()) :
    Represents (ops.foldl (KeyValueStore.perform readDir debugStr) s) := by
  induction ops generalizing s with
  | nil => exact h
  | cons op ops ih =>
    exact ih (h.perform hread (hops op List.mem_cons_self))
      fun other hmem => hops other (List.mem_cons_of_mem _ hmem)

theorem Represents.getBytes {s : Stores} (h : Represents s) {key : String}
    (hkey : validateKey debugStr key = .ok ()) (htorn : key ∉ s.torn) :
    bytesOf (getBytes readDir debugStr s.directory key) =
      .ok ((Memory.getBytes s.memory key).map KvEntry.value) := by
  obtain ⟨hget, hnone⟩ | ⟨extension, bytes, hfile, -, hget⟩ :=
    getBytes_cases hread hkey s.directory
  · have hmem : key ∉ s.memory := by
      rw [← h.present]
      rintro ⟨extension, bytes, hfile⟩
      exact hnone extension bytes hfile
    rw [hget, Memory.getBytes, AList.lookup_eq_none.mpr hmem]
    rfl
  · rw [hget, Memory.getBytes, h.same key extension bytes htorn hfile]
    rfl

theorem getBytes_other {s : Stores} {op : Op} {key : String}
    (hop : validateKey debugStr op.key = .ok ()) (hkey : validateKey debugStr key = .ok ())
    (hother : key ≠ op.key) :
    KeyValueStore.getBytes readDir debugStr (perform readDir debugStr s op).directory key =
      KeyValueStore.getBytes readDir debugStr s.directory key := by
  refine getBytes_congr hread hkey fun extension bytes => ?_
  have hne := ne_empty_of_validateKey hop
  cases op with
  | setBytes other new contentType random =>
    simp only [Op.key] at hop hother
    simp only [perform, file_setBytes hread hop, if_neg hother]
  | delete other =>
    simp only [Op.key] at hop hother
    simp only [perform, file_delete hread hop]
    exact and_iff_right hother
  | abandoned other new contentType random =>
    simp only [Op.key] at hne
    simp only [perform, file_writeTemporary hne]
  | interrupted other new contentType random removed =>
    simp only [Op.key] at hne hother
    simp only [perform, file_interrupted_other hread hne hother]

/-- A key whose set stops reads as the new value or as one that it had; with every old file
in place that is the value it had been read as. -/
theorem getBytes_interrupted {d : Directory} {key : String} {bytes : Bytes} {contentType : String}
    {random : UInt64} {removed : ℕ} (hkey : validateKey debugStr key = .ok ()) :
    bytesOf (KeyValueStore.getBytes readDir debugStr
        (interrupted readDir d key bytes contentType random removed) key) = .ok (some bytes) ∨
      ∃ extension old, File d key extension old ∧
        bytesOf (KeyValueStore.getBytes readDir debugStr
          (interrupted readDir d key bytes contentType random removed) key) = .ok (some old) ∧
        (removed = 0 →
          bytesOf (KeyValueStore.getBytes readDir debugStr d key) = .ok (some old)) := by
  have hne := ne_empty_of_validateKey hkey
  obtain ⟨-, hnone⟩ | ⟨extension, found, hfile, hfirst, hget⟩ :=
    getBytes_cases hread hkey (interrupted readDir d key bytes contentType random removed)
  · exact absurd (file_interrupted_new hne) (hnone (extensionForContentType contentType) bytes)
  · have hcase := file_of_interrupted hne hfile
    by_cases hnew : extension = extensionForContentType contentType
    · left
      rw [if_pos ⟨rfl, hnew⟩] at hcase
      rw [hget, hcase]
      rfl
    · right
      rw [if_neg fun hsame => hnew hsame.2] at hcase
      refine ⟨extension, found, hcase, by rw [hget]; rfl, ?_⟩
      rintro rfl
      -- the first file is an old one, and it was the first before
      obtain ⟨-, hnone⟩ | ⟨extension', old, hfile', hfirst', hget'⟩ := getBytes_cases hread hkey d
      · exact absurd hcase (hnone extension found)
      · have hafter : ∃ after, File (renamed d key bytes contentType random) key extension'
          after := by
          by_cases hsame : extension' = extensionForContentType contentType
          · exact ⟨bytes, (file_renamed hne).mpr (by rw [if_pos ⟨rfl, hsame⟩])⟩
          · refine ⟨old, (file_renamed hne).mpr ?_⟩
            rw [if_neg fun h => hsame h.2]
            exact hfile'
        obtain ⟨after, hafter⟩ := hafter
        have heq : extension = extension' :=
          keyFileName_inj (le_antisymm (hfirst _ _ hafter) (hfirst' _ _ hcase))
        subst heq
        have hfound : some found = some old := hcase.lookup.symm.trans hfile'.lookup
        rw [hget', Option.some.inj hfound]
        rfl

theorem Represents.getBytes_interrupted {s : Stores} (h : Represents s) {key : String}
    {bytes : Bytes} {contentType : String} {random : UInt64} {removed : ℕ}
    (hkey : validateKey debugStr key = .ok ()) :
    bytesOf (KeyValueStore.getBytes readDir debugStr
        (interrupted readDir s.directory key bytes contentType random removed) key) =
          .ok (some bytes) ∨
      ∃ extension old, File s.directory key extension old ∧
        bytesOf (KeyValueStore.getBytes readDir debugStr
          (interrupted readDir s.directory key bytes contentType random removed) key) =
            .ok (some old) ∧
        (key ∉ s.torn ∨ removed = 0 →
          bytesOf (KeyValueStore.getBytes readDir debugStr s.directory key) =
            .ok (some old)) := by
  obtain hnew | ⟨extension, old, hfile, hread', hzero⟩ :=
    KeyValueStore.getBytes_interrupted hread hkey
  · exact .inl hnew
  · refine .inr ⟨extension, old, hfile, hread', ?_⟩
    rintro (htorn | hremoved)
    · rw [h.getBytes hread hkey htorn, Memory.getBytes, h.same key extension old htorn hfile]
    · exact hzero hremoved

/-- The keys of the directory are those of the map, and so are the sizes but for torn keys. -/
theorem Represents.infos {s : Stores} (h : Represents s) :
    ∃ (keys : List String) (size : String → ℕ),
      KeyValueStore.infos readDir s.directory = keys.map (fun key => ⟨key, size key⟩) ∧
      Memory.infos s.memory = keys.map (Memory.info s.memory) ∧
      ∀ key ∈ keys, key ∉ s.torn → size key = (Memory.info s.memory key).size := by
  have hkeys : (KeyValueStore.infos readDir s.directory).map KeyInfo.key =
      (Memory.infos s.memory).map KeyInfo.key := by
    refine List.Pairwise.eq_of_mem_iff (List.pairwise_map.mpr (infos_ascending readDir _))
      (List.pairwise_map.mpr (Memory.infos_ascending _)) fun key => ?_
    rw [mem_keys_infos hread, Memory.mem_keys_infos, ← h.present]
    constructor
    · exact And.right
    · rintro ⟨extension, bytes, hfile⟩
      exact ⟨h.key key extension bytes hfile, extension, bytes, hfile⟩
  have hmemory : Memory.infos s.memory =
      ((Memory.infos s.memory).map KeyInfo.key).map (Memory.info s.memory) := by
    rw [Memory.infos, List.map_map, List.map_map]
    rfl
  let size : String → ℕ := fun key => ((sizes (readDir s.directory)).find key).getD 0
  have hentry : ∀ e ∈ (sizes (readDir s.directory)).entries, size e.1 = e.2 := by
    intro e he
    have hfind := OrderedMap.mem_entries_iff.mp he
    simp only [size, hfind, Option.getD_some]
  have hdirectory : KeyValueStore.infos readDir s.directory =
      ((KeyValueStore.infos readDir s.directory).map KeyInfo.key).map
        fun key => ⟨key, size key⟩ := by
    rw [KeyValueStore.infos, List.map_map, List.map_map]
    refine List.map_congr_left fun e he => ?_
    simp only [Function.comp_apply, hentry e he]
  refine ⟨_, size, hdirectory, hkeys ▸ hmemory, fun key hmem htorn => ?_⟩
  obtain ⟨info, hinfo, rfl⟩ := List.mem_map.mp hmem
  obtain ⟨e, he, rfl⟩ := List.mem_map.mp hinfo
  obtain ⟨extension, bytes, hfile, hlength⟩ := mem_infos hread hinfo
  have hsame := h.same _ _ _ htorn hfile
  obtain ⟨entry, hlookup, hvalue⟩ := Option.map_eq_some_iff.mp hsame
  rw [hentry e he, Memory.info, hlookup, Option.map_some, Option.getD_some, hvalue]
  exact hlength.symm

theorem Represents.listKeys {s : Stores} (h : Represents s) (opts : ListKeysOptions) :
    Alike s.torn (listKeys readDir s.directory opts) (Memory.listKeys s.memory opts) := by
  obtain ⟨limit, start⟩ := opts
  by_cases hzero : limit = some 0
  · simp [Alike, KeyValueStore.listKeys, Memory.listKeys, hzero]
  · have hlimit : ∀ n ∈ limit, 1 ≤ n := by
      rintro n rfl
      exact Nat.one_le_iff_ne_zero.mpr fun hn => hzero (by rw [hn])
    obtain ⟨keys, size, hdirectory, hmemory, hsize⟩ := h.infos hread
    have hlist := listKeys_toPage readDir s.directory hlimit start
    have hother := Memory.listKeys_toPage s.memory hlimit start
    rw [hdirectory, Paging.page_map] at hlist
    rw [hmemory, Paging.page_map] at hother
    have hitems := congrArg Paging.Page.items hlist
    have hitems' := congrArg Paging.Page.items hother
    refine ⟨(congrArg Paging.Page.truncated hlist).trans
      (congrArg Paging.Page.truncated hother).symm, (congrArg Paging.Page.next hlist).trans
      (congrArg Paging.Page.next hother).symm, ?_⟩
    simp only [KeyList.toPage] at hitems hitems'
    rw [hitems, hitems', List.forall₂_map_left_iff, List.forall₂_map_right_iff]
    refine List.forall₂_same.mpr fun key hkey => ⟨rfl, fun htorn => hsize key ?_ htorn⟩
    exact (Paging.mem_after.mp (List.mem_of_mem_take hkey)).1

end

/-- The store on disk is the map that the calls make, whatever they are and wherever sets
stop. -/
theorem store_is_a_map {readDir : ReadDir} {debugStr : String → String} {leftovers : Directory}
    {ops : List Op} (hread : ∀ directory, (readDir directory).Perm directory.entries)
    (hleftovers : ∀ name ∈ leftovers, Layout.isTemporaryFile name = true)
    (hops : ∀ op ∈ ops, validateKey debugStr op.key = .ok ()) :
    let s := ops.foldl (perform readDir debugStr) ⟨leftovers, ∅, ∅⟩
    (∀ key, validateKey debugStr key = .ok () → key ∉ s.torn →
      bytesOf (getBytes readDir debugStr s.directory key) =
        .ok ((Memory.getBytes s.memory key).map KvEntry.value)) ∧
    (∀ opts, Alike s.torn (listKeys readDir s.directory opts) (Memory.listKeys s.memory opts)) ∧
    (s.torn = ∅ → ∀ opts, listKeys readDir s.directory opts = Memory.listKeys s.memory opts) ∧
    (∀ op key, validateKey debugStr op.key = .ok () → validateKey debugStr key = .ok () →
      key ≠ op.key → getBytes readDir debugStr (perform readDir debugStr s op).directory key =
        getBytes readDir debugStr s.directory key) ∧
    ∀ key bytes contentType random removed, validateKey debugStr key = .ok () →
      let t := perform readDir debugStr s (.interrupted key bytes contentType random removed)
      bytesOf (getBytes readDir debugStr t.directory key) = .ok (some bytes) ∨
        ∃ extension old, File s.directory key extension old ∧
          bytesOf (getBytes readDir debugStr t.directory key) = .ok (some old) ∧
          (key ∉ s.torn ∨ removed = 0 →
            bytesOf (getBytes readDir debugStr s.directory key) = .ok (some old)) := by
  intro s
  have hrun : Represents s := (represents_start hleftovers).run hread hops
  refine ⟨fun key hkey htorn => hrun.getBytes hread hkey htorn, hrun.listKeys hread, ?_, ?_, ?_⟩
  · intro htorn opts
    have halike := hrun.listKeys hread opts
    rw [htorn] at halike
    exact eq_of_alike halike
  · intro op key hop hkey hother
    exact getBytes_other hread hop hkey hother
  · intro key bytes contentType random removed hkey
    exact hrun.getBytes_interrupted hread hkey

def leftover : Directory := (∅ : Directory).insert "a.json.tmp-0123456789abcdef" [9]

def someSets : List Op :=
  [.setBytes "a" [1] "text/plain" 5, .setBytes "a.json" [2] "image/png" 6,
    .interrupted "a" [3] "application/json" 7 0, .interrupted "a" [3] "image/png" 7 1,
    .abandoned "b" [4] "" 8]

theorem store_is_a_map_someSets :
    let s := someSets.foldl (perform entriesOrder id) ⟨leftover, ∅, ∅⟩
    bytesOf (getBytes entriesOrder id s.directory "a.json") = .ok (some [2]) ∧
      bytesOf (getBytes entriesOrder id s.directory "b") = .ok none := by
  have hmap := @store_is_a_map entriesOrder id leftover someSets (fun _ => List.Perm.refl _)
    (by decide +kernel) (by decide +kernel)
  exact ⟨hmap.1 "a.json" (by decide +kernel) (by decide +kernel),
    hmap.1 "b" (by decide +kernel) (by decide +kernel)⟩

end Millipede.KeyValueStore
