import Millipede.Storage.FsQueueRun

/-!
# Opening a request directory

`scan_queue` on a directory that mirrors a consistent queue: no request file is
without its envelope and no order number occurs twice, so every file is entered as
it is and the counters come from the files alone.
-/

namespace Millipede.FsQueue
variable {β : Type*}

abbrev Entry := Request × Option ℤ × Bool

def Entry.toStored (e : Entry) : StoredRequest := ⟨e.1, e.2.1⟩

def Apart (a b : Entry) : Prop :=
  a.1.id ≠ b.1.id ∧ a.1.uniqueKey ≠ b.1.uniqueKey ∧ ∀ o, a.2.1 = some o → b.2.1 ≠ some o

structure Scanned (read : List Entry) (s : QueueState) : Prop where
  pending : ∀ o id, s.pending.find o = some id ↔ ∃ e ∈ read, e.2.1 = some o ∧ e.1.id = id
  requests : ∀ id st, s.requests.lookup id = some st ↔ ∃ e ∈ read, e.toStored = st ∧ e.1.id = id
  dedup : ∀ k v, s.dedup.lookup k = some v ↔
    ∃ e ∈ read, e.1.uniqueKey = k ∧ (e.1.id, e.2.1.isNone) = v
  values : s.requests.values = (read.map Entry.toStored).reverse
  handled : s.handledCount = min (read.countP fun e => e.2.1.isNone) u64Max
  leases : s.leases = ∅
  nextLeaseId : s.nextLeaseId = 0

def enterFile (s : QueueState) (e : Entry) : QueueState :=
  match e.2.1 with
  | some o => { store s e.1 (some o) with pending := s.pending.insert o e.1.id }
  | none => { store s e.1 none with handledCount := min (s.handledCount + 1) u64Max }

theorem scanEntry_eq {s : QueueState} {e : Entry} (hbare : e.2.2 = false)
    (hfree : ∀ o, e.2.1 = some o → s.pending.find o = none) :
    scanEntry s e = .ok (enterFile s e) := by
  obtain ⟨r, orderNo, bare⟩ := e
  cases orderNo with
  | none =>
    simp only at hbare
    subst hbare
    rfl
  | some o =>
    simp only at hbare
    subst hbare
    have hf := hfree o rfl
    simp only [scanEntry, hf, Option.isSome_none]
    rfl

section Scanned
variable {read : List Entry} {s : QueueState} {e : Entry}

theorem Scanned.free (h : Scanned read s) (hapart : ∀ a ∈ read, Apart a e) (o : ℤ)
    (ho : e.2.1 = some o) : s.pending.find o = none := by
  cases hp : s.pending.find o with
  | none => rfl
  | some id =>
    obtain ⟨a, ha, hao, -⟩ := (h.pending o id).mp hp
    exact absurd ho ((hapart a ha).2.2 o hao)

theorem Scanned.enterFile (h : Scanned read s) (hapart : ∀ a ∈ read, Apart a e) :
    Scanned (read ++ [e]) (enterFile s e) := by
  have hfree := h.free hapart
  have hnew : s.requests.lookup e.1.id = none := by
    cases hst : s.requests.lookup e.1.id with
    | none => rfl
    | some st =>
      obtain ⟨a, ha, -, hid⟩ := (h.requests _ st).mp hst
      exact absurd hid (hapart a ha).1
  obtain ⟨r, orderNo, bare⟩ := e
  have hrequests : ∀ id st, (s.requests.insert r.id ⟨r, orderNo⟩).lookup id = some st ↔
      ∃ a ∈ read ++ [(r, orderNo, bare)], a.toStored = st ∧ a.1.id = id := by
    intro id st
    simp only [AList.lookup_insert_ite, List.mem_append, List.mem_singleton, or_and_right,
      exists_or, exists_eq_left, ← h.requests id st]
    grind [Entry.toStored]
  have hdedup : ∀ k v, (s.dedup.insert r.uniqueKey (r.id, orderNo.isNone)).lookup k = some v ↔
      ∃ a ∈ read ++ [(r, orderNo, bare)], a.1.uniqueKey = k ∧ (a.1.id, a.2.1.isNone) = v := by
    intro k v
    have hnone : s.dedup.lookup r.uniqueKey = none := by
      cases hd : s.dedup.lookup r.uniqueKey with
      | none => rfl
      | some w =>
        obtain ⟨a, ha, hk, -⟩ := (h.dedup _ w).mp hd
        exact absurd hk (hapart a ha).2.1
    simp only [AList.lookup_insert_ite, List.mem_append, List.mem_singleton, or_and_right,
      exists_or, exists_eq_left, ← h.dedup k v]
    grind
  have hvalues : (s.requests.insert r.id ⟨r, orderNo⟩).values =
      ((read ++ [(r, orderNo, bare)]).map Entry.toStored).reverse := by
    rw [AList.values_insert_new _ hnew, h.values]
    simp [Entry.toStored]
  cases orderNo with
  | some o =>
    refine ⟨?_, hrequests, hdedup, hvalues, ?_, h.leases, h.nextLeaseId⟩
    · intro o' id
      have hf := hfree o rfl
      simp only [FsQueue.enterFile, OrderedMap.find_insert, List.mem_append, List.mem_singleton,
        or_and_right, exists_or, exists_eq_left, ← h.pending o' id]
      grind
    · simpa [FsQueue.enterFile, FsQueue.store] using h.handled
  | none =>
    refine ⟨?_, hrequests, hdedup, hvalues, ?_, h.leases, h.nextLeaseId⟩
    · intro o' id
      simp only [FsQueue.enterFile, FsQueue.store, List.mem_append, List.mem_singleton,
        or_and_right, exists_or, exists_eq_left, ← h.pending o' id]
      grind
    · have hc := h.handled
      simp only [FsQueue.enterFile, List.countP_append, List.countP_singleton,
        Option.isNone_none, if_true]
      omega

theorem enterFile_counters (s : QueueState) (e : Entry) :
    (FsQueue.enterFile s e).nextOrder = s.nextOrder ∧
      (FsQueue.enterFile s e).nextForefrontOrder = s.nextForefrontOrder := by
  obtain ⟨r, orderNo, bare⟩ := e
  cases orderNo <;> exact ⟨rfl, rfl⟩

theorem Scanned.foldlM (h : Scanned read s) {files : List Entry}
    (hbare : ∀ e ∈ files, e.2.2 = false) (hapart : (read ++ files).Pairwise Apart) :
    ∃ s', files.foldlM scanEntry s = .ok s' ∧ Scanned (read ++ files) s' ∧
      s'.nextOrder = s.nextOrder ∧ s'.nextForefrontOrder = s.nextForefrontOrder := by
  induction files generalizing read s with
  | nil => exact ⟨s, rfl, by simpa using h, rfl, rfl⟩
  | cons e files ih =>
    have hcross : ∀ a ∈ read, Apart a e := fun a ha =>
      (List.pairwise_append.mp hapart).2.2 a ha e List.mem_cons_self
    have hstep := scanEntry_eq (hbare e List.mem_cons_self) (h.free hcross)
    obtain ⟨s', hs', hsc, ho, hf⟩ := ih (h.enterFile hcross)
      (fun a ha => hbare a (List.mem_cons_of_mem _ ha)) (by simpa using hapart)
    obtain ⟨heo, hef⟩ := enterFile_counters s e
    refine ⟨s', ?_, by simpa using hsc, ho.trans heo, hf.trans hef⟩
    rw [List.foldlM_cons, hstep]
    exact hs'

end Scanned

def Codec.RoundTrips (codec : Codec β) : Prop :=
  ∀ r o, codec.decode (codec.encode r o) = some (r, o, false)

section Files
variable {codec : Codec β} {P : Request → Prop} {n : ℕ} {s : QueueState} {d : Disk β}

theorem Mirrors.decode_file (h : Mirrors codec s.requests d) (hround : codec.RoundTrips)
    {file : String} (hfile : Layout.isRequestFile file = true) {e : Entry}
    (he : (d.files.lookup file).bind codec.decode = some e) :
    ∃ id st, file = Layout.requestFileName id ∧ s.requests.lookup id = some st ∧
      e = (st.request, st.orderNo, false) := by
  cases hb : d.files.lookup file with
  | none =>
    rw [hb] at he
    cases he
  | some bytes =>
    obtain ⟨id, rfl⟩ := h.name file hfile (by rw [hb]; rfl)
    have hf := h.file id
    rw [hb] at hf he
    cases hst : s.requests.lookup id with
    | none =>
      rw [hst] at hf
      cases hf
    | some st =>
      rw [hst] at hf
      cases hf
      rw [Option.bind_some, hround] at he
      exact ⟨id, st, rfl, hst, (Option.some.inj he).symm⟩

theorem mem_decodedFiles (h : Kept codec P n s d) (hround : codec.RoundTrips) (e : Entry) :
    e ∈ decodedFiles codec d ↔ e.2.2 = false ∧ s.requests.lookup e.1.id = some e.toStored := by
  simp only [decodedFiles, List.mem_filterMap,
    (List.perm_insertionSort _ _).mem_iff, List.mem_filter]
  constructor
  · intro hfile
    obtain ⟨file, ⟨-, hname⟩, he⟩ := hfile
    obtain ⟨id, st, -, hst, rfl⟩ := h.mirrors.decode_file hround hname he
    refine ⟨rfl, ?_⟩
    rw [(h.consistent.stored id st hst).1, hst]
    rfl
  · intro hst
    obtain ⟨r, orderNo, bare⟩ := e
    obtain ⟨rfl, hst⟩ := hst
    have hf := h.mirrors.file r.id
    rw [hst] at hf
    refine ⟨Layout.requestFileName r.id, ⟨?_, Layout.isRequestFile_requestFileName r.id⟩, ?_⟩
    · exact AList.mem_keys_iff.mpr ⟨_, hf⟩
    · rw [hf]
      exact hround r orderNo

theorem decodedFiles_apart (h : Kept codec P n s d) (hround : codec.RoundTrips) :
    (decodedFiles codec d).Pairwise Apart := by
  simp only [decodedFiles, List.pairwise_filterMap]
  have hsort := List.perm_insertionSort (· ≤ ·) (d.files.keys.filter Layout.isRequestFile)
  refine (hsort.nodup_iff.mpr (d.files.keys_nodup.filter _)).imp_of_mem ?_
  intro file file' hm hm' hne e he e' he'
  have hname := (List.mem_filter.mp (hsort.mem_iff.mp hm)).2
  have hname' := (List.mem_filter.mp (hsort.mem_iff.mp hm')).2
  obtain ⟨id, st, rfl, hst, rfl⟩ := h.mirrors.decode_file hround hname he
  obtain ⟨id', st', rfl, hst', rfl⟩ := h.mirrors.decode_file hround hname' he'
  have hids : id ≠ id' := fun hid => hne (congrArg _ hid)
  have hid := (h.consistent.stored id st hst).1
  have hid' := (h.consistent.stored id' st' hst').1
  refine ⟨?_, ?_, ?_⟩
  · rw [hid, hid']
    exact hids
  · intro hkey
    have hd := h.consistent.stored_dedup id st hst
    have hkey : st.request.uniqueKey = st'.request.uniqueKey := hkey
    rw [hkey, h.consistent.stored_dedup id' st' hst'] at hd
    exact hids (Prod.mk.inj (Option.some.inj hd)).1.symm
  · intro o ho ho'
    exact hids (h.consistent.order_unique id id' st st' o hst ho hst' ho')

theorem le_max_getD {xs : List ℤ} {x : ℤ} (hx : x ∈ xs) : x ≤ xs.max?.getD 0 := by
  cases hm : xs.max? with
  | none =>
    rw [List.max?_eq_none_iff.mp hm] at hx
    cases hx
  | some m => exact (List.max?_eq_some_iff.mp hm).2 x hx

theorem min_getD_le {xs : List ℤ} {x : ℤ} (hx : x ∈ xs) : xs.min?.getD 0 ≤ x := by
  cases hm : xs.min? with
  | none =>
    rw [List.min?_eq_none_iff.mp hm] at hx
    cases hx
  | some m => exact (List.min?_eq_some_iff.mp hm).2 x hx

theorem max_getD_nonneg {xs : List ℤ} (hxs : ∀ x ∈ xs, 0 < x) : 0 ≤ xs.max?.getD 0 := by
  cases hm : xs.max? with
  | none => exact le_rfl
  | some m => exact (hxs m (List.max?_eq_some_iff.mp hm).1).le

/-- The counters of a scan lie on either side of every order number in the files. -/
theorem scannedCounters_bounds {files : List Entry} (hrange : ∀ e ∈ files, ∀ o, e.2.1 = some o →
      i64Min < o ∧ o < i64Max) :
    ((scannedCounters files).nextForefrontOrder < 0 ∧ 0 < (scannedCounters files).nextOrder) ∧
      ((scannedCounters files).nextOrder ≤ i64Max ∧
        i64Min ≤ (scannedCounters files).nextForefrontOrder) ∧
      ∀ e ∈ files, ∀ o, e.2.1 = some o →
        (scannedCounters files).nextForefrontOrder < o ∧ o < (scannedCounters files).nextOrder := by
  have hmax : (0 : ℤ) < i64Max := by decide
  have hmin : i64Min < (0 : ℤ) := by decide
  simp only [scannedCounters]
  generalize hos : (files.filterMap fun e => e.2.1) = orders
  have hnonneg : 0 ≤ ((orders.filter fun o => 0 < o).max?).getD 0 := by
    apply max_getD_nonneg
    intro x hx
    simpa using (List.mem_filter.mp hx).2
  refine ⟨⟨?_, by omega⟩, ⟨by omega, ?_⟩, ?_⟩
  · split_ifs <;> omega
  · split_ifs <;> omega
  · intro e he o ho
    obtain ⟨hlo, hhi⟩ := hrange e he o ho
    have hmem : o ∈ orders := by
      rw [← hos]
      exact List.mem_filterMap.mpr ⟨e, he, ho⟩
    have hup : 0 < o → o ≤ ((orders.filter fun o => 0 < o).max?).getD 0 := by
      intro hpos
      exact le_max_getD (List.mem_filter.mpr ⟨hmem, by simpa using hpos⟩)
    have hdown : o < 0 → ((orders.filter fun o => o < 0).min?).getD 0 ≤ o := by
      intro hneg
      exact min_getD_le (List.mem_filter.mpr ⟨hmem, by simpa using hneg⟩)
    constructor
    · split_ifs <;> omega
    · omega

theorem scanned_scannedCounters (files : List Entry) : Scanned [] (scannedCounters files) := by
  constructor <;> simp [scannedCounters, QueueState.empty, AList.values]

theorem scanQueue_scanned (h : Kept codec P n s d) (hround : codec.RoundTrips) :
    ∃ s', scanQueue codec d = .ok s' ∧ Scanned (decodedFiles codec d) s' ∧
      s'.nextOrder = (scannedCounters (decodedFiles codec d)).nextOrder ∧
      s'.nextForefrontOrder = (scannedCounters (decodedFiles codec d)).nextForefrontOrder := by
  have hbare : ∀ e ∈ decodedFiles codec d, e.2.2 = false := fun e he =>
    ((mem_decodedFiles h hround e).mp he).1
  have hfold := (scanned_scannedCounters (decodedFiles codec d)).foldlM hbare
    (by simpa using decodedFiles_apart h hround)
  simpa only [scanQueue, List.nil_append] using hfold

theorem Scanned.lookup_eq (h : Kept codec P n s d) (hround : codec.RoundTrips) {s' : QueueState}
    (hs : Scanned (decodedFiles codec d) s') (id : RequestId) :
    s'.requests.lookup id = s.requests.lookup id := by
  apply Option.ext
  intro st
  simp only [hs.requests id st]
  constructor
  · intro he
    obtain ⟨e, he, rfl, rfl⟩ := he
    exact ((mem_decodedFiles h hround e).mp he).2
  · intro hst
    have hid := (h.consistent.stored id st hst).1
    refine ⟨(st.request, st.orderNo, false), ?_, rfl, hid⟩
    rw [mem_decodedFiles h hround]
    refine ⟨rfl, ?_⟩
    rw [hid, hst]
    rfl

theorem Scanned.placed (h : Kept codec P n s d) (hround : codec.RoundTrips) {s' : QueueState}
    (hs : Scanned (decodedFiles codec d) s')
    (hc : s'.nextForefrontOrder < 0 ∧ 0 < s'.nextOrder)
    (hb : ∀ e ∈ decodedFiles codec d, ∀ o, e.2.1 = some o →
      s'.nextForefrontOrder < o ∧ o < s'.nextOrder) : Placed P none s' := by
  have hlook := fun id => hs.lookup_eq h hround id
  have hentry : ∀ e ∈ decodedFiles codec d, s'.requests.lookup e.1.id = some (Entry.toStored e) :=
    fun e he => (hlook e.1.id).trans ((mem_decodedFiles h hround e).mp he).2
  constructor
  case stored =>
    intro id st hst
    rw [hlook] at hst
    exact h.consistent.stored id st hst
  case dedup_stored =>
    intro k id handled hd
    obtain ⟨e, he, rfl, hv⟩ := (hs.dedup k _).mp hd
    cases hv
    exact ⟨Entry.toStored e, hentry e he, rfl, rfl⟩
  case stored_dedup =>
    intro id st hst
    obtain ⟨e, he, rfl, rfl⟩ := (hs.requests id st).mp hst
    exact (hs.dedup _ _).mpr ⟨e, he, rfl, rfl⟩
  case pending_stored =>
    intro o id hp
    obtain ⟨e, he, ho, rfl⟩ := (hs.pending o id).mp hp
    exact ⟨by simp, Entry.toStored e, hentry e he, ho⟩
  case leased_stored =>
    intro l id e hl
    rw [hs.leases] at hl
    cases hl
  case placed =>
    intro id st o hst ho hne
    obtain ⟨e, he, rfl, rfl⟩ := (hs.requests id st).mp hst
    exact Or.inl ((hs.pending o _).mpr ⟨e, he, ho, rfl⟩)
  case lease_unique =>
    intro l l' id e e' hl hl'
    rw [hs.leases] at hl
    cases hl
  case order_unique =>
    intro id id' st st' o hst ho hst' ho'
    rw [hlook] at hst hst'
    exact h.consistent.order_unique id id' st st' o hst ho hst' ho'
  case order_bounds =>
    intro id st o hst ho
    obtain ⟨e, he, rfl, rfl⟩ := (hs.requests id st).mp hst
    exact hb e he o ho
  case counters => exact hc

theorem Scanned.handledStored_eq (h : Kept codec P n s d) (hround : codec.RoundTrips)
    {s' : QueueState} (hs : Scanned (decodedFiles codec d) s') :
    handledStored s' = handledStored s ∧
      handledStored s' = (decodedFiles codec d).countP fun e => e.2.1.isNone := by
  constructor
  · have hperm : s'.requests.entries.Perm s.requests.entries := by
      apply List.lookup_ext s'.requests.nodupKeys s.requests.nodupKeys
      intro id st
      have hl : s'.requests.entries.dlookup id = s.requests.entries.dlookup id :=
        hs.lookup_eq h hround id
      rw [hl]
    exact (hperm.map Sigma.snd).countP_eq _
  · rw [handledStored, hs.values, (List.reverse_perm _).countP_eq, List.countP_map]
    rfl

theorem scanQueue_kept (h : Kept codec P n s d) (hround : codec.RoundTrips) (hn : n ≤ u64Max) :
    ∃ s', scanQueue codec d = .ok s' ∧ Kept codec P n s' d ∧
      Scanned (decodedFiles codec d) s' := by
  obtain ⟨s', hscan, hs, ho, hf⟩ := scanQueue_scanned h hround
  have hrange : ∀ e ∈ decodedFiles codec d, ∀ o, e.2.1 = some o → i64Min < o ∧ o < i64Max := by
    intro e he o ho
    have hst := ((mem_decodedFiles h hround e).mp he).2
    have hb := h.consistent.order_bounds _ _ o hst ho
    have hmax := h.bounded.order
    have hmin := h.bounded.forefront
    omega
  obtain ⟨hc, ⟨hmax, hmin⟩, hb⟩ := scannedCounters_bounds hrange
  rw [← ho, ← hf] at hc
  rw [← ho] at hmax
  rw [← hf] at hmin
  simp only [← ho, ← hf] at hb
  obtain ⟨heq, hcount⟩ := hs.handledStored_eq h hround
  have hle : handledStored s' ≤ n := by
    rw [heq, ← h.bounded.handled_eq]
    exact h.bounded.handled
  have hh : s'.handledCount = handledStored s' := by
    rw [hs.handled, ← hcount]
    omega
  refine ⟨s', hscan, ⟨hs.placed h hround hc hb, ?_, ?_⟩, hs⟩
  · exact ⟨hmax, hmin, by rw [hs.nextLeaseId]; omega, hh ▸ hle, hh⟩
  · have hlook := hs.lookup_eq h hround
    constructor
    · intro id
      rw [hlook]
      exact h.mirrors.file id
    · exact h.mirrors.name
    · intro id
      rw [hlook]
      exact h.mirrors.last id
    · intro r hr
      rw [hlook]
      exact h.mirrors.settled r hr

end Files

end Millipede.FsQueue
