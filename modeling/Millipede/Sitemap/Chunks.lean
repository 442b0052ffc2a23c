import Mathlib.Data.List.Basic
import Millipede.Library.Machine

/-!
# The bytes of a sitemap

A response body comes in chunks. `start_pump` takes chunks until it has seen two bytes, to
tell whether they are compressed, and a feeder sends all chunks through a channel that holds
one; `ChunkReader` hands their bytes out. The feeder and the reader run on their own, so what
is sent and what is read are interleaved in any order.
-/

namespace Millipede.SitemapChunks

abbrev Bytes := List UInt8

def gzipMagic : Bytes := [0x1f, 0x8b]

def chunkChannelCapacity : ℕ := 1

/-- The chunks that were taken, the first two bytes and the chunks that are left. -/
def peek : List Bytes → List Bytes → Bytes → List Bytes × Bytes × List Bytes
  | [], initial, head => (initial, head, [])
  | chunk :: body, initial, head =>
    if head.length < 2 then
      peek body (initial ++ [chunk]) (head ++ chunk.take (min chunk.length (2 - head.length)))
    else (initial, head, chunk :: body)

structure Pump where
  gzip : Bool
  /-- What the feeder has to send. -/
  unsent : List Bytes
  /-- Whether the feeder has dropped its sender. -/
  closed : Bool
  channel : List Bytes
  current : Bytes
  /-- What each read has returned; a read that returns no bytes is the end of input. -/
  reads : List Bytes

def startPump (path : String) (body : List Bytes) : Pump :=
  let (initial, head, rest) := peek body [] []
  { gzip := ".gz".toList.isSuffixOf path.toList || head == gzipMagic
    unsent := initial ++ rest
    closed := false
    channel := []
    current := []
    reads := [] }

inductive Event where
  | send
  | finish
  /-- A read that has nothing left of its chunk takes the next one. -/
  | receive
  /-- A read into a buffer of this length copies bytes. -/
  | read (length : ℕ)
  /-- A read finds the channel empty and its sender dropped. -/
  | disconnected

def step (p : Pump) : Event → Option Pump
  | .send =>
    match p.unsent with
    | chunk :: unsent =>
      if p.channel.length < chunkChannelCapacity then
        some { p with unsent, channel := p.channel ++ [chunk] }
      else none
    | [] => none
  | .finish => if p.unsent.isEmpty && !p.closed then some { p with closed := true } else none
  | .receive =>
    match p.current, p.channel with
    | [], chunk :: channel => some { p with current := chunk, channel }
    | _, _ => none
  | .read length =>
    if p.current.isEmpty then none
    else
      let length := min length p.current.length
      some { p with
        reads := p.reads ++ [p.current.take length]
        current := p.current.drop length }
  | .disconnected =>
    if p.current.isEmpty && p.channel.isEmpty && p.closed then
      some { p with reads := p.reads ++ [[]] }
    else none

theorem peek_spec (body initial : List Bytes) (head : Bytes) (seen : Bytes)
    (hhead : head = seen.take 2) :
    (peek body initial head).1 ++ (peek body initial head).2.2 = initial ++ body ∧
      (peek body initial head).2.1 = (seen ++ body.flatten).take 2 := by
  induction body generalizing initial head seen with
  | nil =>
    simp only [peek, List.flatten_nil, List.append_nil]
    exact ⟨trivial, hhead⟩
  | cons chunk body ih =>
    simp only [peek]
    by_cases hshort : head.length < 2
    · have hseen : seen.length < 2 := by
        rw [hhead, List.length_take] at hshort
        omega
      have hall : seen.take 2 = seen := List.take_of_length_le (by omega)
      have hnext : head ++ chunk.take (min chunk.length (2 - head.length)) =
          (seen ++ chunk).take 2 := by
        rw [hhead, hall, List.take_append, hall]
        congr 1
        rw [List.take_eq_take_iff]
        omega
      obtain ⟨hchunks, hbytes⟩ := ih (initial ++ [chunk]) _ (seen ++ chunk) hnext
      rw [if_pos hshort]
      constructor
      · rw [hchunks, List.append_assoc, List.singleton_append]
      · rw [hbytes, List.flatten_cons, List.append_assoc]
    · have htwo : 2 ≤ seen.length := by
        rw [hhead, List.length_take] at hshort
        omega
      rw [if_neg hshort]
      constructor
      · rfl
      · rw [hhead, List.take_append_of_le_length htwo]

theorem startPump_unsent (path : String) (body : List Bytes) :
    (startPump path body).unsent = body :=
  (peek_spec body [] [] [] (by simp)).1

theorem startPump_gzip (path : String) (body : List Bytes) :
    (startPump path body).gzip = true ↔
      ".gz".toList <:+ path.toList ∨ body.flatten.take 2 = gzipMagic := by
  have hhead : (peek body [] []).2.1 = body.flatten.take 2 :=
    (peek_spec body [] [] [] (by simp)).2
  simp only [startPump, hhead, Bool.or_eq_true, List.isSuffixOf_iff_suffix, beq_iff_eq]

inductive Moves (p : Pump) : Event → Pump → Prop
  | send (chunk : Bytes) (unsent : List Bytes) (hunsent : p.unsent = chunk :: unsent) :
      Moves p .send { p with unsent, channel := p.channel ++ [chunk] }
  | finish (hunsent : p.unsent = []) (hopen : p.closed = false) :
      Moves p .finish { p with closed := true }
  | receive (chunk : Bytes) (channel : List Bytes) (hcurrent : p.current = [])
      (hchannel : p.channel = chunk :: channel) :
      Moves p .receive { p with current := chunk, channel }
  | read (length : ℕ) (hcurrent : p.current ≠ []) :
      Moves p (.read length)
        { p with
          reads := p.reads ++ [p.current.take (min length p.current.length)]
          current := p.current.drop (min length p.current.length) }
  | disconnected (hcurrent : p.current = []) (hchannel : p.channel = [])
      (hclosed : p.closed = true) :
      Moves p .disconnected { p with reads := p.reads ++ [[]] }

theorem step_moves {p q : Pump} {event : Event} (hstep : step p event = some q) :
    Moves p event q := by
  cases event with
  | send =>
    simp only [step] at hstep
    split at hstep
    · rename_i chunk unsent hunsent
      split_ifs at hstep
      cases hstep
      exact .send chunk unsent hunsent
    · cases hstep
  | finish =>
    simp only [step] at hstep
    split_ifs at hstep with hdone
    cases hstep
    simp only [Bool.and_eq_true, List.isEmpty_iff, Bool.not_eq_true'] at hdone
    exact .finish hdone.1 hdone.2
  | receive =>
    simp only [step] at hstep
    split at hstep
    · rename_i chunk channel hcurrent hchannel
      cases hstep
      exact .receive chunk channel hcurrent hchannel
    · cases hstep
  | read length =>
    simp only [step] at hstep
    split_ifs at hstep with hempty
    cases hstep
    exact .read length (by simpa using hempty)
  | disconnected =>
    simp only [step] at hstep
    split_ifs at hstep with hend
    cases hstep
    simp only [Bool.and_eq_true, List.isEmpty_iff] at hend
    exact .disconnected hend.1.1 hend.1.2 hend.2

/-- Reads that return these bytes: all of them return some, until the end of input is reported,
and it is reported only after all bytes. -/
def ReadsOf (bytes : Bytes) (reads : List Bytes) : Prop :=
  ∃ slices ends, reads = slices ++ List.replicate ends [] ∧ [] ∉ slices ∧
    slices.flatten <+: bytes ∧ (0 < ends → slices.flatten = bytes)

structure Sound (body : List Bytes) (p : Pump) : Prop where
  bytes : p.reads.flatten ++ p.current ++ p.channel.flatten ++ p.unsent.flatten = body.flatten
  closed : p.closed = true → p.unsent = []
  reads : ∃ slices ends, p.reads = slices ++ List.replicate ends [] ∧ [] ∉ slices ∧
    (0 < ends → p.current = [] ∧ p.channel = [] ∧ p.closed = true)

theorem sound_start (path : String) (body : List Bytes) : Sound body (startPump path body) := by
  constructor
  · rw [startPump_unsent]
    rfl
  · intro hclosed
    cases hclosed
  · exact ⟨[], 0, rfl, List.not_mem_nil, fun h => absurd h (lt_irrefl 0)⟩

theorem Sound.move {body : List Bytes} {p q : Pump} {event : Event} (h : Sound body p)
    (hmoves : Moves p event q) (hread : ∀ length, event = .read length → 0 < length) :
    Sound body q := by
  have hbytes := h.bytes
  obtain ⟨slices, ends, hreads, hslices, hends⟩ := h.reads
  cases hmoves with
  | send chunk unsent hunsent =>
    have hopen : p.closed ≠ true := by
      intro hclosed
      rw [h.closed hclosed] at hunsent
      cases hunsent
    refine ⟨?_, fun hclosed => absurd hclosed hopen, slices, ends, hreads, hslices, ?_⟩
    · rw [hunsent] at hbytes
      simpa [List.append_assoc] using hbytes
    · intro hpos
      exact absurd (hends hpos).2.2 hopen
  | finish hunsent hopen =>
    refine ⟨hbytes, fun _ => hunsent, slices, ends, hreads, hslices, ?_⟩
    intro hpos
    exact ⟨(hends hpos).1, (hends hpos).2.1, rfl⟩
  | receive chunk channel hcurrent hchannel =>
    refine ⟨?_, h.closed, slices, ends, hreads, hslices, ?_⟩
    · rw [hcurrent, hchannel] at hbytes
      simpa [List.append_assoc] using hbytes
    · intro hpos
      rw [(hends hpos).2.1] at hchannel
      cases hchannel
  | read length hcurrent =>
    have hzero : ends = 0 := by
      by_contra hne
      exact hcurrent (hends (Nat.pos_of_ne_zero hne)).1
    have htaken : p.current.take (min length p.current.length) ≠ [] := by
      have hlength := hread length rfl
      have hpos := List.length_pos_iff.mpr hcurrent
      intro hnil
      rcases List.take_eq_nil_iff.mp hnil with hzero | hempty
      · omega
      · exact hcurrent hempty
    refine ⟨?_, h.closed, p.reads ++ [_], 0, (List.append_nil _).symm, ?_,
      fun h => absurd h (lt_irrefl 0)⟩
    · rw [List.flatten_append, List.flatten_singleton, List.append_assoc p.reads.flatten,
        List.take_append_drop]
      exact hbytes
    · rw [hreads, hzero, List.replicate_zero, List.append_nil, List.mem_append,
        List.mem_singleton]
      rintro (hmem | heq)
      · exact hslices hmem
      · exact htaken heq.symm
  | disconnected hcurrent hchannel hclosed =>
    refine ⟨?_, h.closed, slices, ends + 1, ?_, hslices, fun _ => ⟨hcurrent, hchannel, hclosed⟩⟩
    · rw [List.flatten_append]
      simpa using hbytes
    · show p.reads ++ [[]] = _
      rw [hreads, List.append_assoc, List.replicate_succ']

theorem Sound.readsOf {body : List Bytes} {p : Pump} (h : Sound body p) :
    ReadsOf body.flatten p.reads := by
  have hbytes := h.bytes
  obtain ⟨slices, ends, hreads, hslices, hends⟩ := h.reads
  have hflatten : p.reads.flatten = slices.flatten := by
    rw [hreads, List.flatten_append, List.flatten_replicate_nil, List.append_nil]
  rw [hflatten] at hbytes
  refine ⟨slices, ends, hreads, hslices, ?_, ?_⟩
  · rw [← hbytes]
    simp only [List.append_assoc]
    exact List.prefix_append _ _
  · intro hpos
    obtain ⟨hcurrent, hchannel, hclosed⟩ := hends hpos
    rw [hcurrent, hchannel, h.closed hclosed] at hbytes
    simpa using hbytes

/-- How many steps are left at most before the end of input. -/
def Pump.rank (p : Pump) : ℕ :=
  2 * p.unsent.length + p.unsent.flatten.length + p.channel.length + p.channel.flatten.length +
    p.current.length + (if p.closed then 0 else 1)

theorem Moves.rank {p q : Pump} {event : Event} (hmoves : Moves p event q)
    (hread : ∀ length, event = .read length → 0 < length) :
    q.rank + 1 ≤ p.rank ∨ [] ∈ q.reads := by
  cases hmoves with
  | send chunk unsent hunsent =>
    left
    simp only [Pump.rank, hunsent, List.length_cons, List.flatten_cons, List.length_append,
      List.flatten_append, List.flatten_nil, List.length_nil]
    omega
  | finish hunsent hopen =>
    left
    simp only [Pump.rank, hopen, if_true, Bool.false_eq_true, if_false]
    omega
  | receive chunk channel hcurrent hchannel =>
    left
    simp only [Pump.rank, hcurrent, hchannel, List.length_cons, List.flatten_cons,
      List.length_append, List.length_nil]
    omega
  | read length hcurrent =>
    left
    have hlength := hread length rfl
    have hpos := List.length_pos_iff.mpr hcurrent
    simp only [Pump.rank, List.length_drop]
    omega
  | disconnected hcurrent hchannel hclosed =>
    right
    simp

theorem Moves.reads {p q : Pump} {event : Event} (hmoves : Moves p event q)
    (hend : [] ∈ p.reads) : [] ∈ q.reads := by
  cases hmoves with
  | read length hcurrent => exact List.mem_append_left _ hend
  | disconnected hcurrent hchannel hclosed => exact List.mem_append_left _ hend
  | send chunk unsent hunsent => exact hend
  | finish hunsent hopen => exact hend
  | receive chunk channel hcurrent hchannel => exact hend

/-- The feeder and the reader never wait for each other. -/
theorem Pump.enabled (p : Pump) (length : ℕ) :
    ∃ event ∈ [.send, .finish, .receive, .read length, .disconnected],
      (step p event).isSome = true := by
  cases hcurrent : p.current with
  | cons byte current => exact ⟨.read length, by simp, by simp [step, hcurrent]⟩
  | nil =>
    cases hchannel : p.channel with
    | cons chunk channel => exact ⟨.receive, by simp, by simp [step, hcurrent, hchannel]⟩
    | nil =>
      cases hunsent : p.unsent with
      | cons chunk unsent =>
        exact ⟨.send, by simp, by simp [step, hunsent, hchannel, chunkChannelCapacity]⟩
      | nil =>
        by_cases hclosed : p.closed = true
        · exact ⟨.disconnected, by simp, by simp [step, hcurrent, hchannel, hclosed]⟩
        · exact ⟨.finish, by simp, by simp [step, hunsent, hclosed]⟩

def Reading (_ : Pump) (event : Event) : Prop := ∀ length, event = .read length → 0 < length

theorem Sound.run {body : List Bytes} {p q : Pump} {events : List Event} (h : Sound body p)
    (run : Machine.Run (Machine.Guarded Reading (Machine.Computes step)) p events q) :
    Sound body q ∧ (events.length + q.rank ≤ p.rank ∨ [] ∈ q.reads) := by
  induction run with
  | nil => exact ⟨h, .inl (by simp)⟩
  | snoc run hstep ih =>
    obtain ⟨hsound, hrank⟩ := ih
    have hmoves := step_moves hstep.2
    refine ⟨hsound.move hmoves hstep.1, ?_⟩
    rcases hrank with hrank | hend
    · rcases hmoves.rank hstep.1 with hnext | hend
      · left
        rw [List.length_append, List.length_singleton]
        omega
      · exact .inr hend
    · exact .inr (hmoves.reads hend)

/-- However a body is cut into chunks and whatever runs first, the parser reads the body. -/
theorem chunking_invisible (path : String) (body : List Bytes) :
    ((startPump path body).gzip = true ↔
      ".gz".toList <:+ path.toList ∨ body.flatten.take 2 = gzipMagic) ∧
    ∀ (events : List Event) (p : Pump),
      Machine.Run (Machine.Guarded Reading (Machine.Computes step)) (startPump path body)
        events p →
      ReadsOf body.flatten p.reads ∧
      (∀ length, ∃ event ∈ [.send, .finish, .receive, .read length, .disconnected],
        (step p event).isSome = true) ∧
      (2 * body.length + body.flatten.length + 1 < events.length → [] ∈ p.reads) := by
  refine ⟨startPump_gzip path body, fun events p run => ?_⟩
  obtain ⟨hsound, hend⟩ := (sound_start path body).run run
  refine ⟨hsound.readsOf, p.enabled, fun hlong => ?_⟩
  have hstart : (startPump path body).rank = 2 * body.length + body.flatten.length + 1 := by
    rw [Pump.rank, startPump_unsent]
    rfl
  rcases hend with hrank | hend
  · omega
  · exact hend

def splitMagic : List Bytes := [[0x1f], [], [0x8b, 0x08]]

def splitEvents : List Event :=
  [.send, .receive, .read 8, .send, .receive, .send, .receive, .read 1, .finish, .read 8,
    .disconnected]

theorem chunking_invisible_splitMagic :
    (startPump "/map" splitMagic).gzip = true ∧
      ∃ p, Machine.Run (Machine.Guarded Reading (Machine.Computes step))
          (startPump "/map" splitMagic) splitEvents p ∧
        p.reads = [[0x1f], [0x8b], [0x08], []] ∧ ReadsOf [0x1f, 0x8b, 0x08] p.reads := by
  obtain ⟨hgzip, hreads⟩ := chunking_invisible "/map" splitMagic
  have hrun : Machine.Run (Machine.Computes step) (startPump "/map" splitMagic) splitEvents
      { startPump "/map" splitMagic with
        unsent := [], closed := true, reads := [[0x1f], [0x8b], [0x08], []] } :=
    Machine.run_of_foldlM rfl
  have hguarded := hrun.guarded (P := Reading) (by simp [splitEvents, Reading])
  exact ⟨hgzip.mpr (.inr rfl), _, hguarded, rfl, (hreads splitEvents _ hguarded).1⟩

end Millipede.SitemapChunks
