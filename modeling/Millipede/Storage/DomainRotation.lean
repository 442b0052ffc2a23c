import Millipede.Library.Rotation
import Millipede.Storage.MemoryConservation

/-!
# The round-robin frontier

Every host has a deque of its own, which its requests pass through as through any other
deque; the rotation decides whose deque is popped next. Between two turns of one host each
other host that waits has a turn.
-/

namespace Millipede.MemoryQueue.DomainRoundRobin

inductive Op where
  | pushBack (request : Request)
  | pushFront (request : Request)
  | popFront

inductive Event where
  | pushedBack (request : Request)
  | pushedFront (request : Request)
  | popped (result : Option Request)

def perform (f : DomainRoundRobin) : Op → Option (Event × DomainRoundRobin)
  | .pushBack request => some (.pushedBack request, f.pushBack request)
  | .pushFront request => some (.pushedFront request, f.pushFront request)
  | .popFront => f.popFront.map fun (result, rest) => (.popped result, rest)

def performAll (f : DomainRoundRobin) : List Op → Option (List Event × DomainRoundRobin)
  | [] => some ([], f)
  | op :: ops =>
    (f.perform op).bind fun (e, g) => (g.performAll ops).map fun (es, g) => (e :: es, g)

def empty : DomainRoundRobin := { byHost := ∅, rotation := [] }

def queueOf (f : DomainRoundRobin) (host : String) : List Request :=
  (f.byHost.lookup host).getD []

def about (host : String) : Event → Option (DequeOp Request)
  | .pushedBack request => if hostKey request = host then some (.pushBack request) else none
  | .pushedFront request => if hostKey request = host then some (.pushFront request) else none
  | .popped (some request) => if hostKey request = host then some .popFront else none
  | .popped none => none

def popOf (host : String) : Event → Option Request
  | .popped (some request) => if hostKey request = host then some request else none
  | _ => none

/-- The plain deque of a host, after the pushes and pops of that host. -/
def deque (host : String) (events : List Event) : Deque Request :=
  Deque.after (events.filterMap (about host))

/-- The hosts of the rotation are the active ones, and every request is in the deque of its
own host. -/
structure Sorted (f : DomainRoundRobin) : Prop where
  active : f.Active
  own : ∀ host, ∀ request ∈ f.queueOf host, hostKey request = host

variable {f g : DomainRoundRobin} {host : String}

theorem Active.nodup (h : f.Active) : f.rotation.Nodup :=
  h.hosts.nodup_iff.mpr f.byHost.keys_nodup

theorem Active.mem_rotation (h : f.Active) : host ∈ f.rotation ↔ f.queueOf host ≠ [] := by
  rw [h.hosts.mem_iff, AList.mem_keys_iff, queueOf]
  constructor
  · rintro ⟨queue, hqueue⟩
    rw [hqueue]
    exact h.busy host queue hqueue
  · intro hne
    cases hlookup : f.byHost.lookup host with
    | none => exact absurd (by rw [hlookup]; rfl) hne
    | some queue => exact ⟨queue, rfl⟩

theorem sorted_empty : empty.Sorted where
  active := ⟨.refl _, fun _ _ h => nomatch h⟩
  own _ _ h := nomatch h

theorem pushBack_rotation (f : DomainRoundRobin) (request : Request) :
    ∃ more, (f.pushBack request).rotation = f.rotation ++ more := by
  simp only [pushBack]
  split
  · exact ⟨[], by simp⟩
  · exact ⟨[hostKey request], rfl⟩

theorem queueOf_pushBack (f : DomainRoundRobin) (request : Request) (host : String) :
    (f.pushBack request).queueOf host =
      if host = hostKey request then f.queueOf host ++ [request] else f.queueOf host := by
  simp only [pushBack, queueOf]
  split
  · rename_i queue hqueue
    rw [AList.lookup_insert_ite]
    split_ifs with heq
    · rw [heq, hqueue]
      rfl
    · rfl
  · rename_i hnone
    rw [AList.lookup_insert_ite]
    split_ifs with heq
    · rw [heq, hnone]
      rfl
    · rfl

theorem queueOf_pushFront (f : DomainRoundRobin) (request : Request) (host : String) :
    (f.pushFront request).queueOf host =
      if host = hostKey request then request :: f.queueOf host else f.queueOf host := by
  simp only [pushFront, queueOf]
  split
  · rename_i queue hqueue
    rw [AList.lookup_insert_ite]
    split_ifs with heq
    · rw [heq, hqueue]
      rfl
    · rfl
  · rename_i hnone
    rw [AList.lookup_insert_ite]
    split_ifs with heq
    · rw [heq, hnone]
      rfl
    · rfl

theorem popFront_cases (h : f.Sorted) :
    (f.rotation = [] ∧ f.popFront = some (none, f)) ∨
      ∃ host rotation request queue g, f.rotation = host :: rotation ∧
        f.queueOf host = request :: queue ∧ f.popFront = some (some request, g) ∧
        g.rotation = rotation ++ (if queue = [] then [] else [host]) ∧
        ∀ host', g.queueOf host' = if host' = host then queue else f.queueOf host' := by
  cases hrotation : f.rotation with
  | nil => exact .inl ⟨rfl, by simp [popFront, hrotation]⟩
  | cons host rotation =>
    right
    have hwaits : f.queueOf host ≠ [] :=
      h.active.mem_rotation.mp (hrotation ▸ List.mem_cons_self)
    obtain ⟨request, queue, hqueue⟩ := List.exists_cons_of_ne_nil hwaits
    have hlookup : f.byHost.lookup host = some (request :: queue) := by
      rw [queueOf] at hqueue
      cases hl : f.byHost.lookup host with
      | none => rw [hl] at hqueue; cases hqueue
      | some old => rw [hl] at hqueue; exact congrArg some hqueue
    by_cases hlast : queue = []
    · subst hlast
      refine ⟨host, rotation, request, [], { byHost := f.byHost.erase host, rotation }, rfl,
        hqueue, by simp [popFront, hrotation, hlookup], by simp, ?_⟩
      intro host'
      rw [queueOf, AList.lookup_erase_ite]
      split_ifs <;> rfl
    · refine ⟨host, rotation, request, queue,
        { byHost := f.byHost.insert host queue, rotation := rotation ++ [host] }, rfl,
        hqueue, by simp [popFront, hrotation, hlookup, hlast], by simp [hlast], ?_⟩
      intro host'
      rw [queueOf, AList.lookup_insert_ite]
      split_ifs <;> rfl

theorem active_popFront (h : f.Active) {request : Request}
    (hp : f.popFront = some (some request, g)) : g.Active := by
  rcases popFront_spec h with ⟨-, hp'⟩ | ⟨r, rest, hp', hrest, -⟩
  · rw [hp] at hp'
    cases hp'
  · rw [hp] at hp'
    cases hp'
    exact hrest

/-- One operation: it is answered, and does to each host's deque what it does to a plain
one. -/
theorem perform_spec (h : f.Sorted) (op : Op) :
    ∃ e g, f.perform op = some (e, g) ∧ g.Sorted ∧ ∀ host taken,
      (about host e).toList.foldl Deque.apply ⟨f.queueOf host, taken⟩ =
        ⟨g.queueOf host, taken ++ (popOf host e).toList⟩ := by
  cases op with
  | pushBack request =>
    refine ⟨.pushedBack request, _, rfl, ⟨(pushBack_spec h.active request).1, ?_⟩, ?_⟩
    · intro host r hr
      rw [queueOf_pushBack] at hr
      split_ifs at hr with heq
      · rcases List.mem_append.mp hr with hr | hr
        · exact h.own host r hr
        · rw [List.mem_singleton.mp hr, heq]
      · exact h.own host r hr
    · intro host taken
      rw [queueOf_pushBack]
      by_cases heq : hostKey request = host
      · simp [about, popOf, heq, Deque.apply]
      · simp [about, popOf, heq, Ne.symm heq]
  | pushFront request =>
    refine ⟨.pushedFront request, _, rfl, ⟨(pushFront_spec h.active request).1, ?_⟩, ?_⟩
    · intro host r hr
      rw [queueOf_pushFront] at hr
      split_ifs at hr with heq
      · rcases List.mem_cons.mp hr with rfl | hr
        · exact heq.symm
        · exact h.own host r hr
      · exact h.own host r hr
    · intro host taken
      rw [queueOf_pushFront]
      by_cases heq : hostKey request = host
      · simp [about, popOf, heq, Deque.apply]
      · simp [about, popOf, heq, Ne.symm heq]
  | popFront =>
    rcases popFront_cases h with ⟨-, hpop⟩ |
      ⟨host, rotation, request, queue, g, -, hqueue, hpop, -, hqueues⟩
    · refine ⟨.popped none, f, by simp [perform, hpop], h, ?_⟩
      intro host taken
      simp [about, popOf]
    · have hown : hostKey request = host := h.own host request (hqueue ▸ List.mem_cons_self)
      refine ⟨.popped (some request), g, by simp [perform, hpop], ⟨?_, ?_⟩, ?_⟩
      · exact active_popFront h.active hpop
      · intro host' r hr
        rw [hqueues] at hr
        split_ifs at hr with heq
        · exact heq ▸ h.own host r (hqueue ▸ List.mem_cons_of_mem _ hr)
        · exact h.own host' r hr
      · intro host' taken
        rw [hqueues]
        by_cases heq : host' = host
        · subst heq
          simp [about, popOf, hown, hqueue, Deque.apply]
        · simp [about, popOf, hown, heq, Ne.symm heq]

theorem perform_sorted (h : f.Sorted) {op : Op} {e : Event} (hp : f.perform op = some (e, g)) :
    g.Sorted := by
  obtain ⟨e', g', hp', hg, -⟩ := perform_spec h op
  rw [hp] at hp'
  cases hp'
  exact hg

variable {a b : String}

theorem ahead_of_popped (h : f.Sorted) {request : Request}
    (hp : f.popFront = some (some request, g)) (hb : f.queueOf b ≠ [])
    (hne : b ≠ hostKey request) : List.Ahead b (hostKey request) g.rotation := by
  rcases popFront_cases h with ⟨-, hpop⟩ |
    ⟨host, rotation, r, queue, g', hrotation, hqueue, hpop, hrotation', hqueues⟩
  · rw [hp] at hpop
    cases hpop
  · rw [hp] at hpop
    cases hpop
    have hown : hostKey request = host := h.own host request (hqueue ▸ List.mem_cons_self)
    have hnodup := h.active.nodup
    rw [hrotation, List.nodup_cons] at hnodup
    have hmem : b ∈ rotation := by
      have hwaits := h.active.mem_rotation.mpr hb
      rw [hrotation] at hwaits
      exact List.mem_of_ne_of_mem (hown ▸ hne) hwaits
    rw [hrotation', hown]
    exact (List.ahead_of_not_mem hmem hnodup.1).append _

theorem perform_turns (h : f.Sorted) {op : Op} {e : Event} (hp : f.perform op = some (e, g))
    (hab : a ≠ b) (hahead : List.Ahead b a f.rotation) (hfront : ∀ r, e ≠ .pushedFront r)
    (hb : popOf b e = none) : popOf a e = none ∧ List.Ahead b a g.rotation := by
  cases op with
  | pushBack request =>
    cases hp
    obtain ⟨more, hmore⟩ := pushBack_rotation f request
    rw [hmore]
    exact ⟨rfl, hahead.append more⟩
  | pushFront request =>
    cases hp
    exact absurd rfl (hfront request)
  | popFront =>
    rcases popFront_cases h with ⟨hnil, hpop⟩ |
      ⟨host, rotation, request, queue, g', hrotation, hqueue, hpop, hrotation', -⟩
    · rw [hnil] at hahead
      exact absurd hahead.mem (by simp)
    · simp only [perform, hpop, Option.map_some, Option.some.injEq, Prod.mk.injEq] at hp
      obtain ⟨rfl, rfl⟩ := hp
      have hown : hostKey request = host := h.own host request (hqueue ▸ List.mem_cons_self)
      rw [hrotation] at hahead
      have hne : host ≠ b := by
        intro heq
        simp [popOf, hown, heq] at hb
      refine ⟨?_, ?_⟩
      · simp [popOf, hown, hahead.head_ne hab]
      · rw [hrotation']
        exact (hahead.tail hne).append _

variable {ops : List Op} {es es' : List Event}

theorem performAll_spec (h : f.Sorted) (ops : List Op) :
    ∃ es g, f.performAll ops = some (es, g) ∧ g.Sorted ∧ ∀ host taken,
      (es.filterMap (about host)).foldl Deque.apply ⟨f.queueOf host, taken⟩ =
        ⟨g.queueOf host, taken ++ es.filterMap (popOf host)⟩ := by
  induction ops generalizing f with
  | nil => exact ⟨[], f, rfl, h, by simp⟩
  | cons op ops ih =>
    obtain ⟨e, f', hp, hf', hstep⟩ := perform_spec h op
    obtain ⟨es, g, hps, hg, hrun⟩ := ih hf'
    refine ⟨e :: es, g, by simp [performAll, hp, hps], hg, ?_⟩
    intro host taken
    have hcons : ∀ {β : Type} (p : Event → Option β),
        (e :: es).filterMap p = (p e).toList ++ es.filterMap p := by
      intro β p
      cases hpe : p e <;> simp [hpe]
    rw [hcons, hcons, List.foldl_append, hstep, hrun, List.append_assoc]

theorem performAll_sorted (h : f.Sorted) (hp : f.performAll ops = some (es, g)) : g.Sorted := by
  obtain ⟨es', g', hp', hg, -⟩ := performAll_spec h ops
  rw [hp] at hp'
  cases hp'
  exact hg

theorem performAll_op {op : Op} (hp : f.performAll (op :: ops) = some (es, g)) :
    ∃ e rest f', es = e :: rest ∧ f.perform op = some (e, f') ∧
      f'.performAll ops = some (rest, g) := by
  simp only [performAll, Option.bind_eq_some_iff, Option.map_eq_some_iff, Prod.exists,
    Prod.mk.injEq] at hp
  obtain ⟨e, f', hop, rest, g', hrest, rfl, rfl⟩ := hp
  exact ⟨e, rest, f', rfl, hop, hrest⟩

theorem performAll_cons {e : Event} (hp : f.performAll ops = some (e :: es, g)) :
    ∃ op rest f', f.perform op = some (e, f') ∧ f'.performAll rest = some (es, g) := by
  cases ops with
  | nil => cases hp
  | cons op ops =>
    obtain ⟨e', rest, f', heq, hop, hrest⟩ := performAll_op hp
    cases heq
    exact ⟨op, ops, f', hop, hrest⟩

theorem performAll_append (hp : f.performAll ops = some (es ++ es', g)) :
    ∃ front back f', f.performAll front = some (es, f') ∧ f'.performAll back = some (es', g) := by
  induction es generalizing f ops with
  | nil => exact ⟨[], ops, f, rfl, hp⟩
  | cons e es ih =>
    obtain ⟨op, rest, f', hop, hrest⟩ := performAll_cons hp
    obtain ⟨front, back, f'', hfront, hback⟩ := ih hrest
    exact ⟨op :: front, back, f'', by simp [performAll, hop, hfront], hback⟩

theorem performAll_turns (h : f.Sorted) (hp : f.performAll ops = some (es, g)) (hab : a ≠ b)
    (hahead : List.Ahead b a f.rotation) (hfront : ∀ e ∈ es, ∀ r, e ≠ .pushedFront r)
    (hb : ∀ e ∈ es, popOf b e = none) :
    (∀ e ∈ es, popOf a e = none) ∧ List.Ahead b a g.rotation := by
  induction ops generalizing f es with
  | nil =>
    cases hp
    exact ⟨fun e he => (nomatch he), hahead⟩
  | cons op ops ih =>
    obtain ⟨e, rest, f', rfl, hop, hrest⟩ := performAll_op hp
    obtain ⟨ha, hahead'⟩ := perform_turns h hop hab hahead (hfront e List.mem_cons_self)
      (hb e List.mem_cons_self)
    obtain ⟨has, hlast⟩ := ih (perform_sorted h hop) hrest hahead'
      (fun e he => hfront e (List.mem_cons_of_mem _ he))
      (fun e he => hb e (List.mem_cons_of_mem _ he))
    exact ⟨List.forall_mem_cons.mpr ⟨ha, has⟩, hlast⟩

theorem popFront_none_iff (h : f.Active) :
    ∃ result rest, f.popFront = some (result, rest) ∧ (result = none ↔ f.len = 0) := by
  rw [len_eq]
  rcases popFront_spec h with ⟨hempty, hpop⟩ | ⟨request, rest, hpop, -, hperm⟩
  · exact ⟨none, f, hpop, by simp [hempty]⟩
  · exact ⟨some request, rest, hpop, by simp [hperm.length_eq]⟩

theorem popFront_of_popped {op : Op} {result : Option Request}
    (hp : f.perform op = some (.popped result, g)) : f.popFront = some (result, g) := by
  cases op with
  | pushBack request => cases hp
  | pushFront request => cases hp
  | popFront =>
    simp only [perform, Option.map_eq_some_iff, Prod.exists, Prod.mk.injEq,
      Event.popped.injEq] at hp
    obtain ⟨result', g', hpop, rfl, rfl⟩ := hp
    exact hpop

/-- Between two turns of a host every other host that waits after the first one is served,
if nothing is pushed to the front meanwhile. -/
theorem served_between (h : f.Sorted) {first second : Request} {stretch after : List Event}
    (hp : f.performAll ops =
      some (.popped (some first) :: (stretch ++ .popped (some second) :: after), g))
    (hsame : hostKey second = hostKey first)
    (hfront : ∀ e ∈ stretch, ∀ r, e ≠ .pushedFront r) (hne : b ≠ hostKey first)
    (hb : f.queueOf b ≠ []) :
    ∃ request, .popped (some request) ∈ stretch ∧ hostKey request = b := by
  obtain ⟨op₁, rest₁, f₁, hop₁, hrest₁⟩ := performAll_cons hp
  obtain ⟨mid, rest₂, f₂, hmid, hrest₂⟩ := performAll_append hrest₁
  obtain ⟨op₃, rest₃, f₃, hop₃, hrest₃⟩ := performAll_cons hrest₂
  by_contra hnone
  have hunserved : ∀ e ∈ stretch, popOf b e = none := by
    intro e he
    rcases e with request | request | result
    · rfl
    · rfl
    · rcases result with _ | request
      · rfl
      · have hother : hostKey request ≠ b := fun hown => hnone ⟨request, he, hown⟩
        simp [popOf, hother]
  have h₁ : f₁.Sorted := perform_sorted h hop₁
  have hahead₁ := ahead_of_popped h (popFront_of_popped hop₁) hb hne
  obtain ⟨-, hahead₂⟩ := performAll_turns h₁ hmid hne.symm hahead₁ hfront hunserved
  have h₂ : f₂.Sorted := performAll_sorted h₁ hmid
  have hother : popOf b (.popped (some second)) = none := by
    simp [popOf, hsame, hne.symm]
  obtain ⟨hturn, -⟩ := perform_turns h₂ hop₃ hne.symm hahead₂ (fun r => by simp) hother
  simp [popOf, hsame] at hturn

theorem deque_eq (hp : empty.performAll ops = some (es, f)) (host : String) :
    deque host es = ⟨f.queueOf host, es.filterMap (popOf host)⟩ := by
  obtain ⟨es', f', hp', -, hdeque⟩ := performAll_spec sorted_empty ops
  rw [hp] at hp'
  cases hp'
  exact hdeque host []

/-- Any sequence of operations on an empty frontier is performed. The rotation lists the
hosts with a queue, each once, and no queue is empty; the requests of each host pass through
a plain deque; and between two turns of one host every other host that waited after the
first one had a turn, if no request was pushed to the front meanwhile. -/
theorem rotation_serves_all (ops : List Op) : ∃ events f, empty.performAll ops = some (events, f) ∧
    (f.rotation.Nodup ∧ ∀ host, host ∈ f.rotation ↔ host ∈ f.byHost) ∧
    (∀ host queue, f.byHost.lookup host = some queue → queue ≠ []) ∧
    (∃ result rest, f.popFront = some (result, rest) ∧ (result = none ↔ f.len = 0)) ∧
    (∀ host, deque host events =
      { waiting := (f.byHost.lookup host).getD [], taken := events.filterMap (popOf host) }) ∧
    ∀ before first stretch second after,
      events = before ++ .popped (some first) :: (stretch ++ .popped (some second) :: after) →
      hostKey second = hostKey first → (∀ e ∈ stretch, ∀ r, e ≠ .pushedFront r) →
      ∀ host ≠ hostKey first, (deque host (before ++ [.popped (some first)])).waiting ≠ [] →
        ∃ request, .popped (some request) ∈ stretch ∧ hostKey request = host := by
  obtain ⟨events, f, hp, hf, -⟩ := performAll_spec sorted_empty ops
  refine ⟨events, f, hp, ⟨hf.active.nodup, ?_⟩, hf.active.busy, popFront_none_iff hf.active,
    deque_eq hp, ?_⟩
  · intro host
    rw [hf.active.hosts.mem_iff, AList.mem_keys]
  · rintro before first stretch second after rfl hsame hfront host hne hwaits
    obtain ⟨front, back, f₀, hfront₀, hback⟩ := performAll_append hp
    have hsame₀ : deque host (before ++ [.popped (some first)]) = deque host before := by
      have hother : about host (.popped (some first)) = none := by simp [about, hne.symm]
      simp [deque, List.filterMap_append, hother]
    rw [hsame₀, deque_eq hfront₀] at hwaits
    exact served_between (performAll_sorted sorted_empty hfront₀) hback hsame hfront hne hwaits

end Millipede.MemoryQueue.DomainRoundRobin
