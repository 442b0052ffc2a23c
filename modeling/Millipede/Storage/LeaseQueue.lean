import Mathlib.Logic.Function.Basic
import Millipede.Storage.Queue

/-!
# Queues with exclusive leases

What the dispatcher may expect of any request queue: a request is in one place at a
time, so it has at most one live lease, and a handled request stays handled. A queue
may refuse any call, with or without having done what it was asked, and may take back
leases that it holds to be expired; the label of a step says which.

A request is known by the key under which it was added. The queue finds it again by
the lease, whatever the attempt has made of the request in the meantime.
-/

namespace Millipede

inductive Place where
  | unknown
  | pending (request : Request)
  | leased (leaseId : LeaseId) (request : Request)
  | handled

/-- `issued` remembers which request every lease was for. -/
structure LeaseQueue where
  place : String → Place
  issued : LeaseId → Option String
  issued_of_leased : ∀ key leaseId request, place key = .leased leaseId request →
    issued leaseId = some key

namespace LeaseQueue

def put (q : LeaseQueue) (key : String) (place : Place)
    (h : ∀ leaseId request, place ≠ .leased leaseId request) : LeaseQueue where
  place := Function.update q.place key place
  issued := q.issued
  issued_of_leased := by
    intro k leaseId request hk
    by_cases hne : k = key
    · subst hne
      rw [Function.update_self] at hk
      exact absurd hk (h leaseId request)
    · rw [Function.update_of_ne hne] at hk
      exact q.issued_of_leased k leaseId request hk

def grant (q : LeaseQueue) (key : String) (leaseId : LeaseId) (request : Request)
    (h : q.issued leaseId = none) : LeaseQueue where
  place := Function.update q.place key (.leased leaseId request)
  issued := Function.update q.issued leaseId (some key)
  issued_of_leased := by
    intro k id r hk
    by_cases hne : k = key
    · subst hne
      rw [Function.update_self] at hk
      cases hk
      exact Function.update_self ..
    · rw [Function.update_of_ne hne] at hk
      have hid := q.issued_of_leased k id r hk
      have hfresh : id ≠ leaseId := by
        intro he
        rw [he, h] at hid
        cases hid
      rw [Function.update_of_ne hfresh, hid]

def withdrawn (expired : List LeaseId) : Place → Place
  | .leased leaseId request =>
    if leaseId ∈ expired then .pending request else .leased leaseId request
  | place => place

def withdraw (q : LeaseQueue) (expired : List LeaseId) : LeaseQueue where
  place := fun key => withdrawn expired (q.place key)
  issued := q.issued
  issued_of_leased := by
    intro key leaseId request hk
    cases hp : q.place key with
    | leased id r =>
      simp only [hp, withdrawn] at hk
      split_ifs at hk
      cases hk
      exact q.issued_of_leased key _ _ hp
    | _ =>
      rw [hp] at hk
      cases hk

def destination : QueueOp → Option Place
  | .markHandled _ => some .handled
  | .reclaim lease opts => some (.pending (lease.request.reclaimed opts.incrementRetry))
  | .abandon lease => some (.pending lease.request)
  | _ => none

theorem destination_ne {op : QueueOp} {place : Place} (h : destination op = some place)
    (leaseId : LeaseId) (request : Request) : place ≠ .leased leaseId request := by
  cases op <;> cases h <;> intro hp <;> cases hp

inductive Consumes (q : LeaseQueue) (op : QueueOp) : LeaseQueue → Prop
  | intro (lease : Lease) (key : String) (request : Request) (place : Place)
      (returned : op.returned = some lease)
      (live : q.place key = .leased lease.leaseId request)
      (goes : destination op = some place) :
      Consumes q op (q.put key place (destination_ne goes))

inductive Answers (q : LeaseQueue) : QueueOp → StorageResult QueueReply → LeaseQueue → Prop
  | leased (lease : Lease) (key : String) (bound : lease.leaseId < 2 ^ 64)
      (waiting : q.place key = .pending lease.request) (fresh : q.issued lease.leaseId = none) :
      Answers q .fetchNext (.ok (.leased (some lease)))
        (q.grant key lease.leaseId lease.request fresh)
  | idle : Answers q .fetchNext (.ok (.leased none)) q
  | renewed (leaseId : LeaseId) (extendBy : Duration) (key : String) (request : Request)
      (live : q.place key = .leased leaseId request) :
      Answers q (.renew leaseId extendBy) (.ok .unit) q
  | empty (value : Bool) : Answers q .isEmpty (.ok (.flag value)) q
  | finished (value : Bool) : Answers q .isFinished (.ok (.flag value)) q
  | consumed (op : QueueOp) (q' : LeaseQueue) : Consumes q op q' → Answers q op (.ok .unit) q'
  | refused (op : QueueOp) (e : StorageError) (q' : LeaseQueue) :
      (q' = q ∨ Consumes q op q') → Answers q op (.error e) q'

/-- A call during which the queue takes back the leases in `expired`. -/
def Responds (q : LeaseQueue) (expired : List LeaseId) (op : QueueOp)
    (reply : StorageResult QueueReply) (q' : LeaseQueue) : Prop :=
  Answers (q.withdraw expired) op reply q'

def Reacts (q : LeaseQueue) (expired : List LeaseId) :
    Option (QueueOp × StorageResult QueueReply) → LeaseQueue → Prop
  | none, q' => q' = q
  | some (op, reply), q' => q.Responds expired op reply q'

open Classical in
/-- A request whose key is known already changes nothing. -/
noncomputable def add (q : LeaseQueue) (request : Request) : LeaseQueue :=
  if q.place request.uniqueKey = .unknown then
    q.put request.uniqueKey (.pending request) (by simp)
  else q

variable {q q' : LeaseQueue}

@[simp] theorem place_put {key k : String} {place : Place}
    {h : ∀ leaseId request, place ≠ .leased leaseId request} :
    (q.put key place h).place k = if k = key then place else q.place k :=
  Function.update_apply ..

@[simp] theorem issued_put {key : String} {place : Place}
    {h : ∀ leaseId request, place ≠ .leased leaseId request} :
    (q.put key place h).issued = q.issued := rfl

@[simp] theorem place_grant {key k : String} {leaseId : LeaseId} {request : Request}
    {h : q.issued leaseId = none} :
    (q.grant key leaseId request h).place k =
      if k = key then .leased leaseId request else q.place k :=
  Function.update_apply ..

@[simp] theorem issued_grant {key : String} {leaseId id : LeaseId} {request : Request}
    {h : q.issued leaseId = none} :
    (q.grant key leaseId request h).issued id = if id = leaseId then some key else q.issued id :=
  Function.update_apply ..

@[simp] theorem issued_withdraw {expired : List LeaseId} :
    (q.withdraw expired).issued = q.issued := rfl

@[simp] theorem withdraw_nil : q.withdraw [] = q := by
  obtain ⟨place, issued, h⟩ := q
  simp only [withdraw, mk.injEq, and_true]
  funext key
  cases place key <;> simp [withdrawn]

theorem place_withdraw (q : LeaseQueue) (expired : List LeaseId) (key : String) :
    (q.withdraw expired).place key = q.place key ∨
      ∃ id r, id ∈ expired ∧ q.place key = .leased id r ∧
        (q.withdraw expired).place key = .pending r := by
  cases hp : q.place key with
  | leased id r =>
    simp only [withdraw, hp, withdrawn]
    split_ifs with hid
    · exact .inr ⟨id, r, hid, rfl, rfl⟩
    · exact .inl rfl
  | _ => simp [withdraw, hp, withdrawn]

theorem withdraw_handled (expired : List LeaseId) {key : String} :
    (q.withdraw expired).place key = .handled ↔ q.place key = .handled := by
  obtain heq | ⟨id, r, -, hp, hp'⟩ := q.place_withdraw expired key
  · rw [heq]
  · simp [hp, hp']

theorem withdraw_leased {expired : List LeaseId} {key : String} {id : LeaseId} {r : Request}
    (hp : q.place key = .leased id r) (hid : id ∉ expired) :
    (q.withdraw expired).place key = .leased id r := by
  simp only [withdraw, hp, withdrawn, if_neg hid]

theorem Consumes.inv {op : QueueOp} (h : q.Consumes op q') :
    ∃ lease key request place, op.returned = some lease ∧ destination op = some place ∧
      q.place key = .leased lease.leaseId request ∧ q'.issued = q.issued ∧
      ∀ k, q'.place k = if k = key then place else q.place k := by
  obtain ⟨lease, key, request, place, hret, hlive, hgoes⟩ := h
  exact ⟨lease, key, request, place, hret, hgoes, hlive, rfl, fun _ => place_put⟩

/-- One request has one live lease. -/
theorem lease_unique {key : String} {id id' : LeaseId} {r r' : Request}
    (h : q.place key = .leased id r) (h' : q.place key = .leased id' r') : id = id' := by
  rw [h] at h'
  cases h'
  rfl

theorem place_add (q : LeaseQueue) (request : Request) (key : String) :
    (q.add request).place key = q.place key ∨
      key = request.uniqueKey ∧ q.place key = .unknown ∧
        (q.add request).place key = .pending request := by
  unfold add
  split_ifs with hnew
  · by_cases hk : key = request.uniqueKey
    · subst hk
      exact .inr ⟨rfl, hnew, by simp⟩
    · exact .inl (by simp [hk])
  · exact .inl rfl

@[simp] theorem issued_add {request : Request} : (q.add request).issued = q.issued := by
  unfold add
  split_ifs <;> rfl

end LeaseQueue

end Millipede
