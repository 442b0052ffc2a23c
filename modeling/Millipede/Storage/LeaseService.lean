import Millipede.Library.Machine
import Millipede.Storage.LeaseQueue

/-!
# What a queue with exclusive leases says about itself

The dispatcher takes some answers of its queue at their word: that nothing is waiting, and that
nothing is left. `Serves` is a call after which the abstract queue is where it may be, and whose
answer is true of it.
-/

namespace Millipede.LeaseQueue

def empty : LeaseQueue where
  place := fun _ => .unknown
  issued := fun _ => none
  issued_of_leased := by
    intro key leaseId request h
    cases h

def Idle (q : LeaseQueue) : Prop := ∀ key request, q.place key ≠ .pending request

def Finished (q : LeaseQueue) : Prop := ∀ key, q.place key = .unknown ∨ q.place key = .handled

noncomputable def addAll (q : LeaseQueue) (requests : List Request) : LeaseQueue :=
  requests.foldl add q

def Truthful (q : LeaseQueue) : QueueOp → StorageResult QueueReply → Prop
  | .fetchNext, .ok (.leased none) => q.Idle
  | .isEmpty, .ok (.flag value) => value = true ↔ q.Idle
  | .isFinished, .ok (.flag value) => value = true ↔ q.Finished
  | _, _ => True

/-- A call that fails may have added the first of its requests. -/
def Serves (q : LeaseQueue) (op : QueueOp) (reply : StorageResult QueueReply)
    (q' : LeaseQueue) : Prop :=
  match op with
  | .add _ _ | .addBatch _ _ => ∃ requests, requests <+: op.added ∧
      (reply.isOk = true → requests = op.added) ∧ q' = q.addAll requests
  | .handledCount | .pendingCount => q' = q
  | _ => q.Answers op reply q' ∧ q.Truthful op reply

/-- A call with its answer, and the leases the queue takes back before it answers. -/
structure Exchange where
  expired : List LeaseId
  op : QueueOp
  reply : StorageResult QueueReply

def Exchanges (q : LeaseQueue) (e : Exchange) (q' : LeaseQueue) : Prop :=
  (q.withdraw e.expired).Serves e.op e.reply q'

variable {q q' : LeaseQueue} {op : QueueOp} {reply : StorageResult QueueReply}

def dispatches : QueueOp → Bool
  | .add _ _ | .addBatch _ _ | .handledCount | .pendingCount => false
  | _ => true

theorem Serves.answers (h : q.Serves op reply q') (hop : dispatches op = true) :
    q.Answers op reply q' ∧ q.Truthful op reply := by
  cases op with
  | add request opts | addBatch requests opts | handledCount | pendingCount => cases hop
  | fetchNext | markHandled lease | reclaim lease opts | renew leaseId extendBy
  | abandon lease | isEmpty | isFinished => exact h

theorem Serves.adds (h : q.Serves op reply q') (hop : dispatches op = false) :
    ∃ requests, requests <+: op.added ∧ (reply.isOk = true → requests = op.added) ∧
      q' = q.addAll requests := by
  cases op with
  | add request opts | addBatch requests opts => exact h
  | handledCount | pendingCount => exact ⟨[], List.prefix_rfl, fun _ => rfl, h⟩
  | fetchNext | markHandled lease | reclaim lease opts | renew leaseId extendBy
  | abandon lease | isEmpty | isFinished => cases hop

theorem withdraw_cons (leaseId : LeaseId) (expired : List LeaseId) :
    (q.withdraw [leaseId]).withdraw expired = q.withdraw (leaseId :: expired) := by
  obtain ⟨place, issued, h⟩ := q
  simp only [withdraw, mk.injEq, and_true]
  funext key
  cases place key with
  | leased id request =>
    by_cases hid : id = leaseId
    · simp [withdrawn, hid]
    · simp [withdrawn, hid]
  | _ => rfl

theorem place_withdraw_of_not_leased {leaseId : LeaseId} {key : String}
    (h : ∀ request, q.place key ≠ .leased leaseId request) :
    (q.withdraw [leaseId]).place key = q.place key := by
  obtain heq | ⟨id, request, hid, hp, -⟩ := q.place_withdraw [leaseId] key
  · exact heq
  · rw [List.mem_singleton.mp hid] at hp
    exact absurd hp (h request)

theorem place_withdraw_of_leased {leaseId : LeaseId} {key : String} {request : Request}
    (h : q.place key = .leased leaseId request) :
    (q.withdraw [leaseId]).place key = .pending request := by
  simp [withdraw, withdrawn, h]

theorem Finished.idle (h : q.Finished) : q.Idle := by
  intro key request hp
  obtain hk | hk := h key
  · rw [hp] at hk
    cases hk
  · rw [hp] at hk
    cases hk

theorem finished_iff :
    q.Finished ↔ q.Idle ∧ ∀ key leaseId request, q.place key ≠ .leased leaseId request := by
  constructor
  · intro h
    refine ⟨h.idle, ?_⟩
    intro key leaseId request hp
    obtain hk | hk := h key
    · rw [hp] at hk
      cases hk
    · rw [hp] at hk
      cases hk
  · rintro ⟨hidle, hfree⟩ key
    cases hp : q.place key with
    | unknown => exact .inl rfl
    | pending request => exact absurd hp (hidle key request)
    | leased leaseId request => exact absurd hp (hfree key leaseId request)
    | handled => exact .inr rfl

end Millipede.LeaseQueue
