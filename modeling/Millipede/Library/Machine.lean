import Mathlib.Algebra.GroupWithZero.Nat
import Mathlib.Algebra.Order.Group.Nat
import Mathlib.Data.List.Basic
import Mathlib.Algebra.BigOperators.Group.List.Basic
import Mathlib.Data.List.Induction

/-!
# Runs of state machines

A machine is a step function on states and inputs. A run folds the steps of a
list of inputs; `Along` says that every step of a run meets a condition on the
state before it and its input. The rules below prove what a whole run keeps from
what one step keeps, count what the steps of a run cost, and compare the outputs
of two machines through a relation between their states. The second half is about
steps that may be refused, as a relation.
-/

namespace Machine
variable {σ τ ε ω : Type*}

section Total
variable (step : σ → ε → σ) (out : σ → ε → ω)

def Along (P : σ → ε → Prop) : σ → List ε → Prop
  | _, [] => True
  | s, e :: es => P s e ∧ Along P (step s e) es

def outputs : σ → List ε → List ω
  | _, [] => []
  | s, e :: es => out s e :: outputs (step s e) es

end Total

theorem along_append {step : σ → ε → σ} {P : σ → ε → Prop} {s : σ} {es fs : List ε} :
    Along step P s (es ++ fs) ↔ Along step P s es ∧ Along step P (es.foldl step s) fs := by
  induction es generalizing s with
  | nil => simp [Along]
  | cons e es ih => simp [Along, ih, and_assoc]

theorem outputs_append {step : σ → ε → σ} {out : σ → ε → ω} {s : σ} {es fs : List ε} :
    outputs step out s (es ++ fs) =
      outputs step out s es ++ outputs step out (es.foldl step s) fs := by
  induction es generalizing s with
  | nil => rfl
  | cons e es ih => simp [outputs, ih]

/-- The invariant may mention how much the steps taken so far have cost. -/
theorem foldl_invariant {step : σ → ε → σ} {P : σ → ε → Prop} (cost : ε → ℕ) {bound : ℕ}
    (I : ℕ → σ → Prop)
    (keep : ∀ n s e, I n s → P s e → n + cost e ≤ bound → I (n + cost e) (step s e))
    {n : ℕ} {s : σ} {es : List ε} (h : I n s) (along : Along step P s es)
    (hb : n + (es.map cost).sum ≤ bound) :
    I (n + (es.map cost).sum) (es.foldl step s) := by
  induction es generalizing n s with
  | nil => simpa using h
  | cons e es ih =>
    simp only [List.map_cons, List.sum_cons, ← Nat.add_assoc] at hb ⊢
    exact ih (keep n s e h along.1 (by omega)) along.2 hb

theorem outputs_eq {step : σ → ε → σ} {step' : τ → ε → τ} {out : σ → ε → ω} {out' : τ → ε → ω}
    {P : σ → ε → Prop} {P' : τ → ε → Prop} {Q : ω → Prop} (cost : ε → ℕ) {bound : ℕ}
    (R : ℕ → σ → τ → Prop)
    (keep : ∀ n s t e, R n s t → P s e → P' t e → n + cost e ≤ bound →
      out s e = out' t e ∧ Q (out s e) ∧ R (n + cost e) (step s e) (step' t e))
    {n : ℕ} {s : σ} {t : τ} {es : List ε} (h : R n s t) (along : Along step P s es)
    (along' : Along step' P' t es) (hb : n + (es.map cost).sum ≤ bound) :
    outputs step out s es = outputs step' out' t es ∧ ∀ o ∈ outputs step out s es, Q o := by
  induction es generalizing n s t with
  | nil => exact ⟨rfl, fun o ho => nomatch ho⟩
  | cons e es ih =>
    simp only [List.map_cons, List.sum_cons, ← Nat.add_assoc] at hb
    obtain ⟨hout, hq, hnext⟩ := keep n s t e h along.1 along'.1 (by omega)
    obtain ⟨heq, hall⟩ := ih hnext along.2 along'.2 hb
    simp only [outputs, List.mem_cons, forall_eq_or_imp]
    exact ⟨by rw [hout, heq], hq, hall⟩

/-- The steps of a machine that may refuse an input. -/
def Computes (step : σ → ε → Option σ) (s : σ) (e : ε) (t : σ) : Prop := step s e = some t

/-- The steps that meet a condition on the state before them and their input. -/
def Guarded (P : σ → ε → Prop) (Step : σ → ε → σ → Prop) (s : σ) (e : ε) (t : σ) : Prop :=
  P s e ∧ Step s e t

inductive Run (Step : σ → ε → σ → Prop) : σ → List ε → σ → Prop
  | nil (s : σ) : Run Step s [] s
  | snoc {s t u : σ} {es : List ε} {e : ε} :
      Run Step s es t → Step t e u → Run Step s (es ++ [e]) u

theorem Run.mono {Step Step' : σ → ε → σ → Prop} (h : ∀ s e t, Step s e t → Step' s e t)
    {s t : σ} {es : List ε} (run : Run Step s es t) : Run Step' s es t := by
  induction run with
  | nil => exact .nil _
  | snoc _ hstep ih => exact .snoc ih (h _ _ _ hstep)

theorem Run.append {Step : σ → ε → σ → Prop} {s t u : σ} {es fs : List ε}
    (h : Run Step s es t) (h' : Run Step t fs u) : Run Step s (es ++ fs) u := by
  induction h' with
  | nil => simpa using h
  | snoc _ hstep ih =>
    rw [← List.append_assoc]
    exact .snoc ih hstep

theorem Run.eq_of_nil {Step : σ → ε → σ → Prop} {s t : σ} {es : List ε} (run : Run Step s es t)
    (hes : es = []) : s = t := by
  cases run with
  | nil => rfl
  | snoc hrun hstep => exact absurd hes (List.concat_ne_nil _ _)

theorem Run.of_singleton {Step : σ → ε → σ → Prop} {s t : σ} {e : ε} (run : Run Step s [e] t) :
    Step s e t := by
  generalize hes : [e] = es at run
  cases run with
  | nil => cases hes
  | @snoc t u es e' hrun hstep =>
    rw [← List.nil_append [e]] at hes
    obtain ⟨hnil, heq⟩ := List.append_inj' hes rfl
    cases heq
    rw [hrun.eq_of_nil hnil.symm]
    exact hstep

/-- A condition that every input meets, whatever the state. -/
theorem Run.guarded {Step : σ → ε → σ → Prop} {P : σ → ε → Prop} {s t : σ} {es : List ε}
    (run : Run Step s es t) (h : ∀ e ∈ es, ∀ u, P u e) : Run (Guarded P Step) s es t := by
  induction run with
  | nil => exact .nil _
  | snoc _ hstep ih =>
    refine .snoc (ih fun e he => h e (List.mem_append_left _ he)) ⟨?_, hstep⟩
    exact h _ (List.mem_append_right _ List.mem_cons_self) _

theorem run_of_foldlM {step : σ → ε → Option σ} {s t : σ} {es : List ε}
    (h : es.foldlM step s = some t) : Run (Computes step) s es t := by
  induction es using List.reverseRecOn generalizing t with
  | nil =>
    cases h
    exact .nil s
  | append_singleton es e ih =>
    rw [List.foldlM_append] at h
    obtain ⟨u, hu, ht⟩ := Option.bind_eq_some_iff.mp h
    exact .snoc (ih hu) (by simpa [Computes] using ht)

theorem guarded_run_of_foldlM {P : σ → ε → Prop} [∀ s e, Decidable (P s e)]
    {step : σ → ε → Option σ} {s t : σ} {es : List ε}
    (h : es.foldlM (fun s e => if P s e then step s e else none) s = some t) :
    Run (Guarded P (Computes step)) s es t := by
  refine (run_of_foldlM h).mono ?_
  intro s e t hs
  simp only [Computes] at hs
  split_ifs at hs with hP
  exact ⟨hP, hs⟩

def tally (step : σ → ε → Option σ) (P : σ → ε → Bool) (s : σ) (es : List ε) : ℕ :=
  (es.foldl (fun p e => (p.1.bind (step · e), p.2 + p.1.elim 0 fun s => (P s e).toNat))
    (some s, 0)).2

/-- A rank that falls with each of these steps bounds their number. -/
theorem Run.tally_add_rank_le {step : σ → ε → Option σ} {P : σ → ε → Bool} (rank : σ → ℕ)
    (falls : ∀ s e t, step s e = some t → rank t + (P s e).toNat ≤ rank s)
    {s t : σ} {es : List ε} (run : Run (Computes step) s es t) :
    tally step P s es + rank t ≤ rank s := by
  have key : ∃ n, es.foldl (fun p e => (p.1.bind (step · e),
      p.2 + p.1.elim 0 fun s => (P s e).toNat)) (some s, 0) = (some t, n) ∧
      n + rank t ≤ rank s := by
    induction run with
    | nil => exact ⟨0, rfl, by omega⟩
    | @snoc t u es e _ hstep ih =>
      obtain ⟨n, hn, hle⟩ := ih
      refine ⟨n + (P t e).toNat, ?_, ?_⟩
      · rw [List.foldl_append, hn]
        simp only [List.foldl_cons, List.foldl_nil, Option.bind_some, Option.elim_some]
        rw [hstep]
      · have := falls t e u hstep
        omega
  obtain ⟨n, hn, hle⟩ := key
  rw [tally, hn]
  exact hle

theorem run_invariant {Step : σ → ε → σ → Prop} {I : σ → Prop}
    (keep : ∀ s e t, I s → Step s e t → I t)
    {s t : σ} {es : List ε} (run : Run Step s es t) (h : I s) : I t := by
  induction run with
  | nil => exact h
  | snoc _ hstep ih => exact keep _ _ _ ih hstep

theorem Run.replace {Step Step' : σ → ε → σ → Prop} {I : σ → Prop}
    (keep : ∀ s e t, I s → Step s e t → I t)
    (replace : ∀ s e t, I s → Step s e t → Step' s e t)
    {s t : σ} {es : List ε} (run : Run Step s es t) (h : I s) : Run Step' s es t := by
  induction run with
  | nil => exact .nil _
  | snoc hrun hstep ih => exact .snoc ih (replace _ _ _ (run_invariant keep hrun h) hstep)

theorem run_invariant_until {Step : σ → ε → σ → Prop} {I H : σ → Prop}
    (before : ∀ s e t, Step s e t → H t → H s)
    (keep : ∀ s e t, I s → Step s e t → H t → I t)
    {s t : σ} {es : List ε} (run : Run Step s es t) (h : I s) (hH : H t) : I t := by
  induction run with
  | nil => exact h
  | snoc _ hstep ih => exact keep _ _ _ (ih (before _ _ _ hstep hH)) hstep hH

end Machine
