import Resumable.Proofs.Frames
import Resumable.Proofs.Pull

/-!
# Terminal ops

What is behind an op that never passes control on is not run, so lowering need not write it.

* `execOps_append`: ops are run one list after the other, the second only if the first passes
  control on;
* `terminal_never_passed`: no op is run behind ops that are terminal, and no state is entered from
  them by falling through; so to seal code only where control reaches its end is to seal it
  everywhere.
-/

namespace Resumable

open List Lowering

variable (e : Engine) (selector : SymbolId) {ops : List Op}

theorem execOps_append (ops more : List Op) : execOps e selector (ops ++ more) = (do
    match ← execOps e selector ops with
    | .next => execOps e selector more
    | flow => return flow) := by
  induction ops with
  | nil => rw [nil_append, execOps, pure_bind]
  | cons op ops ih =>
    rw [cons_append, execOps, execOps, bind_assoc]
    congr 1
    funext flow
    cases flow with
    | next => exact ih
    | _ => rfl

theorem execOps_ne_next (hops : endsTerminal ops) (m m' : Memory) :
    execOps e selector ops m ≠ .ok .next m' :=
  fun hrun => (execOps_returns e selector ops m .next m' hrun).2 hops rfl

/-- Ops behind terminal ones may as well not be there. -/
theorem execOps_append_terminal (hops : endsTerminal ops) (more : List Op) :
    execOps e selector (ops ++ more) = execOps e selector ops := by
  rw [execOps_append]
  funext m
  rcases hrun : execOps e selector ops m with ⟨flow, m'⟩ | ⟨f, m'⟩
  · rw [bind_of_ok hrun]
    cases flow with
    | next => exact absurd hrun (execOps_ne_next e selector hops m m')
    | _ => rfl
  · exact bind_of_error hrun _

/-- From a state that ends with a terminal op, the machine goes nowhere but through its selector. -/
theorem enterState_terminal {states : List MachineState} {n : Nat} {id : StateId}
    (hstate : states[n]? = some (.mk id ops)) (hops : endsTerminal ops) (m : Memory) (k : Int)
    (m' : Memory) :
    Run.enterState (execState e selector states) (.ofNat (n + 1)) m ≠ .ok (.inl (some k)) m' := by
  have hbody : execState e selector states n = some (execOps e selector ops) := by
    rw [execState_eq, hstate]
    rfl
  intro hrun
  simp only [Run.enterState, hbody] at hrun
  obtain ⟨flow, m₁, hflow, hrest⟩ := of_bind_ok hrun
  cases flow with
  | next => exact execOps_ne_next e selector hops m m₁ hflow
  | _ => cases hrest

theorem execOps_sealing (ops : List Op) (op : Op) :
    execOps e selector (ops ++ Code.sealing ops op) = execOps e selector (ops ++ [op]) := by
  unfold Code.sealing
  split
  · next hops => rw [append_nil, execOps_append_terminal e selector hops]
  · rfl

/-- What is to follow the ops at a cursor is run as if it were always written there. -/
theorem execOps_endWith {s : State} {c : Lowering.Cursor} (hc : s.view.Has c) (op : Op) :
    ∃ s', endWith c op s = .ok ((), s') ∧
      execOps e selector (opsAt s'.frame c) = execOps e selector (opsAt s.frame c ++ [op]) := by
  have hlooks : Looks s s.ledger s.view := ⟨rfl, rfl⟩
  obtain ⟨s', hrun, hs'⟩ := hlooks.endWith hc op
  refine ⟨s', hrun, ?_⟩
  rw [hs'.opsAt_eq, View.ops_put_self]
  exact execOps_sealing e selector _ op

/-- **Control never passes terminal ops.** Whatever the class, the fields and the host, ops that end
with a terminal one give a fault or go elsewhere: nothing behind them is run, their machine does not
fall through into its next state, and to leave out what would seal them makes no difference. -/
theorem terminal_never_passed (e : Engine) (selector : SymbolId) :
    (∀ ops, endsTerminal ops →
      (∀ m flow m', execOps e selector ops m = .ok flow m' → flow ≠ .next) ∧
      (∀ more, execOps e selector (ops ++ more) = execOps e selector ops) ∧
      ∀ states n id, states[n]? = some (.mk id ops) → ∀ m k m',
        Run.enterState (execState e selector states) (.ofNat (n + 1)) m ≠ .ok (.inl (some k)) m') ∧
    ∀ (s : State) c op, s.view.Has c → ∃ s', endWith c op s = .ok ((), s') ∧
      execOps e selector (opsAt s'.frame c) = execOps e selector (opsAt s.frame c ++ [op]) := by
  refine ⟨fun ops hops => ⟨?_, execOps_append_terminal e selector hops, fun states n id hstate =>
    enterState_terminal e selector hstate hops⟩, fun s c op hc => execOps_endWith e selector hc op⟩
  rintro m flow m' hrun rfl
  exact execOps_ne_next e selector hops m m' hrun

/-- A choice of which one side goes to an arm under a lock, and the other raises. -/
def forked : List Op :=
  [.clear ⟨1⟩, .cond (.bool true) [.synchronized (.literal (.str ""))
    [.switch (.int 1) [⟨[.int 2], false, ⟨1⟩⟩, ⟨[], true, .finished⟩]]]
      [.plain (.raise .null default)]]

/-- An engine that has the built-in functions only. -/
def Engine.builtin : Engine := ⟨Functions.builtins.host 0, .initial, 9⟩

theorem terminal_never_passed_forked : endsTerminal forked ∧
    (∃ m, execOps .builtin ⟨0⟩ forked ⟨.empty, default⟩ = .ok .dispatch m) ∧
    (∀ more, execOps .builtin ⟨0⟩ (forked ++ more) = execOps .builtin ⟨0⟩ forked) ∧
    ∃ s', endWith (.state .start) .finish (.initial .empty) = .ok ((), s') ∧
      execOps .builtin ⟨0⟩ (opsAt s'.frame (.state .start)) = execOps .builtin ⟨0⟩ [.finish] := by
  have hops : endsTerminal forked := by decide
  obtain ⟨hterminal, hseal⟩ := terminal_never_passed .builtin ⟨0⟩
  exact ⟨hops, ⟨_, rfl⟩, (hterminal forked hops).2.1,
    hseal (.initial .empty) (.state .start) .finish ⟨Nat.one_pos, Nat.le_refl 1⟩⟩

end Resumable
