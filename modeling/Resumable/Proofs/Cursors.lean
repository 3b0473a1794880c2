import Resumable.Proofs.Built

/-!
# What the answers of lowering tell

Lowering is told a cursor and answers one. Whether both are the same decides whether a choice is one
op and whether code may stand under a lock.

* `Tells` says what an answer tells, and `Draws.tells` that every step that draws a sketch answers
  so;
* `lower_answers_truly` says it of all statements, and of the tests that rely on it.
-/

namespace Resumable

namespace Lowering

variable {ctx : Context} {s s' s₁ : State} {c c' : Cursor} {v : View} {L : Ledger} {code : Code}

/-- What the answer `c'` tells to who gave the cursor `c`: it is `c` if no state was opened, and a
new state otherwise. The machine at hand is the same, with the same buffers. -/
structure Tells (s s' : State) (c c' : Cursor) : Prop where
  stays : c' = c ↔ s'.frame.block.size = s.frame.block.size
  moves : c' ≠ c → (∃ id, c' = .state id) ∧ s'.view.Has c'
  buffers : s'.frame.scratch.size = s.frame.scratch.size
  machine : s'.frame.block.id = s.frame.block.id

theorem Agrees.of_ok {α β : Type} {R : α → State → β → Prop} {a : α} {z : Except LoweringError β}
    (h : Agrees R (.ok (a, s)) z) : ∃ b, z = .ok b ∧ R a s b := by
  cases z with
  | error => exact h.elim
  | ok b => exact ⟨b, rfl, h⟩

/-- A cursor is left for good where code opens a state. -/
theorem Cursor.after_eq_self (hc : v.Has c) : c.after v.size code = c ↔ code.states = [] := by
  unfold after
  split
  · next hstates => simp [hstates]
  · next hstates =>
    rw [hstates]
    refine ⟨fun h => absurd (h ▸ hc).2 ?_, nofun⟩
    simp

theorem Building.size_eq (h : Building v c s L code c') :
    s.frame.block.size = v.size + code.states.length :=
  (congrArg View.size h.looks.view).trans (View.add_size ..)

theorem Building.stays (h : Building v c s L code c') : c' = c ↔ s.frame.block.size = v.size := by
  rw [h.cursor, Cursor.after_eq_self h.has, h.size_eq, ← List.length_eq_zero_iff]
  omega

theorem Building.moves (h : Building v c s L code c') (hne : c' ≠ c) : ∃ id, c' = .state id := by
  have hafter := h.cursor
  unfold Cursor.after at hafter
  split at hafter
  · exact absurd hafter hne
  · exact ⟨_, hafter⟩

theorem Building.buffers (h : Building v c s L code c') : s.frame.scratch.size = v.buffers :=
  (congrArg View.buffers h.looks.view).trans (View.add_buffers ..)

theorem Draws.tells {step : Cursor → Lower Cursor} {p : Sketch} {ph : Phrase} (h : Draws step p)
    (hp : Makes ctx p ph) (hc : s.view.Has c) (hrun : step c s = .ok (c', s')) :
    Tells s s' c c' := by
  have hagrees := h hc ⟨rfl, rfl⟩
  rw [hrun] at hagrees
  obtain ⟨⟨code, L'⟩, hsketch, hb⟩ := hagrees.of_ok
  refine ⟨hb.stays, fun hne => ⟨hb.moves hne, ?_⟩, hb.buffers, ?_⟩
  · rw [hb.looks.view]
    exact hb.has_stop
  · have hledger : s'.ledger = L' := hb.looks.ledger
    exact (congrArg Ledger.machine hledger).trans (hp hsketch).grows.machine

/-- A branch ends in its own buffer if and only if it opens no state. -/
theorem BranchDraws.exact {part : Option Part} {p : Option (Context → Sketch)} {r : Nat × Cursor}
    (h : BranchDraws ctx part p) (hrun : Part.branch part ctx s = .ok (r, s')) :
    (r.2 = .scratch r.1 ↔ s'.frame.block.size = s.frame.block.size) ∧
      s.frame.block.size ≤ s'.frame.block.size := by
  have hagrees := h (s := s) ⟨rfl, rfl⟩
  rw [hrun] at hagrees
  obtain ⟨_, -, hbuffer, hb⟩ := hagrees.of_ok
  rw [hbuffer]
  exact ⟨hb.stays, hb.size_eq ▸ Nat.le_add_right ..⟩

/-- **Lowering answers truly whether it split a statement.** In every state of lowering and for
every cursor of the machine at hand, a statement that is lowered is answered with the same cursor if
and only if no state was opened; any other answer is a state of the machine at hand; and all buffers
that were opened are closed again. So the tests of a choice and of code under a lock tell exactly
whether their parts opened a state. -/
theorem lower_answers_truly (ctx : Context) (s : State) :
    (∀ st c c' s', s.view.Has c → Stmt.lower st ctx c s = .ok (c', s') → Tells s s' c c') ∧
    (∀ yes no yesBuffer yesEnd s₁ noBuffer noEnd s₂,
      Part.branch (some (Stmt.lower yes)) ctx s = .ok ((yesBuffer, yesEnd), s₁) →
      Part.branch (lowerElse no) ctx s₁ = .ok ((noBuffer, noEnd), s₂) →
      (yesEnd = .scratch yesBuffer ∧ noEnd = .scratch noBuffer ↔
        s₂.frame.block.size = s.frame.block.size)) ∧
    ∀ body buffer s₁ stop s₂, newScratch s = .ok (buffer, s₁) →
      Part.inScope (lowerAll body) ctx (.scratch buffer) s₁ = .ok (stop, s₂) →
      (stop = .scratch buffer ↔ s₂.frame.block.size = s.frame.block.size) := by
  refine ⟨fun st c c' s' hc hrun => (lower_draws st ctx).tells (sketch_made st ctx) hc hrun, ?_, ?_⟩
  · intro yes no yesBuffer yesEnd s₁ noBuffer noEnd s₂ hyes hno
    obtain ⟨hyesStays, hyesGrows⟩ := (branch_draws (lower_draws yes ctx)).exact hyes
    obtain ⟨hnoStays, hnoGrows⟩ := (lowerElse_draws no ctx).exact hno
    rw [hyesStays, hnoStays]
    omega
  · intro body buffer s₁ stop s₂ hnew hrun
    have hbranch : Part.branch (some (lowerAll body)) ctx s = .ok ((buffer, stop), s₂) := by
      show (newScratch s >>= fun r => _) = _
      rw [hnew]
      show (Part.inScope (lowerAll body) ctx (.scratch buffer) s₁ >>= fun r => _) = _
      rw [hrun]
      rfl
    exact ((branch_draws (p := sketchAll body) (lowerAll_draws body ctx)).exact hbranch).1

/-- A choice one branch of which emits a value. -/
def emitsOnce : Stmt :=
  .cond (.literal (.bool true)) (.expr (.call "step" [.literal (.int 1)]) .unknown) none .unknown

/-- It goes on in the third state: the second one is where the branch resumes. -/
theorem lower_answers_truly_split : ∃ s', emitsOnce.lower ⟨{}, .int, []⟩ (.state .start)
    (.initial .empty) =
    .ok (.state ⟨3⟩, s') ∧ s'.frame.block.size = 3 ∧
      Tells (.initial .empty) s' (.state .start) (.state ⟨3⟩) := by
  have hrun : (emitsOnce.lower ⟨{}, .int, []⟩ (.state .start) (.initial .empty)).toOption.any
      (fun r =>
      r.1 = .state ⟨3⟩ ∧ r.2.frame.block.size = 3) = true := by decide +kernel
  cases hlower : emitsOnce.lower ⟨{}, .int, []⟩ (.state .start) (.initial .empty) with
  | error =>
    rw [hlower] at hrun
    cases hrun
  | ok r =>
    obtain ⟨c', s'⟩ := r
    rw [hlower] at hrun
    obtain ⟨rfl, hsize⟩ := of_decide_eq_true hrun
    exact ⟨s', rfl, hsize, (lower_answers_truly _ _).1 emitsOnce _ _ _ ⟨Nat.one_pos,
      Nat.le_refl 1⟩ hlower⟩

end Lowering

end Resumable
