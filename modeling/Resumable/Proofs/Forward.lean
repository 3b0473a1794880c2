import Resumable.Parser.Stmt
import Resumable.Proofs.Spelling

/-!
# Readers go forward

A reader leaves tokens that come behind those it has used, and it never uses one that marks the end.

* `Used ts ks r`: tokens of the kinds `ks`, none of which marks the end, stand in `ts` in front of
  `r`;
* `Reading.Uses ts R`: a reader that stood at `ts` has used such tokens, also where it failed, and
  `R` holds of their kinds, what it has read and the tokens left; there is one rule for each way to
  build a reader;
* `Reading.Gives ts P` is the same without regard to the tokens.
-/

namespace Resumable

/-- Tokens of the kinds `ks`, none of which marks the end, stand in `ts` in front of `r`. -/
def Used (ts : List Token) (ks : List TokenKind) (r : List Token) : Prop :=
  ∃ us, ts = us ++ r ∧ us.map Token.kind = ks ∧ .eof ∉ ks

/-- The tokens `r` come behind some of `ts`, none of which marks the end. -/
def Onward (ts r : List Token) : Prop := ∃ ks, Used ts ks r

variable {ts r q : List Token} {t : Token} {ks ks' : List TokenKind}

namespace Used

theorem nil (ts : List Token) : Used ts [] ts := ⟨[], rfl, rfl, List.not_mem_nil⟩

theorem append (h : Used ts ks r) (h' : Used r ks' q) : Used ts (ks ++ ks') q := by
  obtain ⟨us, rfl, rfl, hus⟩ := h
  obtain ⟨vs, rfl, rfl, hvs⟩ := h'
  exact ⟨us ++ vs, (List.append_assoc ..).symm, List.map_append, by simp [hus, hvs]⟩

theorem cons (ht : t.kind ≠ .eof) (r : List Token) : Used (t :: r) [t.kind] r :=
  ⟨[t], rfl, rfl, fun h => ht (List.mem_singleton.mp h).symm⟩

theorem next (h : Used ts ks (t :: r)) (ht : t.kind ≠ .eof) : Used ts (ks ++ [t.kind]) r :=
  h.append (cons ht r)

end Used

namespace Onward

theorem refl (ts : List Token) : Onward ts ts := ⟨[], .nil ts⟩

theorem trans (h : Onward ts r) (h' : Onward r q) : Onward ts q := by
  obtain ⟨ks, h⟩ := h
  obtain ⟨ks', h'⟩ := h'
  exact ⟨ks ++ ks', h.append h'⟩

theorem cons (ht : t.kind ≠ .eof) (r : List Token) : Onward (t :: r) r := ⟨_, .cons ht r⟩

theorem next (h : Onward ts (t :: r)) (ht : t.kind ≠ .eof) : Onward ts r := h.trans (cons ht r)

end Onward

/-- A token that an operator, a constant or the like is read from does not mark the end. -/
theorem ne_eof {β : Type} {f : TokenKind → Option β} {kind : TokenKind} {b : β}
    (h : f kind = some b) (hf : f .eof = none) : kind ≠ .eof := by
  rintro rfl
  cases h.symm.trans hf

/-- The reader has used tokens of `ts`, and `R` holds of their kinds, what was read and what is
left. -/
def Reading.Uses {α : Type} {n : Nat} (ts : List Token)
    (R : List TokenKind → α → List Token → Prop) : Reading α n → Prop
  | .ok a r _ => ∃ ks, Used ts ks r ∧ R ks a r
  | .error _ r _ => Onward ts r

/-- The reader has gone onward from `ts`, and what was read, if anything, has the property. -/
def Reading.Gives {α : Type} {n : Nat} (ts : List Token) (P : α → Prop) : Reading α n → Prop
  | .ok a r _ => Onward ts r ∧ P a
  | .error _ r _ => Onward ts r

namespace Reading

variable {α β : Type} {n : Nat} {P : α → Prop} {Q : β → Prop}
  {R R' : List TokenKind → α → List Token → Prop}
  {S : List TokenKind → β → List Token → Prop}

variable {x : Reading α n}

/-- Reading on behind tokens that were used already. -/
theorem Uses.after (hx : x.Uses r R) (h : Used ts ks r)
    (hR : ∀ ks' a q, Used r ks' q → R ks' a q → R' (ks ++ ks') a q) : x.Uses ts R' := by
  cases x with
  | ok a q =>
    obtain ⟨ks', hks', ha⟩ := hx
    exact ⟨ks ++ ks', h.append hks', hR ks' a q hks' ha⟩
  | error => exact Onward.trans ⟨ks, h⟩ hx

theorem Uses.behind (hx : x.Uses r R) (h : Used ts ks r) :
    x.Uses ts fun kt a q => ∃ ks', kt = ks ++ ks' ∧ Used r ks' q ∧ R ks' a q :=
  hx.after h fun ks' _ _ hks' ha => ⟨ks', rfl, hks', ha⟩

theorem Uses.up {x : Reading α r.length} (hx : x.Uses ts R) (lt : r.length < n) :
    (x.up lt).Uses ts R := by
  cases x with
  | ok | error => exact hx

/-- One reading behind another, with what the first has used. -/
theorem Uses.andThen {f : α → (r : List Token) → r.length < n → Reading β n} (hx : x.Uses ts R)
    (hf : ∀ ks a r lt, Used ts ks r → R ks a r → (f a r lt).Uses ts S) :
    (x.andThen f).Uses ts S := by
  cases x with
  | ok a q lt =>
    obtain ⟨ks, hks, ha⟩ := hx
    exact hf ks a q lt hks ha
  | error => exact hx

theorem Uses.map {f : α → β} (hx : x.Uses ts fun ks a r => S ks (f a) r) : (x.map f).Uses ts S :=
  hx.andThen fun ks _ _ _ hks ha => ⟨ks, hks, ha⟩

theorem Uses.gives (hx : x.Uses ts R) (hP : ∀ ks a r, Used ts ks r → R ks a r → P a) :
    x.Gives ts P := by
  cases x with
  | ok a q =>
    obtain ⟨ks, hks, ha⟩ := hx
    exact ⟨⟨ks, hks⟩, hP ks a q hks ha⟩
  | error => exact hx

theorem Gives.after (hx : x.Gives r P) (h : Onward ts r) : x.Gives ts P := by
  cases x with
  | ok => exact ⟨h.trans hx.1, hx.2⟩
  | error => exact h.trans hx

theorem Gives.up {x : Reading α r.length} (hx : x.Gives r P) (h : Onward ts r) (lt : r.length < n) :
    (x.up lt).Gives ts P := by
  cases x with
  | ok => exact ⟨h.trans hx.1, hx.2⟩
  | error => exact h.trans hx

/-- One reading behind another, with what the first gives. -/
theorem Gives.andThen {f : α → (r : List Token) → r.length < n → Reading β n}
    (hx : x.Gives ts P) (hf : ∀ a r lt, Onward ts r → P a → (f a r lt).Gives ts Q) :
    (x.andThen f).Gives ts Q := by
  cases x with
  | ok a rest lt => exact hf a rest lt hx.1 hx.2
  | error => exact hx

theorem Gives.map {f : α → β} (hx : x.Gives ts P) (hf : ∀ a, P a → Q (f a)) :
    (x.map f).Gives ts Q :=
  hx.andThen fun a _ _ hr ha => ⟨hr, hf a ha⟩

end Reading

open Reading

namespace Parser

variable {eof : Token} {n : Nat} {kind : TokenKind}

/-! ## Single tokens -/

theorem expect_uses (hkind : kind ≠ .eof) (expected : String) :
    (expect eof kind expected ts).Uses ts fun ks _ _ => ks = [kind] := by
  unfold expect
  split
  · next t r =>
    split
    · next ht => exact ⟨_, .cons (ht ▸ hkind) r, ht ▸ rfl⟩
    · exact .refl _
  · exact .refl _

theorem expectName_uses (expected : String) :
    (expectName eof expected ts).Uses ts fun ks name _ => ks = [.identifier name] := by
  unfold expectName
  split
  · next t r =>
    split
    · next name ht => exact ⟨_, .cons (by simp [ht]) r, ht ▸ rfl⟩
    · exact .refl _
  · exact .refl _

variable {h : r.length < ts.length ∧ r.length < n} {α : Type}

/-- A token that may be missing, when it is there. -/
theorem skip?_used {lt : ts.length < n}
    (heq : skip? kind ts lt = some ⟨r, h⟩) (hkind : kind ≠ .eof) : Used ts [kind] r := by
  unfold skip? at heq
  split at heq
  · split at heq
    · next ht =>
      cases heq
      exact ht ▸ .cons (ht ▸ hkind) _
    · cases heq
  · cases heq

theorem failAt_gives {P : α → Prop} (expected : String) :
    (failAt eof expected ts).Gives ts P := .refl ts

theorem expect_gives (hkind : kind ≠ .eof) (expected : String) :
    (expect eof kind expected ts).Gives ts fun _ => True :=
  (expect_uses hkind expected).gives fun _ _ _ _ _ => trivial

theorem expectName_gives (expected : String) :
    (expectName eof expected ts).Gives ts fun _ => True :=
  (expectName_uses expected).gives fun _ _ _ _ _ => trivial

theorem skip?_onward {lt : ts.length < n}
    (heq : skip? kind ts lt = some ⟨r, h⟩) (hkind : kind ≠ .eof) : Onward ts r :=
  ⟨_, skip?_used heq hkind⟩

/-- A token that ends what is read. -/
theorem last_uses {R : List TokenKind → α → List Token → Prop} {a : α} (h : Used ts ks r)
    (lt : r.length < n) (hkind : kind ≠ .eof) (expected : String) (ha : ∀ q, R (ks ++ [kind]) a q) :
    (((expect eof kind expected r).up lt).map fun _ => a).Uses ts R :=
  .map (((expect_uses hkind expected).after h fun _ _ q _ hks => hks ▸ ha q).up lt)

theorem last_gives {P : α → Prop} {a : α} (hr : Onward ts r) (lt : r.length < n)
    (hkind : kind ≠ .eof) (expected : String) (ha : P a) :
    (((expect eof kind expected r).up lt).map fun _ => a).Gives ts P :=
  ((expect_gives hkind expected).up hr lt).map fun _ _ => ha

/-! ## Types -/

mutual

theorem typeRef_gives (ts : List Token) : (typeRef eof ts).Gives ts fun _ => True := by
  rw [typeRef]
  refine (expectName_gives _).andThen fun name r lt hr _ => ?_
  split
  · next r' _ lt' heq =>
    exact ((typeArgs_gives r').up (hr.trans (skip?_onward heq (by decide))) lt').map fun _ _ =>
      trivial
  · exact ⟨hr, trivial⟩
termination_by (ts.length, 0)

theorem typeArgs_gives (ts : List Token) : (typeArgs eof ts).Gives ts fun _ => True := by
  rw [typeArgs]
  refine (typeRef_gives ts).andThen fun t r lt hr _ => ?_
  split
  · next r' _ lt' heq =>
    exact ((typeArgs_gives r').up (hr.trans (skip?_onward heq (by decide))) lt').map fun _ _ =>
      trivial
  · exact last_gives hr lt (by decide) _ trivial
termination_by (ts.length, 1)

end

end Parser

end Resumable
