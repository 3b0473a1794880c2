import Resumable.Proofs.Origin

/-!
# Variables that outlive a step

A generator keeps the values of its fields between two steps, and nothing else.

* `Op.Mentions` are the variables that occur in an op, those of plain statements at any depth
  included;
* `kept_of_traces`: ops that are traced back to a body mention only what is kept, and what is
  declared inside the same plain statement;
* `Made.plains`: no two plain statements of code declare the same variable.
-/

namespace Resumable

open List

/-! ## Variables of ops -/

/-- The variables that occur in an op itself, without those of the statement or the ops in it. -/
def Op.symbols : Op → List SymbolId
  | .assign x e => x :: e.uses
  | .clear x | .rethrow x => [x]
  | .yield e => e.uses
  | .cond test _ _ => test.uses
  | .switch selector arms => selector.uses ++ usesOf (arms.flatMap SwitchArm.labels)
  | .synchronized lock _ => lock.uses
  | .guarded machine fields =>
    machine.selector :: fields.inHandler :: fields.pending :: fields.pendingJump ::
      (fields.resources ++ fields.handlers.map Handler.param)
  | .plain _ | .setState _ | .jump _ | .finish => []

/-- The variable occurs in the op: it is one of its own, or one in its statement at any depth. -/
inductive Op.Mentions : Op → SymbolId → Prop where
  | own {op x} (hx : x ∈ op.symbols) : Mentions op x
  | plain {s path t x} (ht : Lies [s] path t) (hx : x ∈ t.symbols) : Mentions (.plain s) x

/-- All variables of the op are of that kind, or declared inside the statement that the op is. -/
def Op.Kept (K : SymbolId → Prop) (op : Op) : Prop :=
  ∀ x, op.Mentions x → K x ∨ ∃ s, op = .plain s ∧ x ∈ s.declares

section Kept

variable {K : SymbolId → Prop}

theorem kept_plain {s : Stmt} (h : s.Sees K) : (Op.plain s).Kept K := by
  intro x hx
  obtain ⟨vis, hscoped, hvis⟩ := h
  have hsees : s.Sees fun x => K x ∨ x ∈ s.declares := ⟨vis, hscoped, fun x hx => .inl (hvis x hx)⟩
  cases hx with
  | own hx => cases hx
  | plain ht hx =>
    exact (hsees.mentions (fun x hx => .inr hx) ht x hx).imp_right fun hx => ⟨s, rfl, hx⟩

theorem Op.mem_symbols {op : Op} {x : SymbolId} (h : x ∈ op.symbols) :
    x ∈ op.slots ∨ ∃ e ∈ op.exprs, x ∈ e.uses := by
  cases op with
  | assign y e => exact (mem_cons.mp h).imp (mem_singleton.mpr) fun hx => ⟨e, mem_cons_self, hx⟩
  | yield e | cond e | synchronized e => exact .inr ⟨e, mem_cons_self, h⟩
  | «switch» selector =>
    rcases mem_append.mp h with hx | hx
    · exact .inr ⟨selector, mem_cons_self, hx⟩
    · obtain ⟨e, he, hx⟩ := Stmt.mem_usesOf.mp hx
      exact .inr ⟨e, mem_cons_of_mem _ he, hx⟩
  | _ => exact .inl h

/-- What is traced back to a body mentions only what is kept. -/
theorem kept_of_traces {O : Lowering.Origin} {m : Markers} {op : Op} (h : O.Traces m op) :
    op.Kept O.kept := by
  intro x hx
  cases hx with
  | own hx =>
    refine .inl ((Op.mem_symbols hx).elim (h.slots x) ?_)
    rintro ⟨e, he, hx⟩
    exact (h.exprs e he).uses x hx
  | plain ht hx => exact kept_plain (h.plain _ rfl).2.1 x (.plain ht hx)

end Kept

/-! ## Plain statements -/

namespace Lowering

open Code

/-- The plain statements of code, in order. -/
def Code.plains (c : Code) : List Stmt := plainsOps c.ops ++ c.states.flatMap plainsOps

namespace Code

@[simp] theorem plains_now (ops : List Op) : (now ops).plains = plainsOps ops := List.append_nil _

@[simp] theorem plains_opened : opened.plains = [] := rfl

@[simp] theorem plains_append (a b : Code) : (a ++ b).plains = a.plains ++ b.plains := by
  obtain ⟨ops, ss⟩ := a
  induction ss generalizing ops with
  | nil => simp [plains, plainsOps_append]
  | cons s ss ih =>
    have hrest := ih s
    simp only [plains] at hrest
    simp [plains, hrest]

@[simp] theorem plains_jump (cur : List Op) (c : Code) (tag : Tag) :
    (c.sealed cur (.jump tag)).plains = c.plains := by
  rw [sealed, plains_append, plains_now, sealing]
  split
  · exact List.append_nil _
  · exact List.append_nil _

@[simp] theorem plains_finish (cur : List Op) (c : Code) :
    (c.sealed cur .finish).plains = c.plains := by
  rw [sealed, plains_append, plains_now, sealing]
  split
  · exact List.append_nil _
  · exact List.append_nil _

@[simp] theorem plains_machine (c : Code) (id : MachineId) (selector : SymbolId) :
    (c.machine id selector).plains = c.plains := by
  have hstates : ∀ (ss : List (List Op)) (n : Nat),
      plainsStates (numbered n ss) = ss.flatMap plainsOps := by
    intro ss
    induction ss with
    | nil => exact fun _ => rfl
    | cons s ss ih => exact fun n => congrArg (plainsOps s ++ ·) (ih (n + 1))
  exact hstates (c.ops :: c.states) 1

end Code

section Made

variable {ctx : Context} {L L' : Ledger} {cur ops : List Op} {ph : Phrase} {code : Code}

theorem other_moves : Moves fun op => op.isPlain = false := ⟨fun _ => rfl, fun _ => rfl, rfl⟩

theorem plains_route {tag : Tag} (h : L.route ctx tag = .ok (ops, L')) : plainsOps ops = [] :=
  (every_route other_moves (fun _ _ => rfl) (fun _ _ _ => rfl) h).plains_eq_nil

theorem plains_settle {g : Ledger.GuardNames} {exits : List Tag}
    (h : settleOps L ctx cur g exits = .ok (ops, L')) : plainsOps ops = [] :=
  (every_settle other_moves (fun _ _ => rfl) (fun _ _ _ => rfl)
    (fun _ _ _ _ => rfl) rfl h).plains_eq_nil

/-- The updates of a loop declare nothing. -/
theorem times_tail (x : SymbolId) (shape : Part.LoopShape) (loc : Location) :
    Stmt.times x (Code.plains ⟨[], shape.tail loc L⟩) = 0 := by
  have hupdates : ∀ es : List Expr, Stmt.times x
      (plainsOps (es.map fun e => .plain (.expr e loc))) = 0 := by
    intro es
    induction es with
    | nil => rfl
    | cons e es ih =>
      rw [map_cons, plainsOps, Stmt.times_append, ih]
      rfl
  have htests : plainsOps (shape.testOps L) = [] := by
    unfold Part.LoopShape.testOps
    split
    · rfl
    · rfl
  have hupdate : Stmt.times x (plainsOps (shape.updateOps loc L)) = 0 := by
    rw [Part.LoopShape.updateOps, plainsOps_append, Stmt.times_append, hupdates]
    rfl
  unfold Code.plains Part.LoopShape.tail
  split
  · simp [plainsOps, htests]
  · simp [plainsOps, htests, hupdate]

theorem times_split (x : SymbolId) {test : Expr} {Y N : Code} {tag : Tag} :
    Stmt.times x (Code.plains
      (Code.sealed cur (.now [.cond test (Y.sealed [] (.jump tag)).ops
        (N.sealed [] (.jump tag)).ops]) (.jump tag) ++
        ⟨[], (Y.sealed [] (.jump tag)).states ++ (N.sealed [] (.jump tag)).states ++ [[]]⟩)) =
      Stmt.times x Y.plains + Stmt.times x N.plains := by
  have hY := congrArg (Stmt.times x) (plains_jump [] Y tag)
  have hN := congrArg (Stmt.times x) (plains_jump [] N tag)
  rw [Code.plains, Stmt.times_append] at hY hN
  rw [← hY, ← hN, plains_append, plains_jump, plains_now]
  simp only [Code.plains, plainsOps, Op.plains, flatMap_append, flatMap_cons, flatMap_nil,
    List.append_nil, nil_append, Stmt.times_append]
  omega

theorem plainsOps_clears (xs : List SymbolId) : plainsOps (xs.map Op.clear) = [] :=
  (every_clears (P := fun op => op.isPlain = false) fun _ _ => rfl).plains_eq_nil

theorem plainsOps_reset (g : Ledger.GuardNames) (xs : List SymbolId) :
    plainsOps (g.reset xs) = [] := by
  rw [Ledger.GuardNames.reset, plainsOps_append]
  exact (everyOp_map (P := fun op => op.isPlain = false) (f := fun x => Op.assign x .null)
    fun _ _ => rfl).plains_eq_nil

theorem plainsOps_initOps (resources : List (SymbolId × Option Expr)) :
    plainsOps (initOps resources) = [] :=
  (every_initOps (P := fun op => op.isPlain = false) fun _ _ _ _ => rfl).ops.plains_eq_nil

theorem plainsOps_assigns (x : SymbolId) (es : List Expr) : plainsOps (es.map (Op.assign x)) = [] :=
  (everyOp_map (P := fun op => op.isPlain = false) (f := Op.assign x) fun _ _ => rfl).plains_eq_nil

theorem plainsOps_sealing (cur : List Op) (tag : Tag) :
    plainsOps (Code.sealing cur (.jump tag)) = [] :=
  (Code.Every.sealing (P := fun op => op.isPlain = false) (.jump tag) rfl cur).plains_eq_nil

theorem plainsOps_choose (selector : Expr) (arms : List SwitchArm) (tag : Tag) :
    plainsOps (chooseOps selector arms tag) = [] := (every_choose other_moves rfl).plains_eq_nil

/-- A loop of that phrase starts its rounds without plain statements. -/
def Phrase.Bare : Phrase → Prop
  | scope p => p.Bare
  | loop shape _ _ => plainsOps shape.start = []
  | _ => True

/-- **Every declaration goes into one plain statement at most.** -/
theorem Made.plains (x : SymbolId) (h : Made ctx L cur ph code L') (hstart : ph.Bare) :
    Stmt.times x code.plains ≤ Stmt.times x ph.parts := by
  have hchildren : ∀ {n : Nat} {s : Stmt}, n ≤ Stmt.times x s.children → n ≤ Stmt.times x [s] :=
    fun hn => Nat.le_trans hn (Stmt.times_children x _)
  have hboth : ∀ {m n : Nat} {bs cs : List Stmt}, m ≤ Stmt.times x bs → n ≤ Stmt.times x cs →
      m + n ≤ Stmt.times x (bs ++ cs) := fun hm hn => by
    rw [Stmt.times_append]
    exact Nat.add_le_add hm hn
  induction h with
  | plain => exact Nat.le_refl _
  | declare =>
    rw [plains_now, plainsOps_assigns]
    exact Nat.zero_le _
  | emit | nil | noBranch | noCases | noHandlers | noFinal => exact Nat.zero_le _
  | emitAll =>
    have hpoll : ∀ {c : Prop} [Decidable c] {x : Ident} {y : SymbolId},
        plainsOps (.cond (Part.callOn x "hasNext") [.yield (Part.callOn x "next")] [] ::
          if c then [.clear y] else []) = [] := by
      intro c _ x y
      split
      · rfl
      · rfl
    rw [plains_append, plains_append, plains_now, plains_now, hpoll]
    exact Nat.zero_le _
  | block _ _ ih | switch _ _ _ _ ih | labeledLoop _ _ _ _ ih | forLoop _ _ _ ih | forEach _ _ ih =>
    exact hchildren (ih trivial)
  | cond _ _ _ _ ihYes ihNo =>
    have hyes := ihYes trivial
    have hno := ihNo trivial
    rw [plains_now] at hyes hno
    refine hchildren ?_
    rw [plains_now, plainsOps, Op.plains, plainsOps, List.append_nil, Stmt.times_append]
    exact hboth hyes hno
  | split _ _ _ _ _ _ ihYes ihNo =>
    refine hchildren ?_
    rw [times_split]
    exact hboth (ihYes trivial) (ihNo trivial)
  | loopStmt _ _ _ ih | branch _ ih | handler _ ih | final _ ih => exact ih trivial
  | labeled _ _ _ _ _ ih =>
    refine hchildren ?_
    rw [plains_append, plains_jump, plains_opened, List.append_nil]
    exact ih trivial
  | synchronized _ _ _ _ ih =>
    have hops := ih trivial
    rw [plains_now] at hops
    refine hchildren ?_
    rw [plains_now, plainsOps, Op.plains, plainsOps, List.append_nil]
    exact hops
  | ret hroute | brk _ hroute | cont _ hroute =>
    rw [plains_now, plains_route hroute]
    exact Nat.zero_le _
  | tryCatch _ _ _ _ _ _ _ _ hsettle _ ihInner ihCode =>
    refine hchildren ?_
    simp only [plains_append, plains_jump, plains_now, plains_opened, plainsOps_append,
      plainsOps_reset,
      plainsOps, Op.plains, plains_machine, plains_settle hsettle, List.append_nil, nil_append,
      Stmt.times_append]
    exact hboth (ihInner trivial) (ihCode trivial)
  | cons _ _ ihHead ihTail =>
    rw [plains_append, Stmt.times_append]
    exact Nat.le_trans (Nat.add_le_add (ihHead trivial) (ihTail trivial))
      (Nat.le_of_eq (Stmt.times_append x [_] _).symm)
  | @scope ctx L cur p code L' _ ih =>
    have hclears : plainsOps (if endsTerminal (code.stop cur) then []
        else (L'.scopes.headD []).map Op.clear) = [] := by
      split
      · rfl
      · exact plainsOps_clears _
    rw [plains_append, plains_now, hclears, List.append_nil]
    exact ih hstart
  | whileLoop _ _ ih | doWhile _ _ ih => exact hchildren (ih rfl)
  | counting _ _ ihInit ihLoop =>
    rw [plains_append, Stmt.times_append]
    exact hboth (ihInit trivial) (ihLoop rfl)
  | each _ _ _ _ _ ih =>
    rw [plains_append, plains_now]
    exact ih rfl
  | loop _ _ _ ih =>
    simp only [plains_append, plains_now, plainsOps_sealing, plains_opened, plains_jump,
      Stmt.times_append, times_tail, show plainsOps _ = [] from hstart, Stmt.times_nil,
      Nat.zero_add, Nat.add_zero]
    exact ih trivial
  | @choice ctx L cur selector cases tags code L₁ L' htags _ _ ih =>
    subst htags
    rw [plains_append, plains_append, plains_now, plainsOps_choose, plains_opened, List.append_nil,
      ← parts_cases L (L.tagAt 0) selector cases]
    exact ih trivial
  | case _ _ _ ihBody ihRest =>
    rw [plains_append, plains_append, plains_jump, plains_opened, nil_append, Stmt.times_append]
    exact hboth (ihBody trivial) (ihRest trivial)
  | opening _ ih =>
    rw [plains_append, plains_now, plainsOps_initOps, nil_append]
    exact ih trivial
  | handlers _ _ _ _ ihBody ihRest =>
    rw [plains_append, plains_append, plains_finish, plains_opened, nil_append, Stmt.times_append]
    exact hboth (ihBody trivial) (ihRest trivial)
  | guarded _ _ ihBody ihHandlers =>
    rw [plains_append, plains_finish, Stmt.times_append]
    exact hboth (ihBody trivial) (ihHandlers trivial)

end Made

end Lowering

/-! ## Classes -/

open Lowering

/-- The statement is a declaration, maybe under labels. -/
def Stmt.isDeclaration : Stmt → Bool
  | declare _ _ => true
  | labeled _ s _ => s.isDeclaration
  | _ => false

theorem Stmt.isDeclaration_unresolved (s : Stmt) :
    s.unresolved.isDeclaration = s.isDeclaration := by
  induction s using Stmt.isDeclaration.induct with
  | case1 => rfl
  | case2 label s loc ih => exact ih
  | case3 s hdecl hlabel =>
    cases s with
    | declare d loc => exact absurd rfl (hdecl d loc)
    | labeled label s loc => exact absurd rfl (hlabel label s loc)
    | _ => rfl

theorem Stmt.names_of_isDeclaration {s : Stmt} (h : s.isDeclaration = false) : s.names = [] := by
  induction s using Stmt.isDeclaration.induct with
  | case1 => cases h
  | case2 label s loc ih => exact ih h
  | case3 s hdecl hlabel =>
    cases s with
    | declare d loc => exact absurd rfl (hdecl d loc)
    | labeled label s loc => exact absurd rfl (hlabel label s loc)
    | _ => rfl

/-- The statement is a label on a declaration. -/
def Stmt.labelsDeclaration : Stmt → Bool
  | labeled _ s _ => s.isDeclaration
  | _ => false

/-- No label stands on a declaration. -/
def Procedure.Unlabelled (p : Procedure) : Prop :=
  ∀ path s, Lies p.body path s → s.labelsDeclaration = false

/-- What the ops of a class mention of the variables of a procedure. -/
structure Procedure.FieldsKept (p : Procedure) (cls : GeneratorClass) : Prop where
  /-- they are fields, declared inside the same plain statement, or declared under a label -/
  ops : ∀ M ∈ cls.advance.machines, ∀ op ∈ M.ops, ∀ x, op.Mentions x → cls.captures.contains x ∨
    (∃ s, op = .plain s ∧ x ∈ s.declares) ∨
      ∃ path label s loc, Lies p.resolve.1.body path (.labeled label s loc) ∧ x ∈ s.names
  /-- so they are of the first two kinds if no label stands on a declaration -/
  clean : p.Unlabelled → ∀ M ∈ cls.advance.machines, ∀ op ∈ M.ops, ∀ x, op.Mentions x →
    cls.captures.contains x ∨ ∃ s, op = .plain s ∧ x ∈ s.declares
  /-- and what is declared inside an op is mentioned in no other, unless it is a field -/
  apart : p.Unlabelled → ∀ M ∈ cls.advance.machines, ∀ s, .plain s ∈ M.ops → ∀ x ∈ s.declares,
    ∀ M' ∈ cls.advance.machines, ∀ op ∈ M'.ops, op.Mentions x → cls.captures.contains x ∨
      op = .plain s

namespace Procedure

variable {p : Procedure} {settings : Settings} {cls : GeneratorClass}

/-- A label that stands on no declaration leaves nothing in force. -/
theorem Unlabelled.names (h : p.Unlabelled) {path : List Stmt} {label : String} {s : Stmt}
    {loc : Location} (hs : Lies p.resolve.1.body path (.labeled label s loc)) : s.names = [] := by
  obtain ⟨path', t, ht, -, heq⟩ := hs.of_resolve
  cases t with
  | labeled label' u =>
    have hsame : s.unresolved = u.unresolved := (Stmt.labeled.inj heq).2.1
    refine Stmt.names_of_isDeclaration ?_
    rw [← Stmt.isDeclaration_unresolved, hsame, Stmt.isDeclaration_unresolved]
    exact h path' _ ht
  | _ => cases heq

theorem kept_of_lower (b : Blueprint p settings cls) :
    ∀ M ∈ cls.advance.machines, ∀ op ∈ M.ops, op.Kept (p.Keeps cls.captures) :=
  fun M hM op hop => kept_of_traces (b.traced.ops M hM op hop)

/-- Two plain statements of a class that declare one variable are the same. -/
theorem plain_unique (b : Blueprint p settings cls) {M M' : Machine} (hM : M ∈ cls.advance.machines)
    (hM' : M' ∈ cls.advance.machines) {s t : Stmt} (hs : .plain s ∈ M.ops) (ht : .plain t ∈ M'.ops)
    {x : SymbolId} (hsx : x ∈ s.declares) (htx : x ∈ t.declares) : s = t := by
  have hplains : cls.advance.plains = b.code.plains :=
    (congrArg (fun c => c.advance.plains) b.class_eq).trans
    ((Code.plains_machine ..).trans (Code.plains_finish ..))
  have hnodup : (Stmt.declaresAll p.resolve.1.body).Nodup :=
    List.Nodup.of_append_right p.resolve_scoped.1.nodup
  have honce : Stmt.times x b.code.plains ≤ 1 :=
    Nat.le_trans (b.made.plains x trivial) (nodup_iff_count_le_one.mp hnodup x)
  exact Stmt.eq_of_times honce (hplains ▸ Machine.mem_plains hM hs) hsx
    (hplains ▸ Machine.mem_plains hM' ht) htx

/-- **What outlives an op is a field**, unless it is declared under a label: an op mentions only
fields and what is declared inside the very plain statement that it is, and what is declared inside
one op is mentioned in no other without being a field. -/
theorem lower_fieldsKept (p : Procedure) (settings : Settings) (cls : GeneratorClass)
    (h : p.lower settings = .ok cls) : p.FieldsKept cls := by
  obtain ⟨b⟩ := lower_blueprint h
  have hkept := kept_of_lower b
  have hclean : p.Unlabelled → ∀ M ∈ cls.advance.machines, ∀ op ∈ M.ops, ∀ x, op.Mentions x →
      cls.captures.contains x ∨ ∃ s, op = .plain s ∧ x ∈ s.declares := by
    intro hlabels M hM op hop x hx
    refine (hkept M hM op hop x hx).imp_left fun hK => hK.resolve_right ?_
    rintro ⟨path, label, s, loc, hs, hname⟩
    rw [hlabels.names hs] at hname
    cases hname
  refine ⟨fun M hM op hop x hx => ?_, hclean,
    fun hlabels M hM s hs x hx M' hM' op hop hmention => ?_⟩
  · rcases hkept M hM op hop x hx with (hfield | hlabel) | hdeclared
    · exact .inl hfield
    · exact .inr (.inr hlabel)
    · exact .inr (.inl hdeclared)
  · refine (hclean hlabels M' hM' op hop x hmention).imp_right ?_
    rintro ⟨t, rfl, ht⟩
    exact congrArg Op.plain (plain_unique b hM' hM hop hs ht hx)

/-- A procedure with a variable that is used in a later step, and one that a plain loop keeps to
itself. -/
def countdown : Procedure where
  name := "countdown"
  params := [⟨.free "n", .int⟩]
  returnType := none
  body := [ .declare ⟨.free "i", .int, some (.ident (.free "n"))⟩ .unknown,
    .whileLoop (.binary .gt (.ident (.free "i")) (.int 0)) (.block [
      .declare ⟨.free "k", .int, some (.ident (.free "i"))⟩ .unknown,
      .expr (.call "trace" [.ident (.free "k")]) .unknown,
      .expr (.increment (.free "i") (-1) true) .unknown] .unknown) .unknown,
    .labeled "rest" (.block [.expr (.call "step" [.ident (.free "i")]) .unknown] .unknown) .unknown]
  location := .unknown

theorem lower_fieldsKept_countdown : ∃ cls, countdown.lower {} = .ok cls ∧
    ∀ M ∈ cls.advance.machines, ∀ s, .plain s ∈ M.ops →
      ∀ x ∈ s.declares, ∀ M' ∈ cls.advance.machines,
      ∀ op ∈ M'.ops, op.Mentions x → cls.captures.contains x ∨ op = .plain s := by
  have hgrammatical : countdown.Grammatical := by decide
  have hlawful : countdown.Lawful ({} : Settings).markers := by decide
  obtain ⟨cls, h⟩ := accepts_lawful hgrammatical hlawful
  have hlabels : ∀ r ∈ Stmt.places countdown.body, r.2.labelsDeclaration = false := by decide
  exact ⟨cls, h, (lower_fieldsKept countdown {} cls h).apart fun path s hs =>
    hlabels (path, s) (lies_iff_mem_places.mp hs)⟩

/-- A procedure with a declaration under a label. -/
def flagged : Procedure where
  name := "flagged"
  params := []
  returnType := none
  body := [ .labeled "L" (.declare ⟨.free "x", .int, some (.int 1)⟩ .unknown) .unknown,
    .expr (.call "step" [.ident (.free "x")]) .unknown]
  location := .unknown

/-- The variable is declared in one op and used in another, and it is no field. -/
theorem flagged_loses_field : ∃ cls, flagged.lower {} = .ok cls ∧ ∃ M ∈ cls.advance.machines,
    ∃ s e, .plain s ∈ M.ops ∧ .yield e ∈ M.ops ∧ ∃ x ∈ s.declares, (Op.yield e).Mentions x ∧
      cls.captures.contains x = false := by
  have hrun : (flagged.lower {}).map (fun cls => (cls.advance.ops, cls.captures.contains ⟨0⟩)) =
      .ok ([.plain (.labeled "L" (.declare ⟨⟨"x", some ⟨0⟩⟩, .int,
        some (.int 1)⟩ .unknown) .unknown),
        .setState ⟨1⟩, .yield (.ident ⟨"x", some ⟨0⟩⟩), .finish], false) := rfl
  cases h : flagged.lower {} with
  | error e =>
    rw [h] at hrun
    cases hrun
  | ok cls =>
    rw [h] at hrun
    obtain ⟨hops, hcaptures⟩ := Prod.mk.inj (Except.ok.inj hrun)
    have hplain := hops ▸ mem_cons_self
    have hyield : Op.yield (.ident ⟨"x", some ⟨0⟩⟩) ∈ cls.advance.ops := by
      rw [hops]
      exact mem_cons_of_mem _ (mem_cons_of_mem _ mem_cons_self)
    exact ⟨cls, rfl, cls.advance, Machine.mem_machines_self _, _, _, hplain, hyield, ⟨0⟩,
      mem_cons_self,
      .own mem_cons_self, hcaptures⟩

end Procedure

end Resumable
