import Resumable.Proofs.Nesting

/-!
# What statements mention

The variables that occur in a statement at any depth, and what it sees of those outside it.

* `Stmt.symbols` are the variables that occur in a statement itself; with `Lies`, those at any
  depth;
* `Stmt.Sees` says that a statement is scoped where only variables of some kind are visible;
* `Stmt.Sees.mentions`: a scoped statement mentions, at any depth, only what it sees and what is
  declared inside it.
-/

namespace Resumable

open List

/-! ## Variables of statements -/

namespace Stmt

variable {ss : List Stmt} {s t : Stmt} {x : SymbolId}

/-- The variables that a statement itself declares, without the statements inside it. -/
def owns : Stmt → List SymbolId
  | declare d _ => d.names
  | forEach var _ _ _ => var.names
  | tryCatch resources _ catches _ _ =>
    resources.flatMap LocalDecl.names ++ catches.flatMap fun c => c.param.symbol.toList
  | _ => []

/-- The variables that occur in a statement itself, without the statements inside it. -/
def symbols (s : Stmt) : List SymbolId := usesOf s.exprs ++ s.owns

theorem usesOf_append (as bs : List Expr) : usesOf (as ++ bs) = usesOf as ++ usesOf bs := by
  induction as with
  | nil => rfl
  | cons a as ih => rw [cons_append, usesOf, usesOf, ih, List.append_assoc]

theorem usesOf_singleton (e : Expr) : usesOf [e] = e.uses := by
  rw [usesOf, usesOf, List.append_nil]

theorem usesOf_toList (e : Option Expr) : usesOf e.toList = usesOf? e := by
  cases e with
  | none => rfl
  | some e => exact usesOf_singleton e

theorem mem_usesOf {es : List Expr} : x ∈ usesOf es ↔ ∃ e ∈ es, x ∈ e.uses := by
  induction es with
  | nil => simp [usesOf]
  | cons e es ih => simp [usesOf, ih]

/-! ## What statements write -/

/-- What a statement writes occurs in the statement itself, or one of its parts writes it. -/
theorem mem_writes (hx : x ∈ s.writes) : x ∈ s.symbols ∨ ∃ t ∈ s.children, x ∈ t.writes := by
  have huses := fun e : Expr => e.writes_uses x
  cases s <;>
    simp [writes, symbols, exprs, owns, children, LocalDecl.writes, LocalDecl.names, mem_usesOf,
      mem_writesOf, mem_writesOf?, mem_writesAll, mem_writesElse, mem_writesFinal, mem_writesCases,
      mem_writesCatches] at hx ⊢ <;>
    grind

/-- What a statement writes occurs somewhere in it. -/
theorem lies_of_writes (s : Stmt) : ∀ x ∈ s.writes, ∃ path t, Lies [s] path t ∧ x ∈ t.symbols := by
  induction s using induct with
  | step s ih =>
    intro x hx
    rcases mem_writes hx with hx | ⟨t, ht, hx⟩
    · exact ⟨[], s, .top (mem_singleton_self s), hx⟩
    · obtain ⟨_, u, hu, hx⟩ := ih _ t (.top ht) x hx
      obtain ⟨path, hu⟩ := Lies.inside (.inner (.top (mem_singleton_self s)) ht) hu
      exact ⟨path, u, hu, hx⟩

/-! ## How often variables are declared -/

theorem declaresAll_append (as bs : List Stmt) :
    declaresAll (as ++ bs) = declaresAll as ++ declaresAll bs := by
  induction as with
  | nil => rfl
  | cons a as ih => rw [cons_append, declaresAll, declaresAll, ih, List.append_assoc]

theorem declaresAll_singleton (s : Stmt) : declaresAll [s] = s.declares := List.append_nil _

theorem declaresAll_cases (cs : List SwitchCase) :
    declaresAll (cs.flatMap SwitchCase.body) = declaresCases cs := by
  induction cs with
  | nil => rfl
  | cons c cs ih =>
    obtain ⟨labels, isDefault, body⟩ := c
    rw [flatMap_cons, declaresAll_append, ih]
    rfl

theorem count_declaresCatches (x : SymbolId) (cs : List CatchClause) :
    (declaresCatches cs).count x =
    (cs.flatMap fun c => c.param.symbol.toList).count x +
    (declaresAll (cs.flatMap CatchClause.body)).count x := by
  induction cs with
  | nil => rfl
  | cons c cs ih =>
    obtain ⟨param, types, body⟩ := c
    simp only [declaresCatches, flatMap_cons, declaresAll_append, count_append, ih]
    show _ = List.count x param.symbol.toList + _ + (List.count x (declaresAll body) + _)
    omega

theorem mem_declaresAll (hs : s ∈ ss) (hx : x ∈ s.declares) : x ∈ declaresAll ss := by
  induction ss with
  | nil => cases hs
  | cons t ss ih =>
    rcases mem_cons.mp hs with rfl | hs
    · exact mem_append_left _ hx
    · exact mem_append_right _ (ih hs)

/-- How often a variable is declared inside statements. -/
def times (x : SymbolId) (ss : List Stmt) : Nat := (declaresAll ss).count x

@[simp] theorem times_nil (x : SymbolId) : times x [] = 0 := rfl

@[simp] theorem times_append (x : SymbolId) (as bs : List Stmt) :
    times x (as ++ bs) = times x as + times x bs := by
  rw [times, declaresAll_append, count_append]
  rfl

/-- What is declared inside a statement is declared by the statement itself or inside one of its
parts. -/
theorem times_single (x : SymbolId) (s : Stmt) :
    times x [s] = s.owns.count x + times x s.children := by
  rw [times, times, declaresAll_singleton]
  cases s with
  | cond test yes no =>
    refine Eq.trans ?_ (Nat.zero_add _).symm
    cases no with
    | none => rfl
    | some no =>
      show _ = (yes.declares ++ declaresAll [no]).count x
      rw [declaresAll_singleton]
      rfl
  | forLoop =>
    rw [children, declaresAll_append, declaresAll_singleton]
    exact (Nat.zero_add _).symm
  | forEach =>
    rw [children, declaresAll_singleton]
    exact count_append
  | switch =>
    rw [children, declaresAll_cases]
    exact (Nat.zero_add _).symm
  | tryCatch resources body catches final =>
    have hfinal : declaresAll (final.getD []) = declaresFinal final := by
      cases final with
      | none | some => rfl
    simp only [children, declares, owns, declaresAll_append, hfinal, count_append,
      count_declaresCatches]
    omega
  | whileLoop | doWhile | labeled =>
    rw [children, declaresAll_singleton]
    exact (Nat.zero_add _).symm
  | block | synchronized => exact (Nat.zero_add _).symm
  | _ => rfl

theorem times_children (x : SymbolId) (s : Stmt) : times x s.children ≤ times x [s] :=
  times_single x s ▸ Nat.le_add_left ..

theorem times_pos (hs : s ∈ ss) (hx : x ∈ s.declares) : 0 < times x ss :=
  count_pos_iff.mpr (mem_declaresAll hs hx)

/-- Where a variable is declared once, it is declared in one of the statements only. -/
theorem eq_of_times (h : times x ss ≤ 1) (hs : s ∈ ss) (hsx : x ∈ s.declares) (ht : t ∈ ss)
    (htx : x ∈ t.declares) : s = t := by
  induction ss with
  | nil => cases hs
  | cons u ss ih =>
    have hsplit : times x [u] + times x ss ≤ 1 := times_append x [u] ss ▸ h
    rcases mem_cons.mp hs with rfl | hs'
    · rcases mem_cons.mp ht with rfl | ht'
      · rfl
      · have hfirst := times_pos (mem_singleton_self s) hsx
        have hrest := times_pos ht' htx
        omega
    · rcases mem_cons.mp ht with rfl | ht'
      · have hfirst := times_pos (mem_singleton_self t) htx
        have hrest := times_pos hs' hsx
        omega
      · exact ih (by omega) hs' ht'

theorem mem_declaresCatches_param {cs : List CatchClause}
    (hx : x ∈ cs.flatMap fun c => c.param.symbol.toList) : x ∈ declaresCatches cs := by
  induction cs with
  | nil => cases hx
  | cons c cs ih =>
    obtain ⟨param, types, body⟩ := c
    rcases mem_append.mp hx with hx | hx
    · exact mem_append_left _ (mem_append_left _ hx)
    · exact mem_append_right _ (ih hx)

/-- What is declared inside a part of a statement is declared inside the statement. -/
theorem declares_of_child (ht : t ∈ s.children) : ∀ x ∈ t.declares, x ∈ s.declares :=
  fun x hx => by
    have hpos := Nat.lt_of_lt_of_le (times_pos ht hx) (times_children x s)
    rw [times, declaresAll_singleton] at hpos
    exact count_pos_iff.mp hpos

/-! ## Visibility inside statements -/

section Sees

variable {V : SymbolId → Prop}

/-- The statement is scoped, and sees variables of that kind only. -/
def Sees (V : SymbolId → Prop) (s : Stmt) : Prop := ∃ vis, s.Scoped vis ∧ ∀ x ∈ vis, V x

/-- So do statements one after the other. -/
def SeesAll (V : SymbolId → Prop) (ss : List Stmt) : Prop :=
  ∃ vis, ScopedAll vis ss ∧ ∀ x ∈ vis, V x

/-- And cases one after the other. -/
def SeesCases (V : SymbolId → Prop) (cs : List SwitchCase) : Prop :=
  ∃ vis, ScopedCases vis cs ∧ ∀ x ∈ vis, V x

/-- And handlers. -/
def SeesCatches (V : SymbolId → Prop) (cs : List CatchClause) : Prop :=
  ∃ vis, ScopedCatches vis cs ∧ ∀ x ∈ vis, V x

variable {vis : List SymbolId} {cs : List SwitchCase}

theorem forall_visible {xs : List SymbolId} (hxs : ∀ x ∈ xs, V x) (hvis : ∀ x ∈ vis, V x) :
    ∀ x ∈ xs ++ vis, V x := forall_mem_append.mpr ⟨hxs, hvis⟩

theorem SeesAll.cons (h : SeesAll V (s :: ss)) :
    s.Sees V ∧ ((∀ x ∈ s.names, V x) → SeesAll V ss) := by
  obtain ⟨vis, hscoped, hvis⟩ := h
  exact ⟨⟨vis, hscoped.1, hvis⟩, fun hnames => ⟨_, hscoped.2, forall_visible hnames hvis⟩⟩

theorem SeesAll.sees (h : SeesAll V ss) (hdeclares : ∀ x ∈ declaresAll ss, V x) :
    ∀ t ∈ ss, t.Sees V := by
  induction ss with
  | nil => simp
  | cons s ss ih =>
    obtain ⟨hs, hss⟩ := h.cons
    obtain ⟨hsDeclares, hssDeclares⟩ := forall_mem_append.mp hdeclares
    exact forall_mem_cons.mpr
      ⟨hs, ih (hss fun x hx => hsDeclares x (names_declares s x hx)) hssDeclares⟩

theorem SeesCases.cons {labels : List Expr} {isDefault : Bool} {body : List Stmt}
    (h : SeesCases V (.mk labels isDefault body :: cs)) :
    (∀ x ∈ usesOf labels, V x) ∧ SeesAll V body ∧
    ((∀ x ∈ namesAll body, V x) → SeesCases V cs) := by
  obtain ⟨vis, ⟨hlabels, hbody, hrest⟩, hvis⟩ := h
  exact ⟨fun x hx => hvis x (hlabels x hx), ⟨vis, hbody, hvis⟩,
    fun hnames => ⟨_, hrest, forall_visible hnames hvis⟩⟩

theorem SeesCatches.cons {param : Ident} {types : List TypeRef} {body : List Stmt}
    {cs : List CatchClause} (h : SeesCatches V (.mk param types body :: cs)) :
    ((∀ x ∈ param.symbol.toList, V x) → SeesAll V body) ∧ SeesCatches V cs := by
  obtain ⟨vis, ⟨-, hbody, hrest⟩, hvis⟩ := h
  exact ⟨fun hparam => ⟨_, hbody, forall_visible hparam hvis⟩, vis, hrest, hvis⟩

theorem ScopedAll.uses {ds : List LocalDecl} (h : LocalDecl.ScopedAll vis ds)
    (hvis : ∀ x ∈ vis, V x) (hnames : ∀ x ∈ ds.flatMap LocalDecl.names, V x) :
    ∀ d ∈ ds, ∀ x ∈ usesOf? d.init, V x := by
  induction ds generalizing vis with
  | nil => exact nofun
  | cons d ds ih =>
    obtain ⟨hd, hds⟩ := forall_mem_append.mp hnames
    exact forall_mem_cons.mpr ⟨fun x hx => hvis x (h.1.1 x hx), ih h.2 (forall_visible hd hvis) hds⟩

/-- What a statement sees, with what is declared inside it, is all that its parts see. -/
theorem Sees.child (h : s.Sees V) (hdeclares : ∀ x ∈ s.declares, V x) :
    ∀ t ∈ s.children, t.Sees V := by
  obtain ⟨vis, hscoped, hvis⟩ := h
  have hone : ∀ {inner : List SymbolId} {t : Stmt}, t.Scoped inner → (∀ x ∈ inner, V x) →
      ∀ u ∈ [t], u.Sees V :=
    fun ht hinner u hu => mem_singleton.mp hu ▸ ⟨_, ht, hinner⟩
  cases s with
  | block => exact SeesAll.sees ⟨vis, hscoped, hvis⟩ hdeclares
  | cond test yes no =>
    refine forall_mem_cons.mpr ⟨⟨vis, hscoped.2.1, hvis⟩, ?_⟩
    cases no with
    | none => exact forall_mem_nil _
    | some => exact hone hscoped.2.2 hvis
  | whileLoop | doWhile => exact hone hscoped.2 hvis
  | forLoop init =>
    obtain ⟨hinit, hbody⟩ := forall_mem_append.mp hdeclares
    have hnames : ∀ x ∈ namesAll init, V x := fun x hx => hinit x (namesAll_declares init x hx)
    exact forall_mem_append.mpr
      ⟨SeesAll.sees ⟨vis, hscoped.1, hvis⟩ hinit, hone hscoped.2.2.2 (forall_visible hnames hvis)⟩
  | forEach => exact hone hscoped.2.2 (forall_visible (forall_mem_append.mp hdeclares).1 hvis)
  | switch selector cases =>
    have hcases : ∀ cs, SeesCases V cs → (∀ x ∈ declaresCases cs, V x) →
        ∀ t ∈ cs.flatMap SwitchCase.body, t.Sees V := by
      intro cs
      induction cs with
      | nil => simp
      | cons c cs ih =>
        obtain ⟨labels, isDefault, body⟩ := c
        intro hsees hnames
        obtain ⟨hbody, hrest⟩ := forall_mem_append.mp hnames
        obtain ⟨-, hfirst, hmore⟩ := hsees.cons
        exact forall_mem_append.mpr
          ⟨hfirst.sees hbody, ih (hmore fun x hx => hbody x (namesAll_declares body x hx)) hrest⟩
    exact hcases cases ⟨vis, hscoped.2, hvis⟩ hdeclares
  | tryCatch resources body catches final =>
    obtain ⟨hresources, hbody, hcatches, hfinal⟩ := hscoped
    simp only [declares, forall_mem_append] at hdeclares
    obtain ⟨⟨⟨hnames, hbodyNames⟩, hcatchNames⟩, hfinalNames⟩ := hdeclares
    have hinner := forall_visible (fun x hx => hnames x (LocalDecl.mem_namesAll.mp hx)) hvis
    have hhandlers : ∀ cs, SeesCatches V cs → (∀ x ∈ declaresCatches cs, V x) →
        ∀ t ∈ cs.flatMap CatchClause.body, t.Sees V := by
      intro cs
      induction cs with
      | nil => simp
      | cons c cs ih =>
        obtain ⟨param, types, body⟩ := c
        intro hsees hnames
        simp only [declaresCatches, forall_mem_append] at hnames
        exact forall_mem_append.mpr ⟨(hsees.cons.1 hnames.1.1).sees hnames.1.2,
          ih hsees.cons.2 hnames.2⟩
    refine forall_mem_append.mpr ⟨forall_mem_append.mpr
      ⟨SeesAll.sees ⟨_, hbody, hinner⟩ hbodyNames,
        hhandlers catches ⟨vis, hcatches, hvis⟩ hcatchNames⟩, ?_⟩
    cases final with
    | none => exact forall_mem_nil _
    | some => exact SeesAll.sees ⟨vis, hfinal, hvis⟩ hfinalNames
  | labeled label body => exact hone (t := body) hscoped hvis
  | synchronized => exact SeesAll.sees ⟨vis, hscoped.2, hvis⟩ hdeclares
  | _ => exact forall_mem_nil _

theorem SeesCases.labels (h : SeesCases V cs) (hnames : ∀ x ∈ namesCases cs, V x) :
    ∀ x ∈ usesOf (cs.flatMap SwitchCase.labels), V x := by
  induction cs with
  | nil => exact nofun
  | cons c cs ih =>
    obtain ⟨labels, isDefault, body⟩ := c
    obtain ⟨hlabels, -, hrest⟩ := h.cons
    obtain ⟨hmore, hbody⟩ := forall_mem_append.mp hnames
    rw [flatMap_cons, usesOf_append]
    exact forall_mem_append.mpr ⟨hlabels, ih (hrest hbody) hmore⟩

theorem namesCases_declares (cs : List SwitchCase) : ∀ x ∈ namesCases cs, x ∈ declaresCases cs := by
  induction cs with
  | nil => exact nofun
  | cons c cs ih =>
    obtain ⟨labels, isDefault, body⟩ := c
    intro x hx
    exact mem_append.mpr ((mem_append.mp hx).symm.imp (namesAll_declares body x) (ih x))

/-- A statement itself mentions only what it sees and what is declared inside it. -/
theorem Sees.symbols (h : s.Sees V) (hdeclares : ∀ x ∈ s.declares, V x) : ∀ x ∈ s.symbols, V x := by
  obtain ⟨vis, hscoped, hvis⟩ := h
  have hone : ∀ {e : Expr}, (∀ x ∈ e.uses, x ∈ vis) → ∀ x ∈ usesOf [e] ++ [], V x :=
    fun he x hx => by
    rw [List.append_nil, usesOf_singleton] at hx
    exact hvis x (he x hx)
  have hopt : ∀ {e : Option Expr}, (∀ x ∈ usesOf? e, x ∈ vis) → ∀ x ∈ usesOf e.toList, V x :=
    fun he x hx => by
    rw [usesOf_toList] at hx
    exact hvis x (he x hx)
  cases s with
  | expr | raise => exact hone hscoped
  | declare => exact forall_mem_append.mpr ⟨hopt hscoped.1, hdeclares⟩
  | cond | whileLoop | doWhile | synchronized => exact hone hscoped.1
  | forLoop init =>
    obtain ⟨-, htest, hupdate, -⟩ := hscoped
    have hinner : ∀ x ∈ namesAll init ++ vis, V x := forall_visible (fun x hx =>
      (forall_mem_append.mp hdeclares).1 x (namesAll_declares init x hx)) hvis
    refine forall_mem_append.mpr ⟨?_, forall_mem_nil _⟩
    rw [exprs, usesOf_append, usesOf_toList]
    exact forall_mem_append.mpr ⟨fun x hx => hinner x (htest x hx),
      fun x hx => hinner x (hupdate x hx)⟩
  | forEach =>
    refine forall_mem_append.mpr ⟨?_, (forall_mem_append.mp hdeclares).1⟩
    rw [exprs, usesOf, usesOf_toList]
    exact forall_mem_append.mpr ⟨fun x hx => hvis x (hscoped.1 x hx),
      fun x hx => hvis x (hscoped.2.1.1 x hx)⟩
  | switch selector cases =>
    have hlabels := SeesCases.labels ⟨vis, hscoped.2, hvis⟩ fun x hx =>
      hdeclares x (namesCases_declares cases x hx)
    refine forall_mem_append.mpr ⟨?_, forall_mem_nil _⟩
    exact forall_mem_append.mpr ⟨fun x hx => hvis x (hscoped.1 x hx), hlabels⟩
  | tryCatch =>
    simp only [declares, forall_mem_append] at hdeclares
    obtain ⟨⟨⟨hnames, -⟩, hcatchNames⟩, -⟩ := hdeclares
    refine forall_mem_append.mpr ⟨fun x hx => ?_, forall_mem_append.mpr
      ⟨hnames, fun x hx => hcatchNames x (mem_declaresCatches_param hx)⟩⟩
    obtain ⟨e, he, hx⟩ := mem_usesOf.mp hx
    obtain ⟨d, hd, he⟩ := mem_flatMap.mp he
    refine ScopedAll.uses hscoped.1 hvis hnames d hd x ?_
    rw [Option.mem_toList.mp he]
    exact hx
  | ret => exact forall_mem_append.mpr ⟨hopt hscoped, forall_mem_nil _⟩
  | _ => exact forall_mem_nil _

/-- A scoped statement mentions, at any depth, only what it sees and what is declared inside it. -/
theorem Sees.mentions {path : List Stmt} (h : s.Sees V) (hdeclares : ∀ x ∈ s.declares, V x)
    (ht : Lies [s] path t) : ∀ x ∈ t.symbols, V x := by
  have hgeneral : t.Sees V ∧ ∀ x ∈ t.declares, V x := by
    induction ht with
    | top ht => exact mem_singleton.mp ht ▸ ⟨h, hdeclares⟩
    | inner _ ht ih => exact ⟨ih.1.child ih.2 _ ht, fun x hx => ih.2 x (declares_of_child ht x hx)⟩
  exact hgeneral.1.symbols hgeneral.2

end Sees

end Stmt

end Resumable
