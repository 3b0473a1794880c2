import Resumable.Proofs.Nesting
import Resumable.Proofs.ReadBack

/-!
# What the grammar allows

The head of a counting loop starts with declarations and expressions only, and the variable of a
loop over an iterable has no first value.

* `statement_gives`: readers of statements go forward, and the heads of all loops in a statement
  that was read fit;
* `readers_progress`: every reader goes forward over tokens that do not mark the end, and that of a
  source stops at one that does;
* `ProgramUnit.ofSource_grammatical` says of a source that the heads of its loops fit.
-/

namespace Resumable

open List

open Reading

/-! ## Statements that fit -/

/-- The heads of all loops in a statement are as the grammar has them. -/
def Stmt.Fits (s : Stmt) : Prop := s.HeadFits ∧ ∀ path t, Lies s.children path t → t.HeadFits

theorem Stmt.Fits.lies {body path : List Stmt} {s : Stmt} (h : ∀ t ∈ body, t.Fits)
    (hs : Lies body path s) : s.HeadFits := by
  rcases hs.head with ⟨-, hmem⟩ | ⟨t, ht, inner, -, hlies⟩
  · exact (h s hmem).1
  · exact (h t ht).2 inner s hlies

/-- A statement fits if its head does, and what stands directly inside it. -/
theorem Stmt.fits_of {s : Stmt} (hhead : s.HeadFits) (h : ∀ t ∈ s.children, t.Fits) : s.Fits :=
  ⟨hhead, fun _ _ ht => Stmt.Fits.lies h ht⟩

theorem Stmt.fits_of_isSimple {s : Stmt} (h : s.isSimple) : s.Fits := by
  cases s with
  | expr | declare => exact Stmt.fits_of trivial fun t ht => absurd ht not_mem_nil
  | _ => cases h

namespace Parser

variable {eof : Token} {n : Nat} {ts : List Token}

/-! ## Parts of statements -/

theorem expression_gives (ts : List Token) : (expression eof ts).Gives ts fun _ => True :=
  (expression_uses ts).gives fun _ _ _ _ _ => trivial

theorem expressions_gives (ts : List Token) : (expressions eof ts).Gives ts fun _ => True :=
  (expressions_uses ts).gives fun _ _ _ _ _ => trivial

theorem parenthesized_gives : (parenthesized eof ts).Gives ts fun _ => True :=
  (expect_gives (by decide) _).andThen fun _ r lt hr _ =>
    ((expression_gives r).up hr lt).andThen fun _ _ lt hr _ =>
    last_gives hr lt (by decide) _ trivial

/-- A first value may be missing, and then no token is used. -/
theorem initializer_gives (ts : List Token) (lt : ts.length < n) :
    (initializer eof ts lt).Gives ts fun _ => True := by
  unfold initializer
  split
  · next r _ lt heq =>
      exact ((expression_gives r).up (skip?_onward heq (by decide)) lt).map fun _ _ => trivial
  · exact ⟨.refl ts, trivial⟩

theorem localDecl_gives (ts : List Token) : (localDecl eof ts).Gives ts fun _ => True :=
  (typeRef_gives ts).andThen fun _ _ lt hr _ =>
    ((expectName_gives _).up hr lt).andThen fun _ r lt hr _ =>
    ((initializer_gives r lt).after hr).map fun _ _ => trivial

theorem expressionUnless_gives (stop : TokenKind) (ts : List Token) (lt : ts.length < n) :
    (expressionUnless eof stop ts lt).Gives ts fun _ => True := by
  unfold expressionUnless
  split
  · exact ⟨.refl ts, trivial⟩
  · exact ((expression_gives ts).up (.refl ts) lt).map fun _ _ => trivial

theorem expressionsUnless_gives (stop : TokenKind) (ts : List Token) (lt : ts.length < n) :
    (expressionsUnless eof stop ts lt).Gives ts fun _ => True := by
  unfold expressionsUnless
  split
  · exact ⟨.refl ts, trivial⟩
  · exact (expressions_gives ts).up (.refl ts) lt

theorem jumpLabel_gives (ts : List Token) (lt : ts.length < n) :
    (jumpLabel ts lt).Gives ts fun _ => True := by
  unfold jumpLabel
  split
  · exact ⟨.refl _, trivial⟩
  · next t r lt =>
    split
    · next ht => exact ⟨.cons (by simp [ht]) r, trivial⟩
    · exact ⟨.refl _, trivial⟩

/-- The start of a loop that declares nothing is a list of expressions. -/
theorem expressionStatements_gives (ts : List Token) :
    (expressionStatements eof ts).Gives ts fun ss => ∀ s ∈ ss, s.isSimple := by
  rw [expressionStatements]
  refine (expression_gives ts).andThen fun e r lt hr _ => ?_
  dsimp only
  split
  · next r' _ lt' heq =>
    exact ((expressionStatements_gives r').up (hr.trans (skip?_onward heq (by decide))) lt').map
      fun ss hss =>
      forall_mem_cons.mpr ⟨rfl, hss⟩
  · exact ⟨hr, forall_mem_singleton.mpr rfl⟩
termination_by ts.length

theorem loopStart_gives (ts : List Token) (lt : ts.length < n) :
    (loopStart eof ts lt).Gives ts fun ss => ∀ s ∈ ss, s.isSimple := by
  unfold loopStart
  split
  · exact ⟨.refl ts, nofun⟩
  · split
    · exact ((localDecl_gives ts).up (.refl ts) lt).map fun d _ => forall_mem_singleton.mpr rfl
    · exact (expressionStatements_gives ts).up (.refl ts) lt

/-- The head of a counting loop starts with what is simple. -/
theorem forHeader_gives (ts : List Token) (lt : ts.length < n) :
    (forHeader eof ts lt).Gives ts fun head => ∀ s ∈ head.1, s.isSimple :=
  (loopStart_gives ts lt).andThen fun _ _ lt hr hinit =>
    ((expect_gives (by decide) _).up hr lt).andThen fun _ r lt hr _ =>
    ((expressionUnless_gives _ r lt).after hr).andThen fun _ _ lt hr _ =>
      ((expect_gives (by decide) _).up hr lt).andThen fun _ r lt hr _ =>
        ((expressionsUnless_gives _ r lt).after hr).andThen fun _ _ lt hr _ =>
          last_gives hr lt (by decide) _ hinit

/-- The variable of a loop over an iterable is read without a first value. -/
theorem forEachHeader_gives (ts : List Token) : (forEachHeader eof ts).Gives ts fun head =>
    head.1.init = none :=
  (typeRef_gives ts).andThen fun _ _ lt hr _ =>
    ((expectName_gives _).up hr lt).andThen fun _ _ lt hr _ =>
    ((expect_gives (by decide) _).up hr lt).andThen fun _ r lt hr _ =>
      ((expression_gives r).up hr lt).andThen fun _ _ lt hr _ => last_gives hr lt (by decide) _ rfl

theorem resourceList_gives {n : Nat} (ts : List Token) (lt : ts.length < n) :
    (resourceList eof ts lt).Gives ts fun _ => True := by
  rw [resourceList]
  split
  · exact ⟨.refl ts, trivial⟩
  · refine Gives.up ((localDecl_gives ts).andThen fun d r lt hr _ => ?_) (.refl ts) lt
    split
    · exact hr
    · split
      · next r' _ lt' heq =>
        exact ((resourceList_gives r' lt').after (hr.trans (skip?_onward heq (by decide)))).map
          fun _ _ => trivial
      · exact ⟨hr, trivial⟩
termination_by ts.length

theorem resources_gives (ts : List Token) (lt : ts.length < n) :
    (resources eof ts lt).Gives ts fun _ => True := by
  unfold resources
  split
  · next r _ lt heq =>
    exact ((resourceList_gives r lt).after (skip?_onward heq (by decide))).andThen
      fun _ _ lt hr _ =>
      last_gives hr lt (by decide) _ trivial
  · exact ⟨.refl ts, trivial⟩

theorem catchTypes_gives (ts : List Token) : (catchTypes eof ts).Gives ts fun _ => True := by
  rw [catchTypes]
  refine (typeRef_gives ts).andThen fun t r lt hr _ => ?_
  split
  · next r' _ lt' heq =>
    exact ((catchTypes_gives r').up (hr.trans (skip?_onward heq (by decide))) lt').map fun _ _ =>
      trivial
  · exact ⟨hr, trivial⟩
termination_by ts.length

theorem catchHeader_gives : (catchHeader eof ts).Gives ts fun _ => True :=
  (expect_gives (by decide) _).andThen fun _ r lt hr _ =>
    ((catchTypes_gives r).up hr lt).andThen fun _ _ lt hr _ =>
    ((expectName_gives _).up hr lt).andThen fun _ _ lt hr _ =>
      last_gives hr lt (by decide) _ trivial

/-- A label takes a token, also where it is the default a second time. -/
theorem caseLabel_gives (seen : Bool) (ts : List Token) :
    (caseLabel eof seen ts).Gives ts fun _ => True := by
  unfold caseLabel
  split
  · exact failAt_gives _
  · next t r =>
    split
    · next ht => exact ((expression_gives r).up (.cons (by simp [ht]) r) _).map fun _ _ => trivial
    · next ht =>
      have hr : Onward (t :: r) r := .cons (by simp [ht]) r
      split
      · exact hr
      · exact ⟨hr, trivial⟩
    · exact failAt_gives _

theorem simpleStatement_gives (ts : List Token) : (simpleStatement eof ts).Gives ts Stmt.Fits := by
  unfold simpleStatement
  dsimp only
  split
  · exact (localDecl_gives ts).andThen fun _ _ lt hr _ =>
      last_gives hr lt (by decide) _ (Stmt.fits_of_isSimple rfl)
  · exact (expression_gives ts).andThen fun _ _ lt hr _ =>
      last_gives hr lt (by decide) _ (Stmt.fits_of_isSimple rfl)

/-- A label is a name and a colon. -/
theorem label?_onward {label : String} {r : List Token} {lt : r.length < ts.length}
    (h : label? ts = some (label, ⟨r, lt⟩)) : Onward ts r := by
  unfold label? at h
  split at h
  · next t u r' =>
    split at h
    · next ht =>
      split at h
      · next hu =>
        cases h
        exact (Onward.cons (by simp [ht]) _).next (by simp [hu])
      · cases h
    · cases h
  · cases h

/-! ## Statements -/

/-- Statements that fit. -/
abbrev AllFit (ss : List Stmt) : Prop := ∀ s ∈ ss, s.Fits

/-- A statement without parts. -/
theorem fits_leaf {s : Stmt} (hhead : s.HeadFits) (hchildren : s.children = []) : s.Fits :=
  Stmt.fits_of hhead fun t ht => by
    rw [hchildren] at ht
    cases ht

theorem fits_tryCatch {rs : List LocalDecl} {body : List Stmt} {cs : List CatchClause}
    {final : Option (List Stmt)} {loc : Location} (hbody : AllFit body)
    (hcs : ∀ c ∈ cs, AllFit c.body) (hfinal : ∀ body ∈ final, AllFit body) :
    (Stmt.tryCatch rs body cs final loc).Fits := by
  refine Stmt.fits_of trivial fun t ht => ?_
  rcases mem_append.mp ht with ht | ht
  · rcases mem_append.mp ht with ht | ht
    · exact hbody t ht
    · obtain ⟨c, hc, ht⟩ := mem_flatMap.mp ht
      exact hcs c hc t ht
  · cases final with
    | none => cases ht
    | some final => exact hfinal final rfl t ht

mutual

/-- Readers of statements go forward, and the heads of all loops in what they read fit. -/
theorem statement_gives (ts : List Token) : (statement eof ts).Gives ts Stmt.Fits := by
  rw [statement.eq_def]
  split
  · next label r lt heq =>
    exact ((statement_gives r).up (label?_onward heq) lt).map fun s hs =>
      Stmt.fits_of trivial (forall_mem_singleton.mpr hs)
  · cases ts with
    | nil => exact simpleStatement_gives []
    | cons t r =>
      dsimp only
      split
      · exact (block_gives (t :: r)).map fun body hbody => Stmt.fits_of trivial hbody
      · next ht => exact ⟨.cons (by simp [ht]) r, fits_leaf trivial rfl⟩
      · next k ht =>
        have hr : Onward (t :: r) r := .cons (by simp [ht]) r
        cases k with
        | if_ => exact (condRest_gives _ r).up hr _
        | while_ => exact (whileRest_gives _ r).up hr _
        | do_ => exact (doRest_gives _ r).up hr _
        | for_ => exact (forRest_gives _ r).up hr _
        | switch => exact (switchRest_gives _ r).up hr _
        | try_ => exact (tryRest_gives _ r).after hr
        | synchronized =>
          refine Gives.up (parenthesized_gives.andThen fun lock r' lt hr' _ => ?_) hr _
          have hless := lt.trans (length_lt_cons t r)
          exact ((block_gives r').up hr' lt).map fun body hbody => Stmt.fits_of trivial hbody
        | return_ =>
          exact ((expressionUnless_gives _ r _).after hr).andThen fun _ _ lt hr _ =>
            last_gives hr lt (by decide) _ (fits_leaf trivial rfl)
        | break_ | continue_ =>
          exact ((jumpLabel_gives r _).after hr).andThen fun _ _ lt hr _ =>
            last_gives hr lt (by decide) _ (fits_leaf trivial rfl)
        | throw =>
          refine Gives.up ((expression_gives r).andThen fun _ _ lt hr _ => ?_) hr _
          exact last_gives hr lt (by decide) _ (fits_leaf trivial rfl)
        | _ => exact failAt_gives _
      · exact simpleStatement_gives _
termination_by (ts.length, 1)

theorem block_gives (ts : List Token) : (block eof ts).Gives ts AllFit := by
  rw [block]
  exact (expect_gives (by decide) _).andThen fun _ r lt hr _ => (blockRest_gives r lt).after hr
termination_by (ts.length, 0)

theorem blockRest_gives {n : Nat} (ts : List Token) (lt : ts.length < n) :
    (blockRest eof ts lt).Gives ts AllFit := by
  rw [blockRest]
  split
  · next heq => exact ⟨skip?_onward heq (by decide), nofun⟩
  · split
    · exact (failAt_gives _).up (.refl ts) lt
    · refine Gives.up ((statement_gives ts).andThen fun s r lt hr hs => ?_) (.refl ts) lt
      exact ((blockRest_gives r lt).after hr).map fun ss hss => forall_mem_cons.mpr ⟨hs, hss⟩
termination_by (ts.length, 2)

theorem condRest_gives (loc : Location) (ts : List Token) :
    (condRest eof loc ts).Gives ts Stmt.Fits := by
  rw [condRest]
  refine parenthesized_gives.andThen fun test r lt hr _ => ?_
  refine ((statement_gives r).up hr lt).andThen fun yes r lt hr hyes => ?_
  split
  · next r' _ lt' heq =>
    refine ((statement_gives r').up (hr.trans (skip?_onward heq (by decide))) lt').map fun no hno =>
      Stmt.fits_of trivial ?_
    exact forall_mem_cons.mpr ⟨hyes, forall_mem_singleton.mpr hno⟩
  · exact ⟨hr, Stmt.fits_of trivial (forall_mem_singleton.mpr hyes)⟩
termination_by (ts.length, 0)

theorem whileRest_gives (loc : Location) (ts : List Token) :
    (whileRest eof loc ts).Gives ts Stmt.Fits := by
  rw [whileRest]
  exact parenthesized_gives.andThen fun _ r lt hr _ =>
    ((statement_gives r).up hr lt).map fun body hbody =>
    Stmt.fits_of trivial (forall_mem_singleton.mpr hbody)
termination_by (ts.length, 0)

theorem doRest_gives (loc : Location) (ts : List Token) :
    (doRest eof loc ts).Gives ts Stmt.Fits := by
  rw [doRest]
  refine (statement_gives ts).andThen fun body _ lt hr hbody => ?_
  exact ((expect_gives (by decide) _).up hr lt).andThen fun _ _ lt hr _ =>
    (parenthesized_gives.up hr lt).andThen
    fun _ _ lt hr _ => ((expect_gives (by decide) _).up hr lt).map fun _ _ =>
      Stmt.fits_of trivial (forall_mem_singleton.mpr hbody)
termination_by (ts.length, 2)

theorem forRest_gives (loc : Location) (ts : List Token) :
    (forRest eof loc ts).Gives ts Stmt.Fits := by
  rw [forRest]
  refine (expect_gives (by decide) _).andThen fun _ r lt hr _ => ?_
  split
  · refine ((forEachHeader_gives r).up hr lt).andThen fun head r lt hr hhead => ?_
    exact ((statement_gives r).up hr lt).map fun body hbody =>
      Stmt.fits_of hhead (forall_mem_singleton.mpr hbody)
  · refine ((forHeader_gives r lt).after hr).andThen fun head r lt hr hhead => ?_
    refine ((statement_gives r).up hr lt).map fun body hbody => Stmt.fits_of hhead fun t ht => ?_
    -- inside a counting loop stand its start and its body
    rcases mem_append.mp ht with ht | ht
    · exact Stmt.fits_of_isSimple (hhead t ht)
    · exact mem_singleton.mp ht ▸ hbody
termination_by (ts.length, 0)

theorem switchRest_gives (loc : Location) (ts : List Token) :
    (switchRest eof loc ts).Gives ts Stmt.Fits := by
  rw [switchRest]
  refine parenthesized_gives.andThen fun _ _ lt hr _ =>
    ((expect_gives (by decide) _).up hr lt).andThen
    fun _ r lt hr _ => ((cases_gives false r lt).after hr).map fun cs hcs =>
      Stmt.fits_of trivial fun t ht => ?_
  obtain ⟨c, hc, ht⟩ := mem_flatMap.mp ht
  exact hcs c hc t ht
termination_by (ts.length, 0)

theorem cases_gives {n : Nat} (seen : Bool) (ts : List Token) (lt : ts.length < n) :
    (cases eof seen ts lt).Gives ts fun cs => ∀ c ∈ cs, AllFit c.body := by
  rw [cases]
  split
  · next heq => exact ⟨skip?_onward heq (by decide), nofun⟩
  · refine Gives.up ((caseLabel_gives seen ts).andThen fun head _ lt hr _ => ?_) (.refl ts) lt
    refine ((expect_gives (by decide) _).up hr lt).andThen fun _ r lt hr _ => ?_
    refine ((caseBody_gives r lt).after hr).andThen fun body r lt hr hbody => ?_
    exact ((cases_gives _ r lt).after hr).map fun cs hcs => forall_mem_cons.mpr ⟨hbody, hcs⟩
termination_by (ts.length, 3)

theorem caseBody_gives {n : Nat} (ts : List Token) (lt : ts.length < n) :
    (caseBody eof ts lt).Gives ts AllFit := by
  rw [caseBody]
  split
  · exact ⟨.refl ts, nofun⟩
  · exact ⟨.refl ts, nofun⟩
  · exact ⟨.refl ts, nofun⟩
  · exact (failAt_gives _).up (.refl ts) lt
  · refine Gives.up ((statement_gives ts).andThen fun s r lt hr hs => ?_) (.refl ts) lt
    exact ((caseBody_gives r lt).after hr).map fun ss hss => forall_mem_cons.mpr ⟨hs, hss⟩
termination_by (ts.length, 2)

theorem tryRest_gives (loc : Location) (ts : List Token) :
    (tryRest eof loc ts).Gives ts Stmt.Fits := by
  rw [tryRest]
  refine (resources_gives ts _).andThen fun rs r lt hr _ => ?_
  refine ((block_gives r).up hr lt).andThen fun body r lt hr hbody => ?_
  refine ((catches_gives r lt).after hr).andThen fun cs r lt hr hcs => ?_
  split
  · next r' _ lt' heq =>
    refine ((block_gives r').up (hr.trans (skip?_onward heq (by decide))) lt').map
      fun final hfinal => fits_tryCatch hbody hcs ?_
    rintro _ ⟨⟩
    exact hfinal
  · split
    · exact hr
    · exact ⟨hr, fits_tryCatch hbody hcs fun _ h => by cases h⟩
termination_by (ts.length, 1)
decreasing_by all_goals simp only [Prod.lex_def]; omega

theorem catches_gives {n : Nat} (ts : List Token) (lt : ts.length < n) :
    (catches eof ts lt).Gives ts fun cs => ∀ c ∈ cs, AllFit c.body := by
  rw [catches]
  split
  · next r' _ lt' heq =>
    refine Gives.up (catchHeader_gives.andThen fun head r lt hr _ => ?_)
      (skip?_onward heq (by decide)) lt'
    refine ((block_gives r).up hr lt).andThen fun body r lt hr hbody => ?_
    exact ((catches_gives r lt).after hr).map fun cs hcs => forall_mem_cons.mpr ⟨hbody, hcs⟩
  · exact ⟨.refl ts, nofun⟩
termination_by (ts.length, 0)

end

/-! ## Procedures -/

theorem paramList_gives (ts : List Token) : (paramList eof ts).Gives ts fun _ => True := by
  rw [paramList]
  refine (typeRef_gives ts).andThen fun _ _ lt hr _ =>
    ((expectName_gives _).up hr lt).andThen fun _ r lt hr _ => ?_
  split
  · next r' _ lt' heq =>
    exact ((paramList_gives r').up (hr.trans (skip?_onward heq (by decide))) lt').map fun _ _ =>
      trivial
  · exact ⟨hr, trivial⟩
termination_by ts.length

theorem params_gives (ts : List Token) (lt : ts.length < n) :
    (params eof ts lt).Gives ts fun _ => True := by
  unfold params
  split
  · exact ⟨.refl ts, trivial⟩
  · exact (paramList_gives ts).up (.refl ts) lt

theorem procedure_gives (ts : List Token) : (procedure eof ts).Gives ts fun p => AllFit p.body :=
  (typeRef_gives ts).andThen fun _ _ lt hr _ =>
    ((expectName_gives _).up hr lt).andThen fun _ _ lt hr _ =>
    ((expect_gives (by decide) _).up hr lt).andThen fun _ r lt hr _ =>
      ((params_gives r lt).after hr).andThen fun _ _ lt hr _ =>
        ((expect_gives (by decide) _).up hr lt).andThen fun _ r lt hr _ =>
          ((block_gives r).up hr lt).map fun _ hbody => hbody

theorem procedures_gives {n : Nat} (ts : List Token) (lt : ts.length < n) :
    (procedures eof ts lt).Gives ts fun ps => ∀ p ∈ ps, AllFit p.body := by
  rw [procedures]
  split
  · exact ⟨.refl ts, nofun⟩
  · refine Gives.up ((procedure_gives ts).andThen fun p r lt hr hp => ?_) (.refl ts) lt
    exact ((procedures_gives r lt).after hr).map fun ps hps => forall_mem_cons.mpr ⟨hp, hps⟩
termination_by ts.length

theorem unit_gives (ts : List Token) : (unit eof ts).Gives ts fun u =>
    ∀ p ∈ u.procedures, AllFit p.body :=
  (procedures_gives ts _).map fun _ hps => hps

/-- Procedures are read until a token marks the end. -/
theorem procedures_stops {n : Nat} (ts : List Token) (lt : ts.length < n) {ps : List Procedure}
    {r : List Token} {lt' : r.length < n} (h : procedures eof ts lt = .ok ps r lt') :
    currentKind r = .eof := by
  rw [procedures] at h
  split at h
  · next heof =>
    cases h
    exact heof
  · cases hp : procedure eof ts with
    | error =>
      rw [hp] at h
      cases h
    | ok p q ltq =>
      rw [hp] at h
      cases hps : procedures eof q ltq with
      | error => simp [andThen, hps, Reading.map, up] at h
      | ok =>
        simp only [andThen, hps, Reading.map, up, ok.injEq] at h
        obtain ⟨-, rfl⟩ := h
        exact procedures_stops q ltq hps
termination_by ts.length

theorem unit_stops (ts : List Token) {u : ProgramUnit} {r : List Token}
    {lt : r.length < ts.length + 1} (h : unit eof ts = .ok u r lt) : currentKind r = .eof := by
  cases hps : procedures eof ts (Nat.lt_succ_self _) with
  | error => simp [unit, hps, Reading.map, andThen] at h
  | ok =>
    simp only [unit, hps, Reading.map, andThen, ok.injEq] at h
    obtain ⟨-, rfl⟩ := h
    exact procedures_stops ts _ hps

end Parser

/-! ## Progress -/

/-- A reader at the place `p` of the tokens has stopped at a place of the tokens, or right behind
them, that is not in front of `p`; no token in between marks the end; and it has used `least` tokens
at least where it did not fail. -/
def Reading.Goes {α : Type} {n : Nat} (ts : List Token) (p least : Nat) (x : Reading α n) : Prop :=
  ∃ q, p ≤ q ∧ q ≤ ts.length ∧ x.rest = ts.drop q ∧ (∀ t ∈ (ts.take q).drop p, t.kind ≠ .eof) ∧
    (x.result.isOk = true → p + least ≤ q)

/-- A reader that goes forward stops at a place of the tokens. -/
theorem Reading.Gives.goes {α : Type} {n p least : Nat} {ts : List Token} {P : α → Prop}
    {x : Reading α n} (h : x.Gives (ts.drop p) P) (hp : p ≤ ts.length)
    (hn : n + least ≤ (ts.drop p).length + 1) : x.Goes ts p least := by
  obtain ⟨_, used, hused, rfl, hclear⟩ : Onward (ts.drop p) x.rest := by
    cases x with
    | ok => exact h.1
    | error => exact h
  have hlength := congrArg List.length hused
  rw [length_append, length_drop] at hlength
  refine ⟨p + used.length, Nat.le_add_right .., by omega, ?_, ?_, fun hok => ?_⟩
  · rw [← drop_drop, hused, drop_left]
  · rw [drop_take, Nat.add_sub_cancel_left, hused, take_left]
    exact fun t ht hkind => hclear (hkind ▸ mem_map_of_mem ht)
  · cases x with
    | error => cases hok
    | ok =>
      rw [length_drop] at hn
      simp only [rest] at hlength
      omega

/-- **Readers make progress.** At every place of any tokens, wherever some of them mark the end, the
readers stop, with success or not, at a place that is not further back and not behind the tokens,
and pass no token that marks the end; one that succeeds uses a token, but for that of a whole
source, which stops where a token marks the end. -/
theorem Parser.readers_progress (tokens : List Token) (p : Fin ((input tokens).1.length + 1)) :
    let (ts, eof) := input tokens
    (procedure eof (ts.drop p)).Goes ts p 1 ∧ (typeRef eof (ts.drop p)).Goes ts p 1 ∧
      (block eof (ts.drop p)).Goes ts p 1 ∧ (statement eof (ts.drop p)).Goes ts p 1 ∧
      (expression eof (ts.drop p)).Goes ts p 1 ∧ (unit eof (ts.drop p)).Goes ts p 0 ∧
      ∀ u r lt, unit eof (ts.drop p) = .ok u r lt → currentKind r = .eof := by
  have hp := Nat.le_of_lt_succ p.isLt
  exact ⟨(procedure_gives _).goes hp (Nat.le_refl _), (typeRef_gives _).goes hp (Nat.le_refl _),
    (block_gives _).goes hp (Nat.le_refl _), (statement_gives _).goes hp (Nat.le_refl _),
    (expression_gives _).goes hp (Nat.le_refl _), (unit_gives _).goes hp (Nat.le_refl _),
    fun _ _ _ => unit_stops _⟩

/-- The heads of all loops of a procedure are as the grammar has them. -/
def Procedure.Grammatical (p : Procedure) : Prop := ∀ path s, Lies p.body path s → s.HeadFits

instance : DecidablePred Stmt.HeadFits
  | .forLoop init _ _ _ _ => inferInstanceAs (Decidable (∀ s ∈ init, s.isSimple = true))
  | .forEach var _ _ _ => decidable_of_iff (var.init.isNone = true) Option.isNone_iff_eq_none
  | .empty _ | .expr _ _ | .declare _ _ | .block _ _ | .cond _ _ _ _ | .whileLoop _ _ _
  | .doWhile _ _ _
  | .switch _ _ _ | .tryCatch _ _ _ _ _ | .labeled _ _ _ | .synchronized _ _ _ | .ret _ _ | .brk _ _
  | .cont _ _
  | .raise _ _ => .isTrue trivial

instance (p : Procedure) : Decidable p.Grammatical := decidable_of_iff _ forall_lies_iff.symm

/-- **Procedures that are read from a source are grammatical.** -/
theorem ProgramUnit.ofSource_grammatical {source file : String} {u : ProgramUnit}
    (h : ProgramUnit.ofSource source file = .ok u) : ∀ p ∈ u.procedures, p.Grammatical := by
  unfold ofSource at h
  split at h
  · cases h
  · next tokens _ =>
    dsimp only at h
    have hunit : (Parser.unit (Parser.input tokens).2 (Parser.input tokens).1).Gives _ _ :=
      Parser.unit_gives _
    generalize Parser.unit (Parser.input tokens).2 (Parser.input tokens).1 = read at h hunit
    cases read with
    | ok =>
      cases h
      exact fun p hp path s hs => Stmt.Fits.lies (hunit.2 p hp) hs
    | error => cases h

end Resumable
