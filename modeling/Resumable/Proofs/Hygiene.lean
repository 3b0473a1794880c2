import Mathlib.Data.List.Infix
import Resumable.Proofs.Idents
import Resumable.Render.Class
import Resumable.Text.Decimal

/-!
# Printed names are apart

Which names in a printed class can be alike.

* `ShownAs`: the identity of a variable can be read off the name that it is shown under, whatever
  its own name is, and no such name is one of the class's own variables; so fields have names of
  their own (`CaptureSet.Named`);
* `Expr.fragments` takes a printed expression apart, so that all names of a class are fragments of
  its lines;
* names are printed as in the source if they are free, or those of the constructor's parameters.
  Only these can be like other names (`Reserved`), or, parameters, like each other.
-/

namespace Resumable

open List

/-! ## Shown names -/

/-- The name is one under which the variable is shown. -/
def ShownAs (id : SymbolId) (x : String) : Prop :=
  (∃ name : String, x = s!"{name}${id.index}") ∨ x = s!"$unknown{id.index}"

/-- The name has the form of one under which variables are shown, or is one of the class's own. -/
def Reserved (x : String) : Prop := (∃ id, ShownAs id x) ∨ ∃ o : OwnName, o ≠ .thrown ∧ x = o.text

/-- Variables are shown under such names, also ones that no table knows. -/
theorem SymbolTable.display_shownAs (t : SymbolTable) (id : SymbolId) :
    ShownAs id (t.display id) := by
  rw [display]
  split
  · exact .inl ⟨_, rfl⟩
  · exact .inr rfl

/-- What stands behind the last dollar sign, from its end. -/
def lastPart (x : String) : List Char := x.toList.reverse.takeWhile (· != '$')

theorem lastPart_append (name part : String) (h : '$' ∉ part.toList) :
    lastPart (name ++ "$" ++ part) = part.toList.reverse := by
  have hpart : ∀ c ∈ part.toList.reverse, (c != '$') = true := by
    intro c hc
    rw [mem_reverse] at hc
    exact bne_iff_ne.mpr fun heq => h (heq ▸ hc)
  have hlist : (name ++ "$" ++ part).toList.reverse = part.toList.reverse ++ '$' ::
      name.toList.reverse := by simp
  rw [lastPart, hlist, takeWhile_append_of_pos hpart]
  simp

theorem isDigit_of_mem_toString {n : Nat} {c : Char} (h : c ∈ (toString n).toList) :
    c.isDigit = true := by
  rw [Text.toList_toString] at h
  exact Text.isDigit_of_mem h

theorem eq_of_toString {n m : Nat} (h : (toString n).toList = (toString m).toList) : n = m := by
  rw [Text.toList_toString, Text.toList_toString] at h
  rw [← Text.digitsValue_toDigits n, h, Text.digitsValue_toDigits]

/-- The last part of a shown name is the number of the variable, or tells that it is not known. -/
theorem ShownAs.last {id : SymbolId} {x : String} (h : ShownAs id x) :
    lastPart x = (toString id.index).toList.reverse ∨
      lastPart x = ("unknown" ++ toString id.index).toList.reverse := by
  have hdigits : '$' ∉ (toString id.index).toList :=
    fun hmem => absurd (isDigit_of_mem_toString hmem) (by decide)
  rcases h with ⟨name, rfl⟩ | rfl
  · exact .inl (lastPart_append name _ hdigits)
  · exact .inr (lastPart_append "" ("unknown" ++ toString id.index) (by simpa using hdigits))

/-- A name is shown for one variable. -/
theorem ShownAs.unique {id id' : SymbolId} {x : String} (h : ShownAs id x) (h' : ShownAs id' x) :
    id = id' := by
  -- no number is written with letters
  have hmixed : ∀ n m : Nat, (toString n).toList ≠ ("unknown" ++ toString m).toList := by
    intro n m heq
    have hu : 'u' ∈ (toString n).toList := by
      rw [heq, String.toList_append]
      exact mem_append_left _ (by decide)
    exact absurd (isDigit_of_mem_toString hu) (by decide)
  have hindex : id.index = id'.index := by
    rcases h.last with h | h <;> rcases h'.last with h' | h' <;> have heq :=
      reverse_injective (h.symm.trans h')
    · exact eq_of_toString heq
    · exact absurd heq (hmixed _ _)
    · exact absurd heq.symm (hmixed _ _)
    · simp only [String.toList_append, append_cancel_left_eq] at heq
      exact eq_of_toString heq
  cases id
  cases id'
  cases hindex
  rfl

/-- A shown name ends with a digit, which none of the class's own does. -/
theorem ShownAs.ne_own {id : SymbolId} {x : String} (h : ShownAs id x) (o : OwnName) :
    x ≠ o.text := by
  rintro rfl
  obtain ⟨c, cs, hcs⟩ : ∃ c cs, (toString id.index).toList.reverse = c :: cs := by
    refine exists_cons_of_ne_nil fun hnil => ?_
    rw [reverse_eq_nil_iff, Text.toList_toString] at hnil
    exact Nat.toDigits_ne_nil hnil
  have hdigit : c.isDigit = true := isDigit_of_mem_toString (mem_reverse.mp (hcs ▸ mem_cons_self))
  have hhead : (lastPart o.text).head? = some c := by
    rcases h.last with h | h
    · rw [h, hcs, head?_cons]
    · rw [h, String.toList_append, reverse_append, hcs, cons_append, head?_cons]
  have hown : ∀ o : OwnName, ((lastPart o.text).head?.any Char.isDigit) = false := by
    intro o
    cases o <;> decide
  have hnot := hown o
  rw [hhead, Option.any_some, hdigit] at hnot
  cases hnot

/-- Names without dollar signs are not reserved. -/
theorem not_reserved {x : String} (h : '$' ∉ x.toList) : ¬ Reserved x := by
  rintro (⟨id, ⟨name, rfl⟩ | rfl⟩ | ⟨o, ho, rfl⟩)
  · exact h (by simp only [String.toList_append, mem_append]; exact .inl (.inr (by decide)))
  · exact h (by rw [String.toList_append]; exact mem_append_left _ (by decide))
  · revert h
    cases o <;> first | exact absurd rfl ho | decide

/-- The class's own variables have different names. -/
theorem OwnName.text_injective {o o' : OwnName} (h : o.text = o'.text) : o = o' := by
  cases o <;> cases o' <;> first | rfl | exact absurd h (by decide)

/-! ## Fields -/

namespace CaptureSet

/-- The fields stand in the order of their variables, and the name of each is shown for its
variable. -/
structure Named (s : CaptureSet) : Prop where
  sorted : s.fields.Pairwise fun a b => a.1.index < b.1.index
  shown : ∀ e ∈ s.fields, e.2.symbol = e.1 ∧ ShownAs e.1 e.2.name

variable {s : CaptureSet} {c : Capture}

theorem mem_insertEntry {key : SymbolId} {fields : List (SymbolId × Capture)} :
    ∀ e ∈ insertEntry key c fields, e = (key, c) ∨ e ∈ fields := by
  induction fields with
  | nil => exact fun e he => .inl (mem_singleton.mp he)
  | cons d fields ih =>
    intro e he
    rw [insertEntry] at he
    split at he
    · exact mem_cons.mp he
    · split at he
      · exact (mem_cons.mp he).imp_right (mem_cons_of_mem _)
      · rcases mem_cons.mp he with rfl | he
        · exact .inr mem_cons_self
        · exact (ih e he).imp_right (mem_cons_of_mem _)

/-- A field is put where the order asks for it, and replaces an older one. -/
theorem sorted_insertEntry {key : SymbolId} {fields : List (SymbolId × Capture)}
    (h : fields.Pairwise fun a b => a.1.index < b.1.index) :
    (insertEntry key c fields).Pairwise fun a b => a.1.index < b.1.index := by
  induction fields with
  | nil => exact pairwise_singleton _ _
  | cons d fields ih =>
    obtain ⟨hd, hfields⟩ := pairwise_cons.mp h
    rw [insertEntry]
    split
    · next hlt =>
        exact pairwise_cons.mpr ⟨forall_mem_cons.mpr ⟨hlt, fun e he => hlt.trans (hd e he)⟩, h⟩
    · split
      · next heq => exact pairwise_cons.mpr ⟨heq ▸ hd, hfields⟩
      · next hge hne =>
        refine pairwise_cons.mpr ⟨fun e he => ?_, ih hfields⟩
        rcases mem_insertEntry e he with rfl | he
        · have hindex : key.index ≠ d.1.index :=
            fun h => hne (by cases key; cases hd' : d.1; simp_all)
          exact Nat.lt_of_le_of_ne (Nat.not_lt.mp hge) hindex.symm
        · exact hd e he

theorem Named.insert (h : s.Named) (hc : ShownAs c.symbol c.name) : (s.insert c).Named where
  sorted := sorted_insertEntry h.sorted
  shown e he := (mem_insertEntry e he).elim (fun heq => heq ▸ ⟨rfl, hc⟩) (h.shown e)

/-- No two fields have the same name. -/
theorem Named.nodup (h : s.Named) : (s.toList.map Capture.name).Nodup := by
  rw [toList, map_map, List.Nodup, pairwise_map]
  refine h.sorted.imp_of_mem fun {a b} ha hb hlt heq => ?_
  have hname : a.2.name = b.2.name := heq
  have hsame := (h.shown a ha).2.unique (hname ▸ (h.shown b hb).2)
  exact absurd hlt (hsame ▸ Nat.lt_irrefl _)

end CaptureSet

namespace Lowering

variable {ctx : Context} {L L' : Ledger} {cur : List Op} {ph : Phrase} {code : Code}

/-- The fields of the ledger have names that are shown for their variables. -/
def Ledger.Named (L : Ledger) : Prop := L.captures.Named

namespace Ledger.Named

theorem capture (h : L.Named) (x : SymbolId) (type : TypeRef) (origin : CaptureOrigin)
    (liveness : Liveness) : (L.capture x type origin liveness).Named :=
  CaptureSet.Named.insert h (L.symbols.display_shownAs x)

theorem dropIfCleared (h : L.Named) (ctx : Context) (x : SymbolId) (type : TypeRef) :
    (L.dropIfCleared ctx x type).Named := by
  obtain ⟨scopes, hdrop⟩ := L.dropIfCleared_eq ctx x type
  rw [hdrop]
  exact h

theorem captureLocal (h : L.Named) (ctx : Context) (x : SymbolId) (type : TypeRef) :
    (L.captureLocal ctx x type).Named :=
  (h.capture ..).dropIfCleared ctx x type

theorem newSymbol (h : L.Named) (name : String) (type : TypeRef) :
    (L.newSymbol name type).Named := h

theorem reserve (h : L.Named) (n : Nat) : (L.reserve n).Named := h

theorem unnest (h : L.Named) (outer : Ledger) : (L.unnest outer).Named := h

theorem newField (h : L.Named) (ctx : Context) (name : String) (type : TypeRef)
    (origin : CaptureOrigin) :
    (L.newField ctx name type origin).Named := (h.newSymbol name type).capture ..

theorem enter (h : L.Named) {tag : Tag} (he : L.enter tag = .ok L') : L'.Named := by
  obtain ⟨tags, -, rfl⟩ := enter_ok he
  exact h

theorem enterAll (h : L.Named) {tags : List Tag} (he : L.enterAll tags = .ok L') : L'.Named := by
  induction tags generalizing L with
  | nil =>
    cases he
    exact h
  | cons tag tags ih =>
    obtain ⟨L₁, hfirst, hrest⟩ := enterAll_ok he
    exact ih (h.enter hfirst) hrest

theorem route (h : L.Named) {tag : Tag} {ops : List Op} (hroute : L.route ctx tag = .ok (ops, L')) :
    L'.Named := by
  obtain ⟨exits, -, rfl⟩ := route_ok hroute
  exact h

theorem captureResources (resources : List (SymbolId × TypeRef)) (h : L.Named) :
    (L.captureResources resources).Named := by
  induction resources generalizing L with
  | nil => exact h
  | cons r resources ih => exact ih (h.capture ..)

theorem declareGuard (h : L.Named) (ctx : Context) (resources : List (SymbolId × TypeRef)) :
    (L.declareGuard ctx resources).Named := by
  have hselector := Named.newField (L := { L with nextMachine := L.nextMachine + 1 }) h ctx
      "selector" .int .selector
  have hpending := (hselector.newField ctx "handling" .boolean .synthetic).newSymbol
      "pending" .throwable
  exact captureResources resources
    ((hpending.capture ..).newField ctx "pendingJump" .int .synthetic)

end Ledger.Named

/-- **Fields are named for their variables**, whatever code is made. -/
theorem Made.named (h : Made ctx L cur ph code L') (hL : L.Named) : L'.Named := by
  induction h with
  | plain | nil | noBranch | noCases | noHandlers | noFinal => exact hL
  | declare => exact hL.captureLocal ..
  | emit _ _ henter => exact (hL.reserve 1).enter henter
  | emitAll _ _ _ hL₁ _ henter =>
    subst hL₁
    exact ((hL.newField ..).reserve 1).enter henter
  | block _ _ ih | loopStmt _ _ _ ih | switch _ _ _ _ ih | labeledLoop _ _ _ _ ih
  | synchronized _ _ _ _ ih
  | branch _ ih | whileLoop _ _ ih | doWhile _ _ ih | forLoop _ _ _ ih | forEach _ _ ih
  | opening _ ih | final _ ih
  | scope _ ih => exact ih hL
  | cond _ _ _ _ ih ih' | cons _ _ ih ih' | counting _ _ ih ih'
  | guarded _ _ ih ih' => exact ih' (ih hL)
  | split _ _ _ _ _ henter ihYes ihNo => exact ((ihNo (ihYes hL)).reserve 1).enter henter
  | labeled _ _ _ _ henter ih | choice _ _ henter ih => exact (ih hL).enter henter
  | ret hroute | brk _ hroute | cont _ hroute => exact hL.route hroute
  | tryCatch _ _ _ hL₁ hguard _ hfinal _ hsettle hend ihInner ihCode =>
    subst hL₁
    have hguards := ((hL.declareGuard ..).reserve 3).enter hguard
    have hinside := ihInner hguards
    obtain ⟨exits, -, rfl⟩ := settleOps_exits hsettle
    have houtside := (Ledger.Named.unnest hinside _).enter hfinal
    refine Ledger.Named.enter ?_ hend
    exact ihCode houtside
  | each _ _ hL₁ _ _ ih =>
    subst hL₁
    exact ih (((hL.newField ..).dropIfCleared ..).captureLocal ..)
  | loop henter _ htail ih => exact (ih ((hL.reserve _).enter henter)).enterAll htail
  | case henter _ _ ihBody ihRest => exact ihRest (ihBody (hL.enter henter))
  | handler _ ih => exact ih (hL.captureLocal ..)
  | handlers _ henter _ _ ihBody ihRest => exact ihRest (ihBody ((hL.reserve 1).enter henter))

end Lowering

/-! ## Printed expressions -/

@[simp]
theorem Printed.text_append (symbols : SymbolTable) (ps qs : Printed) :
    Printed.text symbols (ps ++ qs) = Printed.text symbols ps ++ Printed.text symbols qs := by
  rw [Printed.text, map_append, String.join_append]
  rfl

@[simp]
theorem Printed.text_nil (symbols : SymbolTable) : Printed.text symbols [] = "" := rfl

@[simp]
theorem Printed.text_cons (symbols : SymbolTable) (f : Fragment) (ps : Printed) :
    Printed.text symbols (f :: ps) = f.text symbols ++ Printed.text symbols ps := by
  rw [Printed.text, map_cons, String.join_cons]
  rfl

namespace Expr

/-- Fragments at a place that asks for at least the precedence `least`. -/
def within (least : Nat) (e : Expr) (ps : Printed) : Printed :=
  if e.precedence < least then "(" ++ ps ++ ")" else ps

/-- The fragments of an increment. -/
def stepFragments (x : Ident) (delta : Int64) (yieldsOld : Bool) : Printed :=
  if delta = 1 then if yieldsOld then x ++ "++" else "++" ++ x
  else if delta = -1 then if yieldsOld then x ++ "--" else "--" ++ x
  else x ++ " += " ++ toString delta.toInt

mutual

/-- The fragments of an expression, none of which is one. -/
def fragments : Expr → Printed
  | literal l => l.text
  | ident x => x
  | unary op e => op.spelling ++ e.within unaryPrecedence (fragments e)
  | binary op a b =>
    a.within op.precedence (fragments a) ++ " " ++ op.spelling ++ " " ++ b.within
      (op.precedence + 1) (fragments b)
  | assign x op e => x ++ " " ++ (op.map BinaryOp.spelling).getD "" ++ "= " ++ fragments e
  | increment x delta old => stepFragments x delta old
  | call f args => f ++ "(" ++ argsFragments args ++ ")"
  | method e name args =>
    e.within primaryPrecedence (fragments e) ++ "." ++ name ++ "(" ++ argsFragments args ++ ")"

/-- The fragments of arguments. -/
def argsFragments : List Expr → Printed
  | [] => []
  | [e] => fragments e
  | e :: es => fragments e ++ ", " ++ argsFragments es

end

@[simp]
theorem text_within (symbols : SymbolTable) (least : Nat) (e : Expr) (ps : Printed) :
    Printed.text symbols (e.within least ps) = e.atLeast least (Printed.text symbols ps) := by
  rw [within, atLeast]
  split <;> simp [Fragment.text, String.append_assoc]

/-- A step is printed as its fragments are. -/
theorem text_stepFragments (symbols : SymbolTable) (x : Ident) (delta : Int64) (old : Bool) :
    Printed.text symbols (stepFragments x delta old) = stepText (x.text symbols) delta old := by
  simp only [stepFragments, stepText]
  split_ifs <;> simp [Fragment.text, String.append_assoc]

/-- Parentheses add words only. -/
theorem forall_mem_within {P : Fragment → Prop} (hword : ∀ s, P (.word s)) (least : Nat) (e : Expr)
    {ps : Printed} (h : ∀ f ∈ ps, P f) : ∀ f ∈ e.within least ps, P f := by
  rw [within]
  split
  · simpa [or_imp, forall_and, hword] using h
  · exact h

mutual

/-- The fragments of an expression are words, and the names that it uses. -/
theorem forall_mem_fragments {P : Fragment → Prop} (hword : ∀ s, P (.word s)) (e : Expr)
    (h : ∀ x ∈ e.occurrences, P (.ident x)) : ∀ f ∈ e.fragments, P f := by
  cases e with
  | literal => exact forall_mem_singleton.mpr (hword _)
  | ident x => exact forall_mem_singleton.mpr (h x mem_cons_self)
  | unary op e =>
    exact forall_mem_cons.mpr
      ⟨hword _, forall_mem_within hword _ _ (forall_mem_fragments hword e h)⟩
  | binary op a b =>
    obtain ⟨ha, hb⟩ := forall_mem_append.mp h
    have hleft := forall_mem_within hword op.precedence a (forall_mem_fragments hword a ha)
    have hright := forall_mem_within hword (op.precedence + 1) b (forall_mem_fragments hword b hb)
    simpa [fragments, or_imp, forall_and, hword] using And.intro hleft hright
  | assign x op e =>
    obtain ⟨hx, he⟩ := forall_mem_cons.mp h
    simpa [fragments, hword, hx] using forall_mem_fragments hword e he
  | increment x =>
    have hx := h x mem_cons_self
    simp only [fragments, stepFragments]
    split_ifs <;> simp [hword, hx]
  | call f args =>
    simpa [fragments, or_imp, forall_and, hword] using forall_mem_argsFragments hword args h
  | method e name args =>
    obtain ⟨he, hargs⟩ := forall_mem_append.mp h
    have htarget := forall_mem_within hword primaryPrecedence e (forall_mem_fragments hword e he)
    simpa [fragments, or_imp, forall_and, hword] using And.intro htarget
      (forall_mem_argsFragments hword args hargs)

theorem forall_mem_argsFragments {P : Fragment → Prop} (hword : ∀ s, P (.word s)) (es : List Expr)
    (h : ∀ x ∈ occurrencesAll es, P (.ident x)) : ∀ f ∈ argsFragments es, P f := by
  cases es with
  | nil => exact nofun
  | cons e es =>
    obtain ⟨he, hes⟩ := forall_mem_append.mp h
    have hfirst := forall_mem_fragments hword e he
    cases es with
    | nil => exact hfirst
    | cons e' es =>
      simpa [argsFragments, or_imp, forall_and, hword] using And.intro hfirst
        (forall_mem_argsFragments hword (e' :: es) hes)

end

mutual

/-- An expression is printed as its fragments are. -/
theorem text_fragments (symbols : SymbolTable) (e : Expr) :
    Printed.text symbols e.fragments = e.text symbols := by
  cases e with
  | literal | ident => simp [fragments, text, Fragment.text]
  | unary op e => simp [fragments, text, Fragment.text, text_fragments symbols e]
  | binary op a b =>
    simp [fragments, text, Fragment.text, text_fragments symbols a, text_fragments symbols b,
      String.append_assoc]
  | assign x op e =>
    simp [fragments, text, Fragment.text, text_fragments symbols e, String.append_assoc]
  | increment => rw [fragments, text, text_stepFragments]
  | call f args =>
    simp [fragments, text, Fragment.text, text_argsFragments symbols args, String.append_assoc]
  | method e name args =>
    simp [fragments, text, Fragment.text, text_fragments symbols e, text_argsFragments symbols args,
      String.append_assoc]

theorem text_argsFragments (symbols : SymbolTable) (es : List Expr) :
    Printed.text symbols (argsFragments es) = argsText symbols es := by
  cases es with
  | nil => rfl
  | cons e es =>
    cases es with
    | nil => exact text_fragments symbols e
    | cons e' es =>
      simp [argsFragments, argsText, Fragment.text, text_fragments symbols e,
        text_argsFragments symbols (e' :: es), String.append_assoc]

end

end Expr

/-- A fragment that is no expression. -/
def Fragment.expand : Fragment → Printed
  | expr e => e.fragments
  | f => [f]

/-- The line with its expressions taken apart. -/
def Line.expand : Line → Line
  | text level ps => text level (ps.flatMap Fragment.expand)
  | blank => blank

theorem Fragment.text_expand (symbols : SymbolTable) (f : Fragment) :
    Printed.text symbols f.expand = f.text symbols := by
  cases f with
  | expr e => exact e.text_fragments symbols
  | _ => simp [expand]

theorem Line.written_expand (symbols : SymbolTable) (l : Line) :
    l.expand.written symbols = l.written symbols := by
  cases l with
  | blank => rfl
  | text level ps =>
    have hps : Printed.text symbols (ps.flatMap Fragment.expand) = Printed.text symbols ps := by
      induction ps with
      | nil => rfl
      | cons f ps ih =>
        rw [flatMap_cons, Printed.text_append, ih, Fragment.text_expand, Printed.text_cons]
    rw [expand, written, hps, written]

/-- Lines are written as they are with their expressions taken apart. -/
theorem writeLines_expand (symbols : SymbolTable) (ls : List Line) :
    writeLines symbols (ls.map Line.expand) = writeLines symbols ls := by
  simp only [writeLines, foldl_map, Line.written_expand]

/-! ## Printed lines -/

/-- The fragments of the lines have the property. -/
def Prints (P : Fragment → Prop) (ls : List Line) : Prop := ∀ l ∈ ls, ∀ f ∈ l.fragments, P f

section Lines

variable {P : Fragment → Prop} {ps : Printed} {ks ls : List Line}

@[simp]
theorem prints_nil : Prints P [] := nofun

@[simp]
theorem prints_blank : Prints P (.blank :: ls) ↔ Prints P ls := by
  simp [Prints, Line.fragments]

@[simp]
theorem prints_append : Prints P (ks ++ ls) ↔ Prints P ks ∧ Prints P ls := forall_mem_append

@[simp]
theorem prints_line : Prints P (line ps) ↔ ∀ f ∈ ps, P f := forall_mem_singleton

@[simp]
theorem prints_nested : Prints P (nested ls) ↔ Prints P ls := by
  have hindent : ∀ l : Line, l.indent.fragments = l.fragments := by
    intro l
    cases l <;> rfl
  simp [Prints, nested, hindent]

@[simp]
theorem prints_flatMap {α : Type} {xs : List α} {g : α → List Line} :
    Prints P (xs.flatMap g) ↔ ∀ x ∈ xs, Prints P (g x) :=
  forall_mem_flatMap

/-- A block as a body loses its braces and nothing else. -/
theorem Prints.asBody (h : Prints P ls) (s : Stmt) : Prints P (s.asBody ls) := by
  cases s with
  | block => exact fun l hl => h l (mem_of_mem_drop (mem_of_mem_dropLast hl))
  | _ => exact prints_nested.mpr h

/-- Between fragments that are joined stand separators. -/
theorem forall_mem_joined {sep : String} {qs : List Printed} (hsep : P (.word sep))
    (h : ∀ q ∈ qs, ∀ f ∈ q, P f) : ∀ f ∈ Printed.joined sep qs, P f := by
  induction qs with
  | nil => exact nofun
  | cons q qs ih =>
    obtain ⟨hq, hqs⟩ := forall_mem_cons.mp h
    cases qs with
    | nil => simpa [Printed.joined] using hq
    | cons q' qs =>
      have hjoined : Printed.joined sep (q :: q' :: qs) = q ++ .word sep :: Printed.joined sep
          (q' :: qs) := by
        simp [Printed.joined]
      rw [hjoined]
      exact forall_mem_append.mpr ⟨hq, forall_mem_cons.mpr ⟨hsep, ih hqs⟩⟩

end Lines

namespace GeneratorClass

/-- The name denotes a variable or is no parameter's. -/
def Admits (c : GeneratorClass) (x : Ident) : Prop :=
  x.symbol = none → ∀ p ∈ c.params, p.name.name ≠ x.name

/-- What the fragments of a class are: names are admitted, fields and parameters are those of the
class. -/
def Allows (c : GeneratorClass) : Fragment → Prop
  | .word _ | .field _ | .own _ => True
  | .expr e => e.Idents c.Admits
  | .ident x => c.Admits x
  | .declared f => f ∈ c.captures.toList
  | .argument x => ∃ p ∈ c.params, p.name = x

variable {c : GeneratorClass}

@[simp]
theorem allows_word (s : String) : c.Allows (.word s) := trivial

@[simp]
theorem allows_field (x : SymbolId) : c.Allows (.field x) := trivial

@[simp]
theorem allows_own (o : OwnName) : c.Allows (.own o) := trivial

@[simp]
theorem allows_expr {e : Expr} : c.Allows (.expr e) ↔ e.Idents c.Admits := .rfl

@[simp]
theorem allows_ident {x : Ident} : c.Allows (.ident x) ↔ c.Admits x := .rfl

/-- A declaration is printed with its name and its value. -/
theorem printed_allowed {d : LocalDecl} (hname : c.Admits d.name)
    (hinit : ∀ e ∈ d.init.toList, e.Idents c.Admits) :
    (∀ f ∈ d.printed, c.Allows f) ∧ ∀ f ∈ d.furtherPrinted, c.Allows f := by
  cases hd : d.init with
  | none => simp [LocalDecl.printed, LocalDecl.furtherPrinted, hd, hname]
  | some e =>
    have he : e.Idents c.Admits := hinit e (by simp [hd])
    simp [LocalDecl.printed, LocalDecl.furtherPrinted, hd, hname, he]

theorem startPrinted_allowed {s : Stmt} (first : Bool) (h : s.Idents c.Admits) :
    ∀ f ∈ s.startPrinted first, c.Allows f := by
  cases s with
  | declare d =>
    obtain ⟨hfirst, hfurther⟩ := printed_allowed (d := d) (h.heads _ mem_cons_self) h.exprs
    rw [Stmt.startPrinted]
    split
    · exact hfirst
    · exact hfurther
  | expr e => exact forall_mem_singleton.mpr (h.exprs e mem_cons_self)
  | _ => exact nofun

theorem startsPrinted_allowed {ss : List Stmt} (h : ∀ s ∈ ss, s.Idents c.Admits) :
    ∀ f ∈ Stmt.startsPrinted ss, c.Allows f := by
  cases ss with
  | nil => exact nofun
  | cons =>
    obtain ⟨hs, hss⟩ := forall_mem_cons.mp h
    refine forall_mem_joined trivial (forall_mem_cons.mpr ⟨startPrinted_allowed true hs, ?_⟩)
    exact forall_mem_map.mpr fun t ht => startPrinted_allowed false (hss t ht)

/-- The labels of a case are printed with the names in them. -/
theorem labelLines_allowed {labels : List Expr} (isDefault : Bool)
    (h : ∀ e ∈ labels, e.Idents c.Admits) : Prints c.Allows (Stmt.labelLines labels isDefault) := by
  cases isDefault <;> simpa [Stmt.labelLines] using h

theorem jumpLine_allowed (word : String) (label : Option String) :
    Prints c.Allows (Stmt.jumpLine word label) := by
  cases label <;> simp [Stmt.jumpLine]

mutual

/-- A statement is printed with the names that it has. -/
theorem stmtLines_allowed (s : Stmt) (h : AllIdents c.Admits [s]) : Prints c.Allows s.lines := by
  have hs := h [] s (.top mem_cons_self)
  have hexprs := hs.exprs
  have hinside := h.children
  cases s with
  | empty | brk | cont => simp [Stmt.lines, jumpLine_allowed]
  | expr e | raise e => simpa [Stmt.lines] using hexprs e mem_cons_self
  | declare =>
    simpa [Stmt.lines, or_imp, forall_and]
      using (printed_allowed (hs.heads _ mem_cons_self) hexprs).1
  | block body => simpa [Stmt.lines] using allLines_allowed body hinside
  | cond test yes no =>
    have htest := hexprs test mem_cons_self
    have hyes := stmtLines_allowed yes (hinside.of_mem mem_cons_self)
    have hno := elseLines_allowed no hinside.tail
    simp [Stmt.lines, htest, hyes.asBody, hno]
  | whileLoop test body | doWhile body test =>
    have htest := hexprs test mem_cons_self
    simp [Stmt.lines, htest, (stmtLines_allowed body hinside).asBody]
  | forLoop init test update body =>
    obtain ⟨hinit, hbody⟩ := AllIdents.append.mp hinside
    obtain ⟨htest, hupdate⟩ := forall_mem_append.mp hexprs
    have hstarts := startsPrinted_allowed fun s hs => hinit [] s (.top hs)
    have hupdates : ∀ f ∈ Printed.joined ", " (update.map fun e => [Fragment.expr e]), c.Allows f :=
      forall_mem_joined trivial (by simpa  using hupdate)
    have htest' : ∀ f ∈ test.toList.map Fragment.expr, c.Allows f := forall_mem_map.mpr htest
    have hbody' := (stmtLines_allowed body hbody).asBody body
    have hhead := And.intro hstarts (And.intro htest' hupdates)
    simpa [Stmt.lines, or_imp, forall_and, hbody'] using hhead
  | forEach var iterable body =>
    have hvar := hs.heads var.name mem_cons_self
    have hiterable := hexprs iterable mem_cons_self
    simp [Stmt.lines, hvar, hiterable, (stmtLines_allowed body hinside).asBody]
  | switch selector cases =>
    obtain ⟨hselector, hlabels⟩ := forall_mem_cons.mp hexprs
    have hcases := caseLines_allowed cases hinside hlabels
    simpa [Stmt.lines, hcases] using hselector
  | tryCatch resources body catches final =>
    obtain ⟨hbodies, hfinal⟩ := AllIdents.append.mp hinside
    obtain ⟨hbody, hhandlers⟩ := AllIdents.append.mp hbodies
    obtain ⟨hnames, hparams⟩ := forall_mem_append.mp hs.heads
    have hopen : ∀ f ∈ Printed.joined "; " (resources.map LocalDecl.printed), c.Allows f := by
      refine forall_mem_joined trivial
        (forall_mem_map.mpr fun d hd => (printed_allowed ?_ fun e he => ?_).1)
      · exact hnames d.name (mem_map_of_mem hd)
      · exact hexprs e (mem_flatMap.mpr ⟨d, hd, he⟩)
    have hrest := catchLines_allowed catches hhandlers hparams
    rw [Stmt.lines]
    split
    · simp [allLines_allowed body hbody, hrest, finalLines_allowed final hfinal]
    · simpa [or_imp, forall_and, allLines_allowed body hbody, hrest,
        finalLines_allowed final hfinal] using hopen
  | labeled label body => simpa [Stmt.lines] using stmtLines_allowed body hinside
  | synchronized lock body =>
    have hlock := hexprs lock mem_cons_self
    simpa [Stmt.lines, hlock] using allLines_allowed body hinside
  | ret value =>
    cases value with
    | none => simp [Stmt.lines]
    | some e => simpa [Stmt.lines] using hexprs e mem_cons_self

theorem allLines_allowed (ss : List Stmt) (h : AllIdents c.Admits ss) :
    Prints c.Allows (Stmt.allLines ss) := by
  cases ss with
  | nil => exact prints_nil
  | cons s ss =>
    exact prints_append.mpr ⟨stmtLines_allowed s (h.of_mem mem_cons_self),
      allLines_allowed ss h.tail⟩

theorem elseLines_allowed (no : Option Stmt) (h : AllIdents c.Admits no.toList) :
    Prints c.Allows (Stmt.elseLines no) := by
  cases no with
  | none => exact prints_nil
  | some s => simpa [Stmt.elseLines] using (stmtLines_allowed s h).asBody s

theorem finalLines_allowed (final : Option (List Stmt)) (h : AllIdents c.Admits (final.getD [])) :
    Prints c.Allows (Stmt.finalLines final) := by
  cases final with
  | none => exact prints_nil
  | some body => simpa [Stmt.finalLines] using allLines_allowed body h

theorem caseLines_allowed (cs : List SwitchCase)
    (h : AllIdents c.Admits (cs.flatMap SwitchCase.body))
    (hlabels : ∀ e ∈ cs.flatMap SwitchCase.labels, e.Idents c.Admits) :
    Prints c.Allows (Stmt.caseLines cs) := by
  cases cs with
  | nil => exact prints_nil
  | cons k cs =>
    obtain ⟨labels, isDefault, body⟩ := k
    obtain ⟨hbody, hbodies⟩ := AllIdents.append.mp h
    obtain ⟨hfirst, hrest⟩ := forall_mem_append.mp hlabels
    have hhead : Prints c.Allows (Stmt.labelLines labels isDefault) :=
      labelLines_allowed isDefault hfirst
    simp [Stmt.caseLines, hhead, allLines_allowed body hbody, caseLines_allowed cs hbodies hrest]

theorem catchLines_allowed (cs : List CatchClause)
    (h : AllIdents c.Admits (cs.flatMap CatchClause.body))
    (hparams : ∀ x ∈ cs.map CatchClause.param, c.Admits x) :
    Prints c.Allows (Stmt.catchLines cs) := by
  cases cs with
  | nil => exact prints_nil
  | cons k cs =>
    obtain ⟨param, types, body⟩ := k
    obtain ⟨hbody, hbodies⟩ := AllIdents.append.mp h
    obtain ⟨hparam, hrest⟩ := forall_mem_cons.mp hparams
    have hname : c.Admits param := hparam
    simp [Stmt.catchLines, hname, allLines_allowed body hbody, catchLines_allowed cs hbodies hrest]

end

theorem closeLines_allowed (resources : List SymbolId) (suppress : Bool) :
    Prints c.Allows (closeLines resources suppress) := by
  cases suppress <;> simp [closeLines]

/-- The test of a handler names types and the class's own variables. -/
theorem handlerLines_allowed (label : String) (handling selector : SymbolId) (h : Handler) :
    Prints c.Allows (c.handlerLines label handling selector h) := by
  have htypes : ∀ f ∈ Printed.joined " || "
      (h.types.map fun t => OwnName.failure ++ (" instanceof " ++ t.text)),
      c.Allows f := forall_mem_joined trivial (by simp)
  simpa [handlerLines, or_imp, forall_and] using htypes

/-- What runs a guarded machine names fields and the class's own variables. -/
theorem guardLines_allowed (machine : Machine) (g : GuardFields) :
    Prints c.Allows (c.guardLines machine g) := by
  rw [guardLines]
  split <;> simp [closeLines_allowed, handlerLines_allowed]

mutual

/-- An op is printed with the names that it has. -/
theorem opLines_allowed {p : OpPrinter} (hp : p.cls = c) (op : Op)
    (h : op.Every (Op.Idents c.Admits)) : Prints c.Allows (p.opLines op) := by
  have hexprs := h.self.1
  cases op with
  | plain s => exact stmtLines_allowed s (h.self.2 s rfl)
  | assign target value | yield value => simpa [OpPrinter.opLines] using hexprs value mem_cons_self
  | clear | setState | jump | finish
  | rethrow => simp [OpPrinter.opLines, OpPrinter.jumpLines, OpPrinter.selectLine]
  | cond test yes no =>
    have htest := hexprs test mem_cons_self
    have hyes := opsLines_allowed hp yes h.2.1
    have hno := opsLines_allowed hp no h.2.2
    rw [OpPrinter.opLines]
    split <;> simp [htest, hyes, hno]
  | switch selector arms =>
    obtain ⟨hselector, hlabels⟩ := forall_mem_cons.mp hexprs
    have harms : ∀ a ∈ arms, Prints c.Allows (Stmt.labelLines a.labels a.isDefault) := fun a ha =>
      labelLines_allowed a.isDefault fun e he => hlabels e (mem_flatMap.mpr ⟨a, ha, he⟩)
    simpa [OpPrinter.opLines, OpPrinter.armLines, OpPrinter.jumpLines, OpPrinter.selectLine,
      hselector] using harms
  | synchronized lock body =>
    have hlock := hexprs lock mem_cons_self
    simpa [OpPrinter.opLines, hlock] using opsLines_allowed hp body h.2
  | guarded machine fields => exact hp ▸ guardLines_allowed machine fields

theorem opsLines_allowed {p : OpPrinter} (hp : p.cls = c) (ops : List Op)
    (h : EveryOp (Op.Idents c.Admits) ops) : Prints c.Allows (p.opsLines ops) := by
  cases ops with
  | nil => exact prints_nil
  | cons op ops => exact prints_append.mpr ⟨opLines_allowed hp op h.1, opsLines_allowed hp ops h.2⟩

end

/-- A machine is printed with the names that its ops have. -/
theorem machineLines_allowed {m : Machine} (h : m.Every (Op.Idents c.Admits)) :
    Prints c.Allows (c.machineLines m) := by
  have hevery : EveryState (Op.Idents c.Admits) m.states := by
    cases m
    exact h
  have hstates : ∀ s ∈ m.states,
      Prints c.Allows (OpPrinter.opsLines ⟨c, s!"dispatch{m.id.number}", m.selector⟩ s.ops) :=
    fun s hs => opsLines_allowed rfl s.ops (hevery.ops s hs)
  simpa [machineLines] using hstates

/-- The constructor names its parameters, and fields after them. -/
theorem constructorLines_allowed (h : ∀ p ∈ c.params, p.name.symbol.isSome) :
    Prints c.Allows c.constructorLines := by
  have hargument : ∀ p ∈ c.params, c.Allows (.argument p.name) := fun p hp => ⟨p, hp, rfl⟩
  have hparams : ∀ f ∈ Printed.joined ", "
      (c.params.map fun p => (p.type.text ++ " ") ++ [Fragment.argument p.name]),
      c.Allows f := forall_mem_joined trivial (by simpa using hargument)
  have hname : ∀ p ∈ c.params, c.Admits p.name := fun p hp hnone => by simpa [hnone] using h p hp
  simpa [constructorLines, or_imp, forall_and] using And.intro hparams (And.intro hname hargument)

/-- **A class is printed with the names that its ops have.** -/
theorem lines_allowed (hparams : ∀ p ∈ c.params, p.name.symbol.isSome)
    (hops : c.advance.Every (Op.Idents c.Admits)) : Prints c.Allows c.lines := by
  have hmachines : ∀ m ∈ c.advance.machines, Prints c.Allows (c.machineLines m) := fun m hm =>
    machineLines_allowed (hops.machines m hm)
  have hfields : ∀ f ∈ c.captures.toList, c.Allows (.declared f) := fun f hf => hf
  have hprotocol : Prints c.Allows c.protocolLines := by simp [protocolLines]
  simpa [lines, constructorLines_allowed hparams, hprotocol] using And.intro hfields hmachines

/-- The fragments of the class, with expressions taken apart. -/
def fragments (c : GeneratorClass) : Printed := (c.lines.map Line.expand).flatMap Line.fragments

/-- Fragments with expressions taken apart are allowed if the lines are, and none is an expression.
-/
theorem fragments_allowed (h : Prints c.Allows c.lines) :
    ∀ f ∈ c.fragments, c.Allows f ∧ ∀ e, f ≠ .expr e := by
  have hexpand : ∀ f, c.Allows f → ∀ g ∈ f.expand, c.Allows g ∧ ∀ e, g ≠ .expr e := by
    intro f hf
    cases f with
    | expr e => exact Expr.forall_mem_fragments (by simp) e fun x hx => ⟨hf x hx, by simp⟩
    | _ => exact forall_mem_singleton.mpr ⟨hf, by simp⟩
  intro f hf
  obtain ⟨l, hl, hf⟩ := mem_flatMap.mp hf
  obtain ⟨l, hline, rfl⟩ := mem_map.mp hl
  cases l with
  | blank => cases hf
  | text =>
    obtain ⟨g, hg, hf⟩ := mem_flatMap.mp hf
    exact hexpand g (h _ hline g hg) f hf

end GeneratorClass

/-! ## What names stand for -/

/-- What a name in a printed class stands for. -/
inductive Denotation where
  /-- a variable -/
  | bound (id : SymbolId)
  /-- what a free name of the source stands for -/
  | free (name : String)
  /-- a variable of the class -/
  | own (o : OwnName)
  deriving DecidableEq

/-- A name in a printed class. -/
structure PrintedName where
  /-- the name as it is printed -/
  text : String
  /-- what it stands for -/
  denotes : Denotation
  /-- whether it is printed as in the source -/
  asWritten : Bool

/-- What a name of a procedure stands for. -/
def Ident.denotes (x : Ident) : Denotation :=
  match x.symbol with
  | some id => .bound id
  | none => .free x.name

/-- The parameter as it is named by the constructor. -/
def Param.printed (p : Param) : PrintedName := ⟨p.name.name, p.name.denotes, true⟩

/-- The name that a fragment is. What is thrown unchecked is seen where no other name is, and left
out. -/
def Fragment.name? (symbols : SymbolTable) (f : Fragment) : Option PrintedName :=
  match f with
  | word _ | expr _ | own .thrown => none
  | ident x => some ⟨f.text symbols, x.denotes, x.symbol.isNone⟩
  | argument x => some ⟨f.text symbols, x.denotes, true⟩
  | field id => some ⟨f.text symbols, .bound id, false⟩
  | declared x => some ⟨f.text symbols, .bound x.symbol, false⟩
  | own o => some ⟨f.text symbols, .own o, false⟩

namespace GeneratorClass

/-- The names in the class. -/
def names (c : GeneratorClass) : List PrintedName :=
  c.fragments.filterMap (Fragment.name? c.symbols)

/-- Names that are alike stand for the same, and none but the class's own is like one of these. -/
structure Hygienic (c : GeneratorClass) : Prop where
  same : ∀ m ∈ c.names, ∀ n ∈ c.names, m.text = n.text → m.denotes = n.denotes
  own : ∀ n ∈ c.names, ∀ o : OwnName, o ≠ .thrown → n.text = o.text → n.denotes = .own o

/-- What is known of a name: one that is not printed as in the source is shown for its variable, or
is the class's own; others are free and no parameter's, or are parameters. -/
inductive Reads (c : GeneratorClass) : PrintedName → Prop where
  | bound {id x} (h : ShownAs id x) : Reads c ⟨x, .bound id, false⟩
  | own {o : OwnName} (h : o ≠ .thrown) : Reads c ⟨o.text, .own o, false⟩
  | free {x} (h : ∀ p ∈ c.params, p.name.name ≠ x) : Reads c ⟨x, .free x, true⟩
  | argument {p} (h : p ∈ c.params) : Reads c p.printed

variable {c : GeneratorClass} {m n : PrintedName}

/-- A name of the class is of one of these forms. -/
theorem reads (hfields : c.captures.Named) {f : Fragment} (hf : c.Allows f)
    (hn : f.name? c.symbols = some n) : c.Reads n := by
  cases f with
  | word | expr => cases hn
  | ident x =>
    obtain ⟨name, symbol⟩ := x
    cases symbol <;> cases hn
    · exact .free (hf rfl)
    · exact .bound (c.symbols.display_shownAs _)
  | field id =>
    cases hn
    exact .bound (c.symbols.display_shownAs id)
  | declared =>
    cases hn
    obtain ⟨entry, hmem, rfl⟩ := mem_map.mp hf
    obtain ⟨hsymbol, hshown⟩ := hfields.shown entry hmem
    exact .bound (hsymbol ▸ hshown)
  | argument =>
    cases hn
    obtain ⟨p, hp, rfl⟩ := hf
    exact .argument hp
  | own o =>
    have ho : o ≠ .thrown := by
      rintro rfl
      cases hn
    have hown : n = ⟨o.text, .own o, false⟩ := by
      cases o <;> first | exact absurd rfl ho | exact (Option.some.inj hn).symm
    exact hown ▸ .own ho

/-- A name that is not printed as in the source is reserved. -/
theorem Reads.reserved (h : c.Reads n) (hw : n.asWritten = false) : Reserved n.text := by
  cases h with
  | bound h => exact .inl ⟨_, h⟩
  | own ho => exact .inr ⟨_, ho, rfl⟩
  | free | argument => cases hw

theorem Reads.shown (h : c.Reads n) {id : SymbolId} (hn : n.denotes = .bound id)
    (hw : n.asWritten = false) : ShownAs id n.text := by
  cases h with
  | bound h =>
    cases hn
    exact h
  | own | free => cases hn
  | argument => cases hw

/-- Of two names that are alike and stand for different things, one alone is printed as in the
source, or both are parameters. -/
theorem Reads.alike (hm : c.Reads m) (hn : c.Reads n) (heq : m.text = n.text) :
    m.denotes = n.denotes ∨ m.asWritten ≠ n.asWritten ∨
      ∃ p ∈ c.params, ∃ q ∈ c.params, m = p.printed ∧ n = q.printed := by
  cases hm with
  | bound h =>
    cases hn with
    | bound h' => exact .inl (congrArg Denotation.bound (h.unique (Eq.mpr (congrArg _ heq) h')))
    | own => exact absurd heq (h.ne_own _)
    | free | argument => exact .inr (.inl Bool.false_ne_true)
  | own =>
    cases hn with
    | bound h' => exact absurd heq.symm (h'.ne_own _)
    | own => exact .inl (congrArg Denotation.own (OwnName.text_injective heq))
    | free | argument => exact .inr (.inl Bool.false_ne_true)
  | free h =>
    cases hn with
    | bound | own => exact .inr (.inl Bool.false_ne_true.symm)
    | free => exact .inl (congrArg Denotation.free heq)
    | argument hq => exact absurd heq.symm (h _ hq)
  | argument hp =>
    cases hn with
    | bound | own => exact .inr (.inl Bool.false_ne_true.symm)
    | free h' => exact absurd heq (h' _ hp)
    | argument hq => exact .inr (.inr ⟨_, hp, _, hq, rfl, rfl⟩)

/-- How far the names of a class are apart. -/
structure NamesApart (c : GeneratorClass) : Prop where
  /-- the class is printed in fragments that are words or names -/
  printed : c.render = writeLines c.symbols (c.lines.map Line.expand) ∧ ∀ f ∈ c.fragments, ∀ e,
  f ≠ .expr e
  /-- fields have names of their own -/
  fields : (c.captures.toList.map Capture.name).Nodup
  /-- no variable is shown as one of the class's own -/
  shown : ∀ n ∈ c.names, ∀ id, n.denotes = .bound id → n.asWritten = false →
    ∀ o : OwnName, n.text ≠ o.text
  /-- names that are alike stand for the same, unless one alone is printed as in the source, or both
  are parameters -/
  alike : ∀ m ∈ c.names, ∀ n ∈ c.names, m.text = n.text → m.denotes = n.denotes ∨
    m.asWritten ≠ n.asWritten ∨
      ∃ p ∈ c.params, ∃ q ∈ c.params, m = p.printed ∧ n = q.printed
  /-- so they stand for the same if no name of the source is reserved and the parameters have
  different names -/
  hygienic : (∀ n ∈ c.names, n.asWritten = true → ¬ Reserved n.text) →
    (c.params.map fun p => p.name.name).Nodup →
    c.Hygienic

/-- Names of the source that are not reserved are apart from all others. -/
theorem hygienic_of_reads (hreads : ∀ n ∈ c.names, c.Reads n)
    (hwritten : ∀ n ∈ c.names, n.asWritten = true → ¬ Reserved n.text)
    (hparams : (c.params.map fun p => p.name.name).Nodup) : c.Hygienic := by
  have hfree : ∀ n ∈ c.names, Reserved n.text → n.asWritten = false := fun n hn hr =>
    Bool.eq_false_iff.mpr fun hw => hwritten n hn hw hr
  constructor
  · intro m hm n hn heq
    rcases (hreads m hm).alike (hreads n hn) heq with hsame | hmixed | ⟨p, hp, q, hq, rfl, rfl⟩
    · exact hsame
    · -- the one that is not printed as in the source is reserved, and so is the other
      have hleft := fun hw => hfree n hn (heq ▸ (hreads m hm).reserved hw)
      have hright := fun hw => hfree m hm (heq ▸ (hreads n hn).reserved hw)
      cases hw : m.asWritten <;> cases hw' : n.asWritten <;> simp_all
    · exact congrArg (fun r : Param => r.name.denotes) (inj_on_of_nodup_map hparams hp hq heq)
  · intro n hn o ho heq
    have hw := hfree n hn (.inr ⟨o, ho, heq⟩)
    cases hreads n hn with
    | bound h => exact absurd heq (h.ne_own o)
    | own => exact congrArg Denotation.own (OwnName.text_injective heq)
    | free | argument => cases hw

end GeneratorClass

namespace Procedure

open Lowering

variable {p : Procedure} {settings : Settings} {cls : GeneratorClass}

/-- The fields of a class are named for their variables. -/
theorem captures_named (b : Blueprint p settings cls) : cls.captures.Named := by
  have hinitial : (Ledger.initial p.resolve.2).Named :=
    CaptureSet.Named.insert (s := .empty) ⟨.nil, nofun⟩ (SymbolTable.display_shownAs _ _)
  have hparams : ∀ (xs : List (SymbolId × TypeRef)) (L : Ledger), L.Named →
      (L.captureParams xs).Named := by
    intro xs
    induction xs with
    | nil => exact fun _ h => h
    | cons x xs ih => exact fun L h => ih _ (h.capture ..)
  rw [b.class_eq]
  exact b.made.named (hparams _ _ hinitial)

/-- The parameters of a class denote variables, and no free name in it is one of theirs. -/
theorem names_admitted (b : Blueprint p settings cls) :
    (∀ q ∈ cls.params, q.name.symbol.isSome) ∧ cls.advance.Every (Op.Idents cls.Admits) := by
  have hparams : cls.params = (p.params.mapM Param.resolve ⟨[], .empty⟩).1 := by
    rw [b.class_eq]
    rfl
  have hbinds := Param.resolveAll_binds p.params ⟨[], .empty⟩
  -- what is in force behind the parameters is what they declare
  have hforce : ∀ q ∈ cls.params,
      ∃ n ∈ (p.params.mapM Param.resolve ⟨[], .empty⟩).2.names, ⟨n.1, some n.2⟩ = q.name := by
    intro q hq
    have hmem : q.name ∈ (p.params.mapM Param.resolve ⟨[], .empty⟩).2.idents := by
      rw [hbinds.idents]
      have hdeclared := mem_map_of_mem (f := Param.declaration) (hparams ▸ hq)
      exact mem_append_left _ (mem_reverse.mpr (mem_map_of_mem (f := Declaration.ident) hdeclared))
    exact mem_map.mp hmem
  have hcovers : Covers cls.Admits (p.params.mapM Param.resolve ⟨[], .empty⟩).2.names := by
    intro x hnone q hq hname
    obtain ⟨n, hn, hident⟩ := hforce q hq
    have hlookup := lookup_eq_none_iff.mp hnone n hn
    have hn : n.1 = q.name.name := congrArg Ident.name hident
    exact bne_iff_ne.mp hlookup (hname.symm.trans hn.symm)
  have hbound : ∀ x : Ident, x.symbol.isSome → cls.Admits x :=
    fun x hx hnone => by simp [hnone] at hx
  refine ⟨fun q hq => ?_, ?_⟩
  · obtain ⟨n, -, hident⟩ := hforce q hq
    exact hident ▸ rfl
  · exact b.traced.imp fun _ hop => hop.idents hbound (Stmt.resolveAll_idents hbound p.body hcovers)

/-- **Names in a printed class stand for one thing each**, up to names that are printed as in the
source. -/
theorem lower_namesApart (h : p.lower settings = .ok cls) : cls.NamesApart := by
  obtain ⟨b⟩ := lower_blueprint h
  obtain ⟨hparams, hops⟩ := names_admitted b
  have hfragments := GeneratorClass.fragments_allowed (GeneratorClass.lines_allowed hparams hops)
  have hreads : ∀ n ∈ cls.names, cls.Reads n := by
    intro n hn
    obtain ⟨f, hf, hname⟩ := mem_filterMap.mp hn
    exact GeneratorClass.reads (captures_named b) (hfragments f hf).1 hname
  exact {
    printed := ⟨(writeLines_expand cls.symbols cls.lines).symm, fun f hf => (hfragments f hf).2⟩
    fields := (captures_named b).nodup
    shown := fun n hn _ hid hw => ((hreads n hn).shown hid hw).ne_own
    alike := fun m hm n hn => (hreads m hm).alike (hreads n hn)
    hygienic := GeneratorClass.hygienic_of_reads hreads }

/-- What can be computed of a class. -/
theorem of_lower (h : p.lower settings = .ok cls) {P : GeneratorClass → Bool}
    (hP : (p.lower settings).toOption.all P = true) : P cls = true := by
  rw [h] at hP
  exact hP

/-- A procedure with two variables of one name, and a free name. -/
def repeating : Procedure where
  name := "repeating"
  params := [⟨.free "x", .int⟩]
  returnType := none
  body := [.block [ .declare ⟨.free "x", .int, some (.int 1)⟩ .unknown,
    .expr (.call "step" [.binary .add (.ident (.free "x")) (.ident (.free "limit"))]) .unknown]
      .unknown]
  location := .unknown

theorem repeating_names : (repeating.lower {}).toOption.all (fun c =>
    c.names.all fun n => !n.asWritten || !n.text.toList.contains '$') = true := by decide +kernel

theorem lower_namesApart_repeating : ∃ cls, repeating.lower {} = .ok cls ∧ cls.NamesApart ∧
    cls.Hygienic := by
  have hgrammatical : repeating.Grammatical := by decide
  have hlawful : repeating.Lawful ({} : Settings).markers := by decide
  obtain ⟨cls, h⟩ := accepts_lawful hgrammatical hlawful
  have hparams : (cls.params.map fun p => p.name.name) = ["x"] := by
    obtain ⟨b⟩ := lower_blueprint h
    rw [b.class_eq]
    rfl
  have hapart := lower_namesApart h
  have hdifferent : (cls.params.map fun p => p.name.name).Nodup := hparams ▸ nodup_singleton _
  refine ⟨cls, h, hapart, hapart.hygienic (fun n hn hw => not_reserved fun hmem => ?_) hdifferent⟩
  have hfree := all_eq_true.mp (of_lower h repeating_names) n hn
  simp [hw, hmem] at hfree

/-- A procedure with a free name like the one that its variable is shown under. -/
def mimicking : Procedure where
  name := "mimicking"
  params := []
  returnType := none
  body := [ .declare ⟨.free "x", .int, some (.int 1)⟩ .unknown,
    .expr (.call "step" [.ident (.free "x$0")]) .unknown]
  location := .unknown

theorem mimicking_names : (mimicking.lower {}).toOption.all (fun c =>
    (c.names.any fun n => n.text == "x$0" && n.denotes == .bound ⟨0⟩) &&
      c.names.any fun n => n.text == "x$0" && n.denotes == .free "x$0") = true := by decide +kernel

/-- The two are alike in its class. -/
theorem mimicking_not_hygienic : mimicking.Grammatical ∧ ∃ cls, mimicking.lower {} = .ok cls ∧
    ¬ cls.Hygienic := by
  have hgrammatical : mimicking.Grammatical := by decide
  have hlawful : mimicking.Lawful ({} : Settings).markers := by decide
  obtain ⟨cls, h⟩ := accepts_lawful hgrammatical hlawful
  have hnames := of_lower h mimicking_names
  simp only [any_eq_true, Bool.and_eq_true, beq_iff_eq] at hnames
  obtain ⟨⟨m, hm, hmtext, hmbound⟩, n, hn, hntext, hnfree⟩ := hnames
  refine ⟨hgrammatical, cls, h, fun hygienic => ?_⟩
  have hsame := hygienic.same m hm n hn (hmtext.trans hntext.symm)
  rw [hmbound, hnfree] at hsame
  cases hsame

end Procedure

end Resumable
