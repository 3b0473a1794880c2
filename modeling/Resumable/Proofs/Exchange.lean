import Resumable.Machine.Codec
import Resumable.Proofs.Idents

/-!
# Exchange forms are read back

* `Decodes d f a`: the exchange form of `a` is read as `a`, if it may be nested as deeply as it is;
* numbers have to be words of the sizes that the exchange form has for them, which is what `Fits`
  says of each kind of tree, and fields have to stand in the order of their symbols.
-/

namespace Resumable

open List

namespace Json

variable {ms : List (String × Json)} {n : Nat}

/-! ## Nesting -/

theorem depthItems_le {js : List Json} : depthItems js ≤ n ↔ ∀ j ∈ js, j.depth ≤ n := by
  induction js with
  | nil => simp [depthItems]
  | cons j js ih => rw [depthItems, Nat.max_le, ih, forall_mem_cons]

theorem depthMembers_cons_le {name : String} {j : Json} :
    depthMembers ((name, j) :: ms) ≤ n ↔ j.depth ≤ n ∧ depthMembers ms ≤ n := by
  rw [depthMembers, Nat.max_le]

/-- A list takes one level and those of its items. -/
theorem depth_arr_le {js : List Json} : (arr js).depth ≤ n ↔ ∃ k, n = k + 1 ∧
    ∀ j ∈ js, j.depth ≤ k := by
  rw [depth]
  constructor
  · intro h
    exact ⟨n - 1, by omega, depthItems_le.mp (by omega)⟩
  · rintro ⟨k, rfl, h⟩
    exact Nat.succ_le_succ (depthItems_le.mpr h)

/-- An object takes one level and those of its members. -/
theorem depth_obj_le : (obj ms).depth ≤ n ↔ ∃ k, n = k + 1 ∧ depthMembers ms ≤ k := by
  rw [depth]
  constructor
  · intro h
    exact ⟨n - 1, by omega, by omega⟩
  · rintro ⟨k, rfl, h⟩
    exact Nat.succ_le_succ h

/-! ## Reading back -/

/-- The exchange form of `a` is read as `a`. -/
def Decodes {α : Type} (d : Decoder α) (f : α → Json) (a : α) : Prop :=
  ∀ levels, (f a).depth ≤ levels → d levels (f a) = some a

variable {α : Type} {d : Decoder α} {f : α → Json}

/-- Elements that are read back one by one. -/
theorem mapM_reads {as : List α} {levels : Nat} (h : ∀ a ∈ as, d levels (f a) = some a) :
    (as.map f).mapM (d levels) = some as := by
  induction as with
  | nil => rfl
  | cons a as ih =>
    obtain ⟨ha, has⟩ := forall_mem_cons.mp h
    simp [ha, ih has]

/-- A list is read back if its elements are. -/
theorem list_reads {as : List α} (h : ∀ a ∈ as, Decodes d f a) :
    Decodes (list? d) (fun as => arr (as.map f)) as := by
  intro levels hlevels
  obtain ⟨k, rfl, hdepth⟩ := depth_arr_le.mp hlevels
  exact mapM_reads fun a ha => h a ha k (hdepth _ (mem_map_of_mem ha))

/-- A part that may be empty is read back if what it can be is not written as `null`. -/
theorem nullable_reads {o : Option α} (hnull : ∀ a, f a ≠ .null) (h : ∀ a ∈ o, Decodes d f a) :
    Decodes (fun levels => Slot.nullable (d levels)) (ofOption f) o := by
  intro levels hlevels
  cases o with
  | none => rfl
  | some a =>
    have ha := h a rfl levels hlevels
    have hnone : Slot.nullable (d levels) (f a) = (d levels (f a)).map some := by
      rw [Slot.nullable.eq_def]
      split
      · next heq => exact absurd heq (hnull a)
      · rfl
    simp only [ofOption, hnone, ha, Option.map_some]

theorem word32?_ofNat (h : n < Nat.pow 2 32) : word32? (.ofNat n) = some n := if_pos h

theorem word64?_ofNat (h : n < Nat.pow 2 64) : word64? (.ofNat n) = some n := if_pos h

/-- A 64-bit number is within the bounds that are checked. -/
theorem int64?_toInt (n : Int64) : int64? (.int n.toInt) = some n := by
  have hlow : -(2 ^ 63 : Int) ≤ n.toInt := Int64.le_toInt n
  have hhigh : n.toInt < 2 ^ 63 := Int64.toInt_lt n
  rw [int64?, if_pos ⟨hlow, hhigh⟩, Int64.ofInt_toInt]

end Json

open Json

attribute [simp] slots slotOf membersNamed Slot.required Slot.withDefault Slot.optional text? bool?

/-! ## Trees -/

/-- The place has numbers of 64 bits. -/
def Location.Fits (l : Location) : Prop :=
  l.line < Nat.pow 2 64 ∧ l.column < Nat.pow 2 64 ∧ l.offset < Nat.pow 2 64

/-- The identity has 32 bits. -/
def SymbolId.Fits (s : SymbolId) : Prop := s.index < Nat.pow 2 32

/-- The occurrence denotes a variable of 32 bits, if any. -/
def Ident.Fits (x : Ident) : Prop := ∀ s ∈ x.symbol, s.Fits

theorem Location.json_reads (l : Location) (h : l.Fits) : Decodes ofJson? toJson l := by
  intro levels hlevels
  obtain ⟨k, rfl, -⟩ := depth_obj_le.mp hlevels
  obtain ⟨hline, hcolumn, hoffset⟩ := h
  simp [toJson, ofJson?, word64?_ofNat hline, word64?_ofNat hcolumn, word64?_ofNat hoffset]

theorem SymbolId.ofJson?_toJson (s : SymbolId) (h : s.Fits) : ofJson? s.toJson = some s := by
  rw [toJson, ofJson?, word32?_ofNat h]
  rfl

theorem Ident.json_reads (x : Ident) (h : x.Fits) : Decodes ofJson? toJson x := by
  intro levels hlevels
  obtain ⟨name, symbol⟩ := x
  cases symbol with
  | none =>
    obtain ⟨k, rfl, -⟩ := depth_obj_le.mp hlevels
    simp [toJson, ofJson?]
  | some s =>
    obtain ⟨k, rfl, -⟩ := depth_obj_le.mp hlevels
    have hs : Slot.nullable SymbolId.ofJson? s.toJson = some (some s) :=
      congrArg (Option.map some) (s.ofJson?_toJson (h s rfl))
    simp [toJson, ofJson?, hs]

theorem Literal.json_reads (l : Literal) : Decodes ofJson? toJson l := by
  intro levels hlevels
  cases l with
  | int =>
    obtain ⟨k, rfl, -⟩ := depth_obj_le.mp hlevels
    simp [toJson, ofJson?, int64?_toInt]
  | bool | str =>
    obtain ⟨k, rfl, -⟩ := depth_obj_le.mp hlevels
    simp [toJson, ofJson?]
  | null => rfl

theorem BinaryOp.json_reads (op : BinaryOp) : Decodes ofJson? toJson op := by
  intro levels _
  cases op <;> rfl

theorem UnaryOp.json_reads (op : UnaryOp) : Decodes ofJson? toJson op := by
  intro levels _
  cases op <;> rfl

mutual

theorem TypeRef.json_reads (t : TypeRef) : Decodes ofJson? toJson t := by
  intro levels hlevels
  obtain ⟨name, args⟩ := t
  cases args with
  | nil =>
    obtain ⟨k, rfl, -⟩ := depth_obj_le.mp hlevels
    simp [toJson, ofJson?]
  | cons a as =>
    simp only [toJson, depth_obj_le, depth_arr_le, depthMembers_cons_le, forall_mem_cons] at hlevels
    obtain ⟨_, rfl, -, ⟨k, rfl, ha, has⟩, -⟩ := hlevels
    simp [toJson, ofJson?, listOfJson?, TypeRef.json_reads a k ha, TypeRef.args_read as k has]

theorem TypeRef.args_read (ts : List TypeRef) (k : Nat) (hk : ∀ j ∈ listToJson ts, j.depth ≤ k) :
    (listToJson ts).mapM (ofJson? k) = some ts := by
  cases ts with
  | nil => rfl
  | cons t ts =>
    obtain ⟨ht, hts⟩ := forall_mem_cons.mp hk
    simp [listToJson, TypeRef.json_reads t k ht, TypeRef.args_read ts k hts]

end

mutual

theorem Expr.json_reads (e : Expr) (h : e.Idents Ident.Fits) : Decodes ofJson? toJson e := by
  intro levels hlevels
  cases e with simp only [toJson, depth_obj_le, depth_arr_le, depthMembers_cons_le] at hlevels
  | literal l =>
    obtain ⟨k, rfl, hl, -⟩ := hlevels
    simp [toJson, ofJson?, l.json_reads k hl]
  | ident x =>
    obtain ⟨k, rfl, hx, -⟩ := hlevels
    simp [toJson, ofJson?, x.json_reads (h x mem_cons_self) k hx]
  | unary op e =>
    obtain ⟨_, rfl, ⟨k, rfl, hop, he, -⟩, -⟩ := hlevels
    simp [toJson, ofJson?, op.json_reads k hop, e.json_reads h k he]
  | binary op a b =>
    obtain ⟨ha, hb⟩ := forall_mem_append.mp h
    obtain ⟨_, rfl, ⟨k, rfl, hop, hda, hdb, -⟩, -⟩ := hlevels
    simp [toJson, ofJson?, op.json_reads k hop, a.json_reads ha k hda, b.json_reads hb k hdb]
  | assign x op e =>
    obtain ⟨hx, he⟩ := forall_mem_cons.mp h
    obtain ⟨_, rfl, ⟨k, rfl, hdx, hdop, hde, -⟩, -⟩ := hlevels
    have hop := nullable_reads (fun op => by simp [BinaryOp.toJson])
        (fun op _ => op.json_reads) k hdop
    simp [toJson, ofJson?, x.json_reads hx k hdx, hop, e.json_reads he k hde]
  | increment x =>
    obtain ⟨_, rfl, ⟨k, rfl, hx, -⟩, -⟩ := hlevels
    simp [toJson, ofJson?, x.json_reads (h x mem_cons_self) k hx, int64?_toInt]
  | call f args =>
    obtain ⟨_, rfl, ⟨_, rfl, -, ⟨k, rfl, hdargs⟩, -⟩, -⟩ := hlevels
    simp [toJson, ofJson?, listOfJson?, args_read args h k hdargs]
  | method e name args =>
    obtain ⟨he, hargs⟩ := forall_mem_append.mp h
    obtain ⟨_, rfl, ⟨_, rfl, hde, -, ⟨k, rfl, hdargs⟩, -⟩, -⟩ := hlevels
    simp [toJson, ofJson?, listOfJson?, e.json_reads he _ hde, args_read args hargs k hdargs]

theorem Expr.args_read (es : List Expr) (h : ∀ x ∈ occurrencesAll es, x.Fits) (k : Nat)
    (hk : ∀ j ∈ listToJson es, j.depth ≤ k) : (listToJson es).mapM (ofJson? k) = some es := by
  cases es with
  | nil => rfl
  | cons e es =>
    obtain ⟨he, hes⟩ := forall_mem_append.mp h
    obtain ⟨hde, hdes⟩ := forall_mem_cons.mp hk
    simp [listToJson, e.json_reads he k hde, args_read es hes k hdes]

end

theorem Expr.toJson_ne_null (e : Expr) : e.toJson ≠ .null := by
  cases e <;> simp [toJson]

theorem Expr.option_reads (o : Option Expr) (h : ∀ e ∈ o.toList, e.Idents Ident.Fits) :
    Decodes (fun levels => Slot.nullable (ofJson? levels)) (ofOption toJson) o :=
  nullable_reads toJson_ne_null fun e he => e.json_reads (h e (Option.mem_toList.mpr he))

theorem Expr.list_reads (es : List Expr) (h : ∀ e ∈ es, e.Idents Ident.Fits) :
    Decodes (list? ofJson?) (fun es => .arr (es.map toJson)) es :=
  Json.list_reads fun e he => e.json_reads (h e he)

theorem LocalDecl.json_reads (d : LocalDecl) (hname : d.name.Fits)
    (hinit : ∀ e ∈ d.init.toList, e.Idents Ident.Fits) : Decodes ofJson? toJson d := by
  intro levels hlevels
  simp only [toJson, depth_obj_le, depthMembers_cons_le] at hlevels
  obtain ⟨k, rfl, hdname, hdtype, hdinit, -⟩ := hlevels
  simp [toJson, ofJson?, d.name.json_reads hname k hdname, d.type.json_reads k hdtype,
    Expr.option_reads d.init hinit k hdinit]

namespace Stmt

/-- The names and places of all statements, at any depth, fit. -/
def AllFit (body : List Stmt) : Prop :=
  ∀ path s, Lies body path s → s.Idents Ident.Fits ∧ s.location.Fits

theorem placed_kindToJson (s : Stmt) : s.placed s.kindToJson = s.toJson := rfl

theorem listToJson_eq_map (ss : List Stmt) : listToJson ss = ss.map toJson := by
  induction ss with
  | nil => rfl
  | cons s ss ih => rw [listToJson, ih, map_cons, toJson]

theorem casesToJson_eq_map (cs : List SwitchCase) : casesToJson cs = cs.map caseToJson := by
  induction cs with
  | nil => rfl
  | cons c cs ih => rw [casesToJson, ih, map_cons]

theorem catchesToJson_eq_map (cs : List CatchClause) : catchesToJson cs = cs.map catchToJson := by
  induction cs with
  | nil => rfl
  | cons c cs ih => rw [catchesToJson, ih, map_cons]

theorem body_reads (ss : List Stmt) (h : ∀ s ∈ ss, Decodes ofJson? toJson s) :
    Decodes listOfJson? (fun ss => .arr (listToJson ss)) ss := by
  intro levels hlevels
  simp only [listToJson_eq_map, depth_arr_le] at hlevels ⊢
  obtain ⟨k, rfl, hk⟩ := hlevels
  exact mapM_reads fun s hs => h s hs k (hk _ (mem_map_of_mem hs))

theorem case_reads (c : SwitchCase) (hlabels : ∀ e ∈ c.labels, e.Idents Ident.Fits)
    (h : ∀ s ∈ c.body, Decodes ofJson? toJson s) : Decodes caseOfJson? caseToJson c := by
  obtain ⟨labels, isDefault, body⟩ := c
  intro levels hlevels
  simp only [caseToJson, depth_obj_le, depthMembers_cons_le] at hlevels
  obtain ⟨k, rfl, hdlabels, -, hdbody, -⟩ := hlevels
  simp [caseToJson, caseOfJson?, Expr.list_reads labels hlabels k hdlabels,
    body_reads body h k hdbody]

theorem catch_reads (c : CatchClause) (hparam : c.param.Fits)
    (h : ∀ s ∈ c.body, Decodes ofJson? toJson s) : Decodes catchOfJson? catchToJson c := by
  obtain ⟨param, types, body⟩ := c
  intro levels hlevels
  simp only [catchToJson, depth_obj_le, depthMembers_cons_le] at hlevels
  obtain ⟨k, rfl, hdparam, hdtypes, hdbody, -⟩ := hlevels
  have htypes := list_reads (fun t _ => TypeRef.json_reads t) k hdtypes
  simp [catchToJson, catchOfJson?, param.json_reads hparam k hdparam, htypes,
    body_reads body h k hdbody]

theorem optionToJson_eq (o : Option Stmt) : optionToJson o = ofOption toJson o := by cases o <;> rfl

theorem finalToJson_eq (o : Option (List Stmt)) :
    finalToJson o = ofOption (fun ss => .arr (listToJson ss)) o := by
  cases o <;> rfl

/-- What a statement does is read back if that holds of the statements in it. -/
theorem kind_reads (s : Stmt) (hs : s.Idents Ident.Fits)
    (h : ∀ t ∈ s.children, Decodes ofJson? toJson t) (levels : Nat)
    (hlevels : s.kindToJson.depth ≤ levels) :
    kindOfJson? levels s.location s.kindToJson = some s := by
  obtain ⟨hexprs, hheads⟩ := hs
  cases s with
    simp only [kindToJson, placed_kindToJson, optionToJson_eq, finalToJson_eq, casesToJson_eq_map,
      catchesToJson_eq_map, depth_obj_le, depthMembers_cons_le] at hlevels ⊢
  | empty => simp [kindOfJson?, location]
  | expr e | raise e =>
    obtain ⟨k, rfl, he, -⟩ := hlevels
    simp [kindOfJson?, e.json_reads (hexprs e mem_cons_self) k he, location]
  | declare d =>
    obtain ⟨k, rfl, hd, -⟩ := hlevels
    simp [kindOfJson?, d.json_reads (hheads _ mem_cons_self) hexprs k hd, location]
  | block body =>
    obtain ⟨k, rfl, hd, -⟩ := hlevels
    simp [kindOfJson?, body_reads body h k hd, location]
  | cond test yes no =>
    obtain ⟨hyes, hno⟩ := forall_mem_cons.mp h
    obtain ⟨_, rfl, ⟨k, rfl, hdtest, hdyes, hdno, -⟩, -⟩ := hlevels
    have hread := nullable_reads (fun s => by simp [toJson, placed])
      (fun s hs => hno s (Option.mem_toList.mpr hs)) k hdno
    simp [kindOfJson?, test.json_reads (hexprs test mem_cons_self) k hdtest, hyes k hdyes,
      hread, location]
  | whileLoop test body =>
    obtain ⟨_, rfl, ⟨k, rfl, hdtest, hdbody, -⟩, -⟩ := hlevels
    simp [kindOfJson?, test.json_reads (hexprs test mem_cons_self) k hdtest,
      h body mem_cons_self k hdbody, location]
  | doWhile body test =>
    obtain ⟨_, rfl, ⟨k, rfl, hdbody, hdtest, -⟩, -⟩ := hlevels
    simp [kindOfJson?, test.json_reads (hexprs test mem_cons_self) k hdtest,
      h body mem_cons_self k hdbody, location]
  | forLoop init test update body =>
    obtain ⟨hinit, hbody⟩ := forall_mem_append.mp h
    obtain ⟨htest, hupdate⟩ := forall_mem_append.mp hexprs
    obtain ⟨_, rfl, ⟨k, rfl, hdinit, hdtest, hdupdate, hdbody, -⟩, -⟩ := hlevels
    simp [kindOfJson?, body_reads init hinit k hdinit, Expr.option_reads test htest k hdtest,
      Expr.list_reads update hupdate k hdupdate, hbody body mem_cons_self k hdbody, location]
  | forEach var iterable body =>
    obtain ⟨hiterable, hinit⟩ := forall_mem_cons.mp hexprs
    obtain ⟨_, rfl, ⟨k, rfl, hdvar, hditerable, hdbody, -⟩, -⟩ := hlevels
    simp [kindOfJson?, var.json_reads (hheads _ mem_cons_self) hinit k hdvar,
      iterable.json_reads hiterable k hditerable, h body mem_cons_self k hdbody, location]
  | switch selector cases =>
    obtain ⟨hselector, hlabels⟩ := forall_mem_cons.mp hexprs
    obtain ⟨_, rfl, ⟨_, rfl, hdselector, hd, -⟩, -⟩ := hlevels
    obtain ⟨k, rfl, hdcases⟩ := depth_arr_le.mp hd
    have hcases : (cases.map caseToJson).mapM (caseOfJson? k) = some cases :=
      mapM_reads fun c hc => case_reads c (fun e he => hlabels e (mem_flatMap_of_mem hc he))
        (fun s hs => h s (mem_flatMap_of_mem hc hs)) k (hdcases _ (mem_map_of_mem hc))
    simp only [kindOfJson?, casesOfJson?]
    simp [selector.json_reads hselector _ hdselector, hcases, location]
  | tryCatch resources body catches final =>
    obtain ⟨hbody, hfinal⟩ := forall_mem_append.mp h
    obtain ⟨hbody, hcatch⟩ := forall_mem_append.mp hbody
    obtain ⟨hnames, hparams⟩ := forall_mem_append.mp hheads
    obtain ⟨_, rfl, ⟨k, rfl, hdresources, hdbody, hdcatches, hdfinal, -⟩, -⟩ := hlevels
    have hresources :=
      list_reads (fun d hd => d.json_reads (hnames _ (mem_map_of_mem hd)) fun e he =>
      hexprs e (mem_flatMap_of_mem hd he)) k hdresources
    have hcatches : catchesOfJson? k (.arr (catches.map catchToJson)) = some catches := by
      obtain ⟨n, rfl, hn⟩ := depth_arr_le.mp hdcatches
      exact mapM_reads fun c hc => catch_reads c (hparams _ (mem_map_of_mem hc))
        (fun s hs => hcatch s (mem_flatMap_of_mem hc hs)) n (hn _ (mem_map_of_mem hc))
    have hread := nullable_reads (fun ss => by simp) (fun ss hss => body_reads ss (by
      cases hss
      exact hfinal)) k hdfinal
    simp [kindOfJson?, hresources, body_reads body hbody k hdbody, hcatches, hread, location]
  | labeled label body =>
    obtain ⟨_, rfl, ⟨k, rfl, -, hdbody, -⟩, -⟩ := hlevels
    simp [kindOfJson?, h body mem_cons_self k hdbody, location]
  | synchronized lock body =>
    obtain ⟨_, rfl, ⟨k, rfl, hdlock, hdbody, -⟩, -⟩ := hlevels
    simp [kindOfJson?, lock.json_reads (hexprs lock mem_cons_self) k hdlock,
      body_reads body h k hdbody, location]
  | ret value =>
    obtain ⟨k, rfl, hvalue, -⟩ := hlevels
    simp [kindOfJson?, Expr.option_reads value hexprs k hvalue, location]
  | brk label | cont label =>
    obtain ⟨k, rfl, -⟩ := hlevels
    cases label <;> simp [kindOfJson?, ofOption, Slot.nullable, location]

theorem json_reads (s : Stmt) : AllFit [s] → Decodes ofJson? toJson s := by
  induction s using Stmt.induct with
  | step s ih =>
    intro hfit levels hlevels
    obtain ⟨hidents, hloc⟩ := hfit [] s (.top mem_cons_self)
    simp only [toJson, placed, depth_obj_le, depthMembers_cons_le] at hlevels
    obtain ⟨k, rfl, hdkind, hdloc, -⟩ := hlevels
    have hkind := kind_reads s hidents
      (fun t ht => ih [] t (.top ht) fun path u hu => hfit _ u ((Lies.top mem_cons_self).within
        (hu.mono fun _ hmem => mem_singleton.mp hmem ▸ ht))) k hdkind
    simp [toJson, placed, ofJson?, s.location.json_reads hloc k hdloc, hkind]

end Stmt

/-! ## Units -/

theorem Param.json_reads (p : Param) (h : p.name.Fits) : Decodes ofJson? toJson p := by
  intro levels hlevels
  simp only [toJson, depth_obj_le, depthMembers_cons_le] at hlevels
  obtain ⟨k, rfl, hname, htype, -⟩ := hlevels
  simp [toJson, ofJson?, p.name.json_reads h k hname, p.type.json_reads k htype]

/-- All numbers in the procedure are words of their sizes. -/
structure Procedure.Fits (p : Procedure) : Prop where
  params : ∀ x ∈ p.params, x.name.Fits
  body : Stmt.AllFit p.body
  location : p.location.Fits

theorem TypeRef.toJson_ne_null (t : TypeRef) : t.toJson ≠ .null := by
  obtain ⟨name, args⟩ := t
  cases args <;> simp [toJson]

theorem Procedure.json_reads (p : Procedure) (h : p.Fits) : Decodes ofJson? toJson p := by
  intro levels hlevels
  simp only [toJson, depth_obj_le, depthMembers_cons_le] at hlevels
  obtain ⟨k, rfl, -, hdparams, hdreturn, hdbody, hdloc, -⟩ := hlevels
  have hparams := list_reads (fun x hx => x.json_reads (h.params x hx)) k hdparams
  have hreturn := nullable_reads TypeRef.toJson_ne_null (fun t _ => t.json_reads) k hdreturn
  have hbody := Stmt.body_reads p.body (fun s hs => s.json_reads fun path t ht =>
    h.body path t (ht.mono fun _ hmem => mem_singleton.mp hmem ▸ hs)) k hdbody
  simp [toJson, ofJson?, hparams, hreturn, hbody, p.location.json_reads h.location k hdloc]

/-- All numbers in the unit are words of their sizes. -/
def ProgramUnit.Fits (u : ProgramUnit) : Prop := ∀ p ∈ u.procedures, p.Fits

theorem ProgramUnit.json_reads (u : ProgramUnit) (h : u.Fits) : Decodes ofJson? toJson u := by
  intro levels hlevels
  simp only [toJson, depth_obj_le, depthMembers_cons_le] at hlevels
  obtain ⟨k, rfl, hdprocedures, -⟩ := hlevels
  have hprocedures := list_reads (fun p hp => p.json_reads (h p hp)) k hdprocedures
  simp [toJson, ofJson?, hprocedures]

/-! ## Classes -/

theorem SymbolInfo.json_reads (s : SymbolInfo) : Decodes ofJson? toJson s := by
  intro levels hlevels
  simp only [toJson, depth_obj_le, depthMembers_cons_le] at hlevels
  obtain ⟨k, rfl, -, htype, -⟩ := hlevels
  have hkind : SymbolKind.ofJson? k (.str s.kind.tag) = some s.kind := by cases s.kind <;> rfl
  simp [toJson, ofJson?, s.type.json_reads k htype, hkind]

theorem SymbolTable.json_reads (t : SymbolTable) : Decodes ofJson? toJson t := by
  intro levels hlevels
  simp only [toJson, depth_obj_le, depthMembers_cons_le] at hlevels
  obtain ⟨k, rfl, hd, -⟩ := hlevels
  have hsymbols := list_reads (fun s _ => SymbolInfo.json_reads s) k hd
  simp [toJson, ofJson?, hsymbols]

/-- The state has a number of 32 bits. -/
def StateId.Fits (s : StateId) : Prop := s.number < Nat.pow 2 32

/-- The machine has a number of 32 bits. -/
def MachineId.Fits (m : MachineId) : Prop := m.number < Nat.pow 2 32

/-- The tag has a number of 64 bits. -/
def Tag.Fits (t : Tag) : Prop := t.index < Nat.pow 2 64

theorem StateId.ofJson?_toJson (s : StateId) (h : s.Fits) : ofJson? s.toJson = some s :=
  congrArg (Option.map StateId.mk) (word32?_ofNat h)

theorem MachineId.ofJson?_toJson (m : MachineId) (h : m.Fits) : ofJson? m.toJson = some m :=
  congrArg (Option.map MachineId.mk) (word32?_ofNat h)

theorem Tag.ofJson?_toJson (t : Tag) (h : t.Fits) : ofJson? t.toJson = some t :=
  congrArg (Option.map Tag.mk) (word64?_ofNat h)

/-- What is known of the tag has words of 32 bits. -/
def TagSlot.Fits (s : TagSlot) : Prop := s.owner.Fits ∧ ∀ t ∈ s.target, t.Fits

theorem TagSlot.json_reads (s : TagSlot) (h : s.Fits) : Decodes ofJson? toJson s := by
  intro levels hlevels
  obtain ⟨k, rfl, -⟩ := depth_obj_le.mp hlevels
  have htarget := nullable_reads (d := fun _ => StateId.ofJson?)
      (fun t => by simp [StateId.toJson, ofNat])
    (fun t ht _ _ => t.ofJson?_toJson (h.2 t ht)) _ (Nat.le_refl _)
  simp [toJson, ofJson?, s.owner.ofJson?_toJson h.1, htarget]

theorem TagTable.json_reads (t : TagTable) (h : ∀ s ∈ t.slots, s.Fits) :
    Decodes ofJson? toJson t := by
  intro levels hlevels
  simp only [toJson, depth_obj_le, depthMembers_cons_le] at hlevels
  obtain ⟨k, rfl, hd, -⟩ := hlevels
  have hslots := list_reads
      (fun s hs => TagSlot.json_reads s (h s (Array.mem_toList_iff.mp hs))) k hd
  simp [toJson, ofJson?, hslots]

theorem Capture.json_reads (c : Capture) (h : c.symbol.Fits) : Decodes ofJson? toJson c := by
  intro levels hlevels
  simp only [toJson, depth_obj_le, depthMembers_cons_le] at hlevels
  obtain ⟨k, rfl, -, -, htype, -⟩ := hlevels
  have hliveness : ofName? Liveness.ofTag? k (.str c.liveness.tag) = some c.liveness := by
    cases c.liveness <;> rfl
  have horigin : ofName? CaptureOrigin.ofTag? k (.str c.origin.tag) = some c.origin := by
    cases c.origin <;> rfl
  simp [toJson, ofJson?, c.symbol.ofJson?_toJson h, c.type.json_reads k htype, hliveness, horigin]

theorem SwitchArm.json_reads (a : SwitchArm) (hlabels : ∀ e ∈ a.labels, e.Idents Ident.Fits)
    (htarget : a.target.Fits) : Decodes ofJson? toJson a := by
  intro levels hlevels
  simp only [toJson, depth_obj_le, depthMembers_cons_le] at hlevels
  obtain ⟨k, rfl, hd, -⟩ := hlevels
  simp [toJson, ofJson?, Expr.list_reads a.labels hlabels k hd, a.target.ofJson?_toJson htarget]

theorem Handler.json_reads (c : Handler) (hparam : c.param.Fits) (hentry : c.entry.Fits) :
    Decodes ofJson? toJson c := by
  intro levels hlevels
  simp only [toJson, depth_obj_le, depthMembers_cons_le] at hlevels
  obtain ⟨k, rfl, -, hd, -⟩ := hlevels
  have htypes := list_reads (fun t _ => TypeRef.json_reads t) k hd
  simp [toJson, ofJson?, c.param.ofJson?_toJson hparam, htypes, c.entry.ofJson?_toJson hentry]

/-- The numbers of a guard's fields and handlers are words of their sizes. -/
structure GuardFields.Fit (g : GuardFields) : Prop where
  resources : ∀ x ∈ g.resources, x.Fits
  handlers : ∀ h ∈ g.handlers, h.param.Fits ∧ h.entry.Fits
  inHandler : g.inHandler.Fits
  pending : g.pending.Fits
  pendingJump : g.pendingJump.Fits

/-- The numbers of a machine and of its states have 32 bits. -/
structure Machine.HeadFits (m : Machine) : Prop where
  id : m.id.Fits
  selector : m.selector.Fits
  states : ∀ s ∈ m.states, s.id.Fits

/-- The numbers of an op itself are words of their sizes. -/
def Op.Fits : Op → Prop
  | plain s => Stmt.AllFit [s]
  | assign x e => x.Fits ∧ e.Idents Ident.Fits
  | clear x | rethrow x => x.Fits
  | setState t | jump t => t.Fits
  | yield e | cond e _ _ | synchronized e _ => e.Idents Ident.Fits
  | switch e arms =>
    e.Idents Ident.Fits ∧ ∀ a ∈ arms, (∀ l ∈ a.labels, l.Idents Ident.Fits) ∧ a.target.Fits
  | guarded m g => m.HeadFits ∧ g.Fit
  | finish => True

namespace Op

theorem guardFields_read (g : GuardFields) (h : g.Fit) (k : Nat)
    (hk : depthMembers (guardMembers g) ≤ k) :
    guardFieldsOfSlots? k ((guardMembers g).map fun m => .given m.2) = some g := by
  simp only [guardMembers, depthMembers_cons_le] at hk
  obtain ⟨hdresources, hdhandlers, -⟩ := hk
  have hresources :=
    list_reads (d := fun _ => SymbolId.ofJson?)
      (fun x hx _ _ => x.ofJson?_toJson (h.resources x hx)) k
    hdresources
  have hhandlers := list_reads
      (fun c hc => Handler.json_reads c (h.handlers c hc).1 (h.handlers c hc).2) k hdhandlers
  simp [guardMembers, guardFieldsOfSlots?, hresources, hhandlers,
    g.inHandler.ofJson?_toJson h.inHandler,
    g.pending.ofJson?_toJson h.pending, g.pendingJump.ofJson?_toJson h.pendingJump]

mutual

theorem json_reads (op : Op) (h : op.Every Fits) : Decodes ofJson? toJson op := by
  intro levels hlevels
  cases op with simp only [toJson, depth_obj_le, depth_arr_le, depthMembers_cons_le] at hlevels
  | plain s =>
    obtain ⟨k, rfl, hs, -⟩ := hlevels
    simp [toJson, ofJson?, s.json_reads h k hs]
  | assign x e =>
    obtain ⟨_, rfl, ⟨k, rfl, -, he, -⟩, -⟩ := hlevels
    simp [toJson, ofJson?, x.ofJson?_toJson h.1, e.json_reads h.2 k he]
  | clear x | rethrow x =>
    obtain ⟨k, rfl, -⟩ := hlevels
    simp [toJson, ofJson?, x.ofJson?_toJson h]
  | setState tag | jump tag =>
    obtain ⟨k, rfl, -⟩ := hlevels
    simp [toJson, ofJson?, tag.ofJson?_toJson h]
  | yield e =>
    obtain ⟨k, rfl, he, -⟩ := hlevels
    simp [toJson, ofJson?, e.json_reads h k he]
  | finish => simp [toJson, ofJson?]
  | cond test yes no =>
    obtain ⟨_, rfl, ⟨_, rfl, htest, ⟨k, rfl, hyes⟩, ⟨_, heq, hno⟩, -⟩, -⟩ := hlevels
    cases heq
    simp [toJson, ofJson?, listOfJson?, test.json_reads h.1 _ htest, ops_read yes h.2.1 k hyes,
      ops_read no h.2.2 k hno]
  | switch selector =>
    obtain ⟨_, rfl, ⟨k, rfl, hselector, harms, -⟩, -⟩ := hlevels
    have harms := list_reads (fun a ha => SwitchArm.json_reads a (h.2 a ha).1 (h.2 a ha).2) k
        (depth_arr_le.mpr harms)
    simp [toJson, ofJson?, selector.json_reads h.1 k hselector, harms]
  | synchronized lock body =>
    obtain ⟨_, rfl, ⟨_, rfl, hlock, ⟨k, rfl, hbody⟩, -⟩, -⟩ := hlevels
    simp [toJson, ofJson?, listOfJson?, lock.json_reads h.1 _ hlock, ops_read body h.2 k hbody]
  | guarded machine fields =>
    obtain ⟨_, rfl, ⟨k, rfl, hmachine, hfields⟩, -⟩ := hlevels
    have hread := guardFields_read fields h.1.2 k hfields
    simp only [guardMembers, map_cons, map_nil] at hread
    simp [toJson, ofJson?, guardMembers, machine_reads machine h.1.1 h.2 k hmachine, hread]

theorem ops_read (ops : List Op) (h : EveryOp Fits ops) (k : Nat)
    (hk : ∀ j ∈ listToJson ops, j.depth ≤ k) : (listToJson ops).mapM (ofJson? k) = some ops := by
  cases ops with
  | nil => rfl
  | cons op ops =>
    obtain ⟨hop, hops⟩ := forall_mem_cons.mp hk
    simp [listToJson, json_reads op h.1 k hop, ops_read ops h.2 k hops]

theorem states_read (states : List MachineState) (hids : ∀ s ∈ states, s.id.Fits)
    (h : EveryState Fits states) (k : Nat) (hk : ∀ j ∈ statesToJson states, j.depth ≤ k) :
    (statesToJson states).mapM (stateOfJson? k) = some states := by
  cases states with
  | nil => rfl
  | cons s states =>
    obtain ⟨id, ops⟩ := s
    obtain ⟨hid, hids⟩ := forall_mem_cons.mp hids
    simp only [statesToJson, forall_mem_cons, depth_obj_le, depth_arr_le,
      depthMembers_cons_le] at hk
    obtain ⟨⟨_, rfl, -, ⟨k, rfl, hops⟩, -⟩, hstates⟩ := hk
    have hstate : stateOfJson? (k + 2) (.obj [("id", id.toJson), ("ops", .arr (listToJson ops))]) =
          some (.mk id ops) := by
      simp [stateOfJson?, listOfJson?, id.ofJson?_toJson hid, ops_read ops h.1 k hops]
    simp [statesToJson, hstate, states_read states hids h.2 _ hstates]

theorem machine_reads (m : Machine) (hhead : m.HeadFits) (h : m.Every Fits) :
    Decodes machineOfJson? machineToJson m := by
  intro levels hlevels
  obtain ⟨id, selector, states⟩ := m
  simp only [machineToJson, depth_obj_le, depth_arr_le, depthMembers_cons_le] at hlevels
  obtain ⟨_, rfl, -, -, ⟨k, rfl, hstates⟩, -⟩ := hlevels
  simp [machineToJson, machineOfJson?, statesOfJson?, id.ofJson?_toJson hhead.id,
      selector.ofJson?_toJson hhead.selector, states_read states hhead.states h k hstates]

end

end Op

namespace CaptureSet

/-- The digits of a number start with a zero only if the number is zero. -/
theorem head?_toDigits (n : Nat) : 0 < n → (Nat.toDigits 10 n).head? ≠ some '0' := by
  induction n using Nat.strongRecOn with
  | ind n ih =>
    intro hpos
    rcases Nat.lt_or_ge n 10 with hlt | hge
    · have hdigit : ∀ m < 10, 0 < m → m.digitChar ≠ '0' := by decide
      rw [Nat.toDigits_of_lt_base hlt]
      exact fun heq => hdigit n hlt hpos (Option.some.inj heq)
    · rw [Nat.toDigits_of_base_le (by decide) hge, head?_append_of_ne_nil _ Nat.toDigits_ne_nil]
      exact ih (n / 10) (Nat.div_lt_self hpos (by decide)) (Nat.div_pos hge (by decide))

/-- The number of a field is read back from its decimal digits. -/
theorem key?_toString (x : SymbolId) (h : x.Fits) : key? (toString x.index) = some x := by
  have hall : (Nat.toDigits 10 x.index).all Char.isDigit = true :=
    all_eq_true.mpr fun c => Text.isDigit_of_mem
  have hplain : ((Nat.toDigits 10 x.index).length > 1 &&
      (Nat.toDigits 10 x.index).head? == some '0') = false := by
    rcases Nat.eq_zero_or_pos x.index with hzero | hpos
    · rw [hzero]
      rfl
    · rw [beq_false_of_ne (head?_toDigits _ hpos), Bool.and_false]
  have hne : (Nat.toDigits 10 x.index).isEmpty = false :=
    isEmpty_eq_false_iff.mpr Nat.toDigits_ne_nil
  have hlt : x.index < Nat.pow 2 32 := h
  simp only [key?, Text.toList_toString, hplain, Text.natBelow?, hall, Text.digitsValue_toDigits,
    hne, if_pos hlt]
  rfl

/-- A field behind all others is added at the end. -/
theorem insertEntry_last {key : SymbolId} {c : Capture} {fields : List (SymbolId × Capture)}
    (h : ∀ e ∈ fields, e.1.index < key.index) :
    insertEntry key c fields = fields ++ [(key, c)] := by
  induction fields with
  | nil => rfl
  | cons e fields ih =>
    obtain ⟨he, hfields⟩ := forall_mem_cons.mp h
    have hne : key ≠ e.1 := fun heq => absurd (heq ▸ he) (Nat.lt_irrefl _)
    rw [insertEntry, if_neg (Nat.not_lt.mpr (Nat.le_of_lt he)), if_neg hne, ih hfields, cons_append]

/-- The fields stand in the order of their variables, and all variables have 32 bits. -/
structure Fits (s : CaptureSet) : Prop where
  sorted : s.fields.Pairwise fun a b => a.1.index < b.1.index
  words : ∀ e ∈ s.fields, e.1.Fits ∧ e.2.symbol.Fits

theorem json_reads (s : CaptureSet) (h : s.Fits) : Decodes ofJson? toJson s := by
  -- the members are read in order, so what has been read is a part `front` of the fields at each
  -- time
  have hrun : ∀ (rest front : List (SymbolId × Capture)) (k : Nat), (Fits ⟨front ++ rest⟩) →
      depthMembers (rest.map fun e => (toString e.1.index, e.2.toJson)) ≤ k →
      (rest.map fun e => (toString e.1.index, e.2.toJson)).foldlM (fun s m => do
        return CaptureSet.mk (insertEntry (← key? m.1) (← Capture.ofJson? k m.2) s.fields))
          ⟨front⟩ =
        some ⟨front ++ rest⟩ := by
    intro rest
    induction rest with
    | nil =>
      exact fun front k _ _ => congrArg (fun fields => some (CaptureSet.mk fields))
        (List.append_nil front).symm
    | cons e rest ih =>
      intro front k hfit hk
      obtain ⟨hx, hc⟩ := hfit.words e (mem_append_right _ mem_cons_self)
      obtain ⟨hd, hdrest⟩ := depthMembers_cons_le.mp hk
      have hlast : ∀ d ∈ front, d.1.index < e.1.index := fun d hd =>
        (pairwise_append.mp hfit.sorted).2.2 d hd e mem_cons_self
      have hrest := ih (front ++ [e]) k (by simpa using hfit) hdrest
      simp only [map_cons, foldlM_cons, key?_toString e.1 hx, e.2.json_reads hc k hd]
      simpa [insertEntry_last hlast] using hrest
  intro levels hlevels
  simp only [toJson, depth_obj_le, depthMembers_cons_le] at hlevels
  obtain ⟨_, rfl, ⟨k, rfl, hk⟩, -⟩ := hlevels
  have hread := hrun s.fields [] k h hk
  simpa [toJson, ofJson?, ofMembers?, empty] using hread

end CaptureSet

/-- All numbers in the class are words of their sizes, and the fields stand in the order of their
variables. -/
structure GeneratorClass.InWords (c : GeneratorClass) : Prop where
  params : ∀ x ∈ c.params, x.name.Fits
  captures : c.captures.Fits
  head : c.advance.HeadFits
  ops : c.advance.Every Op.Fits
  tags : ∀ s ∈ c.tags.slots, s.Fits

theorem GeneratorClass.json_reads (c : GeneratorClass) (h : c.InWords) :
    Decodes ofJson? toJson c := by
  intro levels hlevels
  simp only [toJson, depth_obj_le, depthMembers_cons_le] at hlevels
  obtain ⟨k, rfl, -, -, htype, hdparams, hcaptures, hadvance, htags, hsymbols, -⟩ := hlevels
  have hparams := list_reads (fun x hx => Param.json_reads x (h.params x hx)) k hdparams
  have hmachine : Machine.ofJson? k c.advance.toJson = some c.advance :=
    Op.machine_reads c.advance h.head h.ops k hadvance
  simp [toJson, ofJson?, c.elementType.json_reads k htype, hparams,
    c.captures.json_reads h.captures k hcaptures, hmachine,
    c.tags.json_reads h.tags k htags, c.symbols.json_reads k hsymbols]

/-- Units and classes come back from their exchange form as they were. -/
theorem exchange_reads :
    (∀ u : ProgramUnit, u.Fits → u.toJson.depth ≤ levelLimit →
      ProgramUnit.ofJson? levelLimit u.toJson = some u) ∧
    ∀ c : GeneratorClass, c.InWords → c.toJson.depth ≤ levelLimit →
      GeneratorClass.ofJson? levelLimit c.toJson = some c :=
  ⟨fun u h => u.json_reads h levelLimit, fun c h => c.json_reads h levelLimit⟩

theorem exchange_reads_counted : (let x : Ident := ⟨"n", some ⟨0⟩⟩
      let u : ProgramUnit :=
        ⟨[⟨"f", [⟨x, .int⟩], some (.iteratorOf .int), [.expr (.increment x 1 true) .unknown],
          .unknown⟩]⟩
      u.Fits ∧ ProgramUnit.ofJson? levelLimit u.toJson = some u) ∧
    let x : Ident := ⟨"n", some ⟨0⟩⟩
    let nested : Machine :=
      .mk ⟨1⟩ ⟨2⟩ [.mk ⟨1⟩ [.plain (.expr (.increment x 1 true) .unknown), .jump ⟨1⟩]]
    let c : GeneratorClass :=
      { name := "F", procedure := "f", elementType := .int, params := [⟨x, .int⟩]
        captures := ⟨[(⟨0⟩, ⟨⟨0⟩, "n", .int, .retained, .parameter⟩),
          (⟨1⟩, ⟨⟨1⟩, "this$0", .int, .retained, .selector⟩)]⟩
        advance := .mk ⟨0⟩ ⟨1⟩ [.mk ⟨1⟩ [
          .guarded nested ⟨[], [⟨⟨3⟩, [.throwable], ⟨1⟩⟩], ⟨4⟩, ⟨5⟩, ⟨6⟩⟩, .yield (.ident x)]]
        tags := ⟨#[⟨⟨0⟩, some ⟨0⟩⟩, ⟨⟨1⟩, none⟩]⟩
        symbols := ⟨#[⟨"n", .int, .parameter⟩]⟩ }
    c.InWords ∧ GeneratorClass.ofJson? levelLimit c.toJson = some c := by
  have hx : Ident.Fits ⟨"n", some ⟨0⟩⟩ := by simp [Ident.Fits, SymbolId.Fits]
  have hbody : Stmt.AllFit [.expr (.increment ⟨"n", some ⟨0⟩⟩ 1 true) .unknown] := by
    intro path s h
    obtain ⟨-, hs⟩ | ⟨t, ht, inner, -, hinner⟩ := h.head
    · cases mem_singleton.mp hs
      exact ⟨⟨forall_mem_singleton.mpr (forall_mem_singleton.mpr hx), nofun⟩,
        by simp [Location.Fits, Stmt.location, Location.unknown]⟩
    · cases mem_singleton.mp ht
      obtain ⟨-, hs⟩ | ⟨u, hu, -⟩ := hinner.head
      · cases hs
      · cases hu
  constructor
  · intro x u
    have hu : u.Fits := forall_mem_singleton.mpr
      ⟨forall_mem_singleton.mpr hx, hbody, by simp [Location.Fits, Location.unknown]⟩
    exact ⟨hu, exchange_reads.1 u hu (Nat.le_of_ble_eq_true rfl)⟩
  · intro x nested c
    have hc : c.InWords :=
      { params := forall_mem_singleton.mpr hx
        captures := ⟨by simp [c], by simp [c, SymbolId.Fits]⟩
        head := ⟨by simp [c, MachineId.Fits, Machine.id],
          by simp [c, SymbolId.Fits, Machine.selector],
          by simp [c, StateId.Fits, Machine.states, MachineState.id]⟩
        ops := by
          refine ⟨⟨⟨⟨?_, ?_⟩, ⟨hbody, ?_, trivial⟩, trivial⟩, forall_mem_singleton.mpr hx,
            trivial⟩, trivial⟩
          · exact ⟨by simp [MachineId.Fits, Machine.id, nested],
              by simp [SymbolId.Fits, Machine.selector, nested],
              by simp [StateId.Fits, Machine.states, MachineState.id, nested]⟩
          · exact ⟨by simp, by simp [SymbolId.Fits, Tag.Fits], by simp [SymbolId.Fits],
              by simp [SymbolId.Fits], by simp [SymbolId.Fits]⟩
          · simp [Op.Every, Op.Fits, Tag.Fits]
        tags := by simp [c, TagSlot.Fits, MachineId.Fits, StateId.Fits] }
    exact ⟨hc, exchange_reads.2 c hc (Nat.le_of_ble_eq_true rfl)⟩

end Resumable
