import Resumable.Parser.Expr
import Resumable.Parser.TypeRef
import Resumable.Tree.Stmt

/-!
# Reading statements and procedures

* a word followed by a colon is a label; a type followed by a name starts a declaration; anything
  else that is no keyword, block or semicolon is an expression;
* the parts that may be missing or repeated are read behind something that has already been read,
  so they take the bound that they have to stay below.
-/

namespace Resumable

namespace Parser

/-! ## Parts of statements -/

/-- An expression between parentheses. -/
def parenthesized (eof : Token) (ts : List Token) : Reading Expr ts.length :=
  (expect eof .leftParen "expected '('" ts).andThen fun _ r lt =>
    ((expression eof r).up lt).andThen fun e r lt =>
      (expect eof .rightParen "expected ')'" r).up lt |>.map fun _ => e

/-- The first value of a variable, if an equals sign comes next. -/
def initializer {n : Nat} (eof : Token) (ts : List Token) (lt : ts.length < n) :
    Reading (Option Expr) n :=
  match skip? .equal ts lt with
  | some ⟨r, _, lt⟩ => (expression eof r).up lt |>.map some
  | none => .ok none ts lt

/-- A declaration: a type, a name and perhaps a first value. -/
def localDecl (eof : Token) (ts : List Token) : Reading LocalDecl ts.length :=
  (typeRef eof ts).andThen fun type r lt =>
    (expectName eof "expected variable name" r).up lt |>.andThen fun name r lt =>
      (initializer eof r lt).map fun init => ⟨.free name, type, init⟩

/-- An expression, unless `stop` comes next. -/
def expressionUnless {n : Nat} (eof : Token) (stop : TokenKind) (ts : List Token)
    (lt : ts.length < n) : Reading (Option Expr) n :=
  if currentKind ts = stop then .ok none ts lt
  else (expression eof ts).up lt |>.map some

/-- Expressions with commas between them, unless `stop` comes next. -/
def expressionsUnless {n : Nat} (eof : Token) (stop : TokenKind) (ts : List Token)
    (lt : ts.length < n) : Reading (List Expr) n :=
  if currentKind ts = stop then .ok [] ts lt
  else (expressions eof ts).up lt

/-- The label of a jump, if a name comes next. -/
def jumpLabel {n : Nat} (ts : List Token) (lt : ts.length < n) : Reading (Option String) n :=
  match ts with
  | [] => .ok none [] lt
  | t :: r =>
    match t.kind with
    | .identifier label => .ok (some label) r (length_lt_of_cons_lt lt)
    | _ => .ok none (t :: r) lt

/-- One or more expressions as statements, with commas between them. -/
def expressionStatements (eof : Token) (ts : List Token) : Reading (List Stmt) ts.length :=
  (expression eof ts).andThen fun e r lt =>
    let s := Stmt.expr e (currentToken eof ts).location
    match skip? .comma r lt with
    | some ⟨r, _, lt⟩ => (expressionStatements eof r).up lt |>.map (s :: ·)
    | none => .ok [s] r lt
termination_by ts.length

/-- The start of a loop header: nothing, a declaration, or expressions. -/
def loopStart {n : Nat} (eof : Token) (ts : List Token) (lt : ts.length < n) :
    Reading (List Stmt) n :=
  if currentKind ts = .semicolon then .ok [] ts lt
  else if atDeclaration ts then
    (localDecl eof ts).up lt |>.map fun d => [.declare d (currentToken eof ts).location]
  else (expressionStatements eof ts).up lt

/-- Resources with semicolons between them, up to a parenthesis. -/
def resourceList {n : Nat} (eof : Token) (ts : List Token) (lt : ts.length < n) :
    Reading (List LocalDecl) n :=
  if currentKind ts = .rightParen then .ok [] ts lt
  else
    ((localDecl eof ts).andThen fun d r lt =>
      if d.init.isNone then
        .stop ⟨.uninitializedResource d.name.name, (currentToken eof r).location⟩ r lt
      else
        match skip? .semicolon r lt with
        | some ⟨r, _, lt⟩ => (resourceList eof r lt).map (d :: ·)
        | none => .ok [d] r lt).up lt
termination_by ts.length

/-- The resources of a try, if a parenthesis comes next. -/
def resources {n : Nat} (eof : Token) (ts : List Token) (lt : ts.length < n) :
    Reading (List LocalDecl) n :=
  match skip? .leftParen ts lt with
  | some ⟨r, _, lt⟩ =>
    (resourceList eof r lt).andThen fun ds r lt =>
      (expect eof .rightParen "expected ')' after resources" r).up lt |>.map fun _ => ds
  | none => .ok [] ts lt

/-- One or more types with bars between them. -/
def catchTypes (eof : Token) (ts : List Token) : Reading (List TypeRef) ts.length :=
  (typeRef eof ts).andThen fun t r lt =>
    match skip? .pipe r lt with
    | some ⟨r, _, lt⟩ => (catchTypes eof r).up lt |>.map (t :: ·)
    | none => .ok [t] r lt
termination_by ts.length

/-- The header of a handler: types and a name, between parentheses. -/
def catchHeader (eof : Token) (ts : List Token) : Reading (List TypeRef × String) ts.length :=
  (expect eof .leftParen "expected '(' after 'catch'" ts).andThen fun _ r lt =>
    (catchTypes eof r).up lt |>.andThen fun types r lt =>
      (expectName eof "expected catch parameter name" r).up lt |>.andThen fun name r lt =>
        (expect eof .rightParen "expected ')' after catch parameter" r).up lt |>.map fun _ =>
          (types, name)

/-- The header of a loop over an iterable: type, name and iterable. -/
def forEachHeader (eof : Token) (ts : List Token) : Reading (LocalDecl × Expr) ts.length :=
  (typeRef eof ts).andThen fun type r lt =>
    (expectName eof "expected loop variable" r).up lt |>.andThen fun name r lt =>
      (expect eof .colon "expected ':' in for-each" r).up lt |>.andThen fun _ r lt =>
        (expression eof r).up lt |>.andThen fun e r lt =>
          (expect eof .rightParen "expected ')' after for-each header" r).up lt |>.map fun _ =>
            (⟨.free name, type, none⟩, e)

/-- The header of a counting loop: start, test and update. -/
def forHeader {n : Nat} (eof : Token) (ts : List Token) (lt : ts.length < n) :
    Reading (List Stmt × Option Expr × List Expr) n :=
  (loopStart eof ts lt).andThen fun init r lt =>
    (expect eof .semicolon "expected ';' after for initializer" r).up lt |>.andThen fun _ r lt =>
      (expressionUnless eof .semicolon r lt).andThen fun test r lt =>
        (expect eof .semicolon "expected ';' after for condition" r).up lt |>.andThen fun _ r lt =>
          (expressionsUnless eof .rightParen r lt).andThen fun update r lt =>
            (expect eof .rightParen "expected ')' after for header" r).up lt |>.map fun _ =>
              (init, test, update)

/-- What a case of a switch starts with: its labels and whether it is the default. -/
def caseLabel (eof : Token) (seenDefault : Bool) (ts : List Token) :
    Reading (List Expr × Bool) ts.length :=
  match ts with
  | [] => failAt eof "expected 'case', 'default' or '\x7d'" []
  | t :: r =>
    match t.kind with
    | .keyword .case => (expression eof r).up (length_lt_cons t r) |>.map fun e => ([e], false)
    | .keyword .default =>
      if seenDefault then .stop ⟨.duplicateDefault, t.location⟩ r (length_lt_cons t r)
      else .ok ([], true) r (length_lt_cons t r)
    | _ => failAt eof "expected 'case', 'default' or '\x7d'" (t :: r)

/-! ## Statements -/

/-- The label that comes next: a name and a colon. -/
def label? (ts : List Token) : Option (String × { r : List Token // r.length < ts.length }) :=
  match ts with
  | t :: u :: r =>
    match t.kind with
    | .identifier label =>
      if u.kind = .colon then some (label, ⟨r, length_lt_of_cons_lt (length_lt_cons t (u :: r))⟩)
        else none
    | _ => none
  | _ => none

/-- A declaration or an expression, and a semicolon. -/
def simpleStatement (eof : Token) (ts : List Token) : Reading Stmt ts.length :=
  let loc := (currentToken eof ts).location
  if atDeclaration ts then
    (localDecl eof ts).andThen fun d r lt =>
      (expect eof .semicolon "expected ';' after declaration" r).up lt |>.map fun _ =>
        .declare d loc
  else
    (expression eof ts).andThen fun e r lt =>
      (expect eof .semicolon "expected ';' after expression" r).up lt |>.map fun _ => .expr e loc

mutual

/-- A statement. -/
def statement (eof : Token) (ts : List Token) : Reading Stmt ts.length :=
  match label? ts with
  | some (label, ⟨r, lt⟩) =>
    (statement eof r).up lt |>.map fun s => .labeled label s (currentToken eof ts).location
  | none =>
    match ts with
    | [] => simpleStatement eof []
    | t :: r =>
      match t.kind with
      | .leftBrace => (block eof (t :: r)).map fun body => .block body t.location
      | .semicolon => .ok (.empty t.location) r (length_lt_cons t r)
      | .keyword k =>
        match k with
        | .if_ => (condRest eof t.location r).up (length_lt_cons t r)
        | .while_ => (whileRest eof t.location r).up (length_lt_cons t r)
        | .do_ => (doRest eof t.location r).up (length_lt_cons t r)
        | .for_ => (forRest eof t.location r).up (length_lt_cons t r)
        | .switch => (switchRest eof t.location r).up (length_lt_cons t r)
        | .try_ => tryRest eof t.location r
        | .synchronized =>
          ((parenthesized eof r).andThen fun lock r lt =>
            (block eof r).up lt |>.map fun body => Stmt.synchronized lock body t.location).up
              (length_lt_cons t r)
        | .return_ =>
          (expressionUnless eof .semicolon r (length_lt_cons t r)).andThen fun value r lt =>
            (expect eof .semicolon "expected ';' after return" r).up lt |>.map fun _ =>
              .ret value t.location
        | .break_ =>
          (jumpLabel r (length_lt_cons t r)).andThen fun label r lt =>
            (expect eof .semicolon "expected ';' after jump" r).up lt |>.map fun _ =>
              .brk label t.location
        | .continue_ =>
          (jumpLabel r (length_lt_cons t r)).andThen fun label r lt =>
            (expect eof .semicolon "expected ';' after jump" r).up lt |>.map fun _ =>
              .cont label t.location
        | .throw =>
          ((expression eof r).andThen fun value r lt =>
            (expect eof .semicolon "expected ';' after throw" r).up lt |>.map fun _ =>
              Stmt.raise value t.location).up (length_lt_cons t r)
        | .else_ | .case | .default | .catch_ | .finally_ =>
          failAt eof "expected statement" (t :: r)
      | _ => simpleStatement eof (t :: r)
termination_by (ts.length, 1)

/-- Statements between braces. -/
def block (eof : Token) (ts : List Token) : Reading (List Stmt) ts.length :=
  (expect eof .leftBrace "expected '\x7b'" ts).andThen fun _ r lt => blockRest eof r lt
termination_by (ts.length, 0)

/-- Statements and the brace that closes them. -/
def blockRest {n : Nat} (eof : Token) (ts : List Token) (lt : ts.length < n) :
    Reading (List Stmt) n :=
  match skip? .rightBrace ts lt with
  | some ⟨r, _, lt⟩ => .ok [] r lt
  | none =>
    if currentKind ts = .eof then (failAt eof "expected '\x7d'" ts).up lt
    else
      ((statement eof ts).andThen fun s r lt => (blockRest eof r lt).map (s :: ·)).up lt
termination_by (ts.length, 2)

/-- What follows the word `if`. -/
def condRest (eof : Token) (loc : Location) (ts : List Token) : Reading Stmt ts.length :=
  (parenthesized eof ts).andThen fun test r lt =>
    (statement eof r).up lt |>.andThen fun yes r lt =>
      match skip? (.keyword .else_) r lt with
      | some ⟨r, _, lt⟩ => (statement eof r).up lt |>.map fun no => .cond test yes (some no) loc
      | none => .ok (.cond test yes none loc) r lt
termination_by (ts.length, 0)

/-- What follows the word `while` at the head of a loop. -/
def whileRest (eof : Token) (loc : Location) (ts : List Token) : Reading Stmt ts.length :=
  (parenthesized eof ts).andThen fun test r lt =>
    (statement eof r).up lt |>.map fun body => .whileLoop test body loc
termination_by (ts.length, 0)

/-- What follows the word `do`. -/
def doRest (eof : Token) (loc : Location) (ts : List Token) : Reading Stmt ts.length :=
  (statement eof ts).andThen fun body r lt =>
    (expect eof (.keyword .while_) "expected 'while' after do body" r).up lt |>.andThen
      fun _ r lt =>
      (parenthesized eof r).up lt |>.andThen fun test r lt =>
        (expect eof .semicolon "expected ';' after do-while" r).up lt |>.map fun _ =>
          .doWhile body test loc
termination_by (ts.length, 2)

/-- What follows the word `for`. -/
def forRest (eof : Token) (loc : Location) (ts : List Token) : Reading Stmt ts.length :=
  (expect eof .leftParen "expected '(' after 'for'" ts).andThen fun _ r lt =>
    if atForEach r then
      (forEachHeader eof r).up lt |>.andThen fun (var, e) r lt =>
        (statement eof r).up lt |>.map fun body => .forEach var e body loc
    else
      (forHeader eof r lt).andThen fun (init, test, update) r lt =>
        (statement eof r).up lt |>.map fun body => .forLoop init test update body loc
termination_by (ts.length, 0)

/-- What follows the word `switch`. -/
def switchRest (eof : Token) (loc : Location) (ts : List Token) : Reading Stmt ts.length :=
  (parenthesized eof ts).andThen fun selector r lt =>
    (expect eof .leftBrace "expected '\x7b' after switch selector" r).up lt |>.andThen fun _ r lt =>
      (cases eof false r lt).map fun cs => .switch selector cs loc
termination_by (ts.length, 0)

/-- The cases of a switch and the brace that closes it. -/
def cases {n : Nat} (eof : Token) (seenDefault : Bool) (ts : List Token) (lt : ts.length < n) :
    Reading (List SwitchCase) n :=
  match skip? .rightBrace ts lt with
  | some ⟨r, _, lt⟩ => .ok [] r lt
  | none =>
    ((caseLabel eof seenDefault ts).andThen fun (labels, isDefault) r lt =>
      (expect eof .colon "expected ':' after case label" r).up lt |>.andThen fun _ r lt =>
        (caseBody eof r lt).andThen fun body r lt =>
          (cases eof (seenDefault || isDefault) r lt).map (.mk labels isDefault body :: ·)).up lt
termination_by (ts.length, 3)

/-- The statements of a case, up to the next case or the end of the switch. -/
def caseBody {n : Nat} (eof : Token) (ts : List Token) (lt : ts.length < n) :
    Reading (List Stmt) n :=
  match currentKind ts with
  | .keyword .case | .keyword .default | .rightBrace => .ok [] ts lt
  | .eof => (failAt eof "expected '\x7d' to close switch" ts).up lt
  | _ =>
    ((statement eof ts).andThen fun s r lt => (caseBody eof r lt).map (s :: ·)).up lt
termination_by (ts.length, 2)

/-- What follows the word `try`. -/
def tryRest (eof : Token) (loc : Location) (ts : List Token) : Reading Stmt (ts.length + 1) :=
  (resources eof ts (Nat.lt_succ_self _)).andThen fun rs r lt =>
    (block eof r).up lt |>.andThen fun body r lt =>
      (catches eof r lt).andThen fun cs r lt =>
        match skip? (.keyword .finally_) r lt with
        | some ⟨r, _, lt⟩ =>
          (block eof r).up lt |>.map fun final => .tryCatch rs body cs (some final) loc
        | none =>
          if rs.isEmpty && cs.isEmpty then .stop ⟨.bareTry, loc⟩ r lt
          else .ok (.tryCatch rs body cs none loc) r lt
termination_by (ts.length, 1)
decreasing_by all_goals simp only [Prod.lex_def]; omega

/-- The handlers that come next. -/
def catches {n : Nat} (eof : Token) (ts : List Token) (lt : ts.length < n) :
    Reading (List CatchClause) n :=
  match skip? (.keyword .catch_) ts lt with
  | some ⟨r, _, lt⟩ =>
    ((catchHeader eof r).andThen fun (types, name) r lt =>
      (block eof r).up lt |>.andThen fun body r lt =>
        (catches eof r lt).map (.mk (.free name) types body :: ·)).up lt
  | none => .ok [] ts lt
termination_by (ts.length, 0)

end

/-! ## Procedures -/

/-- One or more parameters with commas between them. -/
def paramList (eof : Token) (ts : List Token) : Reading (List Param) ts.length :=
  (typeRef eof ts).andThen fun type r lt =>
    (expectName eof "expected parameter name" r).up lt |>.andThen fun name r lt =>
      match skip? .comma r lt with
      | some ⟨r, _, lt⟩ => (paramList eof r).up lt |>.map (⟨.free name, type⟩ :: ·)
      | none => .ok [⟨.free name, type⟩] r lt
termination_by ts.length

/-- The parameters of a procedure, unless a parenthesis comes next. -/
def params {n : Nat} (eof : Token) (ts : List Token) (lt : ts.length < n) :
    Reading (List Param) n :=
  if currentKind ts = .rightParen then .ok [] ts lt else (paramList eof ts).up lt

/-- A procedure: type, name, parameters and statements. -/
def procedure (eof : Token) (ts : List Token) : Reading Procedure ts.length :=
  (typeRef eof ts).andThen fun type r lt =>
    (expectName eof "expected procedure name" r).up lt |>.andThen fun name r lt =>
      (expect eof .leftParen "expected '(' after procedure name" r).up lt |>.andThen fun _ r lt =>
        (params eof r lt).andThen fun ps r lt =>
          (expect eof .rightParen "expected ')' after parameters" r).up lt |>.andThen fun _ r lt =>
            (block eof r).up lt |>.map fun body =>
              ⟨name, ps, some type, body, (currentToken eof ts).location⟩

/-- All procedures up to the end of the input. -/
def procedures {n : Nat} (eof : Token) (ts : List Token) (lt : ts.length < n) :
    Reading (List Procedure) n :=
  if currentKind ts = .eof then .ok [] ts lt
  else ((procedure eof ts).andThen fun p r lt => (procedures eof r lt).map (p :: ·)).up lt
termination_by ts.length

/-- The procedures of a source. -/
def unit (eof : Token) (ts : List Token) : Reading ProgramUnit (ts.length + 1) :=
  (procedures eof ts (Nat.lt_succ_self _)).map fun ps => ⟨ps⟩

/-! ## Sources -/

/-- The tokens to read and the one that stands for the end behind them: the last token if it marks
the end, or else an end at the place of the last token. -/
def input (tokens : List Token) : List Token × Token :=
  match tokens.getLast? with
  | some t => if t.isEof then (tokens.dropLast, t) else (tokens, ⟨.eof, t.location, ""⟩)
  | none => ([], ⟨.eof, .unknown, ""⟩)

end Parser

/-- An error of reading a source. -/
inductive SourceError where
  /-- its characters form no tokens -/
  | lex (e : LexError)
  /-- its tokens form no tree -/
  | parse (e : ParseError)

/-- The message of an error. -/
def SourceError.message : SourceError → String
  | .lex e => e.message
  | .parse e => e.message

/-- Reads the procedures of a source. -/
def ProgramUnit.ofSource (source file : String) : Except SourceError ProgramUnit :=
  match tokenize source file with
  | .error e => .error (.lex e)
  | .ok tokens =>
    let (ts, eof) := Parser.input tokens
    (Parser.unit eof ts).result.mapError .parse

end Resumable
