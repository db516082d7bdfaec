import Lox.Proofs.Evaluation.ForLoop
import Lox.Proofs.Evaluation.Lookup
import Lox.Proofs.Session.Ending

/-!
# Scopes of parsed programs are lexical

The parser puts declarations directly into blocks or at the top level and nowhere else, and cutting
a tree that is nested too deeply leaves them there. So every program that is read from a source can
be resolved ahead of its run.
-/

namespace Lox

namespace Resolution

theorem cutAt_resolve_expr (costs : Costs) (e : Expr) (blocks : Blocks) (n : Nat) :
    (e.resolve blocks).cutAt costs n = (e.cutAt costs n).resolve blocks := by
  induction e generalizing n with
  | literal => cases n <;> rfl
  | group inner ih =>
    cases n with
    | zero => rfl
    | succ n => simp only [Expr.resolve, BoundExpr.cutAt, Expr.cutAt, ih]
  | unary op r ih =>
    cases n with
    | zero => rfl
    | succ n => simp only [Expr.resolve, BoundExpr.cutAt, Expr.cutAt, ih]
  | binary l op r ihl ihr =>
    cases n with
    | zero => rfl
    | succ n => simp only [Expr.resolve, BoundExpr.cutAt, Expr.cutAt, ihl, ihr]
  | logical l op r ihl ihr =>
    cases n with
    | zero => rfl
    | succ n => simp only [Expr.resolve, BoundExpr.cutAt, Expr.cutAt, ihl, ihr]
  | var => cases n <;> rfl
  | assign name e ih =>
    cases n with
    | zero => rfl
    | succ n => simp only [Expr.resolve, BoundExpr.cutAt, Expr.cutAt, ih]
  | unknown => cases n <;> rfl
  | cut => cases n <;> rfl

theorem resolveAll_cut (costs : Costs) (body : List Stmt) (blocks : Blocks) :
    Stmt.resolveAll blocks (Stmt.cutAllAt costs 0 body) = body.map fun _ => .cut := by
  induction body generalizing blocks with
  | nil => rfl
  | cons stmt rest ih =>
    rw [Stmt.cutAllAt, Stmt.cutAt, Stmt.resolveAll, ih]
    rfl

theorem after_cutAt (costs : Costs) (stmt : Stmt) (blocks : Blocks) (n : Nat) :
    blocks.after (stmt.cutAt costs (n + 1)) = blocks.after stmt := by
  cases stmt <;> rfl

mutual

theorem cutAt_resolve (costs : Costs) : ∀ (stmt : Stmt) (blocks : Blocks) (n : Nat),
    (stmt.resolve blocks).cutAt costs n = (stmt.cutAt costs n).resolve blocks
  | stmt, _, 0 => by cases stmt <;> rfl
  | .expression e, blocks, n + 1 | .print e, blocks, n + 1 | .declare _ e, blocks, n + 1
  | .bare e, blocks, n + 1 => by
    simp only [Stmt.resolve, BoundStmt.cutAt, Stmt.cutAt, cutAt_resolve_expr]
  | .block body, blocks, n + 1 => by
    simp only [Stmt.resolve, BoundStmt.cutAt, Stmt.cutAt, cutAllAt_resolveAll costs body]
  | .ifThen c yes, blocks, n + 1 => by
    simp only [Stmt.resolve, BoundStmt.cutAt, Stmt.cutAt, cutAt_resolve_expr,
      cutAt_resolve costs yes]
  | .ifElse c yes no, blocks, n + 1 => by
    simp only [Stmt.resolve, BoundStmt.cutAt, Stmt.cutAt, cutAt_resolve_expr,
      cutAt_resolve costs yes, cutAt_resolve costs no]
  | .loop c body, blocks, n + 1 => by
    simp only [Stmt.resolve, BoundStmt.cutAt, Stmt.cutAt, cutAt_resolve_expr,
      cutAt_resolve costs body]
  | .unknown _, _, _ + 1 => rfl
  | .cut, _, _ + 1 => rfl

theorem cutAllAt_resolveAll (costs : Costs) : ∀ (body : List Stmt) (blocks : Blocks) (n : Nat),
    BoundStmt.cutAllAt costs n (Stmt.resolveAll blocks body) =
      Stmt.resolveAll blocks (Stmt.cutAllAt costs n body)
  | [], _, _ => rfl
  | stmt :: rest, blocks, n => by
    have htail : Stmt.resolveAll (blocks.after stmt) (Stmt.cutAllAt costs n rest) =
        Stmt.resolveAll (blocks.after (stmt.cutAt costs n)) (Stmt.cutAllAt costs n rest) := by
      cases n with
      | zero => rw [resolveAll_cut, resolveAll_cut]
      | succ n => rw [after_cutAt]
    simp only [Stmt.resolveAll, BoundStmt.cutAllAt, Stmt.cutAllAt, cutAt_resolve costs stmt,
      cutAllAt_resolveAll costs rest, htail]

end

end Resolution

theorem Stmt.declares_cutAt (costs : Costs) : ∀ (stmt : Stmt) (n : Nat),
    stmt.declares = false → (stmt.cutAt costs n).declares = false
  | stmt, 0, _ => by cases stmt <;> rfl
  | .ifThen _ yes, _ + 1, h => Stmt.declares_cutAt costs yes _ h
  | .ifElse _ yes no, _ + 1, h =>
    Bool.or_eq_false_iff.mpr ⟨Stmt.declares_cutAt costs yes _ (Bool.or_eq_false_iff.mp h).1,
      Stmt.declares_cutAt costs no _ (Bool.or_eq_false_iff.mp h).2⟩
  | .loop _ body, _ + 1, h => Stmt.declares_cutAt costs body _ h
  | .declare _ _, _ + 1, h => h
  | .expression _, _ + 1, _ => rfl
  | .print _, _ + 1, _ => rfl
  | .block _, _ + 1, _ => rfl
  | .bare _, _ + 1, _ => rfl
  | .unknown _, _ + 1, _ => rfl
  | .cut, _ + 1, _ => rfl

mutual

theorem Stmt.Placed.cutAt (costs : Costs) : ∀ (stmt : Stmt) (n : Nat),
    stmt.Placed → (stmt.cutAt costs n).Placed
  | stmt, 0, _ => by cases stmt <;> trivial
  | .block body, _ + 1, h => Stmt.Placed.cutAllAt costs body _ h
  | .ifThen _ yes, _ + 1, h =>
    ⟨Stmt.declares_cutAt costs _ _ h.1, Stmt.Placed.cutAt costs yes _ h.2⟩
  | .ifElse _ yes no, _ + 1, h =>
    ⟨⟨Stmt.declares_cutAt costs _ _ h.1.1, Stmt.Placed.cutAt costs yes _ h.1.2⟩,
      Stmt.declares_cutAt costs _ _ h.2.1, Stmt.Placed.cutAt costs no _ h.2.2⟩
  | .loop _ body, _ + 1, h =>
    ⟨Stmt.declares_cutAt costs _ _ h.1, Stmt.Placed.cutAt costs body _ h.2⟩
  | .expression _, _ + 1, _ | .print _, _ + 1, _ | .declare _ _, _ + 1, _ | .bare _, _ + 1, _
  | .unknown _, _ + 1, _ | .cut, _ + 1, _ => trivial

theorem Stmt.Placed.cutAllAt (costs : Costs) : ∀ (body : List Stmt) (n : Nat),
    Stmt.AllPlaced body → Stmt.AllPlaced (Stmt.cutAllAt costs n body)
  | [], _, _ => trivial
  | stmt :: rest, n, h =>
    ⟨Stmt.Placed.cutAt costs stmt n h.1, Stmt.Placed.cutAllAt costs rest n h.2⟩

end

namespace Grammar

theorem Variable.placed {ts : List Token} {s : Stmt} (h : Variable ts s) : s.Placed := by
  cases h <;> trivial

theorem Start.placed {d : Dialect} {ts : List Token} {s : Stmt} (h : Start d ts (some s)) :
    s.Placed := by
  cases h with
  | expression => trivial
  | introduced _ _ hs => exact hs.placed
  | plain _ hs => exact hs.placed

mutual

theorem Statement.placed {d : Dialect} :
    ∀ {ending : Ending} {ts : List Token} {s : Stmt}, Statement d ending ts s → s.Placed
  | _, _, _, .expression _ => trivial
  | _, _, _, .print _ _ => trivial
  | _, _, _, .ifThen _ _ _ _ hs => ⟨hs.not_declares, hs.placed⟩
  | _, _, _, .ifElse _ _ _ _ hs _ _ ht =>
    ⟨⟨hs.not_declares, hs.placed⟩, ht.not_declares, ht.placed⟩
  | _, _, _, .loop _ _ _ _ hs => ⟨hs.not_declares, hs.placed⟩
  | _, _, _, .block _ hbody _ => hbody.placed
  | _, _, _, @Statement.forLoop _ _ _ _ _ _ _ _ _ start _ step _ _ _ _ hstart _ _ _ _ hs => by
    have hround : ∀ e, (Stmt.block [_, .expression e]).Placed := fun _ =>
      ⟨hs.placed, trivial, trivial⟩
    cases start <;> cases step
    · exact ⟨hs.not_declares, hs.placed⟩
    · exact ⟨rfl, hround _⟩
    · exact ⟨hstart.placed, ⟨hs.not_declares, hs.placed⟩, trivial⟩
    · exact ⟨hstart.placed, ⟨rfl, hround _⟩, trivial⟩

theorem Program.placed {d : Dialect} :
    ∀ {ts : List Token} {program : List Stmt}, Program d ts program → Stmt.AllPlaced program
  | _, _, .nil => trivial
  | _, _, .declaration _ hs hrest => ⟨hs.placed, hrest.placed⟩
  | _, _, .statement hs hrest => ⟨hs.placed, hrest.placed⟩

end

end Grammar

theorem parse_placed {room : Nat} {source : String} {program : List Stmt}
    (h : Session.parse room source = .ok program) : Stmt.AllPlaced program := by
  obtain ⟨tokens, -, hread⟩ := Session.parse_eq_ok.mp h
  exact (Grammar.parseWithin_sound hread).placed

theorem Resolution.runFault_eq_undefined {r : Evaluation.Run} {line : Int} :
    runFault r = undefinedAt line ↔ r.1 = .failed (.misuse .undefinedVariable line) := by
  obtain ⟨outcome, s⟩ := r
  cases outcome <;> simp [runFault, undefinedAt]

namespace Resolution

/-- What the resolution of a program tells of its fresh run: every use of a name acts on the frame
it is bound to, the run stops at an undefined variable iff it comes to a use that is bound to none,
and going straight to those frames gives the same run, with its output, outcome and scope. -/
structure Follows (fuel : Nat) (bound : List BoundStmt) (program : List Stmt) : Prop where
  lexical : ∀ a ∈ log fuel bound, a.Lexical
  undefined : ∀ line,
    (Evaluation.execAll fuel program ⟨.empty, #[]⟩).1 = .failed (.misuse .undefinedVariable line) ↔
      ∃ a ∈ log fuel bound, a.distance = none ∧ a.name.line = line
  run : execAll fuel bound ⟨.empty, #[]⟩ = Evaluation.execAll fuel program ⟨.empty, #[]⟩

theorem follows_of_placed {program : List Stmt} (h : Stmt.AllPlaced program) (fuel : Nat) :
    Follows fuel (resolveProgram program) program := by
  have haccounts := logAll_accounts fuel program [[]] ⟨.empty, #[]⟩ h rfl
  refine ⟨fun a ha => ?_, fun line => ?_, ?_⟩
  · exact Access.lexical_of_distance (haccounts.bound a ha)
  · rw [← runFault_eq_undefined]
    exact haccounts.undefined line
  · exact execAll_resolve fuel program [[]] ⟨.empty, #[]⟩ h rfl

end Resolution

/-- The fresh run of a program from a source follows its text, whatever it nests, and so does the
run of the program cut where calls run out, whatever they cost and however many there are. -/
theorem lookup_follows_the_program_text {room : Nat} {source : String} {program : List Stmt}
    (h : Session.parse room source = .ok program) (fuel : Nat) :
    Resolution.Follows fuel (resolveProgram program) program ∧
      (∀ costs n, Resolution.Follows fuel (BoundStmt.cutAllAt costs n (resolveProgram program))
        (Stmt.cutAllAt costs n program)) ∧
      ∀ within, Resolution.interpretWithin within fuel (resolveProgram program) .empty =
        Evaluation.interpretWithin within fuel program .empty := by
  have hplaced := parse_placed h
  have hcut : ∀ costs n, Resolution.Follows fuel
      (BoundStmt.cutAllAt costs n (resolveProgram program)) (Stmt.cutAllAt costs n program) := by
    intro costs n
    rw [resolveProgram, Resolution.cutAllAt_resolveAll]
    exact Resolution.follows_of_placed (Stmt.Placed.cutAllAt costs program n hplaced) fuel
  refine ⟨Resolution.follows_of_placed hplaced fuel, hcut, fun within => ?_⟩
  rw [Resolution.interpretWithin, Evaluation.interpretWithin, (hcut Evaluation.costs within).run]

/-- The program `var a; { a = a; var a = a; a = b; }`: the same name is bound to the outer block
before its declaration and to the inner one behind it, and the last name to none. -/
theorem shadowing_follows_the_program_text :
    let source := "var a; \x7b a = a; var a = a; a = b; \x7d"
    let a : Token := ⟨.identifier, .text "a", 1⟩
    let b : Token := ⟨.identifier, .text "b", 1⟩
    let program : List Stmt :=
      [.declare a (.literal .nil),
       .block [.expression (.assign a (.var a)), .declare a (.var a),
        .expression (.assign a (.var b))]]
    Session.parse Evaluation.usualRoom source = .ok program ∧
      (Resolution.log 9 (resolveProgram program)).map (fun use => (use.name, use.distance)) =
        [(a, some 1), (a, some 1), (a, some 1), (b, none)] ∧
      Resolution.Follows 9 (resolveProgram program) program ∧
      Resolution.interpretWithin 4 9 (resolveProgram program) .empty =
        Evaluation.interpretWithin 4 9 program .empty := by
  intro source a b program
  have hread : Lexer.read (Lexer.start source) =
      ⟨[⟨.var_, .nil, 1⟩, a, ⟨.semicolon, .nil, 1⟩, ⟨.leftBrace, .nil, 1⟩, a, ⟨.equal, .nil, 1⟩, a,
        ⟨.semicolon, .nil, 1⟩, ⟨.var_, .nil, 1⟩, a, ⟨.equal, .nil, 1⟩, a, ⟨.semicolon, .nil, 1⟩, a,
        ⟨.equal, .nil, 1⟩, b, ⟨.semicolon, .nil, 1⟩, ⟨.rightBrace, .nil, 1⟩, ⟨.eof, .nil, 1⟩],
       none⟩ := by
    decide +kernel
  have hparse : Session.parse Evaluation.usualRoom source = .ok program := by
    rw [Session.parse, Lexer.scan, hread]
    rfl
  obtain ⟨hfollows, -, hrun⟩ := lookup_follows_the_program_text hparse 9
  exact ⟨hparse, rfl, hfollows, hrun 4⟩

end Lox
