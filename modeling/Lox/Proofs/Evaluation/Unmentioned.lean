import Lox.Proofs.Evaluation.Pairs
import Lox.Proofs.Scope.Stacks

/-!
# Names that a program does not mention

A run in two scopes that differ in one name only, one that the program does not mention, is the same
run twice: neither side can tell which frames bind the name, or to what, and neither changes it.
-/

namespace Lox

def Unmentioned (x : Name) (names : List Name) : Prop :=
  ∀ name ∈ names, Name.key name ≠ Name.key x

theorem append_subset_append {a b c d : List Name} (hac : a ⊆ c) (hbd : b ⊆ d) :
    a ++ b ⊆ c ++ d := by
  rw [List.append_subset]
  exact ⟨List.Subset.trans hac (List.subset_append_left c d),
    List.Subset.trans hbd (List.subset_append_right c d)⟩

theorem Expr.names_cutAt (costs : Costs) (e : Expr) (n : Nat) :
    (e.cutAt costs n).names ⊆ e.names := by
  induction e generalizing n with
  | literal | var | unknown | cut =>
    cases n with
    | zero => exact List.nil_subset _
    | succ n => exact List.Subset.refl _
  | group _ ih | unary _ _ ih =>
    cases n with
    | zero => exact List.nil_subset _
    | succ n => exact ih _
  | assign _ _ ih =>
    cases n with
    | zero => exact List.nil_subset _
    | succ n => exact List.cons_subset_cons _ (ih _)
  | binary _ _ _ ihl ihr | logical _ _ _ ihl ihr =>
    cases n with
    | zero => exact List.nil_subset _
    | succ n => exact append_subset_append (ihl _) (ihr _)

mutual

theorem Stmt.names_cutAt (costs : Costs) : ∀ (stmt : Stmt) (n : Nat),
    (stmt.cutAt costs n).names ⊆ stmt.names
  | stmt, 0 => by cases stmt <;> exact List.nil_subset _
  | .expression e, _ + 1 | .print e, _ + 1 | .bare e, _ + 1 => e.names_cutAt costs _
  | .declare _ e, _ + 1 => List.cons_subset_cons _ (e.names_cutAt costs _)
  | .block body, _ + 1 => Stmt.allNames_cutAllAt costs body _
  | .ifThen c yes, _ + 1 =>
    append_subset_append (c.names_cutAt costs _) (Stmt.names_cutAt costs yes _)
  | .ifElse c yes no, _ + 1 =>
    append_subset_append (c.names_cutAt costs _)
      (append_subset_append (Stmt.names_cutAt costs yes _) (Stmt.names_cutAt costs no _))
  | .loop c body, _ + 1 =>
    append_subset_append (c.names_cutAt costs _) (Stmt.names_cutAt costs body _)
  | .unknown _, _ + 1 | .cut, _ + 1 => List.nil_subset _

theorem Stmt.allNames_cutAllAt (costs : Costs) : ∀ (body : List Stmt) (n : Nat),
    Stmt.allNames (Stmt.cutAllAt costs n body) ⊆ Stmt.allNames body
  | [], _ => List.nil_subset _
  | stmt :: rest, n =>
    append_subset_append (Stmt.names_cutAt costs stmt n) (Stmt.allNames_cutAllAt costs rest n)

end

variable {x : Name} {a b : List (Option Value)}

namespace Scope

/-- Two scopes differ in what their frames hold for one name, which is known on either side. -/
structure Apart (x : Name) (a b : List (Option Value)) (s t : Scope) : Prop where
  others : ∀ name, Name.key name ≠ Name.key x → s.column name = t.column name
  first : s.column x = a
  second : t.column x = b

namespace Apart

variable {s t : Scope} {name : Name}

theorem get (h : Apart x a b s t) (hname : Name.key name ≠ Name.key x) :
    s.get? name = t.get? name := by
  rw [get_column, get_column, h.others name hname]

theorem define (h : Apart x a b s t) (hname : Name.key name ≠ Name.key x) (v : Value) :
    Apart x a b (s.define name v) (t.define name v) where
  others other hother := by
    by_cases hsame : Name.key other = Name.key name
    · rw [column_define_same s v hsame, column_define_same t v hsame, h.others name hname]
    · rw [column_define_other s v hsame, column_define_other t v hsame, h.others other hother]
  first := (column_define_other s v hname.symm).trans h.first
  second := (column_define_other t v hname.symm).trans h.second

theorem assign (h : Apart x a b s t) (hname : Name.key name ≠ Name.key x) (v : Value) :
    Option.Rel (Apart x a b) (s.assign? name v) (t.assign? name v) := by
  have hcolumn :
      (s.assign? name v).map (·.column name) = (t.assign? name v).map (·.column name) := by
    rw [column_assign, column_assign, h.others name hname]
  cases hs : s.assign? name v with
  | none =>
    cases ht : t.assign? name v with
    | none => exact .none
    | some t' => simp [hs, ht] at hcolumn
  | some s' =>
    cases ht : t.assign? name v with
    | none => simp [hs, ht] at hcolumn
    | some t' =>
      rw [hs, ht] at hcolumn
      refine .some ⟨fun other hother => ?_, ?_, ?_⟩
      · by_cases hsame : Name.key other = Name.key name
        · rw [column_congr s' hsame, column_congr t' hsame]
          exact Option.some.inj hcolumn
        · rw [column_assign_other hsame hs, column_assign_other hsame ht, h.others other hother]
      · exact (column_assign_other hname.symm hs).trans h.first
      · exact (column_assign_other hname.symm ht).trans h.second

theorem enter (h : Apart x a b s t) : Apart x (none :: a) (none :: b) s.enter t.enter where
  others other hother := by rw [column_enter, column_enter, h.others other hother]
  first := by rw [column_enter, h.first]
  second := by rw [column_enter, h.second]

theorem leave (h : Apart x (none :: a) (none :: b) s t) (hs : s.outer ≠ []) (ht : t.outer ≠ []) :
    Apart x a b s.leave t.leave where
  others other hother := by rw [column_leave hs, column_leave ht, h.others other hother]
  first := by rw [column_leave hs, h.first, List.tail_cons]
  second := by rw [column_leave ht, h.second, List.tail_cons]

end Apart

theorem agree_apart {name : Name} (hname : Name.key name ≠ Name.key x) : Agree (Apart x a b) name :=
  ⟨fun _ _ h => h.get hname, fun v _ _ h => h.assign hname v⟩

end Scope

namespace Evaluation

open Scope (Apart)

structure Alike (x : Name) (columns : List (Option Value) × List (Option Value)) (s t : State) :
    Prop where
  scopes : Apart x columns.1 columns.2 s.scope t.scope
  printed : s.printed = t.printed

theorem alike_simulation (x : Name) :
    Simulation (Alike x) (fun columns => (none :: columns.1, none :: columns.2))
      (fun name => Name.key name ≠ Name.key x) (fun _ => True) where
  evaluates _ _ hnames _ _ h := by
    obtain ⟨hresult, hscopes⟩ :=
      eval_pair (fun name hname => Scope.agree_apart (hnames name hname)) h.scopes
    exact ⟨hresult, hscopes, h.printed⟩
  print _ _ _ _ h := ⟨h.scopes, by rw [h.printed]⟩
  define _ _ v _ _ _ hname h := ⟨h.scopes.define hname v, h.printed⟩
  enter _ _ _ h := ⟨h.scopes.enter, h.printed⟩
  leave _ _ _ hs ht h := ⟨h.scopes.leave hs ht, h.printed⟩
  declares _ := trivial

/-- A program can neither see nor touch a name that it does not mention. From two scopes whose
frames hold the same for every other name, so that there are as many of them, it ends alike and
prints the same lines, or runs out of any amount of fuel in both; afterwards the frames hold the
same for every other name again, and in each scope what they held for this one before. -/
theorem unmentioned_name_is_neither_read_nor_written {program : List Stmt}
    (hx : Unmentioned x (Stmt.allNames program)) {s t : Scope}
    (h : ∀ name, Name.key name ≠ Name.key x → s.column name = t.column name) (room fuel : Nat) :
    (interpretWithin room fuel program s).1 = (interpretWithin room fuel program t).1 ∧
      (interpretWithin room fuel program s).2.printed =
        (interpretWithin room fuel program t).2.printed ∧
      (∀ name, Name.key name ≠ Name.key x →
        (interpretWithin room fuel program s).2.scope.column name =
          (interpretWithin room fuel program t).2.scope.column name) ∧
      (interpretWithin room fuel program s).2.scope.column x = s.column x ∧
      (interpretWithin room fuel program t).2.scope.column x = t.column x := by
  rw [interpretWithin_eq, interpretWithin_eq]
  have hstart : Alike x (s.column x, t.column x) ⟨s, #[]⟩ ⟨t, #[]⟩ := ⟨⟨h, rfl, rfl⟩, rfl⟩
  have hcut : Unmentioned x (Stmt.allNames (Stmt.cutAllAt costs room program)) :=
    fun name hname => hx name (Stmt.allNames_cutAllAt costs program room hname)
  obtain ⟨houtcome, hafter⟩ :=
    (alike_simulation x).execAll fuel _ _ hcut (fun _ => trivial) _ _ hstart
  exact ⟨houtcome, hafter.printed, hafter.scopes.others, hafter.scopes.first, hafter.scopes.second⟩

/-- The program `while (go) { var old = go; go = false; print old; } print gone;` fails at its last
name, with `x` bound to nil in the inner frame or to a text in the outer one. -/
theorem unmentioned_name_outlasts_a_failing_run :
    let name (s : String) : Token := ⟨.identifier, .text s, 1⟩
    let body : List Stmt := [.declare (name "old") (.var (name "go")),
      .expression (.assign (name "go") (.literal (.bool false))), .print (.var (name "old"))]
    let program : List Stmt :=
      [.loop (.var (name "go")) (.block body), .print (.var (name "gone"))]
    let s : Scope := ⟨[(.text "x", .nil)], [[(.text "go", .bool true)]]⟩
    let t : Scope := ⟨[], [[(.text "x", .text "far"), (.text "go", .bool true)]]⟩
    (interpret 2 program s).1 = .failed (.misuse .undefinedVariable 1) ∧
      (interpret 2 program t).1 = .failed (.misuse .undefinedVariable 1) ∧
      (interpret 2 program t).2.printed = #["true"] ∧
      (interpret 2 program s).2.scope.column (.text "x") = [some .nil, none] ∧
      (interpret 2 program t).2.scope.column (.text "x") = [none, some (.text "far")] := by
  intro name body program s t
  have hx : Unmentioned (.text "x") (Stmt.allNames program) := by
    simp [program, body, name, Unmentioned, Stmt.allNames, Stmt.names, Expr.names, Name.key]
  have hagree : ∀ y, Name.key y ≠ Name.key (.text "x") → s.column y = t.column y := by
    intro y hy
    simp [s, t, Scope.column, Scope.frames, Frame.get?, Frame.atKey?, hy.symm]
  obtain ⟨houtcome, hprinted, -, hs, ht⟩ :=
    unmentioned_name_is_neither_read_nor_written hx hagree usualRoom 2
  have hrun : (interpret 2 program s).1 = .failed (.misuse .undefinedVariable 1) := by rfl
  have hlines : (interpret 2 program s).2.printed = #["true"] := by rfl
  exact ⟨hrun, houtcome.symm.trans hrun, hprinted.symm.trans hlines, hs, ht⟩

end Evaluation

end Lox
