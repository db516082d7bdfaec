import Lox.Proofs.Grammar.EarliestError
import Lox.Proofs.Grammar.Walk

/-!
# Nothing behind the first end mark is read

The walk over the whole list of tokens does what the parser does on those before the first end mark.
It never steps over that mark, asks for no token that is not there and repeats nothing without end.
Each part of the walk agrees with the part of the parser, wherever it starts.
-/

namespace Lox.Grammar

theorem body_length_le (tokens : List Token) : (body tokens).length ≤ tokens.length :=
  (List.takeWhile_prefix _).length_le

namespace Walk

section

variable (tokens : List Token)

def context : Context := ⟨endLine tokens, (body tokens).length⟩

def rest (i : Nat) : List Token := (body tokens).drop i

theorem tokenAt_line {i : Nat} (hi : i ≤ (body tokens).length) :
    (tokenAt tokens i).line = lineAt (context tokens) (rest tokens i) := by
  by_cases hne : tokens = []
  · simp [hne, tokenAt, rest, context, body, lineAt, endLine]
  obtain ⟨t, ht, hline⟩ := lineAt_drop hne (body tokens).length hi
  rw [rest, context, hline, tokenAt]
  cases hi : tokens[i]? with
  | some u =>
    obtain ⟨hlt, -⟩ := List.getElem?_eq_some_iff.mp hi
    rw [Nat.min_eq_left (by omega), hi] at ht
    rw [Option.some.inj ht, Option.getD_some]
  | none =>
    have hlength := List.getElem?_eq_none_iff.mp hi
    rw [Nat.min_eq_right (by omega), ← List.getLast?_eq_getElem?] at ht
    rw [ht]
    rfl

end

section

variable {tokens : List Token} {i : Nat}

theorem rest_cons {t : Token} {us : List Token} (h : rest tokens i = t :: us) :
    tokens[i]? = some t ∧ t.kind ≠ .eof ∧ us = rest tokens (i + 1) ∧
      i + 1 ≤ (body tokens).length := by
  have hlt : i < (body tokens).length := by
    have hlength := congrArg List.length h
    rw [rest, List.length_drop, List.length_cons] at hlength
    omega
  rw [rest, List.drop_eq_getElem_cons hlt, List.cons.injEq] at h
  obtain ⟨rfl, rfl⟩ := h
  have hkind := List.mem_takeWhile_imp (List.getElem_mem hlt)
  refine ⟨?_, by simpa using hkind, rfl, hlt⟩
  rw [← List.getElem?_eq_getElem hlt]
  conv_lhs => rw [← body_append_after tokens]
  exact List.getElem?_append_left hlt

theorem tokenAt_end (h : rest tokens i = []) (hi : i ≤ (body tokens).length) :
    (tokenAt tokens i).kind = .eof := by
  have hlength := congrArg List.length h
  rw [rest, List.length_drop, List.length_nil] at hlength
  obtain rfl : i = (body tokens).length := by omega
  have hhead := List.head?_dropWhile_not (fun t : Token => decide (t.kind ≠ .eof)) tokens
  have hsplit := body_append_after tokens
  generalize body tokens = front at hsplit ⊢
  generalize tokens.dropWhile (fun t => decide (t.kind ≠ .eof)) = back at hsplit hhead
  subst hsplit
  rw [tokenAt, List.getElem?_append_right (Nat.le_refl _), Nat.sub_self, ← List.head?_eq_getElem?]
  cases hback : back.head? with
  | none => rfl
  | some t =>
    rw [hback] at hhead
    simpa using hhead

theorem tokenAt_inside {t : Token} {us : List Token} (h : rest tokens i = t :: us) :
    tokenAt tokens i = t := by
  rw [tokenAt, (rest_cons h).1, Option.getD_some]

instance : LawfulMonad Walk := by
  refine LawfulMonad.mk' Walk (fun w => ?_) (fun _ _ => rfl) (fun w f g => ?_)
  · funext i
    simp only [Functor.map]
    rcases w i with ⟨_ | _, _⟩ <;> rfl
  · funext i
    simp only [bind]
    rcases w i with ⟨_ | _, _⟩ <;> rfl

theorem bind_ok {α β : Type} {w : Walk α} {j : Nat} {a : α} (h : w i = (.ok a, j))
    (f : α → Walk β) : (w >>= f) i = f a j := by
  simp only [bind, h]

theorem bind_error {α β : Type} {w : Walk α} {j : Nat} {signal : Signal}
    (h : w i = (.error signal, j)) (f : α → Walk β) : (w >>= f) i = (.error signal, j) := by
  simp only [bind, h]

theorem bind_congr {α β : Type} {w w' : Walk α} {j : Nat} (h : w i = w' j) (f : α → Walk β) :
    (w >>= f) i = (w' >>= f) j := by
  simp only [bind, h]

variable (tokens) in
/-- The walk ends as the parser does: with the same result at the index where the same tokens are
left, or with the same error there. -/
inductive Agrees {α : Type} (i : Nat) :
    Except Failure (α × List Token) → Except Signal α × Nat → Prop where
  | ok {a : α} {j : Nat} (hij : i ≤ j) (hj : j ≤ (body tokens).length) :
      Agrees i (.ok (a, rest tokens j)) (.ok a, j)
  | wrong {fault : Fault} {line : Int} {j : Nat} (hfault : fault ≠ .tooMuchNesting) (hij : i ≤ j)
      (hj : j ≤ (body tokens).length) :
      Agrees i (.error ⟨fault, line, rest tokens j⟩) (.error (.wrong fault line), j)
  | tooDeep {j : Nat} (hij : i ≤ j) (hj : j ≤ (body tokens).length) :
      Agrees i (fail (context tokens) .tooMuchNesting (rest tokens j)) (.error .tooDeep, j)

variable (tokens) in
def Follows {α : Type} (w : Walk α) (p : Parser α) : Prop :=
  ∀ i, i ≤ (body tokens).length → Agrees tokens i (p (rest tokens i)) (w i)

theorem Agrees.later {α : Type} {j : Nat} {r : Except Failure (α × List Token)}
    {x : Except Signal α × Nat} (h : Agrees tokens j r x) (hij : i ≤ j) : Agrees tokens i r x := by
  cases h with
  | ok hjk hk => exact .ok (Nat.le_trans hij hjk) hk
  | wrong hfault hjk hk => exact .wrong hfault (Nat.le_trans hij hjk) hk
  | tooDeep hjk hk => exact .tooDeep (Nat.le_trans hij hjk) hk

theorem Agrees.bind_of_eq {α β : Type} {r : Except Failure (α × List Token)} {w : Walk α}
    {next : α × List Token → Except Failure (β × List Token)} {f : α → Walk β}
    (h : Agrees tokens i r (w i))
    (hnext : ∀ a j, r = .ok (a, rest tokens j) → i ≤ j → j ≤ (body tokens).length →
      Agrees tokens j (next (a, rest tokens j)) (f a j)) :
    Agrees tokens i (r >>= next) ((w >>= f) i) := by
  generalize hw : w i = x at h
  cases h with
  | ok hij hj =>
    rw [bind_ok hw]
    exact (hnext _ _ rfl hij hj).later hij
  | wrong hfault hij hj =>
    rw [bind_error hw]
    exact .wrong hfault hij hj
  | tooDeep hij hj =>
    rw [bind_error hw]
    exact .tooDeep hij hj

theorem Agrees.bind {α β : Type} {r : Except Failure (α × List Token)} {w : Walk α}
    {next : α × List Token → Except Failure (β × List Token)} {f : α → Walk β}
    (h : Agrees tokens i r (w i))
    (hnext : ∀ a j, i ≤ j → j ≤ (body tokens).length →
      Agrees tokens j (next (a, rest tokens j)) (f a j)) :
    Agrees tokens i (r >>= next) ((w >>= f) i) :=
  h.bind_of_eq fun a j _ => hnext a j

theorem Agrees.map {α β : Type} {r : Except Failure (α × List Token)} {w : Walk α}
    (h : Agrees tokens i r (w i)) (f : α → β) :
    Agrees tokens i (r >>= fun p => pure (f p.1, p.2)) ((w >>= fun a => pure (f a)) i) :=
  h.bind fun _ j _ hj => .ok (Nat.le_refl j) hj

theorem follows_tooDeep {α : Type} :
    Follows tokens (stop .tooDeep : Walk α) (fail (context tokens) .tooMuchNesting) :=
  fun _ hi => .tooDeep (Nat.le_refl _) hi

theorem peek_apply : peek tokens i = (.ok (tokenAt tokens i), i) := rfl

theorem isAtEnd_apply :
    isAtEnd tokens i = (.ok (decide ((tokenAt tokens i).kind = .eof)), i) := rfl

theorem isAtEnd_end (h : rest tokens i = []) (hi : i ≤ (body tokens).length) :
    isAtEnd tokens i = (.ok true, i) := by
  rw [isAtEnd_apply, tokenAt_end h hi]
  rfl

theorem isAtEnd_inside {t : Token} {us : List Token} (h : rest tokens i = t :: us) :
    isAtEnd tokens i = (.ok false, i) := by
  rw [isAtEnd_apply, tokenAt_inside h, decide_eq_false (rest_cons h).2.1]

theorem previous_inside {t : Token} {us : List Token} (h : rest tokens i = t :: us) :
    previous tokens (i + 1) = (.ok t, i + 1) := by
  simp [previous, (rest_cons h).1]

theorem advance_inside {t : Token} {us : List Token} (h : rest tokens i = t :: us) :
    advance tokens i = (.ok t, i + 1) := by
  rw [advance, bind_ok (isAtEnd_inside h)]
  exact previous_inside h

theorem check_end (h : rest tokens i = []) (hi : i ≤ (body tokens).length) (kind : Kind) :
    check tokens kind i = (.ok false, i) := by
  rw [check, bind_ok (isAtEnd_end h hi)]
  rfl

theorem check_inside {t : Token} {us : List Token} (h : rest tokens i = t :: us) (kind : Kind) :
    check tokens kind i = (.ok (decide (t.kind = kind)), i) := by
  rw [check, bind_ok (isAtEnd_inside h), ← tokenAt_inside h]
  rfl

theorem takeAny_end (h : rest tokens i = []) (hi : i ≤ (body tokens).length) (kinds : List Kind) :
    takeAny tokens kinds i = (.ok false, i) := by
  induction kinds with
  | nil => rfl
  | cons kind kinds ih =>
    rw [takeAny, bind_ok (check_end h hi kind)]
    exact ih

theorem takeAny_inside {t : Token} {us : List Token} (h : rest tokens i = t :: us)
    (kinds : List Kind) :
    takeAny tokens kinds i = if t.kind ∈ kinds then (.ok true, i + 1) else (.ok false, i) := by
  induction kinds with
  | nil => rfl
  | cons kind kinds ih =>
    rw [takeAny, bind_ok (check_inside h kind)]
    by_cases hkind : t.kind = kind
    · rw [decide_eq_true hkind, if_pos rfl, bind_ok (advance_inside h), hkind,
        if_pos List.mem_cons_self]
      rfl
    · simp [hkind, ih]

theorem takeAny_cases (kinds : List Kind) (hi : i ≤ (body tokens).length) :
    (take? kinds (rest tokens i) = none ∧ takeAny tokens kinds i = (.ok false, i)) ∨
      ∃ t, take? kinds (rest tokens i) = some (t, rest tokens (i + 1)) ∧
        i + 1 ≤ (body tokens).length ∧ takeAny tokens kinds i = (.ok true, i + 1) ∧
        previous tokens (i + 1) = (.ok t, i + 1) := by
  cases h : rest tokens i with
  | nil => exact Or.inl ⟨rfl, takeAny_end h hi kinds⟩
  | cons t us =>
    obtain ⟨-, -, rfl, hle⟩ := rest_cons h
    by_cases ht : t.kind ∈ kinds
    · refine Or.inr ⟨t, take_cons ht, hle, ?_, previous_inside h⟩
      rw [takeAny_inside h, if_pos ht]
    · refine Or.inl ⟨take_cons_none ht, ?_⟩
      rw [takeAny_inside h, if_neg ht]

theorem choose_end {α : Type} (h : rest tokens i = []) (hi : i ≤ (body tokens).length)
    (kinds : List Kind) (yes no : Walk α) :
    (do if ← takeAny tokens kinds then yes else no : Walk α) i = no i := by
  rw [bind_ok (takeAny_end h hi kinds)]
  rfl

theorem choose_inside {α : Type} {t : Token} {us : List Token} (h : rest tokens i = t :: us)
    (kinds : List Kind) (yes no : Walk α) :
    (do if ← takeAny tokens kinds then yes else no : Walk α) i =
      if t.kind ∈ kinds then yes (i + 1) else no i := by
  have htake := takeAny_inside h kinds
  split at htake
  · next ht => rw [bind_ok htake, if_pos ht, if_pos rfl]
  · next ht => rw [bind_ok htake, if_neg ht, if_neg Bool.false_ne_true]

theorem check_cases (kind : Kind) (hi : i ≤ (body tokens).length) :
    (take? [kind] (rest tokens i) = none ∧ check tokens kind i = (.ok false, i)) ∨
      ∃ t, take? [kind] (rest tokens i) = some (t, rest tokens (i + 1)) ∧
        i + 1 ≤ (body tokens).length ∧ check tokens kind i = (.ok true, i) ∧
        advance tokens i = (.ok t, i + 1) := by
  cases h : rest tokens i with
  | nil => exact Or.inl ⟨rfl, check_end h hi kind⟩
  | cons t us =>
    obtain ⟨-, -, rfl, hle⟩ := rest_cons h
    rw [check_inside h]
    by_cases ht : t.kind = kind
    · have hmem : t.kind ∈ [kind] := List.mem_singleton.mpr ht
      exact Or.inr ⟨t, take_cons hmem, hle, by rw [decide_eq_true ht], advance_inside h⟩
    · have hmem : t.kind ∉ [kind] := fun hmem => ht (List.mem_singleton.mp hmem)
      exact Or.inl ⟨take_cons_none hmem, by rw [decide_eq_false ht]⟩

theorem stop_agrees {α : Type} {fault : Fault} (hfault : fault ≠ .tooMuchNesting)
    (hi : i ≤ (body tokens).length) :
    Agrees tokens i (fail (context tokens) fault (rest tokens i) : Except Failure (α × List Token))
      ((stop (.wrong fault (tokenAt tokens i).line) : Walk α) i) := by
  rw [fail, ← tokenAt_line tokens hi]
  exact .wrong hfault (Nat.le_refl _) hi

theorem consume_follows (kind : Kind) {fault : Fault} (hfault : fault ≠ .tooMuchNesting) :
    Follows tokens (consume tokens kind fault) (expect (context tokens) kind fault) := by
  intro i hi
  unfold consume expect
  obtain ⟨hnone, hcheck⟩ | ⟨t, hsome, hle, hcheck, hadvance⟩ := check_cases kind hi
  · rw [hnone, bind_ok hcheck]
    exact stop_agrees hfault hi
  · rw [hsome, bind_ok hcheck, if_pos rfl, hadvance]
    exact .ok (Nat.le_succ i) hle

theorem chain_follows (operators : List Kind) (join : Expr → Token → Expr → Expr)
    {w : Walk Expr} {p : Parser Expr} (h : Follows tokens w p) {n m : Nat} {left : Expr}
    (hi : i ≤ (body tokens).length) (hn : (body tokens).length < i + n)
    (hm : (body tokens).length ≤ i + m) :
    Agrees tokens i (Grammar.chain operators join p m left (rest tokens i))
      (chain tokens operators join w n left i) := by
  induction n generalizing i m left with
  | zero => omega
  | succ n ih =>
    unfold chain
    obtain ⟨hnone, htake⟩ | ⟨t, hsome, hle, htake, hprevious⟩ := takeAny_cases operators hi
    · rw [chain_none hnone, bind_ok htake]
      exact .ok (Nat.le_refl i) hi
    · obtain ⟨m, rfl⟩ : ∃ k, m = k + 1 := ⟨m - 1, by omega⟩
      rw [bind_ok htake, if_pos rfl, bind_ok hprevious]
      simp only [Grammar.chain, hsome]
      refine Agrees.later (Agrees.bind (h (i + 1) hle) fun right j hij hj => ?_) (Nat.le_succ i)
      exact ih hj (by omega) (by omega)

theorem tier_follows (operators : List Kind) (join : Expr → Token → Expr → Expr)
    {w : Walk Expr} {p : Parser Expr} (h : Follows tokens w p) :
    Follows tokens (tier tokens operators join w)
      (Grammar.tier (context tokens) operators join p) := by
  intro i hi
  refine Agrees.bind (h i hi) fun left j hij hj => ?_
  have hsize := body_length_le tokens
  exact chain_follows operators join h hj (by omega) (Nat.le_add_left _ _)

theorem disjunction_follows {w : Walk Expr} {p : Parser Expr} (h : Follows tokens w p) :
    Follows tokens (disjunction tokens w) (Grammar.disjunction (context tokens) p) := by
  have hproduct := tier_follows [.slash, .star] .binary h
  have hsum := tier_follows [.minus, .plus] .binary hproduct
  have hcomparison := tier_follows [.greater, .greaterEqual, .less, .lessEqual] .binary hsum
  have hequality := tier_follows [.bangEqual, .equalEqual] .binary hcomparison
  exact tier_follows [.or_] .logical (tier_follows [.and_] .logical hequality)

theorem primary_follows {w : Walk Expr} {p : Parser Expr} (h : Follows tokens w p) :
    Follows tokens (primary tokens w) (Grammar.primary (context tokens) p) := by
  intro i hi
  have hfault : Fault.expression ≠ .tooMuchNesting := by decide
  have hstop := stop_agrees (α := Expr) hfault hi
  unfold primary
  rw [bind_ok peek_apply]
  cases hrest : rest tokens i with
  | nil =>
    simp only [choose_end hrest hi]
    rw [hrest] at hstop
    exact hstop
  | cons t us =>
    obtain ⟨-, -, rfl, hle⟩ := rest_cons hrest
    have hread : ∀ e : Expr, Agrees tokens i (.ok (e, rest tokens (i + 1))) (.ok e, i + 1) :=
      fun _ => .ok (Nat.le_succ i) hle
    rw [hrest, tokenAt_inside hrest] at hstop
    simp only [choose_inside hrest, tokenAt_inside hrest, Grammar.primary]
    split
    case h_7 hkind =>
      simp only [hkind]
      refine Agrees.later (Agrees.bind (h (i + 1) hle) fun e j hij hj => ?_) (Nat.le_succ i)
      exact (consume_follows .rightParen (by decide) j hj).map fun _ => Expr.group e
    case h_8 =>
      rw [if_neg (by grind), if_neg (by grind), if_neg (by grind), if_neg (by grind)]
      exact hstop
    all_goals
      next hkind =>
      simp only [hkind]
      exact hread _

theorem assignTo_follows (target : Expr) (equals : Token) (value : Expr) :
    Follows tokens (assignTo target equals value) (Grammar.assignTo target equals value) := by
  intro i hi
  cases target with
  | var name => exact .ok (Nat.le_refl i) hi
  | _ => exact .wrong (by decide) (Nat.le_refl i) hi

section

variable {next : Walk Expr} {next' : Parser Expr} (hnext : Follows tokens next next')

include hnext

theorem assignment_follows {w : Walk Expr} {p : Parser Expr} (h : Follows tokens w p) :
    Follows tokens (assignment tokens w next) (Grammar.assignment (context tokens) p next') := by
  intro i hi
  refine Agrees.bind (disjunction_follows h i hi) fun target j hij hj => ?_
  dsimp only
  obtain ⟨hnone, htake⟩ | ⟨equals, hsome, hle, htake, hprevious⟩ := takeAny_cases [.equal] hj
  · rw [hnone, bind_ok htake]
    exact .ok (Nat.le_refl j) hj
  · rw [hsome, bind_ok htake, if_pos rfl, bind_ok hprevious]
    refine Agrees.later (Agrees.bind (hnext (j + 1) hle) fun value k hjk hk => ?_) (Nat.le_succ j)
    exact assignTo_follows target equals value k hk

theorem signedOperand_follows {w : Walk Expr} {p : Parser Expr} (h : Follows tokens w p) :
    Follows tokens (signedOperand tokens next w)
      (Grammar.signedOperand (context tokens) next' p) := by
  intro i hi
  unfold signedOperand Grammar.signedOperand
  obtain ⟨hnone, htake⟩ | ⟨op, hsome, hle, htake, hprevious⟩ := takeAny_cases [.bang, .minus] hi
  · rw [hnone, bind_ok htake]
    exact primary_follows h i hi
  · rw [hsome, bind_ok htake, if_pos rfl, bind_ok hprevious]
    refine Agrees.later (Agrees.bind (hnext (i + 1) hle) fun right j hij hj => ?_) (Nat.le_succ i)
    exact .ok (Nat.le_refl j) hj

end

theorem expression_signed_follows (room : Nat) :
    Follows tokens (expression tokens room) (Grammar.expression (context tokens) room) ∧
      Follows tokens (signed tokens room) (Grammar.signed (context tokens) room) := by
  refine expression_induction
    (P := fun room => Follows tokens (expression tokens room) (Grammar.expression _ room))
    (Q := fun room => Follows tokens (signed tokens room) (Grammar.signed _ room)) ?_ ?_ ?_ ?_ room
  · intro room h
    rw [expression_of_lt tokens h, Grammar.expression_of_lt _ h]
    exact follows_tooDeep
  · exact fun room hsigned hexpression => assignment_follows hexpression hsigned
  · exact follows_tooDeep
  · exact fun room hsigned hexpression => signedOperand_follows hsigned hexpression

theorem expression_follows (room : Nat) :
    Follows tokens (expression tokens room) (Grammar.expression (context tokens) room) :=
  (expression_signed_follows room).1

section

variable {w : Walk Expr} {p : Parser Expr} (h : Follows tokens w p)

include h

theorem value_follows : Follows tokens (value tokens w) (Grammar.value (context tokens) p) := by
  intro i hi
  refine Agrees.bind (h i hi) fun e j _ hj => ?_
  exact (consume_follows .semicolon (by decide) j hj).map fun _ => e

theorem expressionStatement_follows : Follows tokens (expressionStatement tokens w)
    (Grammar.expressionStatement (context tokens) p) :=
  fun i hi => (value_follows h i hi).map _

theorem printStatement_follows : Follows tokens (printStatement tokens w)
    (Grammar.printStatement (context tokens) p) :=
  fun i hi => (value_follows h i hi).map _

theorem variableDeclaration_follows : Follows tokens (variableDeclaration tokens w)
    (Grammar.variableDeclaration (context tokens) p) := by
  intro i hi
  refine (consume_follows .identifier (by decide) i hi).bind fun name j _ hj => ?_
  have hlast : ∀ initial k, k ≤ (body tokens).length → Agrees tokens k
      (expect (context tokens) .semicolon .semicolonAfterDeclaration (rest tokens k) >>= fun r =>
        pure (Stmt.declare name initial, r.2))
      ((consume tokens .semicolon .semicolonAfterDeclaration >>= fun _ =>
        pure (Stmt.declare name initial)) k) := fun initial k hk =>
    (consume_follows .semicolon (by decide) k hk).map fun _ => Stmt.declare name initial
  dsimp only
  obtain ⟨hnone, htake⟩ | ⟨equals, hsome, hle, htake, -⟩ := takeAny_cases [.equal] hj
  · have hinitial : initializer tokens w j = (.ok (.literal .nil), j) := by
      rw [initializer, bind_ok htake]
      rfl
    rw [hnone, bind_ok hinitial]
    exact hlast _ j hj
  · have hinitial : initializer tokens w j = w (j + 1) := by
      rw [initializer, bind_ok htake, if_pos rfl]
    rw [hsome, bind_congr hinitial]
    exact ((h (j + 1) hle).bind fun initial k _ hk => hlast initial k hk).later (Nat.le_succ j)

theorem loopStart_follows :
    Follows tokens (loopStart tokens w) (Grammar.loopStart (context tokens) p) := by
  intro i hi
  unfold loopStart Grammar.loopStart
  obtain ⟨hnone, htake⟩ | ⟨t, hsome, hle, htake, -⟩ := takeAny_cases [.semicolon] hi
  · rw [hnone, bind_ok htake, if_neg Bool.false_ne_true]
    dsimp only
    obtain ⟨hnone, htake⟩ | ⟨t, hsome, hle, htake, -⟩ := takeAny_cases [.var_] hi
    · rw [hnone, bind_ok htake]
      exact (expressionStatement_follows h i hi).map _
    · rw [hsome, bind_ok htake]
      refine Agrees.later ?_ (Nat.le_succ i)
      exact (variableDeclaration_follows h (i + 1) hle).map _
  · rw [hsome, bind_ok htake]
    exact .ok (Nat.le_succ i) hle

theorem optional_follows (kind : Kind) :
    Follows tokens (optional tokens kind w) (Grammar.optional kind p) := by
  intro i hi
  unfold optional Grammar.optional
  obtain ⟨hnone, hcheck⟩ | ⟨t, hsome, -, hcheck, -⟩ := check_cases kind hi
  · rw [hnone, bind_ok hcheck]
    exact (h i hi).map _
  · rw [hsome, bind_ok hcheck]
    exact .ok (Nat.le_refl i) hi

variable {v : Walk Stmt} {q : Parser Stmt} (hv : Follows tokens v q)

include hv

theorem declaration_follows :
    Follows tokens (declaration tokens w v) (Grammar.declaration (context tokens) p q) := by
  intro i hi
  unfold declaration Grammar.declaration
  obtain ⟨hnone, htake⟩ | ⟨t, hsome, hle, htake, -⟩ := takeAny_cases [.var_] hi
  · rw [hnone, bind_ok htake]
    exact hv i hi
  · rw [hsome, bind_ok htake]
    exact (variableDeclaration_follows h (i + 1) hle).later (Nat.le_succ i)

theorem forStatement_follows {u : Walk Expr} {o : Parser Expr} (hu : Follows tokens u o) :
    Follows tokens (forStatement tokens u w v)
      (Grammar.forStatement (context tokens) o p q) := by
  intro i hi
  refine (consume_follows .leftParen (by decide) i hi).bind fun _ j₁ _ h₁ => ?_
  refine (loopStart_follows hu j₁ h₁).bind fun start j₂ _ h₂ => ?_
  refine (optional_follows h .semicolon j₂ h₂).bind fun condition j₃ _ h₃ => ?_
  refine (consume_follows .semicolon (by decide) j₃ h₃).bind fun _ j₄ _ h₄ => ?_
  refine (optional_follows h .rightParen j₄ h₄).bind fun increment j₅ _ h₅ => ?_
  refine (consume_follows .rightParen (by decide) j₅ h₅).bind fun _ j₆ _ h₆ => ?_
  exact (hv j₆ h₆).map _

theorem whileStatement_follows :
    Follows tokens (whileStatement tokens w v) (Grammar.whileStatement (context tokens) p q) := by
  intro i hi
  refine (consume_follows .leftParen (by decide) i hi).bind fun _ j₁ _ h₁ => ?_
  refine (h j₁ h₁).bind fun condition j₂ _ h₂ => ?_
  refine (consume_follows .rightParen (by decide) j₂ h₂).bind fun _ j₃ _ h₃ => ?_
  exact (hv j₃ h₃).map _

theorem ifStatement_follows :
    Follows tokens (ifStatement tokens w v) (Grammar.ifStatement (context tokens) p q) := by
  intro i hi
  refine (consume_follows .leftParen (by decide) i hi).bind fun _ j₁ _ h₁ => ?_
  refine (h j₁ h₁).bind fun condition j₂ _ h₂ => ?_
  refine (consume_follows .rightParen (by decide) j₂ h₂).bind fun _ j₃ _ h₃ => ?_
  refine (hv j₃ h₃).bind fun yes j₄ _ h₄ => ?_
  dsimp only
  obtain ⟨hnone, htake⟩ | ⟨t, hsome, hle, htake, -⟩ := takeAny_cases [.else_] h₄
  · rw [hnone, bind_ok htake]
    exact .ok (Nat.le_refl j₄) h₄
  · rw [hsome, bind_ok htake]
    refine Agrees.later ?_ (Nat.le_succ j₄)
    exact (hv (j₄ + 1) hle).map _

end

theorem rest_lt {j : Nat} (h : (rest tokens j).length < (rest tokens i).length) : i < j := by
  rw [rest, rest, List.length_drop, List.length_drop] at h
  omega

/-- The repetition in a block ends before its bound, as each declaration takes a token. -/
theorem blockItems_agrees {v : Walk Stmt} {q : Parser Stmt} (hv : Follows tokens v q)
    (hq : Takes q) {n m : Nat} (hi : i ≤ (body tokens).length) (hn : (body tokens).length < i + n)
    (hm : (body tokens).length ≤ i + m) :
    Agrees tokens i (blockBody (context tokens) q m (rest tokens i))
      ((blockItems tokens v n >>= fun items =>
        consume tokens .rightBrace .braceAfterBlock >>= fun _ => pure items) i) := by
  induction n generalizing i m with
  | zero => omega
  | succ n ih =>
    unfold blockItems
    have hclose : Agrees tokens i
        (expect (context tokens) .rightBrace .braceAfterBlock (rest tokens i) >>= fun r =>
          pure (([] : List Stmt), r.2))
        ((consume tokens .rightBrace .braceAfterBlock >>= fun _ => pure []) i) :=
      (consume_follows .rightBrace (by decide) i hi).map fun _ => []
    cases hrest : rest tokens i with
    | nil =>
      rw [bind_assoc, bind_ok (check_end hrest hi _), bind_assoc, bind_ok (isAtEnd_end hrest hi)]
      rw [hrest] at hclose
      cases m <;> exact hclose
    | cons t us =>
      obtain ⟨-, -, rfl, hle⟩ := rest_cons hrest
      obtain ⟨m, rfl⟩ : ∃ k, m = k + 1 := ⟨m - 1, by omega⟩
      rw [bind_assoc, bind_ok (check_inside hrest _), bind_assoc, bind_ok (isAtEnd_inside hrest)]
      by_cases hbrace : t.kind = .rightBrace
      · rw [hrest, expect, take_cons (List.mem_singleton.mpr hbrace)] at hclose
        rw [decide_eq_true hbrace, blockBody, if_pos hbrace]
        exact hclose
      · rw [decide_eq_false hbrace, blockBody, if_neg hbrace, ← hrest]
        simp only [Bool.or_self, Bool.false_eq_true, if_false, bind_assoc, pure_bind]
        refine (hv i hi).bind_of_eq fun s j hs hij hj => ?_
        have hlater := rest_lt (hq _ s _ hs)
        have hitems := ih (m := m) hj (by omega) (by omega)
        simpa only [bind_assoc, pure_bind] using hitems.map (s :: ·)

theorem sentence_follows {u w : Walk Expr} {o p : Parser Expr} {v member : Walk Stmt}
    {q member' : Parser Stmt} (hu : Follows tokens u o) (h : Follows tokens w p)
    (hv : Follows tokens v q) (hmember : Follows tokens member member') (htakes : Takes member') :
    Follows tokens (sentence tokens u w v member)
      (Grammar.sentence (context tokens) o p q member') := by
  intro i hi
  have hplain := expressionStatement_follows h i hi
  unfold sentence
  cases hrest : rest tokens i with
  | nil =>
    simp only [choose_end hrest hi]
    rw [hrest] at hplain
    exact hplain
  | cons t us =>
    obtain ⟨-, -, rfl, hle⟩ := rest_cons hrest
    rw [hrest] at hplain
    simp only [choose_inside hrest, Grammar.sentence]
    split
    case h_1 hkind =>
      simp only [hkind]
      exact (forStatement_follows h hv hu (i + 1) hle).later (Nat.le_succ i)
    case h_2 hkind =>
      simp only [hkind]
      exact (ifStatement_follows h hv (i + 1) hle).later (Nat.le_succ i)
    case h_3 hkind =>
      simp only [hkind]
      exact (printStatement_follows h (i + 1) hle).later (Nat.le_succ i)
    case h_4 hkind =>
      simp only [hkind]
      exact (whileStatement_follows h hv (i + 1) hle).later (Nat.le_succ i)
    case h_5 hkind =>
      simp only [hkind]
      have hsize := body_length_le tokens
      have hitems := blockItems_agrees hmember htakes (n := tokens.length + 1)
        (m := (context tokens).size) hle (by omega) (Nat.le_add_left _ _)
      exact (hitems.map Stmt.block).later (Nat.le_succ i)
    case h_6 =>
      simp only [List.mem_singleton]
      rw [if_neg (by grind), if_neg (by grind), if_neg (by grind), if_neg (by grind),
        if_neg (by grind)]
      exact hplain

theorem entry_follows_of {room : Nat}
    (h : Follows tokens (statement tokens room) (Grammar.statement (context tokens) room)) :
    Follows tokens (entry tokens room) (Grammar.entry (context tokens) room) :=
  declaration_follows (expression_follows (room - 1)) h

theorem statement_follows (room : Nat) :
    Follows tokens (statement tokens room) (Grammar.statement (context tokens) room) := by
  refine statement_induction
    (P := fun room => Follows tokens (statement tokens room) (Grammar.statement _ room)) ?_ ?_ room
  · intro room h
    rw [statement_of_lt tokens h, Grammar.statement_of_lt _ h]
    exact follows_tooDeep
  · intro room hinner hmember
    exact sentence_follows (expression_follows room) (expression_follows (room + 1)) hinner
      (entry_follows_of hmember) fun _ _ _ => entry_progress

theorem passOver_resume {last : Token} {n : Nat} (hlast : previous tokens i = (.ok last, i))
    (hi : i ≤ (body tokens).length) (hn : (body tokens).length < i + n) :
    ∃ k, i ≤ k ∧ k ≤ (body tokens).length ∧ resume last (rest tokens i) = rest tokens k ∧
      passOver tokens n i = (.ok (), k) := by
  induction n generalizing i last with
  | zero => omega
  | succ n ih =>
    unfold passOver
    cases hrest : rest tokens i with
    | nil =>
      refine ⟨i, Nat.le_refl i, hi, by rw [hrest, resume], ?_⟩
      rw [bind_ok (isAtEnd_end hrest hi)]
      rfl
    | cons t us =>
      obtain ⟨-, -, rfl, hle⟩ := rest_cons hrest
      rw [bind_ok (isAtEnd_inside hrest), if_neg Bool.false_ne_true, bind_ok hlast, resume]
      by_cases hsemicolon : last.kind = .semicolon
      · refine ⟨i, Nat.le_refl i, hi, by rw [if_pos (Or.inl hsemicolon), hrest], ?_⟩
        rw [if_pos hsemicolon]
        rfl
      rw [if_neg hsemicolon, bind_ok peek_apply, tokenAt_inside hrest]
      by_cases hstart : t.kind ∈ statementStarts
      · refine ⟨i, Nat.le_refl i, hi, by rw [if_pos (Or.inr hstart), hrest], ?_⟩
        rw [if_pos hstart]
        rfl
      rw [if_neg hstart, if_neg (not_or_intro hsemicolon hstart), bind_ok (advance_inside hrest)]
      obtain ⟨k, hik, hk, hresume, hpass⟩ := ih (previous_inside hrest) hle (by omega)
      exact ⟨k, Nat.le_trans (Nat.le_succ i) hik, hk, hresume, hpass⟩

theorem exists_previous (hne : tokens ≠ []) (hi : i ≤ (body tokens).length) :
    ∃ t, previous tokens i = (.ok t, i) := by
  have hsize := body_length_le tokens
  unfold previous
  by_cases hzero : i = 0
  · exact ⟨tokens.getLast hne, by rw [if_pos hzero, List.getLast?_eq_getLast_of_ne_nil hne]⟩
  · have hlt : i - 1 < tokens.length := by omega
    exact ⟨tokens[i - 1], by rw [if_neg hzero, List.getElem?_eq_getElem hlt]⟩

theorem synchronize_agrees (hne : tokens ≠ []) (hi : i ≤ (body tokens).length) :
    ∃ k, i ≤ k ∧ k ≤ (body tokens).length ∧
      Grammar.synchronize (rest tokens i) = rest tokens k ∧
      synchronize tokens i = (.ok (), k) := by
  have hsize := body_length_le tokens
  unfold synchronize advance
  cases hrest : rest tokens i with
  | nil =>
    obtain ⟨t, ht⟩ := exists_previous hne hi
    refine ⟨i, Nat.le_refl i, hi, hrest.symm, ?_⟩
    rw [bind_assoc, bind_ok (isAtEnd_end hrest hi), if_pos rfl, bind_ok ht, passOver,
      bind_ok (isAtEnd_end hrest hi)]
    rfl
  | cons t us =>
    obtain ⟨-, -, rfl, hle⟩ := rest_cons hrest
    obtain ⟨k, hik, hk, hresume, hpass⟩ := passOver_resume (n := tokens.length + 1)
      (previous_inside hrest) hle (by omega)
    refine ⟨k, Nat.le_trans (Nat.le_succ i) hik, hk, hresume, ?_⟩
    rw [← hpass]
    exact bind_ok (advance_inside hrest) _

theorem attempt_apply {α : Type} {w : Walk α} {r : Except Signal α} {j : Nat} (h : w i = (r, j)) :
    attempt w i = (.ok r, j) := by
  rw [attempt, h]

theorem map_fst {α β : Type} (w : Walk α) (f : α → β) (j : Nat) :
    ((w >>= fun a => pure (f a)) j).1 = (w j).1.map f := by
  simp only [bind]
  rcases w j with ⟨_ | _, _⟩ <;> rfl

theorem declarations_agrees (room : Nat) {n m : Nat} (hi : i ≤ (body tokens).length)
    (hn : (body tokens).length < i + n) (hm : (body tokens).length ≤ i + m) :
    (declarations tokens (entry tokens room) n i).1 =
      .ok (Grammar.declarations (context tokens) room m (rest tokens i)) := by
  induction n generalizing i m with
  | zero => omega
  | succ n ih =>
    unfold declarations
    have hitem := entry_follows_of (statement_follows room) i hi
    generalize hr : Grammar.entry _ _ (rest tokens i) = r at hitem
    generalize hw : entry tokens room i = x at hitem
    cases hrest : rest tokens i with
    | nil =>
      rw [bind_ok (isAtEnd_end hrest hi)]
      cases m <;> rfl
    | cons t us =>
      have hne : tokens ≠ [] := by
        rintro rfl
        simp [rest, body] at hrest
      obtain ⟨m, rfl⟩ : ∃ k, m = k + 1 := by
        obtain ⟨-, -, -, hle⟩ := rest_cons hrest
        exact ⟨m - 1, by omega⟩
      rw [bind_ok (isAtEnd_inside hrest), if_neg Bool.false_ne_true]
      cases hitem with
      | @ok s j hij hj =>
        have hlater := rest_lt (entry_progress hr)
        rw [hrest] at hr
        rw [bind_ok (attempt_apply hw)]
        simp only [Grammar.declarations, hr, map_fst]
        rw [ih (m := m) hj (by omega) (by omega)]
        rfl
      | @wrong fault line j hfault hij hj =>
        -- A round that fails on its first token takes it by recovery.
        have hshorter := synchronize_shorter (by simp [context, rest]) hr (by simp [hrest])
        obtain ⟨k, -, hk, hsync, hwalk⟩ := synchronize_agrees hne hj
        simp only [hsync] at hshorter
        have hlater := rest_lt hshorter
        rw [hrest] at hr
        rw [bind_ok (attempt_apply hw)]
        simp only [Grammar.declarations, hr, if_neg hfault, bind_ok hwalk, map_fst, hsync]
        rw [ih (m := m) hk (by omega) (by omega)]
        rfl
      | @tooDeep j hij hj =>
        -- The walk asks for the line only now, at the index where it has stopped.
        rw [hrest] at hr
        rw [bind_ok (attempt_apply hw)]
        simp only [Grammar.declarations, hr, fail, bind_ok peek_apply, tokenAt_line tokens hj]
        rfl

/-- The walk does not go wrong, and gives what the parser gives for the tokens before the first end
mark. -/
theorem parseWithin_eq (tokens : List Token) (room : Nat) :
    parseWithin tokens room = .ok (Grammar.parseWithin room tokens) := by
  have hsize := body_length_le tokens
  have hwalk := @declarations_agrees tokens 0 room (tokens.length + 1) (body tokens).length
    (Nat.zero_le _) (by omega) (by omega)
  simp only [rest, List.drop_zero, context] at hwalk
  simp only [parseWithin, Grammar.parseWithin, hwalk]
  generalize Grammar.declarations _ _ _ _ = read
  obtain ⟨statements, _ | ⟨first, others⟩⟩ := read <;> rfl

end

end Walk

/-- Where the mark is missing, the line of the last token stands in for its line. -/
example : Walk.parseWithin [⟨.print_, .nil, 3⟩, ⟨.number, .number 1, 4⟩] 20 =
    .ok (.error ⟨⟨.semicolonAfterValue, 4⟩, []⟩) := rfl

end Lox.Grammar
