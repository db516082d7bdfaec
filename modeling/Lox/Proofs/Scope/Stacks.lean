import Lox.Proofs.Evaluation.Frames
import Lox.Diagnostic

/-!
# A scope as one stack for each name

A scope holds frames, and each frame the names that it binds. Seen from one name, it is a column:
what each frame holds for the name, from the inside out. Every operation does to the column of a
name what it does to the name, and leaves the columns of other names alone, but for the length when
a frame comes or goes. A store holds the same the other way round: how deep the scope is, and for
each name a stack of the values bound to it, each marked with the depth of its frame. No sequence of
operations can tell the two apart.
-/

namespace Lox

theorem Frame.atKey_set (f : Frame) (name : Name) (v key : Value) :
    (f.set name v).atKey? key = if Name.key name = key then some v else f.atKey? key := by
  induction f with
  | nil => rfl
  | cons binding f ih =>
    by_cases hbinding : Name.key binding.1 = Name.key name
    · by_cases hkey : Name.key name = key
      · simp [Frame.set, Frame.atKey?, hbinding, hkey]
      · simp [Frame.set, Frame.atKey?, hbinding, hkey]
    · by_cases hkey : Name.key binding.1 = key
      · have hname : Name.key name ≠ key := fun h => hbinding (hkey.trans h.symm)
        rw [Frame.set, if_neg hbinding, Frame.atKey?, if_pos hkey, if_neg hname, Frame.atKey?,
          if_pos hkey]
      · simp [Frame.set, Frame.atKey?, hbinding, hkey, ih]

theorem Frame.get_set_same (f : Frame) {name other : Name} (v : Value)
    (h : Name.key other = Name.key name) : (f.set name v).get? other = some v := by
  rw [Frame.get?, Frame.atKey_set, if_pos h.symm]

theorem Frame.get_set_other (f : Frame) {name other : Name} (v : Value)
    (h : Name.key other ≠ Name.key name) : (f.set name v).get? other = f.get? other := by
  rw [Frame.get?, Frame.atKey_set, if_neg (Ne.symm h), Frame.get?]

namespace Scope

/-- What the frames hold for a name, from the inside out. -/
def column (s : Scope) (name : Name) : List (Option Value) := s.frames.map (·.get? name)

theorem column_congr (s : Scope) {name other : Name} (h : Name.key other = Name.key name) :
    s.column other = s.column name := by
  simp only [column, Frame.get?, h]

theorem column_enter (s : Scope) (name : Name) : s.enter.column name = none :: s.column name := rfl

theorem column_leave {s : Scope} (h : s.outer ≠ []) (name : Name) :
    s.leave.column name = (s.column name).tail := by
  obtain ⟨f, rest, hcons⟩ := List.exists_cons_of_ne_nil h
  simp [column, leave, leave?, hcons, frames]

theorem column_define_same (s : Scope) {name other : Name} (v : Value)
    (h : Name.key other = Name.key name) :
    (s.define name v).column other = some v :: (s.column name).tail := by
  rw [column_congr _ h]
  simp [column, frames, define, Frame.get_set_same]

theorem column_define_other (s : Scope) {name other : Name} (v : Value)
    (h : Name.key other ≠ Name.key name) : (s.define name v).column other = s.column other := by
  simp [column, frames, define, Frame.get_set_other _ v h]

theorem lookupIn_column (name : Name) (fs : List Frame) :
    lookupIn name fs = (fs.map (·.get? name)).findSome? id := by
  induction fs with
  | nil => rfl
  | cons f fs ih =>
    cases hget : f.get? name with
    | some v => simp [lookupIn, hget]
    | none => simp [lookupIn, hget, ih]

theorem get_column (s : Scope) (name : Name) : s.get? name = (s.column name).findSome? id :=
  lookupIn_column name s.frames

def overwrite (v : Value) : List (Option Value) → Option (List (Option Value))
  | [] => none
  | some _ :: rest => some (some v :: rest)
  | none :: rest => (overwrite v rest).map (none :: ·)

theorem assignIn_column (name : Name) (v : Value) (fs : List Frame) :
    (assignIn name v fs).map (List.map (·.get? name)) = overwrite v (fs.map (·.get? name)) := by
  induction fs with
  | nil => rfl
  | cons f fs ih =>
    cases hget : f.get? name with
    | some w => simp [assignIn, Frame.has, hget, overwrite, Frame.get_set_same]
    | none =>
      simp only [assignIn, Frame.has, hget, Option.isSome_none, Bool.false_eq_true, if_false,
        List.map_cons, overwrite, ← ih, Option.map_map]
      congr 1
      funext gs
      simp [hget]

theorem assignIn_column_other {name other : Name} (hkey : Name.key other ≠ Name.key name)
    {v : Value} {fs gs : List Frame} (h : assignIn name v fs = some gs) :
    gs.map (·.get? other) = fs.map (·.get? other) := by
  induction fs generalizing gs with
  | nil => cases h
  | cons f fs ih =>
    unfold assignIn at h
    split at h
    · cases h
      simp [Frame.get_set_other f v hkey]
    · obtain ⟨hs, hassign, rfl⟩ := Option.map_eq_some_iff.mp h
      simp [ih hassign]

theorem column_assign (s : Scope) (name : Name) (v : Value) :
    (s.assign? name v).map (·.column name) = overwrite v (s.column name) := by
  rw [column, ← assignIn_column, ← assign_frames, Option.map_map]
  rfl

theorem column_assign_other {s s' : Scope} {name other : Name} {v : Value}
    (hkey : Name.key other ≠ Name.key name) (h : s.assign? name v = some s') :
    s'.column other = s.column other := by
  have hframes := assign_frames s name v
  rw [h] at hframes
  exact assignIn_column_other hkey hframes.symm

end Scope

inductive Scope.Operation where
  | define (name : Name) (value : Value)
  | assign (name : Name) (value : Value)
  | get (name : Name)
  | contains (name : Name)
  | enter
  | exit
  | unwind (depth : Int)
  deriving DecidableEq, Repr

inductive Scope.Answer where
  | done
  | value (v : Value)
  | truth (b : Bool)
  | unbound (name : Name)
  | refused (reason : Diagnostic)
  deriving DecidableEq, Repr

def Scope.Answer.isFailure : Answer → Bool
  | done | value _ => false
  | truth b => !b
  | unbound _ | refused _ => true

/-- What can be done to something that binds names at different depths. -/
structure Scope.Interface (σ : Type) where
  depth : σ → Nat
  define : σ → Name → Value → σ
  assign? : σ → Name → Value → Option σ
  get? : σ → Name → Option Value
  has : σ → Name → Bool
  enter : σ → σ
  leave? : σ → Option σ
  unwind : σ → Int → σ

namespace Scope.Interface

variable {σ : Type} (i : Interface σ)

def perform (x : σ) : Operation → Answer × σ
  | .define name v => (.done, i.define x name v)
  | .assign name v =>
    match i.assign? x name v with
    | some after => (.truth true, after)
    | none => (.truth false, x)
  | .get name => ((i.get? x name).elim (.unbound name) .value, x)
  | .contains name => (.truth (i.has x name), x)
  | .enter => (.done, i.enter x)
  | .exit =>
    match i.leave? x with
    | some after => (.done, after)
    | none => (.refused .leavingGlobals, x)
  | .unwind depth => (.done, i.unwind x depth)

def after (x : σ) (ops : List Operation) : σ := ops.foldl (fun y op => (i.perform y op).2) x

def observe (x : σ) : List Operation → List (Answer × Nat)
  | [] => []
  | op :: rest =>
    let (answer, y) := i.perform x op
    (answer, i.depth y) :: observe y rest

theorem perform_failure {x : σ} {op : Operation} (h : (i.perform x op).1.isFailure = true) :
    (i.perform x op).2 = x := by
  cases op with
  | define | enter | unwind => cases h
  | get | contains => rfl
  | assign name v =>
    dsimp only [perform] at h ⊢
    split at h
    · cases h
    · rfl
  | exit =>
    dsimp only [perform] at h ⊢
    split at h
    · cases h
    · rfl

end Scope.Interface

def Scope.interface : Interface Scope :=
  ⟨depth, define, assign?, get?, has, enter, leave?, unwind⟩

theorem Scope.depth_assign {s s' : Scope} {name : Name} {v : Value}
    (h : s.assign? name v = some s') : s'.depth = s.depth := by
  have hlength := congrArg List.length (assign_shape h)
  simpa [shape, depth] using hlength

theorem Scope.frames_unwind (s : Scope) (depth : Int) :
    (s.unwind depth).frames = s.frames.drop (s.depth - max depth.toNat 1) := by
  unfold unwind
  split
  · next hnone =>
    have hlength := congrArg List.length hnone
    have hpositive : 1 ≤ s.depth := Nat.le_add_left 1 _
    rw [List.length_drop, List.length_nil, ← Scope.depth] at hlength
    omega
  · next hframes => exact hframes.symm

/-- The values bound to one name, the innermost first, each with the depth of its frame. -/
abbrev Stack := List (Nat × Value)

namespace Stack

/-- The depths increase towards the innermost value and end at the given one at most. -/
structure Fits (st : Stack) (depth : Nat) : Prop where
  increasing : st.Pairwise fun upper lower => lower.1 < upper.1
  reached : ∀ entry ∈ st, entry.1 ≤ depth

def put (st : Stack) (depth : Nat) (v : Value) : Stack :=
  match st with
  | [] => [(depth, v)]
  | (d, w) :: rest => if d = depth then (depth, v) :: rest else (depth, v) :: (d, w) :: rest

def replace (st : Stack) (v : Value) : Stack :=
  match st with
  | [] => []
  | (d, _) :: rest => (d, v) :: rest

def cut (st : Stack) (depth : Nat) : Stack := st.filter fun entry => entry.1 ≤ depth

variable {st : Stack} {depth : Nat}

theorem Fits.mono (h : st.Fits depth) {deeper : Nat} (hle : depth ≤ deeper) : st.Fits deeper :=
  ⟨h.increasing, fun entry hentry => Nat.le_trans (h.reached entry hentry) hle⟩

theorem Fits.put (h : st.Fits depth) (v : Value) : (st.put depth v).Fits depth := by
  cases st with
  | nil => exact ⟨List.pairwise_singleton _ _, by simp [Stack.put]⟩
  | cons entry rest =>
    obtain ⟨d, w⟩ := entry
    obtain ⟨hincreasing, hreached⟩ := h
    obtain ⟨hbelow, hrest⟩ := List.pairwise_cons.mp hincreasing
    by_cases hd : d = depth
    · subst hd
      rw [Stack.put, if_pos rfl]
      refine ⟨List.pairwise_cons.mpr ⟨hbelow, hrest⟩, ?_⟩
      refine List.forall_mem_cons.mpr ⟨Nat.le_refl _, fun lower hlower => ?_⟩
      exact Nat.le_of_lt (hbelow lower hlower)
    · rw [Stack.put, if_neg hd]
      have hlt : d < depth := Nat.lt_of_le_of_ne (hreached _ List.mem_cons_self) hd
      refine ⟨List.pairwise_cons.mpr ⟨List.forall_mem_cons.mpr ⟨hlt, ?_⟩, hincreasing⟩, ?_⟩
      · exact fun lower hlower => Nat.lt_trans (hbelow lower hlower) hlt
      · exact List.forall_mem_cons.mpr ⟨Nat.le_refl _, hreached⟩

theorem Fits.replace (h : st.Fits depth) (v : Value) : (st.replace v).Fits depth := by
  cases st with
  | nil => exact h
  | cons entry rest =>
    obtain ⟨hincreasing, hreached⟩ := h
    rw [List.pairwise_cons] at hincreasing
    obtain ⟨hentry, hrest⟩ := List.forall_mem_cons.mp hreached
    exact ⟨List.pairwise_cons.mpr hincreasing, List.forall_mem_cons.mpr ⟨hentry, hrest⟩⟩

theorem Fits.cut (h : st.Fits depth) (lower : Nat) : (st.cut lower).Fits lower where
  increasing := h.increasing.filter _
  reached entry hentry := by simpa using (List.mem_filter.mp hentry).2

end Stack

/-- The depth of a scope, and for each key the stack of the names that have it. -/
structure Store where
  depth : Nat
  stack : Value → Stack
  positive : 1 ≤ depth
  fits : ∀ key, (stack key).Fits depth

namespace Store

def fresh : Store := ⟨1, fun _ => [], Nat.le_refl 1, fun _ => ⟨.nil, nofun⟩⟩

def update (st : Store) (name : Name) (stack : Stack) (h : stack.Fits st.depth) : Store where
  depth := st.depth
  stack key := if Name.key name = key then stack else st.stack key
  positive := st.positive
  fits key := by
    split
    · exact h
    · exact st.fits key

def define (st : Store) (name : Name) (v : Value) : Store :=
  st.update name ((st.stack (Name.key name)).put st.depth v) ((st.fits _).put v)

def assign? (st : Store) (name : Name) (v : Value) : Option Store :=
  if (st.stack (Name.key name)).isEmpty then none
  else some (st.update name ((st.stack (Name.key name)).replace v) ((st.fits _).replace v))

def get? (st : Store) (name : Name) : Option Value :=
  (st.stack (Name.key name)).head?.map Prod.snd

def has (st : Store) (name : Name) : Bool := !(st.stack (Name.key name)).isEmpty

def enter (st : Store) : Store :=
  ⟨st.depth + 1, st.stack, Nat.le_add_left 1 _, fun key => (st.fits key).mono (Nat.le_succ _)⟩

def cut (st : Store) (depth : Nat) (h : 1 ≤ depth) : Store :=
  ⟨depth, fun key => (st.stack key).cut depth, h, fun key => (st.fits key).cut depth⟩

def leave? (st : Store) : Option Store :=
  if h : 1 ≤ st.depth - 1 then some (st.cut (st.depth - 1) h) else none

def unwind (st : Store) (depth : Int) : Store :=
  st.cut (min st.depth (max depth.toNat 1)) (Nat.le_min.mpr ⟨st.positive, Nat.le_max_right _ _⟩)

def interface : Scope.Interface Store :=
  ⟨depth, define, assign?, get?, has, enter, leave?, unwind⟩

/-- The stack that a column amounts to, in which the innermost frame has the greatest depth. -/
def stackOf : List (Option Value) → Stack
  | [] => []
  | none :: outer => stackOf outer
  | some v :: outer => (outer.length + 1, v) :: stackOf outer

/-- The store has the depth of the scope and for each name the stack of its column. -/
structure Represents (st : Store) (s : Scope) : Prop where
  depth : st.depth = s.depth
  stack : ∀ name, st.stack (Name.key name) = stackOf (s.column name)

theorem stackOf_reached (column : List (Option Value)) :
    ∀ entry ∈ stackOf column, entry.1 ≤ column.length := by
  induction column with
  | nil => exact nofun
  | cons held outer ih =>
    have houter : ∀ entry ∈ stackOf outer, entry.1 ≤ outer.length + 1 :=
      fun entry hentry => Nat.le_succ_of_le (ih entry hentry)
    cases held with
    | none => exact houter
    | some v => exact List.forall_mem_cons.mpr ⟨Nat.le_refl _, houter⟩

theorem stackOf_put {column : List (Option Value)} (h : column ≠ []) (v : Value) :
    stackOf (some v :: column.tail) = (stackOf column).put column.length v := by
  obtain ⟨held, outer, rfl⟩ := List.exists_cons_of_ne_nil h
  cases held with
  | some w => simp [stackOf, Stack.put]
  | none =>
    have hreached := stackOf_reached outer
    simp only [stackOf, List.tail_cons, List.length_cons]
    generalize stackOf outer = st at hreached ⊢
    cases st with
    | nil => rfl
    | cons entry rest =>
      have hne : entry.1 ≠ outer.length + 1 := by
        have := hreached entry List.mem_cons_self
        omega
      rw [Stack.put, if_neg hne]

theorem stackOf_replace (v : Value) (column : List (Option Value)) :
    (Scope.overwrite v column).map stackOf =
      if (stackOf column).isEmpty then none else some ((stackOf column).replace v) := by
  induction column with
  | nil => rfl
  | cons held outer ih =>
    cases held with
    | some w => rfl
    | none =>
      rw [Scope.overwrite, stackOf, ← ih, Option.map_map]
      rfl

theorem stackOf_head (column : List (Option Value)) :
    (stackOf column).head?.map Prod.snd = column.findSome? id := by
  induction column with
  | nil => rfl
  | cons held outer ih =>
    cases held with
    | some w => rfl
    | none => exact ih

theorem stackOf_drop (column : List (Option Value)) (depth : Nat) :
    stackOf (column.drop (column.length - depth)) = (stackOf column).cut depth := by
  induction column with
  | nil => simp [stackOf, Stack.cut]
  | cons held outer ih =>
    by_cases hle : outer.length + 1 ≤ depth
    · have hkept : (stackOf (held :: outer)).cut depth = stackOf (held :: outer) := by
        refine List.filter_eq_self.mpr fun entry hentry => decide_eq_true ?_
        exact Nat.le_trans (stackOf_reached (held :: outer) entry hentry) hle
      rw [hkept, List.length_cons, Nat.sub_eq_zero_of_le hle, List.drop_zero]
    · have hcount : (held :: outer).length - depth = (outer.length - depth) + 1 := by
        rw [List.length_cons]
        omega
      rw [hcount, List.drop_succ_cons, ih]
      cases held with
      | none => rfl
      | some v => simp [stackOf, Stack.cut, hle]

theorem fresh_represents : Represents fresh .empty := ⟨rfl, fun _ => rfl⟩

variable {st : Store} {s : Scope}

theorem Represents.length (h : Represents st s) (name : Name) :
    (s.column name).length = st.depth := by
  rw [h.depth]
  exact List.length_map _

theorem Represents.update (h : Represents st s) {s' : Scope} {name : Name} {stack : Stack}
    (hfits : stack.Fits st.depth) (hdepth : s'.depth = s.depth)
    (hsame : stack = stackOf (s'.column name))
    (hother : ∀ other, Name.key other ≠ Name.key name → s'.column other = s.column other) :
    Represents (st.update name stack hfits) s' where
  depth := h.depth.trans hdepth.symm
  stack other := by
    by_cases hkey : Name.key name = Name.key other
    · simp only [Store.update, if_pos hkey, hsame, Scope.column_congr s' hkey]
    · simp only [Store.update, if_neg hkey, h.stack, hother other (Ne.symm hkey)]

theorem Represents.define (h : Represents st s) (name : Name) (v : Value) :
    Represents (st.define name v) (s.define name v) := by
  refine h.update _ rfl ?_ fun other => Scope.column_define_other s v
  have hne : s.column name ≠ [] := nofun
  rw [Scope.column_define_same s v rfl, stackOf_put hne, ← h.stack, h.length]

theorem Represents.assign (h : Represents st s) (name : Name) (v : Value) :
    Option.Rel Represents (st.assign? name v) (s.assign? name v) := by
  have hreplace := stackOf_replace v (s.column name)
  rw [← Scope.column_assign, ← h.stack] at hreplace
  unfold assign?
  cases hassign : s.assign? name v with
  | none =>
    rw [hassign] at hreplace
    split at hreplace
    · next hempty => rw [if_pos hempty]; exact .none
    · cases hreplace
  | some after =>
    rw [hassign] at hreplace
    split at hreplace
    · cases hreplace
    · next hbound =>
      rw [if_neg hbound]
      refine .some (h.update _ (Scope.depth_assign hassign) (Option.some.inj hreplace).symm ?_)
      exact fun other hother => Scope.column_assign_other hother hassign

theorem Represents.get (h : Represents st s) (name : Name) : st.get? name = s.get? name := by
  rw [get?, h.stack, stackOf_head, Scope.get_column]

theorem isEmpty_stackOf (column : List (Option Value)) :
    (!(stackOf column).isEmpty) = column.any Option.isSome := by
  induction column with
  | nil => rfl
  | cons held outer ih =>
    cases held with
    | some v => rfl
    | none => exact ih

theorem Represents.has (h : Represents st s) (name : Name) : st.has name = s.has name := by
  rw [Store.has, h.stack, isEmpty_stackOf, Scope.column, List.any_map]
  rfl

theorem Represents.enter (h : Represents st s) : Represents st.enter s.enter where
  depth := congrArg (· + 1) h.depth
  stack name := h.stack name

theorem Represents.cut (h : Represents st s) {s' : Scope} {depth : Nat} (hpositive : 1 ≤ depth)
    (hle : depth ≤ s.depth) (hframes : s'.frames = s.frames.drop (s.depth - depth)) :
    Represents (st.cut depth hpositive) s' where
  depth := by
    rw [Scope.depth, hframes, List.length_drop]
    exact (Nat.sub_sub_self hle).symm
  stack name := by
    have hcolumn : s'.column name = (s.column name).drop ((s.column name).length - depth) := by
      rw [h.length, h.depth, Scope.column, hframes, List.map_drop]
      rfl
    rw [hcolumn, stackOf_drop, ← h.stack]
    rfl

theorem Represents.leave (h : Represents st s) : Option.Rel Represents st.leave? s.leave? := by
  obtain ⟨inner, outer⟩ := s
  have hdepth : st.depth = outer.length + 1 := h.depth
  unfold leave?
  cases outer with
  | nil =>
    rw [dif_neg (by simp [hdepth])]
    exact .none
  | cons f rest =>
    rw [dif_pos (by simp [hdepth])]
    refine .some (h.cut _ ?_ ?_)
    · rw [h.depth]
      exact Nat.sub_le _ _
    · simp [hdepth, Scope.frames, Scope.depth]

theorem Represents.unwind (h : Represents st s) (depth : Int) :
    Represents (st.unwind depth) (s.unwind depth) := by
  have hcount : s.depth - max depth.toNat 1 = s.depth - min st.depth (max depth.toNat 1) := by
    rw [h.depth]
    omega
  refine h.cut _ (h.depth ▸ Nat.min_le_left _ _) ?_
  rw [← hcount, Scope.frames_unwind]

theorem Represents.perform (h : Represents st s) (op : Scope.Operation) :
    (Store.interface.perform st op).1 = (Scope.interface.perform s op).1 ∧
      Represents (Store.interface.perform st op).2 (Scope.interface.perform s op).2 := by
  cases op with
  | define name v => exact ⟨rfl, h.define name v⟩
  | assign name v =>
    have hassign := h.assign name v
    simp only [Scope.Interface.perform, Store.interface, Scope.interface]
    generalize st.assign? name v = mine at hassign ⊢
    generalize s.assign? name v = theirs at hassign ⊢
    cases hassign with
    | none => exact ⟨rfl, h⟩
    | some hafter => exact ⟨rfl, hafter⟩
  | get name => exact ⟨congrArg (Option.elim · _ _) (h.get name), h⟩
  | contains name => exact ⟨congrArg Scope.Answer.truth (h.has name), h⟩
  | enter => exact ⟨rfl, h.enter⟩
  | exit =>
    have hleave := h.leave
    simp only [Scope.Interface.perform, Store.interface, Scope.interface]
    generalize st.leave? = mine at hleave ⊢
    generalize s.leave? = theirs at hleave ⊢
    cases hleave with
    | none => exact ⟨rfl, h⟩
    | some hafter => exact ⟨rfl, hafter⟩
  | unwind depth => exact ⟨rfl, h.unwind depth⟩

theorem Represents.observe (h : Represents st s) (ops : List Scope.Operation) :
    Store.interface.observe st ops = Scope.interface.observe s ops := by
  induction ops generalizing st s with
  | nil => rfl
  | cons op rest ih =>
    obtain ⟨hanswer, hafter⟩ := h.perform op
    have hdepth : Store.interface.depth _ = Scope.interface.depth _ := hafter.depth
    simp only [Scope.Interface.observe, hanswer, hdepth, ih hafter]

theorem Represents.after (h : Represents st s) (ops : List Scope.Operation) :
    Represents (Store.interface.after st ops) (Scope.interface.after s ops) := by
  induction ops generalizing st s with
  | nil => exact h
  | cons op rest ih => exact ih (h.perform op).2

end Store

/-- Whatever is done to a scope that was empty at first, all answers and all depths are those of a
store, which keeps one stack for each name, and afterwards the store holds what the scope holds. The
depth is never less than one, and an operation that fails changes neither of them. -/
theorem scope_is_one_stack_for_each_name (ops : List Scope.Operation) :
    let s := Scope.interface.after .empty ops
    let st := Store.interface.after .fresh ops
    Scope.interface.observe .empty ops = Store.interface.observe .fresh ops ∧
      st.Represents s ∧ 1 ≤ s.depth ∧
      ∀ op, (Scope.interface.perform s op).1.isFailure = true →
        (Scope.interface.perform s op).2 = s ∧ (Store.interface.perform st op).2 = st := by
  intro s st
  have hrepresents : st.Represents s := Store.fresh_represents.after ops
  refine ⟨(Store.fresh_represents.observe ops).symm, hrepresents, ?_, fun op hfailure => ?_⟩
  · rw [← hrepresents.depth]
    exact st.positive
  · refine ⟨Scope.interface.perform_failure hfailure, Store.interface.perform_failure ?_⟩
    rw [(hrepresents.perform op).1]
    exact hfailure

/-- A name is hidden, assigned to across a frame that does not bind it, and seen again behind an
unwinding below the outermost frame, which then cannot be left. -/
theorem hidden_name_is_one_stack :
    let name : Name := .text "a"
    let ops : List Scope.Operation :=
      [.define name .nil, .enter, .define name (.bool true), .enter, .assign name (.text "deep"),
       .get name, .unwind (-3), .get name, .assign (.text "b") .nil, .exit]
    Scope.interface.observe .empty ops =
        [(.done, 1), (.done, 2), (.done, 2), (.done, 3), (.truth true, 3),
         (.value (.text "deep"), 3), (.done, 1), (.value .nil, 1), (.truth false, 1),
         (.refused .leavingGlobals, 1)] ∧
      Scope.interface.observe .empty ops = Store.interface.observe .fresh ops ∧
      (Scope.interface.perform (Scope.interface.after .empty ops) .exit).2 =
        Scope.interface.after .empty ops := by
  intro name ops
  obtain ⟨hobserve, -, -, hfailure⟩ := scope_is_one_stack_for_each_name ops
  exact ⟨by rfl, hobserve, (hfailure .exit (by rfl)).1⟩

end Lox
