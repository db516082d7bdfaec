import Lox.Proofs.Grammar.Lookahead

/-!
# What was taken can be finished

Where a parser is stuck, the tokens that it has taken are the beginning of something that can be
read to its end. Only behind a target to which nothing can be assigned the end is the fault that
says so, since it is found once the value has been read. A parser is viable if this holds of it and
if it reads again, before other tokens, what it has read. Sequences of viable parsers are viable.
-/

namespace Lox.Grammar

def prolonging : List Kind := .else_ :: Level.assignment.extensions

/-- Tokens of which none ends the program, and which do not prolong what stands before them. -/
structure Quiet (ts : List Token) : Prop where
  stops : take? prolonging ts = none
  inner : ∀ t ∈ ts, t.kind ≠ .eof

theorem Quiet.append {ts more : List Token} (h : Quiet ts) (hmore : Quiet more) :
    Quiet (ts ++ more) := by
  refine ⟨?_, List.forall_mem_append.mpr ⟨h.inner, hmore.inner⟩⟩
  cases ts with
  | nil => exact hmore.stops
  | cons t us =>
    have hstops := h.stops
    rw [take_eq_none] at hstops ⊢
    exact hstops

theorem Quiet.take_none {wanted : List Kind} {ts : List Token} (h : Quiet ts)
    (hsub : wanted ⊆ prolonging) : take? wanted ts = none :=
  take_none_of_subset hsub h.stops

theorem quiet_nil : Quiet [] := ⟨rfl, nofun⟩

def filler (kind : Kind) : Token := ⟨kind, .nil, 1⟩

theorem quiet_filler {kind : Kind} (h : kind ∉ .eof :: prolonging) : Quiet [filler kind] := by
  rw [List.mem_cons, not_or] at h
  exact ⟨take_cons_none h.2, List.forall_mem_singleton.mpr h.1⟩

/-- The parser fails with a wrong target right before the rest, unless the nesting is too deep. -/
def Rejects {α : Type} (r : Except Failure (α × List Token)) (rest : List Token) : Prop :=
  (∃ line, r = .error ⟨.assignmentTarget, line, rest⟩) ∨ Exhausts r

abbrev Family (α : Type) := Context → Nat → Parser α

section

variable {α β : Type} {r : Except Failure (α × List Token)} {rest mid : List Token}
  {next : α × List Token → Except Failure (β × List Token)}

theorem Rejects.bind (h : Rejects r rest) : Rejects (r >>= next) rest := by
  rcases h with ⟨line, rfl⟩ | h
  · exact Or.inl ⟨line, rfl⟩
  · exact Or.inr (h.bind next)

theorem Reaches.rejects {a : α} (h : Reaches r a mid) (hnext : Rejects (next (a, mid)) rest) :
    Rejects (r >>= next) rest := by
  rcases h with rfl | h
  · exact hnext
  · exact Or.inr (h.bind next)

end

section

variable {α β : Type}

def Closes (p : Family α) (ts : List Token) (a : α) : Prop :=
  ∀ ctx room more, (ts ++ more).length ≤ ctx.size → Quiet more →
    Reaches (p ctx room (ts ++ more)) a more

def Spoils (p : Family α) (ts : List Token) : Prop :=
  ∀ ctx room more, (ts ++ more).length ≤ ctx.size → Quiet more →
    Rejects (p ctx room (ts ++ more)) more

def Finishes (p : Family α) (ts : List Token) : Prop := (∃ a, Closes p ts a) ∨ Spoils p ts

def Startable (p : Family α) : Prop := ∃ start, Quiet start ∧ Finishes p start

/-- What was read is read again before the same next token, and before what does not prolong it. -/
def Repeats (p : Family α) (used rest : List Token) (a : α) : Prop :=
  ∀ ctx room more, (used ++ more).length ≤ ctx.size →
    more.head? = rest.head? ∨ Quiet more → Reaches (p ctx room (used ++ more)) a more

/-- What the parser of the context and the limit takes, of so many tokens at most, is read again by
the others, or can be finished if it is stuck there. -/
structure Viable (ctx₀ : Context) (room₀ size : Nat) (p : Family α) : Prop where
  starts : Startable p
  again : ∀ ts a rest, ts.length ≤ size → p ctx₀ room₀ ts = .ok (a, rest) →
    ∃ used, ts = used ++ rest ∧ Repeats p used rest a
  mends : ∀ ts failure, ts.length ≤ size → p ctx₀ room₀ ts = .error failure →
    failure.fault ≠ .assignmentTarget → failure.fault ≠ .tooMuchNesting →
    ∃ used, ts = used ++ failure.rest ∧
      (used = [] ∨ ∃ fill, Quiet fill ∧ Finishes p (used ++ fill))

variable {p : Family α} {next : Context → Nat → α × List Token → Except Failure (β × List Token)}

theorem finishes_bind {ts us : List Token} {a : α}
    (h : ∀ ctx room more, (ts ++ (us ++ more)).length ≤ ctx.size → Quiet more →
      Reaches (p ctx room (ts ++ (us ++ more))) a (us ++ more))
    (hnext : Finishes (fun ctx room ts => next ctx room (a, ts)) us) :
    Finishes (fun ctx room ts => p ctx room ts >>= next ctx room) (ts ++ us) := by
  have hfew : ∀ {ctx : Context} {more : List Token}, (ts ++ (us ++ more)).length ≤ ctx.size →
      (us ++ more).length ≤ ctx.size := by
    intro ctx more hsize
    simp only [List.length_append] at hsize ⊢
    omega
  rcases hnext with ⟨b, hb⟩ | hspoils
  · left
    refine ⟨b, fun ctx room more hsize hmore => ?_⟩
    rw [List.append_assoc] at hsize ⊢
    exact (h ctx room more hsize hmore).bind (hb ctx room more (hfew hsize) hmore)
  · right
    intro ctx room more hsize hmore
    rw [List.append_assoc] at hsize ⊢
    exact (h ctx room more hsize hmore).rejects (hspoils ctx room more (hfew hsize) hmore)

/-- What finishes the first part of a sequence is prolonged to finish the whole, unless it spoils
it already. -/
theorem Finishes.bind {ts : List Token} (h : Finishes p ts)
    (hnext : ∀ a, Startable fun ctx room ts => next ctx room (a, ts)) :
    ∃ fill, Quiet fill ∧
      Finishes (fun ctx room ts => p ctx room ts >>= next ctx room) (ts ++ fill) := by
  rcases h with ⟨a, ha⟩ | hspoils
  · obtain ⟨start, hquiet, hstart⟩ := hnext a
    refine ⟨start, hquiet, finishes_bind (fun ctx room more hsize hmore => ?_) hstart⟩
    exact ha ctx room _ hsize (hquiet.append hmore)
  · refine ⟨[], quiet_nil, Or.inr fun ctx room more hsize hmore => ?_⟩
    rw [List.append_nil] at hsize ⊢
    exact (hspoils ctx room more hsize hmore).bind

theorem Startable.bind (h : Startable p)
    (hnext : ∀ a, Startable fun ctx room ts => next ctx room (a, ts)) :
    Startable fun ctx room ts => p ctx room ts >>= next ctx room := by
  obtain ⟨start, hquiet, hstart⟩ := h
  obtain ⟨fill, hfill, hfinishes⟩ := hstart.bind hnext
  exact ⟨start ++ fill, hquiet.append hfill, hfinishes⟩

theorem Repeats.bind {used used' rest : List Token} {a : α} {b : β}
    (h : Repeats p used (used' ++ rest) a)
    (hnext : Repeats (fun ctx room ts => next ctx room (a, ts)) used' rest b) :
    Repeats (fun ctx room ts => p ctx room ts >>= next ctx room) (used ++ used') rest b := by
  intro ctx room more hsize hmore
  rw [List.append_assoc] at hsize ⊢
  refine (h ctx room _ hsize ?_).bind (hnext ctx room more ?_ hmore)
  · cases used' with
    | nil => exact hmore
    | cons t us => exact Or.inl rfl
  · simp only [List.length_append] at hsize ⊢
    omega

theorem Repeats.finishes {used rest us : List Token} {a : α} (h : Repeats p used rest a)
    (hus : (us ≠ [] ∧ us.head? = rest.head?) ∨ Quiet us)
    (hnext : Finishes (fun ctx room ts => next ctx room (a, ts)) us) :
    Finishes (fun ctx room ts => p ctx room ts >>= next ctx room) (used ++ us) := by
  refine finishes_bind (fun ctx room more hsize hmore => h ctx room _ hsize ?_) hnext
  rcases hus with ⟨hne, hhead⟩ | hquiet
  · obtain ⟨t, vs, rfl⟩ := List.exists_cons_of_ne_nil hne
    exact Or.inl hhead
  · exact Or.inr (hquiet.append hmore)

variable {ctx₀ : Context} {room₀ size : Nat}

theorem Viable.bind_left (h : Viable ctx₀ room₀ size p)
    (hstarts : ∀ a, Startable fun ctx room ts => next ctx room (a, ts))
    (hnext : ∀ ts a rest, ts.length ≤ size → p ctx₀ room₀ ts = .ok (a, rest) →
      Viable ctx₀ room₀ rest.length fun ctx room ts => next ctx room (a, ts)) :
    Viable ctx₀ room₀ size fun ctx room ts => p ctx room ts >>= next ctx room where
  starts := h.starts.bind hstarts
  again := by
    intro ts b rest hsize hb
    obtain ⟨⟨a, mid⟩, hfirst, hsecond⟩ := ok_of_bind hb
    have hlater := hnext ts a mid hsize hfirst
    obtain ⟨used, rfl, hrepeats⟩ := h.again ts a mid hsize hfirst
    obtain ⟨used', rfl, hrepeats'⟩ := hlater.again mid b rest (Nat.le_refl _) hsecond
    exact ⟨used ++ used', (List.append_assoc ..).symm, hrepeats.bind hrepeats'⟩
  mends := by
    intro ts failure hsize hfails htarget hnesting
    cases hfirst : p ctx₀ room₀ ts with
    | error failure' =>
      have hsame : failure' = failure := by
        rw [hfirst] at hfails
        exact Except.error.inj hfails
      obtain ⟨used, hts, hmends⟩ :=
        h.mends ts failure hsize (hsame ▸ hfirst) htarget hnesting
      refine ⟨used, hts, hmends.imp_right ?_⟩
      rintro ⟨fill, hquiet, hfill⟩
      obtain ⟨fill', hquiet', hfinishes⟩ := hfill.bind hstarts
      exact ⟨fill ++ fill', hquiet.append hquiet', by rwa [← List.append_assoc]⟩
    | ok result =>
      obtain ⟨a, mid⟩ := result
      have hlater := hnext ts a mid hsize hfirst
      obtain ⟨used, rfl, hrepeats⟩ := h.again ts a mid hsize hfirst
      have hsecond : next ctx₀ room₀ (a, mid) = .error failure := by
        rw [hfirst] at hfails
        exact hfails
      obtain ⟨used', rfl, hmends⟩ :=
        hlater.mends mid failure (Nat.le_refl _) hsecond htarget hnesting
      refine ⟨used ++ used', (List.append_assoc ..).symm, Or.inr ?_⟩
      -- a second part that is stuck before its first token is started afresh behind the first part
      by_cases hnil : used' = []
      · subst hnil
        obtain ⟨start, hquiet, hstart⟩ := hstarts a
        rw [List.append_nil]
        exact ⟨start, hquiet, hrepeats.finishes (Or.inr hquiet) hstart⟩
      · obtain ⟨fill, hquiet, hfill⟩ := hmends.resolve_left hnil
        obtain ⟨t, us, rfl⟩ := List.exists_cons_of_ne_nil hnil
        refine ⟨fill, hquiet, ?_⟩
        rw [List.append_assoc]
        exact hrepeats.finishes (Or.inl ⟨List.cons_ne_nil _ _, rfl⟩) hfill

theorem Viable.mono {k : Nat} (h : Viable ctx₀ room₀ size p) (hk : k ≤ size) :
    Viable ctx₀ room₀ k p where
  starts := h.starts
  again := fun ts a rest hts => h.again ts a rest (Nat.le_trans hts hk)
  mends := fun ts failure hts => h.mends ts failure (Nat.le_trans hts hk)

theorem Viable.bind (h : Viable ctx₀ room₀ size p)
    (hnext : ∀ a, Viable ctx₀ room₀ size fun ctx room ts => next ctx room (a, ts)) :
    Viable ctx₀ room₀ size fun ctx room ts => p ctx room ts >>= next ctx room := by
  refine h.bind_left (fun a => (hnext a).starts) fun ts a rest hsize ha => (hnext a).mono ?_
  obtain ⟨used, rfl, -⟩ := h.again ts a rest hsize ha
  rw [List.length_append] at hsize
  omega

theorem closes_ok (a : α) : Closes (fun _ _ ts => .ok (a, ts)) [] a :=
  fun _ _ _ _ _ => .ok

theorem viable_ok (a : α) : Viable ctx₀ room₀ size fun _ _ ts => .ok (a, ts) where
  starts := ⟨[], quiet_nil, Or.inl ⟨a, closes_ok a⟩⟩
  again := by
    rintro ts _ _ - ⟨⟩
    exact ⟨[], rfl, fun _ _ _ _ _ => .ok⟩
  mends := nofun

theorem Viable.map (h : Viable ctx₀ room₀ size p) (f : α → β) :
    Viable ctx₀ room₀ size fun ctx room ts => p ctx room ts >>= fun r => .ok (f r.1, r.2) :=
  @Viable.bind _ _ p (fun _ _ r => .ok (f r.1, r.2)) ctx₀ room₀ size h fun a => viable_ok (f a)

variable {q : Family α} {ts us : List Token}

/-- What one parser does behind `us`, the other does behind `ts`, unless the nesting is too deep. -/
def Agrees (p q : Family α) (ts us more : List Token) : Prop :=
  ∀ ctx room, (ts ++ more).length ≤ ctx.size → Exhausts (p ctx room (ts ++ more)) ∨
    ∃ room', p ctx room (ts ++ more) = q ctx room' (us ++ more)

theorem Finishes.of_agrees (h : Finishes q us) (hlength : us.length ≤ ts.length)
    (hagrees : ∀ more, Quiet more → Agrees p q ts us more) : Finishes p ts := by
  have hfew : ∀ {ctx : Context} {more : List Token}, (ts ++ more).length ≤ ctx.size →
      (us ++ more).length ≤ ctx.size := by
    intro ctx more hsize
    simp only [List.length_append] at hsize ⊢
    omega
  rcases h with ⟨a, ha⟩ | hspoils
  · left
    refine ⟨a, fun ctx room more hsize hmore => ?_⟩
    rcases hagrees more hmore ctx room hsize with hexhausts | ⟨room', heq⟩
    · exact Or.inr hexhausts
    · rw [heq]
      exact ha ctx room' more (hfew hsize) hmore
  · right
    intro ctx room more hsize hmore
    rcases hagrees more hmore ctx room hsize with hexhausts | ⟨room', heq⟩
    · exact Or.inr hexhausts
    · rw [heq]
      exact hspoils ctx room' more (hfew hsize) hmore

theorem Repeats.of_agrees {rest : List Token} {a : α} (h : Repeats q us rest a)
    (hlength : us.length ≤ ts.length)
    (hagrees : ∀ more, more.head? = rest.head? ∨ Quiet more → Agrees p q ts us more) :
    Repeats p ts rest a := by
  intro ctx room more hsize hmore
  rcases hagrees more hmore ctx room hsize with hexhausts | ⟨room', heq⟩
  · exact Or.inr hexhausts
  · rw [heq]
    refine h ctx room' more ?_ hmore
    simp only [List.length_append] at hsize ⊢
    omega

theorem Viable.of_eq (h : Viable ctx₀ room₀ size q) (hsize : size ≤ ctx₀.size)
    (heq : ∀ ctx room ts, ts.length ≤ ctx.size → p ctx room ts = q ctx room ts) :
    Viable ctx₀ room₀ size p := by
  have hagrees : ∀ ts more, Agrees p q ts ts more :=
    fun ts more ctx room hlength => Or.inr ⟨room, heq ctx room _ hlength⟩
  refine ⟨?_, ?_, ?_⟩
  · obtain ⟨start, hquiet, hstart⟩ := h.starts
    exact ⟨start, hquiet, hstart.of_agrees (Nat.le_refl _) fun more _ => hagrees start more⟩
  · intro ts a rest hts ha
    rw [heq _ _ _ (Nat.le_trans hts hsize)] at ha
    obtain ⟨used, hused, hrepeats⟩ := h.again ts a rest hts ha
    exact ⟨used, hused, hrepeats.of_agrees (Nat.le_refl _) fun more _ => hagrees used more⟩
  · intro ts failure hts hfails htarget hnesting
    rw [heq _ _ _ (Nat.le_trans hts hsize)] at hfails
    obtain ⟨used, hused, hmends⟩ := h.mends ts failure hts hfails htarget hnesting
    refine ⟨used, hused, hmends.imp_right ?_⟩
    rintro ⟨fill, hquiet, hfill⟩
    exact ⟨fill, hquiet, hfill.of_agrees (Nat.le_refl _) fun more _ => hagrees _ more⟩

/-- A construct that takes `k` calls is viable where its parts are, and below that there is no room
for it. -/
theorem Viable.deepen {k : Nat} (h : Viable ctx₀ room₀ size q)
    (hdeeper : ∀ ctx room ts, p ctx (room + k) ts = q ctx room ts)
    (hnone : ∀ room < k, ∀ ctx ts, Exhausts (p ctx room ts)) (hstarts : Startable p) :
    Viable ctx₀ (room₀ + k) size p := by
  have hagrees : ∀ ts more, Agrees p q ts ts more := by
    intro ts more ctx room _
    rcases Nat.lt_or_ge room k with hroom | hroom
    · exact Or.inl (hnone room hroom ctx _)
    · obtain ⟨n, rfl⟩ : ∃ n, room = n + k := ⟨room - k, by omega⟩
      exact Or.inr ⟨n, hdeeper ctx n _⟩
  refine ⟨hstarts, ?_, ?_⟩
  · intro ts a rest hsize ha
    rw [hdeeper] at ha
    obtain ⟨used, hts, hrepeats⟩ := h.again ts a rest hsize ha
    exact ⟨used, hts, hrepeats.of_agrees (Nat.le_refl _) fun more _ => hagrees used more⟩
  · intro ts failure hsize hfails htarget hnesting
    rw [hdeeper] at hfails
    obtain ⟨used, hts, hmends⟩ := h.mends ts failure hsize hfails htarget hnesting
    refine ⟨used, hts, hmends.imp_right ?_⟩
    rintro ⟨fill, hquiet, hfill⟩
    exact ⟨fill, hquiet, hfill.of_agrees (Nat.le_refl _) fun more _ => hagrees _ more⟩

theorem viable_of_exhausts (hnone : ∀ ts, Exhausts (p ctx₀ room₀ ts)) (hstarts : Startable p) :
    Viable ctx₀ room₀ size p where
  starts := hstarts
  again := by
    intro ts a rest _ ha
    obtain ⟨failure, hfails, -⟩ := hnone ts
    rw [hfails] at ha
    cases ha
  mends := by
    intro ts failure _ hfails _ hnesting
    obtain ⟨failure', hfails', hfault⟩ := hnone ts
    rw [hfails'] at hfails
    cases hfails
    exact absurd hfault hnesting

theorem Finishes.at (f : Nat → Nat) (h : Finishes p ts) :
    Finishes (fun ctx room => p ctx (f room)) ts := by
  rcases h with ⟨a, ha⟩ | hspoils
  · exact Or.inl ⟨a, fun ctx room => ha ctx (f room)⟩
  · exact Or.inr fun ctx room => hspoils ctx (f room)

theorem Startable.at (f : Nat → Nat) (h : Startable p) :
    Startable fun ctx room => p ctx (f room) := by
  obtain ⟨start, hquiet, hstart⟩ := h
  exact ⟨start, hquiet, hstart.at f⟩

theorem Viable.at (f : Nat → Nat) (h : Viable ctx₀ (f room₀) size p) :
    Viable ctx₀ room₀ size fun ctx room => p ctx (f room) where
  starts := h.starts.at f
  again := by
    intro ts a rest hsize ha
    obtain ⟨used, hts, hrepeats⟩ := h.again ts a rest hsize ha
    exact ⟨used, hts, fun ctx room => hrepeats ctx (f room)⟩
  mends := by
    intro ts failure hsize hfails htarget hnesting
    obtain ⟨used, hts, hmends⟩ := h.mends ts failure hsize hfails htarget hnesting
    refine ⟨used, hts, hmends.imp_right ?_⟩
    rintro ⟨fill, hquiet, hfill⟩
    exact ⟨fill, hquiet, hfill.at f⟩

def Takes (p : Parser α) : Prop := ∀ ts a rest, p ts = .ok (a, rest) → rest.length < ts.length

/-- For each token that can be next, the parser fails there, or takes it and goes on viably, or goes
on so without taking it. -/
theorem Viable.of_head (hstarts : Startable p)
    (h : ∀ head : Option Token,
      (∀ ts, ts.head? = head → ∃ failure, p ctx₀ room₀ ts = .error failure ∧ failure.rest = ts) ∨
      (∃ (t : Token) (q : Family α), head = some t ∧
        (∀ k < size, Viable ctx₀ room₀ k q) ∧
        ∀ ctx room ts, p ctx room (t :: ts) = q ctx room ts) ∨
      ∃ q : Family α, Viable ctx₀ room₀ size q ∧
        (∀ ctx room ts, ts.head? = head → p ctx room ts = q ctx room ts) ∧
        (Takes (q ctx₀ room₀) ∨ ∀ ctx room ts, Quiet ts → p ctx room ts = q ctx room ts)) :
    Viable ctx₀ room₀ size p := by
  refine ⟨hstarts, ?_, ?_⟩
  · intro ts a rest hsize ha
    rcases h ts.head? with hfails | ⟨t, q, hhead, hq, heq⟩ | ⟨q, hq, heq, hquiet⟩
    · obtain ⟨failure, hfails, -⟩ := hfails ts rfl
      rw [hfails] at ha
      cases ha
    · obtain ⟨us, rfl⟩ := List.head?_eq_some_iff.mp hhead
      rw [heq] at ha
      obtain ⟨used, rfl, hrepeats⟩ := (hq us.length hsize).again us a rest (Nat.le_refl _) ha
      refine ⟨t :: used, rfl, hrepeats.of_agrees (Nat.le_succ _) fun more _ ctx room _ => ?_⟩
      exact Or.inr ⟨room, heq ctx room _⟩
    · rw [heq _ _ _ rfl] at ha
      obtain ⟨used, rfl, hrepeats⟩ := hq.again ts a rest hsize ha
      refine ⟨used, rfl, hrepeats.of_agrees (Nat.le_refl _) fun more hmore ctx room _ => ?_⟩
      refine Or.inr ⟨room, ?_⟩
      cases used with
      | cons u us => exact heq ctx room _ rfl
      | nil =>
        -- nothing was taken, so that it is the next token in `more` that decides
        rcases hquiet with htakes | hquiet
        · exact absurd (htakes _ a rest ha) (Nat.lt_irrefl _)
        · rcases hmore with hmore | hmore
          · exact heq ctx room _ hmore
          · exact hquiet ctx room _ hmore
  · intro ts failure hsize hfails htarget hnesting
    rcases h ts.head? with hfails' | ⟨t, q, hhead, hq, heq⟩ | ⟨q, hq, heq, -⟩
    · obtain ⟨failure', hfails', hrest⟩ := hfails' ts rfl
      rw [hfails'] at hfails
      cases hfails
      exact ⟨[], hrest.symm, Or.inl rfl⟩
    · obtain ⟨us, rfl⟩ := List.head?_eq_some_iff.mp hhead
      rw [heq] at hfails
      have hus := hq us.length hsize
      obtain ⟨used, rfl, hmends⟩ := hus.mends us failure (Nat.le_refl _) hfails htarget hnesting
      have hfinish : ∃ fill, Quiet fill ∧ Finishes q (used ++ fill) := by
        rcases hmends with rfl | hfill
        · exact hus.starts
        · exact hfill
      obtain ⟨fill, hquiet, hfill⟩ := hfinish
      refine ⟨t :: used, rfl, Or.inr ⟨fill, hquiet, ?_⟩⟩
      refine hfill.of_agrees (Nat.le_succ _) fun more _ ctx room _ => ?_
      exact Or.inr ⟨room, heq ctx room _⟩
    · rw [heq _ _ _ rfl] at hfails
      obtain ⟨used, rfl, hmends⟩ := hq.mends ts failure hsize hfails htarget hnesting
      refine ⟨used, rfl, ?_⟩
      by_cases hnil : used = []
      · exact Or.inl hnil
      · obtain ⟨fill, hquiet, hfill⟩ := hmends.resolve_left hnil
        obtain ⟨u, us, rfl⟩ := List.exists_cons_of_ne_nil hnil
        refine Or.inr ⟨fill, hquiet, hfill.of_agrees (Nat.le_refl _) fun more _ ctx room _ => ?_⟩
        exact Or.inr ⟨room, heq ctx room _ rfl⟩

theorem Viable.branch (wanted : List Kind) (yes : Token → Family α) (no : Family α)
    (hyes : ∀ t, t.kind ∈ wanted → ∀ k < size, Viable ctx₀ room₀ k (yes t))
    (hno : Viable ctx₀ room₀ size no)
    (hquiet : wanted ⊆ prolonging ∨ Startable p ∧ Takes (no ctx₀ room₀))
    (htaken : ∀ ctx room t ts, t.kind ∈ wanted → p ctx room (t :: ts) = yes t ctx room ts)
    (hleft : ∀ ctx room ts, take? wanted ts = none → p ctx room ts = no ctx room ts) :
    Viable ctx₀ room₀ size p := by
  have hstarts : Startable p := by
    rcases hquiet with hsub | ⟨hstarts, -⟩
    · obtain ⟨start, hquiet, hstart⟩ := hno.starts
      refine ⟨start, hquiet, hstart.of_agrees (Nat.le_refl _) fun more hmore ctx room _ => ?_⟩
      exact Or.inr ⟨room, hleft ctx room _ ((hquiet.append hmore).take_none hsub)⟩
    · exact hstarts
  apply Viable.of_head hstarts
  intro head
  right
  rcases take_cases wanted head with ⟨t, rfl, ht⟩ | hnone
  · exact Or.inl ⟨t, yes t, rfl, hyes t ht, fun ctx room ts => htaken ctx room t ts ht⟩
  · refine Or.inr ⟨no, hno, fun ctx room ts hts => hleft ctx room ts (hnone ts hts), ?_⟩
    rcases hquiet with hsub | ⟨-, htakes⟩
    · exact Or.inr fun ctx room ts hts => hleft ctx room ts (hts.take_none hsub)
    · exact Or.inl htakes

end

theorem expect_viable {ctx₀ : Context} {room₀ size : Nat} {kind : Kind} (fault : Fault)
    (hkind : kind ∉ .eof :: prolonging) :
    Viable ctx₀ room₀ size fun ctx _ => expect ctx kind fault := by
  have hstarts : Startable fun ctx _ => expect ctx kind fault :=
    ⟨[filler kind], quiet_filler hkind, Or.inl ⟨filler kind, fun _ _ _ _ _ => expect_cons rfl _⟩⟩
  apply Viable.of_head hstarts
  intro head
  rcases take_cases [kind] head with ⟨t, rfl, ht⟩ | hnone
  · refine Or.inr (Or.inl ⟨t, _, rfl, fun _ _ => viable_ok t, fun ctx room ts => ?_⟩)
    rw [expect, take_cons ht]
  · refine Or.inl fun ts hts => ⟨⟨fault, lineAt ctx₀ ts, ts⟩, ?_, rfl⟩
    rw [expect, hnone ts hts]
    rfl

end Lox.Grammar
