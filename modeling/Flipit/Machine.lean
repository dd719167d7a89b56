import Mathlib.Data.List.Basic

/- Runs of a partial labelled step function, for any machine. In a state the
   machine takes an event and either stops (`none`: it faults, or the event
   cannot happen there) or answers with an output and the next state. `run` and
   `trace` fold a list of events; `Meets` says that every step of a run meets a
   condition on its event and on the state before it, `Always` that every state of
   it does; both can be evaluated on a run. `run_invariant` is the
   induction every safety result over runs goes through: what holds first and is
   kept by each step that meets the condition holds in every state reached.
   `ghost` carries a value of the specification along the machine's own steps,
   `outputs` is for a machine that never stops, `outputs_simulation` compares two of
   them, and `foldl_range` and `foldlM_range` are the rules for a counted loop, the second for
   one whose body can fault. -/
namespace Machine

variable {σ ε ω γ : Type}

/-- The state after the events, taken in order. -/
def run (step : σ → ε → Option (ω × σ)) : σ → List ε → Option σ
  | s, [] => some s
  | s, e :: es => (step s e).bind fun r => run step r.2 es

/-- The outputs of the events, taken in order, and the last state. -/
def trace (step : σ → ε → Option (ω × σ)) : σ → List ε → Option (List ω × σ)
  | s, [] => some ([], s)
  | s, e :: es => (step s e).bind fun r => (trace step r.2 es).map fun q => (r.1 :: q.1, q.2)

/-- Every step of the run meets `G`. -/
def Meets (step : σ → ε → Option (ω × σ)) (G : σ → ε → Prop) : σ → List ε → Prop
  | _, [] => True
  | s, e :: es => G s e ∧ ∀ r, step s e = some r → Meets step G r.2 es

/-- Every state of the run, the first and the last included, has `P`. -/
def Always (step : σ → ε → Option (ω × σ)) (P : σ → Prop) : σ → List ε → Prop
  | s, [] => P s
  | s, e :: es => P s ∧ ∀ r, step s e = some r → Always step P r.2 es

/-- The machine with a ghost value: `upd` sees the state before, the event, the
output and the state after. -/
def ghost (step : σ → ε → Option (ω × σ)) (upd : σ → ε → ω → σ → γ → γ) :
    σ × γ → ε → Option (ω × (σ × γ)) :=
  fun s e => (step s.1 e).map fun r => (r.1, (r.2, upd s.1 e r.1 r.2 s.2))

/-- The outputs of a machine that never stops, one for each event. -/
def outputs (step : σ → ε → ω × σ) : σ → List ε → List ω
  | _, [] => []
  | s, e :: es => (step s e).1 :: outputs step (step s e).2 es

theorem outputs_simulation {τ : Type} {f : σ → ε → ω × σ} {g : τ → ε → γ × τ} {view : ω → γ}
    {R : σ → τ → Prop} (hstep : ∀ {s t}, R s t → ∀ e, view (f s e).1 = (g t e).1 ∧ R (f s e).2 (g t e).2)
    {s : σ} {t : τ} (h : R s t) (es : List ε) : (outputs f s es).map view = outputs g t es := by
  induction es generalizing s t with
  | nil => rfl
  | cons e es ih =>
    obtain ⟨hout, hnext⟩ := hstep h e
    rw [outputs, outputs, List.map_cons, hout, ih hnext]

variable {step : σ → ε → Option (ω × σ)} {G : σ → ε → Prop} {s s' : σ} {e : ε} {es es' : List ε}

theorem run_cons : run step s (e :: es) = some s' ↔
    ∃ r, step s e = some r ∧ run step r.2 es = some s' := by
  simp [run, Option.bind_eq_some_iff]

theorem trace_cons {o : List ω} : trace step s (e :: es) = some (o, s') ↔
    ∃ r o', step s e = some r ∧ trace step r.2 es = some (o', s') ∧ o = r.1 :: o' := by
  simp only [trace, Option.bind_eq_some_iff, Option.map_eq_some_iff]
  constructor
  · intro hex
    obtain ⟨r, hr, q, hq, h⟩ := hex
    obtain ⟨rfl, rfl⟩ := Prod.mk.inj h
    exact ⟨r, q.1, hr, hq, rfl⟩
  · intro hex
    obtain ⟨r, o', hr, hq, rfl⟩ := hex
    exact ⟨r, hr, (o', s'), hq, rfl⟩

theorem run_append : run step s (es ++ es') = (run step s es).bind fun t => run step t es' := by
  induction es generalizing s with
  | nil => rfl
  | cons e es ih =>
    simp only [List.cons_append, run]
    cases step s e with
    | none => rfl
    | some r => exact ih

theorem meets_append (hr : run step s es = some s') :
    Meets step G s (es ++ es') ↔ Meets step G s es ∧ Meets step G s' es' := by
  induction es generalizing s with
  | nil => simp only [run, Option.some.injEq] at hr; subst hr; simp [Meets]
  | cons e es ih =>
    obtain ⟨r, hs, hr⟩ := run_cons.mp hr
    simp only [List.cons_append, Meets, hs, Option.some.injEq, forall_eq', ih hr, and_assoc]

theorem Always.first {P : σ → Prop} (h : Always step P s es) : P s := by
  cases es with
  | nil => exact h
  | cons e es => exact h.1

theorem Always.meets {P : σ → Prop} (h : Always step P s es) :
    Meets step (fun s e => P s ∧ ∀ r, step s e = some r → P r.2) s es := by
  induction es generalizing s with
  | nil => trivial
  | cons e es ih => exact ⟨⟨h.1, fun r hr => (h.2 r hr).first⟩, fun r hr => ih (h.2 r hr)⟩

theorem Meets.and {H : σ → ε → Prop} (hG : Meets step G s es) (hH : Meets step H s es) :
    Meets step (fun s e => G s e ∧ H s e) s es := by
  induction es generalizing s with
  | nil => trivial
  | cons e es ih => exact ⟨⟨hG.1, hH.1⟩, fun r hr => ih (hG.2 r hr) (hH.2 r hr)⟩

theorem Meets.of_forall {P : ε → Prop} (h : ∀ e ∈ es, P e) : Meets step (fun _ e => P e) s es := by
  induction es generalizing s with
  | nil => trivial
  | cons e es ih => exact ⟨h e (.head _), fun r _ => ih fun e he => h e (.tail _ he)⟩

instance decidableForallSome {α : Type} (o : Option α) (P : α → Prop) [∀ x, Decidable (P x)] :
    Decidable (∀ x, o = some x → P x) :=
  match o with
  | none => isTrue nofun
  | some x => decidable_of_iff (P x) ⟨fun hp _ hx => Option.some.inj hx ▸ hp, fun hp => hp x rfl⟩

instance decidableMeets (step : σ → ε → Option (ω × σ)) (G : σ → ε → Prop)
    [∀ s e, Decidable (G s e)] : ∀ s es, Decidable (Meets step G s es)
  | _, [] => isTrue trivial
  | s, e :: es =>
    have := fun s => decidableMeets step G s es
    inferInstanceAs (Decidable (G s e ∧ ∀ r, step s e = some r → Meets step G r.2 es))

instance decidableAlways (step : σ → ε → Option (ω × σ)) (P : σ → Prop) [∀ s, Decidable (P s)] :
    ∀ s es, Decidable (Always step P s es)
  | s, [] => inferInstanceAs (Decidable (P s))
  | s, e :: es =>
    have := fun s => decidableAlways step P s es
    inferInstanceAs (Decidable (P s ∧ ∀ r, step s e = some r → Always step P r.2 es))

/-- What the steps that meet `G` keep holds in every state of a run that meets `G`. -/
theorem run_invariant {I : σ → Prop}
    (hstep : ∀ {s e r}, I s → G s e → step s e = some r → I r.2)
    (hs : I s) (hG : Meets step G s es) (hr : run step s es = some s') : I s' := by
  induction es generalizing s with
  | nil => simp only [run, Option.some.injEq] at hr; exact hr ▸ hs
  | cons e es ih =>
    obtain ⟨r, h, hr⟩ := run_cons.mp hr
    exact ih (hstep hs hG.1 h) (hG.2 r h) hr

/-- The unconditional form: what every step keeps holds in every state of a run. -/
theorem run_induction {I : σ → Prop} (hstep : ∀ {s e r}, I s → step s e = some r → I r.2)
    (hs : I s) (hr : run step s es = some s') : I s' :=
  run_invariant (G := fun _ _ => True) (fun h _ hs => hstep h hs) hs
    (Meets.of_forall fun _ _ => trivial) hr

/-- Two conditions that agree in the states the runs that meet the second keep to. -/
theorem meets_iff {I : σ → Prop} {H : σ → ε → Prop} (hiff : ∀ {s e}, I s → (H s e ↔ G s e))
    (hstep : ∀ {s e r}, I s → G s e → step s e = some r → I r.2) (hs : I s) :
    Meets step H s es ↔ Meets step G s es := by
  induction es generalizing s with
  | nil => exact Iff.rfl
  | cons e es ih =>
    simp only [Meets]
    rw [hiff hs]
    refine and_congr_right fun hG => forall₂_congr fun r hr => ?_
    exact ih (hstep hs hG hr)

/-- Where a step leads from a state with `P` to one with `P` exactly if it meets `G`, a
run has `P` always exactly if all its steps meet `G`. -/
theorem always_iff {I P : σ → Prop} (hrun : run step s es = some s') (hs : I s) (hP : P s)
    (hstep : ∀ {s e r}, I s → P s → step s e = some r → I r.2 ∧ (P r.2 ↔ G s e)) :
    Always step P s es ↔ Meets step G s es := by
  induction es generalizing s with
  | nil => exact ⟨fun _ => trivial, fun _ => hP⟩
  | cons e es ih =>
    obtain ⟨r, hr, hrun⟩ := run_cons.mp hrun
    obtain ⟨hI, hiff⟩ := hstep hs hP hr
    simp only [Always, Meets, hr, Option.some.injEq, forall_eq']
    constructor
    · intro h
      have hr' := h.2.first
      exact ⟨hiff.mp hr', (ih hrun hI hr').mp h.2⟩
    · intro h
      exact ⟨hP, (ih hrun hI (hiff.mpr h.1)).mpr h.2⟩

theorem map_answer {o : Option σ} {a b : ω} :
    (o.map fun s => (a, s)) = some (b, s') ↔ b = a ∧ o = some s' := by
  cases o with
  | none => simp
  | some s => simp [eq_comm]

theorem ghost_eq_some {upd : σ → ε → ω → σ → γ → γ} {g : γ} {o : ω} {t : σ × γ} :
    ghost step upd (s, g) e = some (o, t) ↔
      ∃ s', step s e = some (o, s') ∧ t = (s', upd s e o s' g) := by
  simp only [ghost, Option.map_eq_some_iff, Prod.mk.injEq]
  constructor
  · intro hex
    obtain ⟨⟨o', s'⟩, h, rfl, rfl⟩ := hex
    exact ⟨s', h, rfl⟩
  · intro hex
    obtain ⟨s', h, rfl⟩ := hex
    exact ⟨(o, s'), h, rfl, rfl⟩

/-- A machine that may stop follows one that never does, as long as its events have `P`: it does
not stop, and it answers alike. -/
theorem trace_simulation {τ : Type} {g : τ → ε → γ × τ} {view : ω → γ} {R : σ → τ → Prop} {P : ε → Prop}
    (hstep : ∀ {s t e}, R s t → P e → ∃ r, step s e = some r ∧ view r.1 = (g t e).1 ∧ R r.2 (g t e).2) {t : τ}
    (h : R s t) (hes : ∀ e ∈ es, P e) : ∃ o s', trace step s es = some (o, s') ∧
      o.map view = outputs g t es ∧ R s' (es.foldl (fun t e => (g t e).2) t) := by
  induction es generalizing s t with
  | nil => exact ⟨[], s, rfl, rfl, h⟩
  | cons e es ih =>
    obtain ⟨r, hs, hview, hr⟩ := hstep h (hes e (.head _))
    obtain ⟨o, s', htrace, ho, hs'⟩ := ih hr fun e he => hes e (.tail _ he)
    refine ⟨r.1 :: o, s', trace_cons.mpr ⟨r, o, hs, htrace, rfl⟩, ?_, hs'⟩
    rw [List.map_cons, outputs, hview, ho]

theorem run_of_trace {o : List ω} (h : trace step s es = some (o, s')) : run step s es = some s' := by
  induction es generalizing s o with
  | nil => simp_all [trace, run]
  | cons e es ih =>
    obtain ⟨r, o', hs, htrace, -⟩ := trace_cons.mp h
    exact run_cons.mpr ⟨r, hs, ih htrace⟩

theorem foldl_range {f : σ → Nat → σ} (S : Nat → σ) {n : Nat}
    (hf : ∀ i, i < n → f (S i) i = S (i + 1)) : (List.range n).foldl f (S 0) = S n := by
  induction n with
  | zero => rfl
  | succ n ih =>
    rw [List.range_succ, List.foldl_append, ih fun i hi => hf i (by omega)]
    exact hf n (by omega)

theorem foldlM_range {f : σ → Nat → Option σ} (S : Nat → σ) {n : Nat}
    (hf : ∀ i, i < n → f (S i) i = some (S (i + 1))) :
    (List.range n).foldlM f (S 0) = some (S n) := by
  induction n with
  | zero => rfl
  | succ n ih =>
    rw [List.range_succ, List.foldlM_append, ih fun i hi => hf i (by omega)]
    simp [hf n (by omega)]

end Machine
