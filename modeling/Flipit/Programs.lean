import Flipit.Machine

/- Programs that ask a service, alone and among others.

   A program is the tree of what it asks (`Program`): it is done, or it asks and goes on
   with the answer. Alone with a service it has one conversation (`alone`). On a machine
   that serves many clients its questions are some of the events (`own`); the service it
   sees is a view of the machine's state. If an event of others leaves the view alone and
   an event of its own answers and changes it as the service does, then what the program
   is told in any run is what the service would have told it (`own_trace`), so the
   conversation is the beginning of the one it has alone (`alone_after`).

   `Yields` says what a program alone puts out, with a rule for each construct. -/
namespace Programs
open Machine

variable {Q A α β τ γ : Type}

/-- A program with questions in `Q`, answers in `A` and a result in `α`. -/
inductive Program (Q A α : Type) where
  | done (a : α)
  | ask (q : Q) (go : A → Program Q A α)

namespace Program

def bind : Program Q A α → (α → Program Q A β) → Program Q A β
  | .done a, f => f a
  | .ask q go, f => .ask q fun a => (go a).bind f

instance : Monad (Program Q A) where
  pure := .done
  bind := bind

def call (q : Q) : Program Q A A := .ask q .done

/-- What is left of the program after this part of its conversation, if it is one. -/
def after [DecidableEq Q] : Program Q A α → List (Q × A) → Option (Program Q A α)
  | p, [] => some p
  | .done _, _ :: _ => none
  | .ask q go, x :: tr => if q = x.1 then (go x.2).after tr else none

/-- The result of a program that is done. -/
def result : Program Q A α → Option α
  | .done a => some a
  | .ask _ _ => none

/-- The program alone with a service: the conversation, the result and the service's state. -/
def alone (serve : τ → Q → Option (A × τ)) : Program Q A α → τ → Option (List (Q × A) × (α × τ))
  | .done a, t => some ([], (a, t))
  | .ask q go, t => (serve t q).bind fun r => ((go r.1).alone serve r.2).map fun x => ((q, r.1) :: x.1, x.2)

variable {serve : τ → Q → Option (A × τ)} {t t' t1 : τ} {p p' : Program Q A α} {a : α} {tr full : List (Q × A)}

@[simp] theorem pure_bind (f : α → Program Q A β) : ((pure a : Program Q A α) >>= f) = f a := rfl

@[simp] theorem call_bind (q : Q) (f : A → Program Q A β) : (call q >>= f) = .ask q f := rfl

theorem alone_ask {q : Q} {go : A → Program Q A α} {a : A} (h : serve t q = some (a, t1)) :
    (Program.ask q go).alone serve t = ((go a).alone serve t1).map fun x => ((q, a) :: x.1, x.2) := by
  simp [alone, h]

theorem alone_bind {f : α → Program Q A β} {tr' : List (Q × A)} {b : β} (hp : p.alone serve t = some (tr, (a, t1)))
    (hf : (f a).alone serve t1 = some (tr', (b, t'))) :
    (p >>= f).alone serve t = some (tr ++ tr', (b, t')) := by
  induction p generalizing t tr with
  | done c =>
    simp only [alone, Option.some.injEq, Prod.mk.injEq] at hp
    obtain ⟨rfl, rfl, rfl⟩ := hp
    exact hf
  | ask q go ih =>
    simp only [alone, Option.bind_eq_some_iff, Option.map_eq_some_iff] at hp
    obtain ⟨r, hr, x, hx, heq⟩ := hp
    obtain ⟨rfl, hx2⟩ := Prod.mk.inj heq
    have hrest := ih r.1 (t := r.2) (by rw [hx, ← hx2])
    change (Program.ask q fun c => (go c).bind f).alone serve t = _
    rw [alone_ask hr]
    exact congrArg (Option.map _) hrest

/-- A conversation with the same service is a beginning of the one the program has alone, and
what is left of the program has the rest of it. -/
theorem alone_after [DecidableEq Q] {r : α × τ} (halone : p.alone serve t = some (full, r))
    (hafter : p.after tr = some p') (hserved : trace serve t (tr.map Prod.fst) = some (tr.map Prod.snd, t1)) :
    ∃ rest, full = tr ++ rest ∧ p'.alone serve t1 = some (rest, r) := by
  induction tr generalizing p t full with
  | nil =>
    obtain ⟨-, rfl⟩ := Prod.mk.inj (Option.some.inj hserved)
    have hp : p = p' := by simpa [after] using hafter
    exact ⟨full, rfl, hp ▸ halone⟩
  | cons x tr ih =>
    cases p with
    | done b => cases hafter
    | ask q go =>
      simp only [after] at hafter
      split_ifs at hafter with hq
      obtain ⟨s, o', hs, htrace, heq⟩ := trace_cons.mp hserved
      obtain ⟨ha, rfl⟩ := List.cons.inj heq
      rw [← hq] at hs
      rw [alone_ask (a := s.1) hs] at halone
      obtain ⟨y, hy, hfull⟩ := Option.map_eq_some_iff.mp halone
      obtain ⟨rfl, rfl⟩ := Prod.mk.inj hfull
      rw [ha] at hafter
      obtain ⟨rest, hrest, hleft⟩ := ih hy hafter htrace
      refine ⟨rest, ?_, hleft⟩
      rw [hrest, hq, ← ha]
      rfl

/-! ## What a program puts out -/

/-- Alone with the service the program ends with `a`, leaves the service in `t'`, and `emit` of
its conversation is `out`. -/
def Yields (serve : τ → Q → Option (A × τ)) (emit : Q × A → List γ) (p : Program Q A α) (t : τ)
    (out : List γ) (a : α) (t' : τ) : Prop :=
  ∃ tr, p.alone serve t = some (tr, (a, t')) ∧ tr.flatMap emit = out

variable {emit : Q × A → List γ} {out out' : List γ}

theorem Yields.done : Yields serve emit (.done a) t [] a t := ⟨[], rfl, rfl⟩

theorem Yields.call {q : Q} {f : A → Program Q A β} {c : A} {b : β} (hq : serve t q = some (c, t1))
    (h : Yields serve emit (f c) t1 out b t') :
    Yields serve emit (Program.call q >>= f) t (emit (q, c) ++ out) b t' := by
  obtain ⟨tr, halone, hout⟩ := h
  refine ⟨(q, c) :: tr, ?_, ?_⟩
  · rw [call_bind, alone_ask hq, halone]
    exact Option.map_some ..
  · rw [List.flatMap_cons, hout]

theorem Yields.silent {q : Q} {f : A → Program Q A β} {c : A} {b : β} (hq : serve t q = some (c, t1))
    (he : emit (q, c) = []) (h : Yields serve emit (f c) t1 out b t') :
    Yields serve emit (Program.call q >>= f) t out b t' := by
  have hall := Yields.call hq h
  rwa [he] at hall

theorem Yields.bind {f : α → Program Q A β} {b : β} (hp : Yields serve emit p t out a t1)
    (hf : Yields serve emit (f a) t1 out' b t') : Yields serve emit (p >>= f) t (out ++ out') b t' := by
  obtain ⟨tr, halone, rfl⟩ := hp
  obtain ⟨tr', halone', rfl⟩ := hf
  exact ⟨tr ++ tr', alone_bind halone halone', List.flatMap_append⟩

theorem Yields.result {f : α → β} (hp : Yields serve emit p t out a t') :
    Yields serve emit (p >>= fun x => pure (f x)) t out (f a) t' := by
  rw [← List.append_nil out]
  exact Yields.bind hp Yields.done

/-- In a conversation with the same service a program puts out a beginning of what it puts out
alone, and all of it once it is done. -/
theorem Yields.after [DecidableEq Q] (h : Yields serve emit p t out a t') (hafter : p.after tr = some p')
    (hserved : trace serve t (tr.map Prod.fst) = some (tr.map Prod.snd, t1)) :
    tr.flatMap emit <+: out ∧ ∀ b, p'.result = some b → b = a ∧ tr.flatMap emit = out := by
  obtain ⟨full, halone, rfl⟩ := h
  obtain ⟨rest, rfl, hleft⟩ := alone_after halone hafter hserved
  refine ⟨⟨rest.flatMap emit, by rw [List.flatMap_append]⟩, fun b hb => ?_⟩
  cases p' with
  | done c =>
    simp only [alone, Option.some.injEq, Prod.mk.injEq] at hleft
    obtain ⟨rfl, rfl, -⟩ := hleft
    exact ⟨(Option.some.inj hb).symm, by simp⟩
  | ask q go => cases hb

end Program

/-! ## Among others -/

section Views
variable {σ ε ω : Type}

/-- The conversation of the client whose questions are the events `mine` picks out. -/
def own (step : σ → ε → Option (ω × σ)) (mine : σ → ε → Option Q) (told : ω → A) : σ → List ε → List (Q × A)
  | _, [] => []
  | s, e :: es =>
    match step s e with
    | none => []
    | some r =>
      match mine s e with
      | none => own step mine told r.2 es
      | some q => (q, told r.1) :: own step mine told r.2 es

variable {step : σ → ε → Option (ω × σ)} {mine : σ → ε → Option Q} {told : ω → A}
  {serve : τ → Q → Option (A × τ)} {view : σ → τ} {I : σ → Prop} {G : σ → ε → Prop}

/-- If other clients' events leave the view alone and the client's own answer and change it as
the service does, the client's conversation in a run is one with the service. -/
theorem own_trace (hI : ∀ {s e r}, I s → G s e → step s e = some r → I r.2)
    (hother : ∀ {s e r}, I s → G s e → mine s e = none → step s e = some r → view r.2 = view s)
    (hmine : ∀ {s e r q}, I s → G s e → mine s e = some q → step s e = some r →
      serve (view s) q = some (told r.1, view r.2))
    {s s' : σ} {es : List ε} (hs : I s) (hG : Meets step G s es) (hr : run step s es = some s') :
    trace serve (view s) ((own step mine told s es).map Prod.fst) =
      some ((own step mine told s es).map Prod.snd, view s') := by
  induction es generalizing s with
  | nil =>
    obtain rfl := Option.some.inj hr
    rfl
  | cons e es ih =>
    obtain ⟨r, hstep, hr⟩ := run_cons.mp hr
    have hrest := ih (hI hs hG.1 hstep) (hG.2 r hstep) hr
    simp only [own, hstep]
    cases hq : mine s e with
    | none =>
      dsimp only
      rw [← hother hs hG.1 hq hstep]
      exact hrest
    | some q =>
      have hanswer := hmine hs hG.1 hq hstep
      simp only [List.map_cons]
      exact trace_cons.mpr ⟨(told r.1, view r.2), _, hanswer, hrest, rfl⟩

end Views

end Programs
