import Mathlib.Logic.Basic

/-!
# What a computation ensures

A computation over a state ends with a value or with an error, and in both cases in a state. `Ensures`
says what holds behind it, from one state: `post` of the value and the state, or `failed` of the state
that the error leaves. Its rules follow the program text; a loop is given what its rounds keep.
-/

namespace EStateM

variable {ε σ α β : Type}

def Ensures (failed : σ → Prop) (x : EStateM ε σ α) (s : σ) (post : α → σ → Prop) : Prop :=
  match x s with
  | .ok a s' => post a s'
  | .error _ s' => failed s'

variable {failed : σ → Prop} {x : EStateM ε σ α} {f : α → EStateM ε σ β} {s : σ}
  {post post' : α → σ → Prop} {after : β → σ → Prop}

theorem Ensures.bind (hx : Ensures failed x s post)
    (hf : ∀ a s', post a s' → Ensures failed (f a) s' after) : Ensures failed (x >>= f) s after := by
  have hbind : (x >>= f) s = match x s with
      | .ok a s' => f a s'
      | .error e s' => .error e s' := by
    show EStateM.bind x f s = _
    unfold EStateM.bind
    cases x s with
    | ok a s' => rfl
    | error e s' => rfl
  unfold Ensures at hx ⊢
  rw [hbind]
  cases hxs : x s with
  | error e s' =>
    rw [hxs] at hx
    exact hx
  | ok a s' =>
    rw [hxs] at hx
    exact hf a s' hx

theorem Ensures.mono (hx : Ensures failed x s post) (h : ∀ a s', post a s' → post' a s') :
    Ensures failed x s post' := by
  unfold Ensures at hx ⊢
  cases hxs : x s with
  | error e s' =>
    rw [hxs] at hx
    exact hx
  | ok a s' =>
    rw [hxs] at hx
    exact h a s' hx

theorem ensures_pure {a : α} (h : post a s) :
    Ensures failed (pure a : EStateM ε σ α) s post := h

theorem ensures_throw {e : ε} (h : failed s) :
    Ensures failed (throw e : EStateM ε σ α) s post := h

theorem ensures_throw_bind {e : ε} (h : failed s) :
    Ensures failed ((throw e : EStateM ε σ α) >>= f) s after := h

theorem ensures_forM {γ : Type} {g : γ → EStateM ε σ PUnit} (inv : List γ → σ → Prop)
    (hround : ∀ item rest s, inv (item :: rest) s →
      Ensures failed (g item) s fun _ => inv rest)
    {items : List γ} (h : inv items s) : Ensures failed (items.forM g) s fun _ => inv [] := by
  induction items generalizing s with
  | nil => exact ensures_pure h
  | cons item rest ih =>
    show Ensures failed (g item >>= fun _ => rest.forM g) s _
    exact (hround item rest s h).bind fun _ _ hnext => ih hnext

end EStateM
