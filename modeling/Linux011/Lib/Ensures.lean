import Mathlib.Logic.Relation

/-!
# Runs that wait

A program goes on by the partial function `next`. Where it is `asleep`, the environment works until
it is not. `Ensures next asleep env Q s`: in every such run from `s` there comes a state with `Q`.
-/

namespace Linux011

variable {σ : Type*}

inductive Ensures (next : σ → Option σ) (asleep : σ → Prop) (env : σ → σ → Prop) (Q : σ → Prop) :
    σ → Prop
  | done {s : σ} : Q s → Ensures next asleep env Q s
  | step {s s' : σ} : next s = some s' → Ensures next asleep env Q s' → Ensures next asleep env Q s
  /-- The environment is able to let it go on, and whenever it does, `Q` will come. -/
  | wait {s : σ} : asleep s → (∃ s', env s s' ∧ ¬ asleep s') →
      (∀ s', env s s' → ¬ asleep s' → Ensures next asleep env Q s') → Ensures next asleep env Q s

end Linux011
