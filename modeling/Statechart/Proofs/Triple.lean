/-!
# Triples

Building operations and evaluations are programs over a state that is kept when they stop short. A triple says what
holds of the state, and of the answer or the error, after a program that starts where a condition holds.
-/

namespace Statechart

variable {ε σ α β : Type}

/-- Started where `P` holds, `x` answers with `Q` or stops short with `E`. -/
def Triple (P : σ → Prop) (x : EStateM ε σ α) (Q : α → σ → Prop) (E : ε → σ → Prop) : Prop :=
  ∀ s, P s → match x s with
    | .ok a s' => Q a s'
    | .error e s' => E e s'

namespace Triple

variable {P P' : σ → Prop} {Q Q' : α → σ → Prop} {E E' : ε → σ → Prop} {x : EStateM ε σ α}

theorem of_ok (h : Triple P x Q E) {s s' : σ} {a : α} (hs : P s) (hx : x s = .ok a s') : Q a s' := by
  have := h s hs
  rwa [hx] at this

theorem of_error (h : Triple P x Q E) {s s' : σ} {e : ε} (hs : P s) (hx : x s = .error e s') : E e s' := by
  have := h s hs
  rwa [hx] at this

theorem conseq (h : Triple P x Q E) (hP : ∀ s, P' s → P s) (hQ : ∀ a s, Q a s → Q' a s)
    (hE : ∀ e s, E e s → E' e s) : Triple P' x Q' E' := by
  intro s hs
  have hx := h s (hP s hs)
  cases hr : x s with
  | ok a s' => rw [hr] at hx; exact hQ a s' hx
  | error e s' => rw [hr] at hx; exact hE e s' hx

theorem pre (h : Triple P x Q E) (hP : ∀ s, P' s → P s) : Triple P' x Q E :=
  h.conseq hP (fun _ _ h => h) (fun _ _ h => h)

theorem post (h : Triple P x Q E) (hQ : ∀ a s, Q a s → Q' a s) : Triple P x Q' E :=
  h.conseq (fun _ h => h) hQ (fun _ _ h => h)

theorem halts (h : Triple P x Q E) (hE : ∀ e s, E e s → E' e s) : Triple P x Q E' :=
  h.conseq (fun _ h => h) (fun _ _ h => h) hE

theorem start (h : Triple P x Q E) {s : σ} (hs : P s) : Triple (fun s' => s' = s) x Q E :=
  h.pre fun _ heq => heq ▸ hs

theorem assume (h : ∀ s, P s → Triple (fun s' => s' = s) x Q E) : Triple P x Q E :=
  fun s hs => h s hs s rfl

theorem of_imp {p : Prop} (h : p → Triple P x Q E) : Triple (fun s => P s ∧ p) x Q E :=
  fun s hs => h hs.2 s hs.1

theorem and (h : Triple P x Q E) (h' : Triple P' x Q' E') :
    Triple (fun s => P s ∧ P' s) x (fun a s => Q a s ∧ Q' a s) (fun e s => E e s ∧ E' e s) := by
  intro s hs
  have hx := h s hs.1
  have hx' := h' s hs.2
  cases hr : x s with
  | ok a s' => rw [hr] at hx hx'; exact ⟨hx, hx'⟩
  | error e s' => rw [hr] at hx hx'; exact ⟨hx, hx'⟩

theorem or (h : Triple P x Q E) (h' : Triple P' x Q E) : Triple (fun s => P s ∨ P' s) x Q E :=
  fun s hs => hs.elim (h s) (h' s)

theorem all {ι : Type} {Q : ι → α → σ → Prop} {E : ι → ε → σ → Prop} (h : ∀ j, Triple P x (Q j) (E j)) :
    Triple P x (fun a s => ∀ j, Q j a s) (fun e s => ∀ j, E j e s) := by
  intro s hs
  cases hr : x s with
  | ok a s' => exact fun j => (h j).of_ok hs hr
  | error e s' => exact fun j => (h j).of_error hs hr

theorem trivial : Triple P x (fun _ _ => True) (fun _ _ => True) := by
  intro s _
  cases x s <;> exact True.intro

theorem either {y : EStateM ε σ Bool} {R : σ → Prop} (h : Triple P y (fun _ => R) E) :
    Triple P y (fun yes s => if yes then R s else R s) E :=
  h.post fun yes _ hs => by cases yes <;> exact hs

theorem withNo {y : EStateM ε σ Bool} {Y N : σ → Prop} (h : Triple P y (fun _ => Y) E)
    (h' : Triple P' y (fun yes s => yes = false → N s) E') :
    Triple (fun s => P s ∧ P' s) y (fun yes s => if yes then Y s else N s) E :=
  (h.and h').conseq (fun _ hs => hs)
    (fun yes s hs => by
      cases yes with
      | true => exact hs.1
      | false => exact hs.2 rfl)
    fun _ _ hs => hs.1

/-! ## Rules for programs -/

theorem pure {a : α} (h : ∀ s, P s → Q a s) : Triple P (Pure.pure a : EStateM ε σ α) Q E := h

theorem throw {e : ε} (h : ∀ s, P s → E e s) : Triple P (MonadExcept.throw e : EStateM ε σ α) Q E := h

theorem throw_bind {e : ε} {f : α → EStateM ε σ β} {Q : β → σ → Prop} (h : ∀ s, P s → E e s) :
    Triple P ((MonadExcept.throw e : EStateM ε σ α) >>= f) Q E := h

theorem get {Q : σ → σ → Prop} (h : ∀ s, P s → Q s s) : Triple P (MonadState.get : EStateM ε σ σ) Q E := h

theorem modify {f : σ → σ} {Q : PUnit → σ → Prop} (h : ∀ s, P s → Q ⟨⟩ (f s)) :
    Triple P (modify f : EStateM ε σ PUnit) Q E := h

theorem bind {f : α → EStateM ε σ β} {R : α → σ → Prop} {Q : β → σ → Prop} (h : Triple P x R E)
    (hf : ∀ a, Triple (R a) (f a) Q E) : Triple P (x >>= f) Q E := by
  intro s hs
  have hx := h s hs
  change match EStateM.bind x f s with | .ok a s' => Q a s' | .error e s' => E e s'
  unfold EStateM.bind
  cases hr : x s with
  | ok a s' => rw [hr] at hx; exact hf a s' hx
  | error e s' => rw [hr] at hx; exact hx

theorem ite_bind {p : Prop} [Decidable p] {y : EStateM ε σ α} {f : α → EStateM ε σ β} {R : α → σ → Prop}
    {Q : β → σ → Prop} (h : p → Triple P x R E) (h' : ¬ p → Triple P y R E) (hf : ∀ a, Triple (R a) (f a) Q E) :
    Triple P (if p then x >>= f else y >>= f) Q E := by
  split
  · rename_i hp; exact bind (h hp) hf
  · rename_i hp; exact bind (h' hp) hf

end Triple

end Statechart
