import Statechart.Proofs.Agreement

/-!
# Evaluations with more fuel

An evaluation that has come to its end comes to the same end with more fuel.
-/

namespace Statechart

variable {μ δ σ α β : Type}

namespace Eval

abbrev Extends (x y : Eval μ δ σ α) : Prop := Agrees (fun _ => True) x y

section
variable {x y : Eval μ δ σ α} {F G : α → Eval μ δ σ β}

theorem Extends.refl (x : Eval μ δ σ α) : Extends x x := Agrees.refl x

theorem Extends.bind (hx : Extends x y) (hF : ∀ a, Extends (F a) (G a)) : Extends (x >>= F) (y >>= G) :=
  Agrees.bind hx Triple.trivial hF

theorem Extends.after (x : Eval μ δ σ α) (hF : ∀ a, Extends (F a) (G a)) : Extends (x >>= F) (x >>= G) :=
  Extends.bind (.refl x) hF

end

variable {m : Model μ δ} {p : Program μ δ} {c : Context σ}

/-- Whatever has as much fuel as `n` or more goes on as it does with `n`. -/
structure Prolongs (m : Model μ δ) (p : Program μ δ) (c : Context σ) (n : Nat) : Prop where
  perform : ∀ n' ≥ n, ∀ mode l, Extends (perform m p c n mode l) (perform m p c n' mode l)
  step : ∀ n' ≥ n, ∀ mode s, Extends (performStep m p c n mode s) (performStep m p c n' mode s)
  traverse : ∀ n' ≥ n, ∀ mode t, Extends (traverse m p c n mode t) (traverse m p c n' mode t)
  follow : ∀ n' ≥ n, ∀ trigger t, Extends (follow m p c n trigger t) (follow m p c n' trigger t)
  completeAll : ∀ n' ≥ n, ∀ l, Extends (completeAll m p c n l) (completeAll m p c n' l)
  complete : ∀ n' ≥ n, ∀ v, Extends (complete m p c n v) (complete m p c n' v)
  offer : ∀ n' ≥ n, ∀ trigger v, Extends (offer m p c n trigger v) (offer m p c n' trigger v)
  offerBeneath : ∀ n' ≥ n, ∀ trigger v rs,
    Extends (offerBeneath m p c n trigger v rs) (offerBeneath m p c n' trigger v rs)

theorem prolongs_zero : Prolongs m p c 0 where
  perform n' _ mode l := by
    cases l with
    | nil => cases n' <;> exact .refl _
    | cons s l => exact Agrees.outOfFuel _
  step _ _ _ _ := Agrees.outOfFuel _
  traverse _ _ _ _ := Agrees.outOfFuel _
  follow _ _ _ _ := Agrees.outOfFuel _
  completeAll n' _ l := by
    cases l with
    | nil => cases n' <;> exact .refl _
    | cons v l => exact Agrees.outOfFuel _
  complete _ _ _ := Agrees.outOfFuel _
  offer _ _ _ _ := Agrees.outOfFuel _
  offerBeneath n' _ trigger v rs := by
    cases rs with
    | nil => cases n' <;> exact .refl _
    | cons r rs => exact Agrees.outOfFuel _

section
variable {n n' : Nat} (ih : Prolongs m p c n) (hn : n ≤ n')
include ih hn

theorem extends_step (mode : Mode μ) (s : Step μ δ) :
    Extends (performStep m p c (n + 1) mode s) (performStep m p c (n' + 1) mode s) := by
  cases s with
  | leaveRegion r =>
    simp only [performStep]
    refine .after _ fun i => ?_
    cases i.current? r with
    | none => exact .refl _
    | some v => exact .after _ fun b => ih.perform n' hn _ b.leave
  | enterRegion r initial kind =>
    simp only [performStep]
    refine .after _ fun i => ?_
    cases (if mode.deep || kind.any (·.isHistory) then i.current? r else none).or initial with
    | none => exact .refl _
    | some v =>
      exact .after _ fun b => .bind (ih.perform n' hn _ b.beginEnter) fun _ => ih.perform n' hn _ b.endEnter
  | traverse t => exact ih.traverse n' hn mode t
  | _ => exact .refl _

theorem extends_traverse (mode : Mode μ) (t : TransitionId) :
    Extends (traverse m p c (n + 1) mode t) (traverse m p c (n' + 1) mode t) := by
  simp only [traverse]
  refine .bind (ih.follow n' hn mode.trigger t) fun _ => ?_
  cases mode.nested with
  | true => exact .refl (pure ())
  | false => exact .after _ fun l => ih.completeAll n' hn l

theorem extends_follow (trigger : Trigger μ) (t : TransitionId) :
    Extends (follow m p c (n + 1) trigger t) (follow m p c (n' + 1) trigger t) := by
  simp only [follow]
  cases m.transition? t with
  | none => exact .refl _
  | some record =>
    cases p.route? t with
    | none => exact .refl _
    | some route =>
      refine .after _ fun i => .after _ fun _ => .bind (ih.perform n' hn _ _) fun _ => ?_
      cases record.target with
      | none => exact .refl _
      | some u =>
        refine .after _ fun reached => ?_
        cases reached.form with
        | state content => exact .refl _
        | pseudo kind =>
          cases hb : kind.isBranch with
          | false =>
            simp only [hb]
            exact .refl (pure ())
          | true =>
            simp only [hb, ite_true]
            refine .after _ fun next => ?_
            cases next with
            | none => exact .refl _
            | some next => exact ih.follow n' hn trigger next

theorem extends_complete (v : VertexId) : Extends (complete m p c (n + 1) v) (complete m p c (n' + 1) v) := by
  simp only [complete]
  refine .after _ fun i => ?_
  cases i.terminated with
  | true => exact .refl (pure ())
  | false =>
    refine .after _ fun active => ?_
    cases active with
    | false => exact .refl (pure ())
    | true =>
      refine .after _ fun done => ?_
      cases done with
      | false => exact .refl (pure ())
      | true => exact .bind (ih.offer n' hn _ v) fun _ => .refl _

theorem extends_offer (trigger : Trigger μ) (v : VertexId) :
    Extends (offer m p c (n + 1) trigger v) (offer m p c (n' + 1) trigger v) := by
  simp only [offer]
  refine .after _ fun record => ?_
  cases record.form with
  | pseudo kind => exact .refl _
  | state content =>
    refine .after _ fun i => ?_
    cases i.terminated with
    | true => exact .refl (pure false)
    | false =>
      refine .after _ fun _ => ?_
      refine Agrees.ite_bind (Q := fun _ _ => True) (fun _ => .refl (pure false))
        (fun _ => ih.offerBeneath n' hn trigger v content.regions) Triple.trivial Triple.trivial fun consumed => ?_
      cases consumed with
      | true => exact Extends.bind (ih.complete n' hn v) fun _ => .refl (pure true)
      | false =>
        refine Extends.after inst fun i' => ?_
        rcases enabled m v record.outgoing trigger i' with _ | ⟨t, _ | ⟨t', rest⟩⟩
        · exact .refl (pure false)
        · exact .bind (ih.traverse n' hn _ t) fun _ => .refl (pure true)
        · exact .refl (do
            report c (.ambiguousTransition (m.qualifiedName (.vertex v)) (t :: t' :: rest).length)
            pure false)

theorem extends_offerBeneath (trigger : Trigger μ) (v : VertexId) (r : RegionId) (rest : List RegionId) :
    Extends (offerBeneath m p c (n + 1) trigger v (r :: rest)) (offerBeneath m p c (n' + 1) trigger v (r :: rest)) := by
  have hrest := ih.offerBeneath n' hn trigger v rest
  simp only [offerBeneath]
  refine .after _ fun i => ?_
  cases i.current? r with
  | none => exact hrest
  | some current =>
    refine .bind (ih.offer n' hn trigger current) fun consumed => ?_
    cases consumed with
    | false => exact hrest
    | true =>
      refine .after _ fun active => ?_
      cases active with
      | false => exact .refl (pure true)
      | true =>
        refine .after _ fun i' => ?_
        cases i'.terminated with
        | true => exact .refl (pure true)
        | false => exact .bind hrest fun _ => .refl (pure true)

end

theorem prolongs (n : Nat) : Prolongs m p c n := by
  induction n with
  | zero => exact prolongs_zero
  | succ n ih =>
    -- Both sides spend one on the same branch, and the rest of either is as before.
    have hpred : ∀ n' ≥ n + 1, ∃ k, n' = k + 1 ∧ n ≤ k := fun n' hn => ⟨n' - 1, by omega, by omega⟩
    constructor
    case perform =>
      intro n' hn mode l
      obtain ⟨k, rfl, hk⟩ := hpred n' hn
      cases l with
      | nil => exact .refl _
      | cons s l => exact .bind (ih.step k hk mode s) fun _ => ih.perform k hk mode l
    case completeAll =>
      intro n' hn l
      obtain ⟨k, rfl, hk⟩ := hpred n' hn
      cases l with
      | nil => exact .refl _
      | cons v l => exact .bind (ih.complete k hk v) fun _ => ih.completeAll k hk l
    case offerBeneath =>
      intro n' hn trigger v rs
      obtain ⟨k, rfl, hk⟩ := hpred n' hn
      cases rs with
      | nil => exact .refl _
      | cons r rs => exact extends_offerBeneath ih hk trigger v r rs
    all_goals
      intro n' hn
      obtain ⟨k, rfl, hk⟩ := hpred n' hn
    · exact extends_step ih hk
    · exact extends_traverse ih hk
    · exact extends_follow ih hk
    · exact extends_complete ih hk
    · exact extends_offer ih hk

end Eval

end Statechart
