import Statechart.Proofs.Branching
import Statechart.Proofs.Chains

/-!
# Terminate vertices

A sequence of steps enters a terminate vertex only as the target of a transition, and sets the flag right upon it. So a
sequence is made up of steps that have nothing to do with termination, and of such pairs.
-/

namespace Statechart

variable {μ δ σ : Type}

def Action.KeepsTermination (a : Action μ δ) : Prop := ∀ trigger i, (a trigger i).terminated = i.terminated

namespace Model

variable {m : Model μ δ} {A : Action μ δ → Prop} {ends : Bool} {plainly : RegionId → Bool}
variable {l l₁ l₂ : List (Step μ δ)} {v u : VertexId} {r : RegionId} {t : TransitionId}

def IsEnd (m : Model μ δ) (v : VertexId) : Prop := m.kind? v = some .terminate

instance decidableIsEnd (m : Model μ δ) : DecidablePred m.IsEnd := fun _ => inferInstanceAs (Decidable (_ = _))

theorem Acts.and {A' : Action μ δ → Prop} (h : m.Acts A) (h' : m.Acts A') : m.Acts fun a => A a ∧ A' a where
  entry hv hf a ha := ⟨h.entry hv hf a ha, h'.entry hv hf a ha⟩
  exit hv hf a ha := ⟨h.exit hv hf a ha, h'.exit hv hf a ha⟩
  effect hrec a ha := ⟨h.effect hrec a ha, h'.effect hrec a ha⟩

def Spared (m : Model μ δ) (i : Instance δ) : Prop := ∀ r v, i.current? r = some v → ¬ m.IsEnd v

theorem Spared.setCurrent {i : Instance δ} (hi : m.Spared i) (hv : ¬ m.IsEnd v) : m.Spared (i.setCurrent r v) := by
  intro q w hw
  rw [Instance.current?_setCurrent] at hw
  split at hw
  · cases hw
    exact hv
  · exact hi q w hw

def Spares (m : Model μ δ) (a : Action μ δ) : Prop := ∀ trigger i, m.Spared i → m.Spared (a trigger i)

/-- The transition may be followed without a state having fired, on the way of whatever leads to it. -/
inductive Unbidden (m : Model μ δ) : TransitionId → Prop
  | initial {t : TransitionId} {record : Transition μ δ} (hrec : m.transition? t = some record)
      (hi : m.isInitial record.source = true) : Unbidden m t
  | branch {t next : TransitionId} {record : Transition μ δ} {u : VertexId} (ht : Unbidden m t)
      (hrec : m.transition? t = some record) (hu : record.target = some u) (hb : m.isBranch u = true)
      (hnext : next ∈ m.outgoing u) : Unbidden m next

/-- It takes a state to fire to get to a terminate vertex. -/
def EndsOnPrompt (m : Model μ δ) : Prop :=
  ∀ t record u, m.Unbidden t → m.transition? t = some record → record.target = some u → ¬ m.IsEnd u

theorem not_isEnd_of_isState (hs : m.isState v = true) : ¬ m.IsEnd v := by
  intro hend
  obtain ⟨record, hv, hf⟩ := kind?_eq_some.mp hend
  simp [isState, hv, Vertex.isState, Vertex.state?, hf] at hs

theorem not_isEnd_of_isInitial (hi : m.isInitial v = true) : ¬ m.IsEnd v := by
  intro hend
  obtain ⟨record, hv, hf⟩ := kind?_eq_some.mp hend
  simp [isInitial, hv, Vertex.isInitial, Vertex.pseudoKind?, hf, PseudoKind.isInitial] at hi

theorem endsOnPrompt_of_states (hs : ∀ t record u, m.transition? t = some record → m.isInitial record.source = true →
    record.target = some u → m.isState u = true) : m.EndsOnPrompt := by
  have hsource : ∀ t, m.Unbidden t → ∀ record, m.transition? t = some record → m.isInitial record.source = true := by
    intro t ht
    induction ht with
    | initial hrec hi =>
      intro record' hrec'
      rw [hrec] at hrec'
      cases hrec'
      exact hi
    | branch _ hrec hu hb _ ih =>
      have hstate := hs _ _ _ hrec (ih _ hrec) hu
      rw [isBranch_of_isState hstate] at hb
      cases hb
  exact fun t record u ht hrec hu => not_isEnd_of_isState (hs t record u hrec (hsource t ht record hrec) hu)

theorem IsEnd.isBranch_eq_false (hv : m.IsEnd v) : m.isBranch v = false :=
  Bool.eq_false_iff.mpr fun hb => by
    obtain ⟨kind, hkind, hbranch⟩ := isBranch_iff.mp hb
    rw [hv] at hkind
    cases hkind
    cases hbranch

theorem IsEnd.enter_eq (plainly : RegionId → Bool) (hv : m.IsEnd v) :
    m.beginEnterVertex v = [.announceEnter (.vertex v), .terminate] ∧ m.endEnterVertex plainly v = [] := by
  obtain ⟨record, hrec, hf⟩ := kind?_eq_some.mp hv
  have hi : m.isInitial v = false := Bool.eq_false_iff.mpr fun hi => not_isEnd_of_isInitial hi hv
  simp [beginEnterVertex, endEnterVertex, hrec, hf, endEnterPseudo, hi]

/-! ## Sequences that terminate in time -/

/-- The step by itself neither enters a terminate vertex nor terminates. -/
def Plain (m : Model μ δ) (A : Action μ δ → Prop) : Step μ δ → Prop
  | .announceEnter (.vertex v) => ¬ m.IsEnd v
  | .act _ action => A action
  | .record _ v => m.isState v = true
  | .terminate => False
  | .enterRegion _ initial _ => ∀ v ∈ initial, m.isInitial v = true
  | .traverse t => ∃ record, m.transition? t = some record ∧ m.isInitial record.source = true
  | _ => True

/-- The sequence terminates right upon entering a terminate vertex, if it enters any, as it may where `ends`. -/
inductive Ordered (m : Model μ δ) (A : Action μ δ → Prop) (ends : Bool) : List (Step μ δ) → Prop
  | nil : Ordered m A ends []
  | cons {s : Step μ δ} {l : List (Step μ δ)} (hs : m.Plain A s) (hl : Ordered m A ends l) : Ordered m A ends (s :: l)
  | ends {v : VertexId} {l : List (Step μ δ)} (hends : ends = true) (hv : m.IsEnd v) (hl : Ordered m A ends l) :
      Ordered m A ends (.announceEnter (.vertex v) :: .terminate :: l)

namespace Ordered

theorem append (h₁ : Ordered m A ends l₁) (h₂ : Ordered m A ends l₂) : Ordered m A ends (l₁ ++ l₂) := by
  induction h₁ with
  | nil => exact h₂
  | cons hs _ ih => exact .cons hs ih
  | ends hends hv _ ih => exact .ends hends hv ih

theorem of_plain (hl : ∀ s ∈ l, m.Plain A s) : Ordered m A ends l := by
  induction l with
  | nil => exact .nil
  | cons s l ih => exact .cons (hl s (by simp)) (ih fun s hs => hl s (List.mem_cons_of_mem _ hs))

theorem flatMap {ι : Type} {f : ι → List (Step μ δ)} {xs : List ι} (hf : ∀ x ∈ xs, Ordered m A ends (f x)) :
    Ordered m A ends (xs.flatMap f) := by
  induction xs with
  | nil => exact .nil
  | cons x xs ih => exact (hf x (by simp)).append (ih fun y hy => hf y (List.mem_cons_of_mem _ hy))

end Ordered

section
variable (hA : m.Acts A) {V : VertexId → Prop} {s : Step μ δ}
include hA

theorem Beginning.plain (hV : ∀ v, V v → ¬ m.IsEnd v) (hs : m.Beginning V s) : m.Plain A s := by
  cases hs with
  | announce hv => exact hV _ hv
  | act ha => exact hA.entryActions _ ha
  | record _ hs _ => exact hs
  | terminate hv hk => exact hV _ hv hk

theorem Departing.plain (hs : m.Departing v s) : m.Plain A s := by
  cases hs with
  | act ha => exact hA.exitActions _ ha
  | _ => trivial

theorem plain_effectsOf (t : TransitionId) : ∀ s ∈ m.effectsOf t, m.Plain A s := by
  intro s hs
  obtain ⟨record, hrec, a, ha, rfl⟩ := exists_effect_of_mem hs
  exact hA.effect hrec a ha

theorem ordered_beginEnterVertex (hv : ends = true ∨ ¬ m.IsEnd v) : Ordered m A ends (m.beginEnterVertex v) := by
  by_cases hend : m.IsEnd v
  · rw [(hend.enter_eq fun _ => false).1]
    exact .ends (hv.resolve_right fun hnot => hnot hend) hend .nil
  · exact .of_plain fun s hs =>
      (beginning_beginEnterVertex (V := (· = v)) rfl s hs).plain hA (by rintro _ rfl; exact hend)

end

section
variable (h : m.Arena)
include h

theorem ordered_endEnterPseudo (v : VertexId) : Ordered m A ends (m.endEnterPseudo v) := by
  rcases endEnterPseudo_cases m v with ⟨heq, _⟩ | ⟨t, rest, hi, ho, heq⟩ <;> rw [heq]
  · exact .nil
  · obtain ⟨record, hrec, rfl⟩ := h.source_of_mem_outgoing (t := t) (v := v) (by simp [ho])
    exact .cons ⟨record, hrec, hi⟩ .nil

variable (hA : m.Acts A)
include hA

theorem ordered_endEnterRegion (r : RegionId) : Ordered m A ends (m.endEnterRegion plainly r) := by
  rcases endEnterRegion_cases m plainly r with heq | ⟨v, hv, _, heq⟩ <;> rw [heq]
  · exact .cons (fun _ hv => isInitial_of_head? hv) .nil
  · have hnot := not_isEnd_of_isInitial (isInitial_of_head? hv)
    exact (ordered_beginEnterVertex hA (Or.inr hnot)).append (ordered_endEnterPseudo h v)

theorem ordered_endEnterVertex (v : VertexId) : Ordered m A ends (m.endEnterVertex plainly v) := by
  rw [endEnterVertex_eq]
  exact (ordered_endEnterPseudo h v).append (.flatMap fun r _ => .cons trivial (ordered_endEnterRegion h hA r))

theorem ordered_cascade_append (plainly : RegionId → Bool) {l : List VertexId} (hl : m.Descent l u) :
    ∃ l', m.cascade plainly l = l' ++ m.beginEnterVertex u ∧ Ordered m A ends l' := by
  induction hl with
  | last u => exact ⟨[], rfl, .nil⟩
  | @step v w u r rest _ hr _ ih =>
    obtain ⟨l', hcascade, hl'⟩ := ih
    have hs := h.isState_of_owner? hr
    refine ⟨m.beginEnterVertex v ++ ((m.regionsOf v).flatMap fun q =>
      beginEnterRegion q ++ if m.parent? w = some q then [] else m.endEnterRegion plainly q) ++ l', ?_, ?_⟩
    · rw [cascade, hcascade, List.append_assoc, List.append_assoc, List.append_assoc]
    · refine ((ordered_beginEnterVertex hA (Or.inr (not_isEnd_of_isState hs))).append (.flatMap fun q _ => ?_)).append
        hl'
      refine .cons trivial ?_
      split
      · exact .nil
      · exact ordered_endEnterRegion h hA q

theorem ordered_route_append (plainly : RegionId → Bool) {record : Transition μ δ}
    (hrec : m.transition? t = some record) (hu : record.target = some u) (i : Instance δ) : ∃ l', Ordered m A ends l' ∧
      (m.route plainly t).steps i = l' ++ m.beginEnterVertex u ++ m.endEnterVertex plainly u := by
  obtain ⟨before, d, e, rest, hsteps, hbefore, hdescent, _⟩ := @steps_cases _ _ m plainly t record u hrec h hu i
  obtain ⟨l', hcascade, hl'⟩ := ordered_cascade_append h hA plainly hdescent
  refine ⟨before ++ m.effectsOf t ++ l', ?_, ?_⟩
  · exact ((Ordered.of_plain fun s hs => (hbefore s hs).plain hA).append (.of_plain (plain_effectsOf hA t))).append hl'
  · rw [hsteps, arrival, hcascade]
    simp only [List.append_assoc]

theorem ordered_route (hu : ∀ record ∈ m.transition? t, ∀ u ∈ record.target, ends = true ∨ ¬ m.IsEnd u)
    (i : Instance δ) : Ordered m A ends ((m.route plainly t).steps i) := by
  cases hrec : m.transition? t with
  | none =>
    have hnil : (m.route plainly t).steps i = [] := by simp [route, hrec, Route.steps]
    rw [hnil]
    exact .nil
  | some record =>
    cases htarget : record.target with
    | none =>
      rw [steps_internal hrec htarget]
      exact .of_plain (plain_effectsOf hA t)
    | some u =>
      obtain ⟨l', hl', hsteps⟩ := ordered_route_append h hA plainly hrec htarget i
      rw [hsteps]
      exact (hl'.append (ordered_beginEnterVertex hA (hu record hrec u htarget))).append (ordered_endEnterVertex h hA u)

theorem ordered_onInitialise : Ordered m A ends (m.compileWith plainly).onInitialise :=
  (ordered_beginEnterVertex hA (Or.inr (not_isEnd_of_isState h.isState_root))).append (ordered_endEnterVertex h hA root)

end

end Model

end Statechart
