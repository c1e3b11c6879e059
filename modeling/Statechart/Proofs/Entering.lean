import Statechart.Proofs.Settling
import Statechart.Proofs.Zones

/-!
# Entering by default

Where every way out of an initial vertex leads to a state beneath the region of that vertex, entering leaves no choice
open, and comes to its end. Down a chain and by default, it records and tells of nothing but what lies beneath the
vertex or region that is entered.
-/

namespace Statechart

variable {μ δ σ : Type}

namespace Model

/-- Every way out of a vertex of an initial kind leads to a state beneath the region of the vertex. -/
def LeadsInside (m : Model μ δ) : Prop :=
  ∀ t ∈ m.transitionIds, ∀ record ∈ m.transition? t, m.isInitial record.source = true →
    ∃ u ∈ record.target, m.isState u = true ∧ ∃ q ∈ m.parent? record.source, m.Above q u

instance decidableLeadsInside (m : Model μ δ) : Decidable m.LeadsInside :=
  inferInstanceAs (Decidable (∀ t ∈ m.transitionIds, ∀ record ∈ m.transition? t, m.isInitial record.source = true →
    ∃ u ∈ record.target, m.isState u = true ∧ ∃ q ∈ m.parent? record.source, m.Above q u))

def Housed (m : Model μ δ) (i : Instance δ) (v : VertexId) : Prop :=
  ∀ r o, m.parent? v = some r → m.owner? r = some o → m.isActive i o = true

/-- The way down a chain up to its last vertex, which is not entered yet. -/
def approach (m : Model μ δ) (plainly : RegionId → Bool) : List VertexId → List (Step μ δ)
  | v :: w :: rest =>
    m.beginEnterVertex v ++
      ((m.regionsOf v).flatMap fun r =>
        beginEnterRegion r ++ if m.parent? w = some r then [] else m.endEnterRegion plainly r) ++
      approach m plainly (w :: rest)
  | _ => []

section
variable {m : Model μ δ} {plainly : RegionId → Bool} {l : List VertexId} {v u : VertexId} {r : RegionId}

theorem Descent.mem (hl : m.Descent l u) : u ∈ l := by
  induction hl with
  | last u => exact List.mem_singleton_self u
  | step _ _ _ ih => exact List.mem_cons_of_mem _ ih

theorem cascade_eq_approach (hl : m.Descent l u) :
    m.cascade plainly l = m.approach plainly l ++ m.beginEnterVertex u := by
  induction hl with
  | last u => rfl
  | step _ _ _ ih => rw [cascade, ih, approach, List.append_assoc, List.append_assoc, List.append_assoc]

theorem cascade_snoc (hl : m.Descent l u) (v : VertexId) : m.cascade plainly (l ++ [v]) =
    m.approach plainly l ++ m.beginEnterVertex u ++
      (((m.regionsOf u).flatMap fun q =>
        beginEnterRegion q ++ if m.parent? v = some q then [] else m.endEnterRegion plainly q) ++
        m.beginEnterVertex v) := by
  induction hl with
  | last u => simp [cascade, approach]
  | @step v' w u r rest _ _ _ ih =>
    rw [List.cons_append] at ih
    simp only [List.cons_append, cascade, approach, ih, List.append_assoc]

variable {i i' : Instance δ} {o : VertexId}

theorem housed_of_owner (hv : m.parent? v = some r) (ho : m.owner? r = some o) (ha : m.isActive i o = true) :
    m.Housed i v := by
  intro r' o' hr ho'
  rw [hv] at hr
  cases hr
  rw [ho] at ho'
  cases ho'
  exact ha

theorem housed_of_isActive (h : m.Arena) (hparent : m.parent? u = m.parent? v) (hu : m.isActive i u = true) :
    m.Housed i v := fun _ _ hr ho => ((isActive_step h (hparent.trans hr) ho).mp hu).2

theorem Housed.congr (hv : m.Housed i v) (hrecords : i'.records = i.records) : m.Housed i' v := fun r o hr ho =>
  (isActive_of_records hrecords o).trans (hv r o hr ho)

end

end Model

/-- What may be told while vertices in `V` are entered: of no exit, and of no transition but the ways out of initial
vertices. -/
def Event.Arrives (m : Model μ δ) (V : VertexId → Prop) : Event μ δ → Prop
  | .entered (.vertex v) | .acted (.entry v) => V v
  | .entered (.region _) => True
  | .left (.vertex v) => V v ∧ m.isState v = false
  | .fired t _ _ | .acted (.effect t) => ∃ record, m.transition? t = some record ∧ m.isInitial record.source = true
  | _ => False

theorem Event.Arrives.mono {m : Model μ δ} {V V' : VertexId → Prop} {event : Event μ δ} (he : event.Arrives m V)
    (hV : ∀ v, V v → V' v) : event.Arrives m V' := by
  rcases event with (_ | _) | (_ | _) | (_ | _ | _) | _ | _ | _ | _ <;>
    first | exact hV _ he | exact he | exact ⟨hV _ he.1, he.2⟩

namespace Eval

open Model

variable {m : Model μ δ} {plainly : RegionId → Bool} {c : Context σ} {mode : Mode μ} {V V' : VertexId → Prop}
variable {run mid run' : Run μ δ σ} {v w u : VertexId} {q r : RegionId} {o : VertexId}

/-! ## What entering changes -/

/-- From one run to the other vertices in `V` have been entered, and nothing else has been recorded or told. -/
structure Visits (m : Model μ δ) (V : VertexId → Prop) (run run' : Run μ δ σ) : Prop where
  fits : m.Fits false run'.inst
  outside : ∀ r, (∀ v, m.parent? v = some r → ¬ V v) → run'.inst.current? r = run.inst.current? r
  events : ∃ new, run'.events = new ++ run.events ∧ ∀ event ∈ new, event.Arrives m V

namespace Visits

theorem refl (hi : m.Fits false run.inst) : Visits m V run run := ⟨hi, fun _ _ => rfl, [], rfl, by simp⟩

theorem trans (h₁ : Visits m V run mid) (h₂ : Visits m V mid run') : Visits m V run run' := by
  obtain ⟨new, hnew, hall⟩ := h₁.events
  obtain ⟨new', hnew', hall'⟩ := h₂.events
  refine ⟨h₂.fits, fun r hr => (h₂.outside r hr).trans (h₁.outside r hr), new' ++ new, ?_, ?_⟩
  · rw [hnew', hnew, List.append_assoc]
  · exact List.forall_mem_append.mpr ⟨hall', hall⟩

theorem mono (h : Visits m V run run') (hV : ∀ v, V v → V' v) : Visits m V' run run' := by
  obtain ⟨new, hnew, hall⟩ := h.events
  refine ⟨h.fits, fun r hr => h.outside r fun v hv hVv => hr v hv (hV v hVv), new, hnew, ?_⟩
  exact fun event he => (hall event he).mono hV

theorem tell (hi : m.Fits false run.inst) (hr : run'.inst.records = run.inst.records) (new : List (Event μ δ))
    (hnew : run'.events = new ++ run.events) (hall : ∀ event ∈ new, event.Arrives m V) : Visits m V run run' :=
  ⟨hi.congr hr, fun r _ => by rw [Instance.current?, hr]; rfl, new, hnew, hall⟩

theorem record (hi : m.Fits false run.inst) (hp : m.parent? v = some r) (hv : V v) :
    Visits m V run (run.update (·.setCurrent r v)) := by
  refine ⟨hi.setCurrent hp (by simp), fun q hq => ?_, [], rfl, by simp⟩
  have hne : r ≠ q := by
    rintro rfl
    exact hq v hp hv
  simp [Instance.current?_setCurrent, hne]

theorem isActive (h : m.Arena) (hvisits : Visits m V run run') (hv : (m.vertex? v).isSome)
    (hV : ∀ r w, m.Above r v → m.parent? w = some r → ¬ V w) :
    m.isActive run'.inst v = m.isActive run.inst v :=
  isActive_congr h hv fun r hr => hvisits.outside r fun w hw => hV r w hr hw

end Visits

section
variable (plainly c mode)

theorem exists_tell {l : List (Step μ δ)} (hl : ∀ s ∈ l, IsInert s)
    (hall : ∀ event ∈ l.flatMap told, event.Arrives m V) (run : Run μ δ σ) (hi : m.Fits false run.inst) :
    ∃ run', Performs m plainly c mode l run run' ∧ Visits m V run run' := by
  obtain ⟨run', hperforms, _, rfl, hrecords, _, _, hevents⟩ :=
    exists_inert m plainly c mode hl run
  exact ⟨run', hperforms, .tell hi hrecords _ hevents fun event he => hall event (List.mem_reverse.mp he)⟩

/-! ## Entering a vertex -/

theorem exists_begin (ht : m.Tame) (hv : (m.vertex? v).isSome) (run : Run μ δ σ) (hi : m.Fits false run.inst) :
    ∃ run', Performs m plainly c mode (m.beginEnterVertex v) run run' ∧ Visits m (· = v) run run' ∧
      (m.isState v = true → ∀ r, m.parent? v = some r → run'.inst.current? r = some v) := by
  cases hs : m.isState v with
  | true =>
    obtain ⟨l, hl, htold, hbegin⟩ := beginEnterVertex_of_isState ht hs
    have hall : ∀ event ∈ l.flatMap told, event.Arrives m (· = v) := by
      rw [htold, entryEvents]
      intro event he
      rcases List.mem_cons.mp he with rfl | he
      · exact rfl
      · rw [List.eq_of_mem_replicate he]
        exact rfl
    obtain ⟨mid, hperforms, hvisits⟩ := exists_tell plainly c mode hl hall run hi
    rw [hbegin]
    cases hp : m.parent? v with
    | none => exact ⟨mid, hperforms.append .nil, hvisits, fun _ r hr => by cases hr⟩
    | some r =>
      refine ⟨_, hperforms.append (.single (takes_record r v)), hvisits.trans (.record hvisits.fits hp rfl), ?_⟩
      rintro _ _ ⟨⟩
      simp [Instance.current?_setCurrent]
  | false =>
    have hannounce : Visits m (· = v) run
        { run.note (.entered (.vertex v)) with
          outside := c.log (m.qualifiedName (.vertex v) ++ " enter") run.outside } :=
      .tell hi rfl [.entered (.vertex v)] rfl (by simp [Event.Arrives])
    rcases beginEnterVertex_of_not_isState hv hs with ⟨hbegin, _⟩ | ⟨hbegin, _⟩
    · rw [hbegin]
      exact ⟨_, .single (takes_announceEnter _), hannounce, by simp⟩
    · rw [hbegin]
      refine ⟨_, .cons (takes_announceEnter _) (.single takes_terminate), hannounce.trans ?_, by simp⟩
      exact .tell hannounce.fits rfl [] rfl (by simp)

end

theorem exists_flatMap {g : RegionId → List (Step μ δ)} {rs : List RegionId}
    (hg : ∀ r ∈ rs, ∀ run : Run μ δ σ, m.Fits false run.inst →
      ∃ run', Performs m plainly c mode (g r) run run' ∧ Visits m V run run')
    (run : Run μ δ σ) (hi : m.Fits false run.inst) :
    ∃ run', Performs m plainly c mode (rs.flatMap g) run run' ∧ Visits m V run run' := by
  induction rs generalizing run with
  | nil => exact ⟨run, .nil, .refl hi⟩
  | cons r rs ih =>
    obtain ⟨mid, hr, hmid⟩ := hg r List.mem_cons_self run hi
    obtain ⟨run', hrs, hrun'⟩ := ih (fun q hq => hg q (List.mem_cons_of_mem r hq)) mid hmid.fits
    exact ⟨run', hr.append hrs, hmid.trans hrun'⟩

def Opens (m : Model μ δ) (plainly : RegionId → Bool) (c : Context σ) (r : RegionId) : Prop :=
  ∀ (mode : Mode μ) (run : Run μ δ σ), mode.nested = true → m.Fits false run.inst →
    ∃ run', Performs m plainly c mode (m.endEnterRegion plainly r) run run' ∧ Visits m (m.Above r) run run'

section
variable (h : m.Arena) (ht : m.Tame)
include h

omit h in
theorem Opens.exists_begun (hr : Opens m plainly c r) (hnested : mode.nested = true) (p : Prop) [Decidable p]
    (run : Run μ δ σ) (hi : m.Fits false run.inst) : ∃ run',
      Performs m plainly c mode (beginEnterRegion r ++ if p then [] else m.endEnterRegion plainly r) run run' ∧
        Visits m (fun x => ¬ p ∧ m.Above r x) run run' := by
  have hannounce : Visits m (fun x => ¬ p ∧ m.Above r x) run
      { run.note (.entered (.region r)) with
        outside := c.log (m.qualifiedName (.region r) ++ " enter") run.outside } :=
    .tell hi rfl [.entered (.region r)] rfl (by simp [Event.Arrives])
  have hbegin : Performs m plainly c mode (beginEnterRegion r) run _ := .single (takes_announceEnter (.region r))
  split
  case isTrue => exact ⟨_, hbegin.append .nil, hannounce⟩
  case isFalse hp =>
    obtain ⟨run', hend, hvisits⟩ := hr mode _ hnested hannounce.fits
    exact ⟨run', hbegin.append hend, hannounce.trans (hvisits.mono fun x hx => ⟨hp, hx⟩)⟩

theorem not_above_of_inOne {x : VertexId} (hx : m.InOne (m.regionsOf v) x) (hp : m.parent? x = some r) :
    ¬ m.Above r v := by
  obtain ⟨q, hq, hqx⟩ := hx
  intro hr
  have howner := h.mem_regionsOf.mp hq
  exact not_above_owner h howner (above_trans h ((above_iff h hp q).mp hqx) v (vertex?_isSome_of_above hr) hr)

include ht

omit ht in
theorem Visits.isActive_owner (hp : m.parent? v = some r) (ho : m.owner? r = some o)
    (hvisits : Visits m (· = v) run run') : m.isActive run'.inst o = m.isActive run.inst o := by
  refine hvisits.isActive h (vertex?_isSome_of_isState (h.isState_of_owner? ho)) ?_
  rintro p w hpo hw rfl
  rw [hp] at hw
  cases hw
  exact not_above_owner h ho hpo

variable (plainly c mode) in
theorem exists_active (hs : m.isState v = true) (run : Run μ δ σ) (hi : m.Fits false run.inst) : ∃ run',
    Performs m plainly c mode (m.beginEnterVertex v) run run' ∧ Visits m (· = v) run run' ∧
      (m.Housed run.inst v → m.isActive run'.inst v = true) := by
  have hv := vertex?_isSome_of_isState hs
  obtain ⟨run', hbegin, hvisits, hrecorded⟩ := exists_begin plainly c mode ht hv run hi
  refine ⟨run', hbegin, hvisits, fun hhoused => ?_⟩
  rcases h.root_or_owner hv with rfl | ⟨r, o, hp, ho, _⟩
  · exact isActive_root h run'.inst
  · exact (isActive_step h hp ho).mpr
      ⟨hrecorded hs r hp, (hvisits.isActive_owner h hp ho).trans (hhoused r o hp ho)⟩

variable (plainly c mode) in
theorem exists_state (hs : m.isState v = true) {g : RegionId → List (Step μ δ)}
    (hV : ∀ x, V x → m.InOne (m.regionsOf v) x)
    (hg : ∀ r ∈ m.regionsOf v, ∀ run : Run μ δ σ, m.Fits false run.inst →
      ∃ run', Performs m plainly c mode (g r) run run' ∧ Visits m V run run')
    (run : Run μ δ σ) (hi : m.Fits false run.inst) : ∃ mid run',
      Performs m plainly c mode (m.beginEnterVertex v) run mid ∧
      Performs m plainly c mode ((m.regionsOf v).flatMap g) mid run' ∧
      Visits m (· = v) run mid ∧ Visits m V mid run' ∧
      (m.Housed run.inst v → m.isActive run'.inst v = true) := by
  obtain ⟨mid, hbegin, hmid, hactive⟩ := exists_active plainly c mode h ht hs run hi
  obtain ⟨run', hend, hrun'⟩ := exists_flatMap hg mid hmid.fits
  refine ⟨mid, run', hbegin, hend, hmid, hrun', fun hhoused => ?_⟩
  rw [hrun'.isActive h (vertex?_isSome_of_isState hs) fun r w hr hw hin => not_above_of_inOne h (hV w hin) hw hr]
  exact hactive hhoused

variable (mode) in
theorem exists_entered_state (hs : m.isState v = true) (hopens : ∀ r ∈ m.regionsOf v, Opens m plainly c r)
    (hnested : mode.nested = true) (run : Run μ δ σ) (hi : m.Fits false run.inst) : ∃ mid run',
      Performs m plainly c mode (m.beginEnterVertex v) run mid ∧
      Performs m plainly c mode (m.endEnterVertex plainly v) mid run' ∧
      Visits m (· = v) run mid ∧ Visits m (m.InOne (m.regionsOf v)) mid run' ∧
      (m.Housed run.inst v → m.isActive run'.inst v = true) := by
  rw [endEnterVertex_of_isState hs]
  refine exists_state plainly c mode h ht hs (fun x hx => hx) (fun r hr run hi => ?_) run hi
  obtain ⟨run', hperforms, hvisits⟩ := (hopens r hr).exists_begun hnested False run hi
  exact ⟨run', by simpa using hperforms, hvisits.mono fun x hx => ⟨r, hr, hx.2⟩⟩

variable (mode) in
theorem exists_approach {rest : List VertexId} (hl : m.Descent (w :: rest) u) (hu : (m.vertex? u).isSome)
    (hopens : ∀ x ∈ w :: rest, ∀ r ∈ m.regionsOf x, Opens m plainly c r) (hnested : mode.nested = true)
    (run : Run μ δ σ) (hi : m.Fits false run.inst) : ∃ run',
      Performs m plainly c mode (m.approach plainly (w :: rest)) run run' ∧
      Visits m (fun x => m.isAncestor w x = true ∧ m.isAncestor u x = false) run run' ∧ m.isAncestor w u = true ∧
      (m.Housed run.inst w → m.Housed run'.inst u) := by
  -- The induction is on the chain. At each vertex the regions that the chain does not lead into are opened.
  induction rest generalizing w run with
  | nil =>
    cases hl
    exact ⟨run, .nil, .refl hi, isAncestor_refl h hu, id⟩
  | cons v rest ih =>
    cases hl with
    | @step _ _ _ r _ hv hr hrest =>
      have hw := h.isState_of_owner? hr
      have hwv : m.isAncestor w v = true := isAncestor_of_above h hr (above_parent h hv)
      obtain ⟨mid, next, hbegin, hend, hmid, hnext, hactive⟩ := exists_state plainly c mode h ht hw
        (V := fun x => ∃ q ∈ m.regionsOf w, ¬ m.parent? v = some q ∧ m.Above q x)
        (fun x ⟨q, hq, _, hx⟩ => ⟨q, hq, hx⟩) (fun q hq run hi => by
          obtain ⟨run', hperforms, hvisits⟩ :=
            (hopens w List.mem_cons_self q hq).exists_begun hnested (m.parent? v = some q) run hi
          exact ⟨run', hperforms, hvisits.mono fun x hx => ⟨q, hq, hx⟩⟩) run hi
      obtain ⟨run', hperforms, hvisits, hvu, hactive'⟩ :=
        ih hrest (fun x hx => hopens x (List.mem_cons_of_mem w hx)) next hnext.fits
      -- What is beneath `u` is beneath `v`, and so neither `w` itself nor in another region of it.
      have hself : ¬ m.isAncestor u w = true := fun huw => by
        have heq := isAncestor_antisymm h hwv (isAncestor_trans h hvu huw)
        have hlt := h.owner?_lt hv hr
        rw [heq] at hlt
        omega
      have hother : ∀ x q, q ∈ m.regionsOf w → ¬ m.parent? v = some q → m.Above q x → ¬ m.isAncestor u x = true :=
        fun x q hq hne hx hux => hne <| by
          have hrx := above_of_isAncestor h hv (isAncestor_trans h hvu hux)
          rw [above_unique h (h.mem_regionsOf.mp hq) hr hx hrx, hv]
      refine ⟨run', ?_, ?_, isAncestor_trans h hwv hvu, fun hhoused =>
        hactive' (housed_of_owner hv hr (hactive hhoused))⟩
      · rw [approach]
        exact (hbegin.append hend).append hperforms
      · refine ((hmid.mono ?_).trans (hnext.mono ?_)).trans (hvisits.mono fun x hx =>
          ⟨isAncestor_trans h hwv hx.1, hx.2⟩)
        · rintro _ rfl
          exact ⟨isAncestor_refl h (vertex?_isSome_of_isState hw), Bool.eq_false_iff.mpr hself⟩
        · rintro x ⟨q, hq, hne, hx⟩
          exact ⟨isAncestor_of_above h (h.mem_regionsOf.mp hq) hx, Bool.eq_false_iff.mpr (hother x q hq hne hx)⟩

variable (mode) in
/-- Down a chain, each vertex is entered, and by default whatever the chain does not lead into. -/
theorem exists_descent {rest : List VertexId} (hl : m.Descent (w :: rest) u) (hu : m.isState u = true)
    (hopens : ∀ x ∈ w :: rest, ∀ r ∈ m.regionsOf x, Opens m plainly c r) (hnested : mode.nested = true)
    (run : Run μ δ σ) (hi : m.Fits false run.inst) : ∃ run',
      Performs m plainly c mode (m.cascade plainly (w :: rest) ++ m.endEnterVertex plainly u) run run' ∧
      Visits m (m.isAncestor w · = true) run run' ∧
      (m.Housed run.inst w → m.isActive run'.inst u = true) := by
  obtain ⟨start, happroach, hstart, hwu, hhoused⟩ :=
    exists_approach mode h ht hl (vertex?_isSome_of_isState hu) hopens hnested run hi
  obtain ⟨mid, run', hbegin, hend, hmid, hrun', hactive⟩ :=
    exists_entered_state mode h ht hu (fun r hr => hopens u hl.mem r hr) hnested start hstart.fits
  refine ⟨run', ?_, ?_, fun hw => hactive (hhoused hw)⟩
  · rw [cascade_eq_approach hl]
    exact (happroach.append hbegin).append hend
  · refine ((hstart.mono fun x hx => hx.1).trans (hmid.mono ?_)).trans (hrun'.mono ?_)
    · rintro _ rfl
      exact hwu
    · rintro x ⟨r, hr, hx⟩
      exact isAncestor_trans h hwu (isAncestor_of_above h (h.mem_regionsOf.mp hr) hx)

end

/-! ## Entering a region -/

section
variable (h : m.Arena) (ht : m.Tame) (hq : m.owner? q = some o)
variable (hopens : ∀ r y, m.owner? r = some y → o.index < y.index → Opens m plainly c r)
include h ht hq hopens

theorem exists_followed_initial (trigger : Trigger μ) (hin : m.LeadsInside) (hp : m.parent? v = some q)
    (hinitial : m.isInitial v = true) {t : TransitionId} (hout : t ∈ m.outgoing v) (run : Run μ δ σ)
    (hi : m.Fits false run.inst) : ∃ run',
      Settles (fun fuel => follow m (m.compileWith plainly) c fuel trigger t) run run' ∧
      Visits m (m.Above q) run run' ∧
      (m.isActive run.inst o = true → ∀ u, m.target? t = some u → m.isActive run'.inst u = true) := by
  obtain ⟨record, hrec, rfl⟩ := h.source_of_mem_outgoing hout
  obtain ⟨u, hu, hstate, q', hq', habove⟩ := hin t (mem_transitionIds hrec) record hrec hinitial
  rw [hp] at hq'
  cases hq'
  have hs := isState_eq_false_of_isInitial hinitial
  obtain ⟨w, rest, hw, hl, hsteps⟩ :=
    @steps_initial _ _ m plainly t record u hrec h q hp hs hu hstate habove run.inst
  have harrives : ∃ record, m.transition? t = some record ∧ m.isInitial record.source = true :=
    ⟨record, hrec, hinitial⟩
  have hfired : Visits m (m.Above q) run (run.note (.fired t trigger run.inst)) :=
    .tell hi rfl [.fired t trigger run.inst] rfl fun event he => List.mem_singleton.mp he ▸ harrives
  have htold : ∀ event ∈ (Step.announceLeave (.vertex record.source) :: m.effectsOf t).flatMap told,
      event.Arrives m (m.Above q) := by
    intro event he
    rcases List.mem_append.mp he with he | he
    · rw [List.mem_singleton.mp he]
      exact ⟨above_parent h hp, hs⟩
    · rw [eq_of_mem_told_effectsOf he]
      exact harrives
  obtain ⟨next, hleft, hnext⟩ := exists_tell plainly c { trigger, nested := true }
    (List.forall_mem_cons.mpr ⟨show IsInert (Step.announceLeave (.vertex record.source)) from trivial,
      isInert_effectsOf ht t⟩) htold _ hfired.fits
  -- Whatever is entered on the way down is younger than `o`, so its regions open by assumption.
  have hbeneath : ∀ x ∈ w :: rest, o.index < x.index := by
    refine (hl.forall_mem (V := fun x => o.index < x.index) (fun hx hr hlt => ?_) ?_).1
    · have := h.owner?_lt hx hr
      omega
    · rintro _ ⟨⟩
      exact h.owner?_lt hw hq
  obtain ⟨mid, hdescent, hmid, hactive⟩ := exists_descent { trigger, nested := true } h ht hl hstate
    (fun x hx r hr => hopens r x (h.mem_regionsOf.mp hr) (hbeneath x hx)) rfl next hnext.fits
  have hperforms : Performs m plainly c { trigger, nested := true } ((m.route plainly t).steps run.inst)
      (run.note (.fired t trigger run.inst)) mid := by
    have hstrides := hleft.append hdescent
    rw [List.cons_append, ← List.append_assoc] at hstrides
    rw [hsteps, leaveVertex_of_not_isState (h.source_isSome hrec) hs]
    exact hstrides
  have hvisits := (hfired.trans hnext).trans (hmid.mono fun x hx => above_of_isAncestor h hw hx)
  refine ⟨_, settles_follow hrec hu hstate hperforms, ⟨hvisits.fits, hvisits.outside, hvisits.events⟩,
    fun howner u' hu' => ?_⟩
  have htarget : m.target? t = some u := by simpa [target?, hrec] using hu
  rw [htarget] at hu'
  cases hu'
  refine hactive (housed_of_owner hw hq ?_)
  rw [(hfired.trans hnext).isActive h (vertex?_isSome_of_isState (h.isState_of_owner? hq)) ?_]
  · exact howner
  · exact fun p x hpo hx hqx => not_above_owner h hq
      (above_trans h ((above_iff h hx q).mp hqx) _ (vertex?_isSome_of_above hpo) hpo)

theorem exists_onwards (hin : m.LeadsInside) (hp : m.parent? v = some q) (hnested : mode.nested = true)
    (run : Run μ δ σ) (hi : m.Fits false run.inst) :
    ∃ run', Performs m plainly c mode (m.endEnterPseudo v) run run' ∧ Visits m (m.Above q) run run' ∧
      (m.isActive run.inst o = true → m.isInitial v = true → ∀ t u, (m.outgoing v).head? = some t →
        m.target? t = some u → m.isActive run'.inst u = true) := by
  rcases endEnterPseudo_cases m v with ⟨heq, hnone⟩ | ⟨t, l, hinitial, hout, heq⟩ <;> rw [heq]
  · exact ⟨run, .nil, .refl hi, fun _ hinitial _ _ h => by rw [hnone hinitial] at h; cases h⟩
  · obtain ⟨run', hfollow, hvisits, hactive⟩ :=
      exists_followed_initial h ht hq hopens mode.trigger hin hp hinitial (t := t) (by simp [hout]) run hi
    refine ⟨run', .single (takes_traverse hnested hfollow), hvisits, fun howner _ t' u ht' hu => ?_⟩
    rw [hout] at ht'
    cases ht'
    exact hactive howner u hu

variable (mode) in
theorem exists_entered (hin : m.LeadsInside) (hp : m.parent? v = some q) (hnested : mode.nested = true)
    (run : Run μ δ σ) (hi : m.Fits false run.inst) : ∃ mid run',
      Performs m plainly c mode (m.beginEnterVertex v) run mid ∧
      Performs m plainly c mode (m.endEnterVertex plainly v) mid run' ∧ Visits m (m.Above q) run run' := by
  have hv := vertex?_isSome_of_parent? hp
  have hself : ∀ x, x = v → m.Above q x := by
    rintro _ rfl
    exact above_parent h hp
  cases hs : m.isState v with
  | false =>
    obtain ⟨mid, hbegin, hmid, _⟩ := exists_begin plainly c mode ht hv run hi
    obtain ⟨run', hend, hrun', _⟩ := exists_onwards h ht hq hopens hin hp hnested mid hmid.fits
    rw [endEnterVertex_of_not_isState hv hs]
    exact ⟨mid, run', hbegin, hend, (hmid.mono hself).trans hrun'⟩
  | true =>
    have hlt := h.owner?_lt hp hq
    obtain ⟨mid, run', hbegin, hend, hmid, hrun', _⟩ := exists_entered_state mode h ht hs
      (fun r hr => hopens r v (h.mem_regionsOf.mp hr) hlt) hnested run hi
    refine ⟨mid, run', hbegin, hend, (hmid.mono hself).trans (hrun'.mono fun x hx => ?_)⟩
    obtain ⟨r, hr, hx⟩ := hx
    exact above_of_isAncestor h hp (isAncestor_of_above h (h.mem_regionsOf.mp hr) hx)

end

theorem opens (h : m.Arena) (ht : m.Tame) (hin : m.LeadsInside) (q : RegionId) (o : VertexId)
    (hq : m.owner? q = some o) : Opens m plainly c q := by
  -- The recursion goes to younger owners, of which there are only so many.
  have hopens : ∀ r y, m.owner? r = some y → o.index < y.index → Opens m plainly c r := fun r y hr hlt => by
    have hsize := vertex?_isSome_iff.mp (vertex?_isSome_of_isState (h.isState_of_owner? hr))
    exact opens h ht hin r y hr
  intro mode run hnested hi
  have hmember : ∀ v, entered? run.inst mode.deep q (m.head? q) (m.headKind? q) = some v → m.parent? v = some q := by
    intro v hv
    rcases Option.or_eq_some_iff.mp hv with hv | ⟨_, hv⟩
    · split at hv
      · exact (hi q v hv).1
      · cases hv
    · exact parent?_of_head? h hv
  -- The region is entered by a step of its own, or its head is entered there and then.
  rcases endEnterRegion_cases m plainly q with heq | ⟨v, hv, _, heq⟩ <;> rw [heq]
  · cases hv : entered? run.inst mode.deep q (m.head? q) (m.headKind? q) with
    | none => exact ⟨run, .single (takes_enterRegion_of_none hv), .refl hi⟩
    | some v =>
      have hp := hmember v hv
      obtain ⟨mid, run', hbegin, hend, hvisits⟩ := exists_entered
        { mode with deep := mode.deep || m.headKind? q == some .deepHistory } h ht hq hopens hin hp hnested run hi
      exact ⟨run', .single (takes_enterRegion hv (vertex?_isSome_of_parent? hp) hbegin hend), hvisits⟩
  · have hp := parent?_of_head? h hv
    have hs := isState_eq_false_of_isInitial (isInitial_of_head? hv)
    obtain ⟨mid, run', hbegin, hend, hvisits⟩ := exists_entered mode h ht hq hopens hin hp hnested run hi
    rw [endEnterVertex_of_not_isState (vertex?_isSome_of_parent? hp) hs] at hend
    exact ⟨run', hbegin.append hend, hvisits⟩
termination_by m.vertices.size - o.index

end Eval

end Statechart
