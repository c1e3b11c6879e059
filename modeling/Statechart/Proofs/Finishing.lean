import Statechart.Proofs.Coherence
import Statechart.Proofs.Leaving
import Statechart.Proofs.Confinement

/-!
# Parts that finish

A part of an evaluation finishes if, whatever run it starts from, there is an amount of fuel from which on it comes to
one and the same end: it answers, or the sink refuses an error. Finishing is put together from the parts of a part. What
performing a sequence takes for it is that each of its steps finishes, and for a step, that what it leads to does.
-/

namespace Statechart

variable {μ δ σ α β : Type}

namespace Model

variable {m : Model μ δ}

/-- A bound on how far down ownership goes from an element. -/
def height (m : Model μ δ) : Element → Nat
  | .vertex v => 2 * (m.vertices.size - v.index)
  | .region r => ((m.owner? r).map fun o => 2 * (m.vertices.size - o.index) - 1).getD 0

theorem Arena.wellFounded_owns (h : m.Arena) : WellFounded fun e e' => m.Owns e' e := by
  refine Subrelation.wf (fun {e e'} howns => ?_) (measure m.height).wf
  change m.height e < m.height e'
  cases e' with
  | vertex o =>
    cases e with
    | vertex v => cases howns
    | region r =>
      have hsize := vertex?_isSome_iff.mp (vertex?_isSome_of_isState (h.isState_of_owner? howns))
      simp only [height, show m.owner? r = some o from howns, Option.map_some, Option.getD_some]
      omega
  | region r =>
    cases e with
    | region q => cases howns
    | vertex v =>
      obtain ⟨o, ho⟩ := h.owner?_of_parent? howns
      have hlt := h.owner?_lt howns ho
      have hsize := vertex?_isSome_iff.mp (vertex?_isSome_of_parent? howns)
      simp only [height, ho, Option.map_some, Option.getD_some]
      omega

/-- Induction from what is owned upwards. -/
theorem Arena.upwards (h : m.Arena) {motive : VertexId → Prop}
    (step : ∀ v, (∀ r ∈ m.regionsOf v, ∀ w, m.parent? w = some r → motive w) → motive v) (v : VertexId) : motive v := by
  refine (InvImage.wf Element.vertex h.wellFounded_owns.transGen).induction v fun v ih => ?_
  refine step v fun r hr w hw => ih w ?_
  have hwr : m.Owns (.region r) (.vertex w) := hw
  have hrv : m.Owns (.vertex v) (.region r) := h.mem_regionsOf.mp hr
  exact .tail (.single hwr) hrv

end Model

namespace Eval

open Model

/-! ## Finishing -/

def Declined (halt : Halt) (_ : Run μ δ σ) : Prop := ∃ error, halt = .refused error

def Concludes (Q : α → Run μ δ σ → Prop) : EStateM.Result Halt (Run μ δ σ) α → Prop
  | .ok a run => Q a run
  | .error halt run => Declined halt run

/-- Started where `P` holds, `x` comes to one end with any fuel from some amount on. -/
def Finishes (P : Run μ δ σ → Prop) (x : Nat → Eval μ δ σ α) (Q : α → Run μ δ σ → Prop) : Prop :=
  ∀ run, P run → ∃ n result, (∀ fuel ≥ n, x fuel run = result) ∧ Concludes Q result

namespace Finishes

variable {P P' : Run μ δ σ → Prop} {x : Nat → Eval μ δ σ α} {Q Q' : α → Run μ δ σ → Prop}

theorem const {x : Eval μ δ σ α} (h : Triple P x Q Declined) : Finishes P (fun _ => x) Q := by
  refine fun run hr => ⟨0, x run, fun _ _ => rfl, ?_⟩
  have hx := h run hr
  cases hres : x run <;> rw [hres] at hx <;> exact hx

theorem pre (h : Finishes P x Q) (hP : ∀ run, P' run → P run) : Finishes P' x Q := fun run hr => h run (hP run hr)

theorem post (h : Finishes P x Q) (hQ : ∀ a run, Q a run → Q' a run) : Finishes P x Q' := by
  intro run hr
  obtain ⟨n, result, hn, hend⟩ := h run hr
  refine ⟨n, result, hn, ?_⟩
  cases result with
  | ok a run' => exact hQ a run' hend
  | error halt run' => exact hend

theorem assume (h : ∀ run, P run → Finishes (· = run) x Q) : Finishes P x Q := fun run hr => h run hr run rfl

theorem bind {R : α → Run μ δ σ → Prop} {y : α → Nat → Eval μ δ σ β} {Q : β → Run μ δ σ → Prop}
    (hx : Finishes P x R) (hy : ∀ a, Finishes (R a) (y a) Q) :
    Finishes P (fun fuel => x fuel >>= fun a => y a fuel) Q := by
  intro run hr
  obtain ⟨n, result, hn, hend⟩ := hx run hr
  cases result with
  | ok a mid =>
    obtain ⟨n', result', hn', hend'⟩ := hy a mid hend
    refine ⟨max n n', result', fun fuel hf => ?_, hend'⟩
    change EStateM.bind (x fuel) (fun a => y a fuel) run = _
    simp only [EStateM.bind, hn fuel (by omega), hn' fuel (by omega)]
  | error halt mid =>
    refine ⟨n, .error halt mid, fun fuel hf => ?_, hend⟩
    change EStateM.bind (x fuel) (fun a => y a fuel) run = _
    simp only [EStateM.bind, hn fuel hf]

theorem ite_bind {p : Prop} [Decidable p] {R : α → Run μ δ σ → Prop} {y : Nat → Eval μ δ σ α}
    {f : α → Nat → Eval μ δ σ β} {Q : β → Run μ δ σ → Prop} (hx : p → Finishes P x R) (hy : ¬ p → Finishes P y R)
    (hf : ∀ a, Finishes (R a) (f a) Q) :
    Finishes P (fun fuel => if p then x fuel >>= fun a => f a fuel else y fuel >>= fun a => f a fuel) Q := by
  split
  · rename_i hp; exact bind (hx hp) hf
  · rename_i hp; exact bind (hy hp) hf

theorem succ (h : Finishes P (fun fuel => x (fuel + 1)) Q) : Finishes P x Q := by
  intro run hr
  obtain ⟨n, result, hn, hend⟩ := h run hr
  refine ⟨n + 1, result, fun fuel hf => ?_, hend⟩
  obtain ⟨fuel, rfl⟩ : ∃ k, fuel = k + 1 := ⟨fuel - 1, by omega⟩
  exact hn fuel (by omega)

end Finishes

abbrev Ceases (m : Model μ δ) (x : Nat → Eval μ δ σ α) : Prop :=
  Finishes (Confined m false) x fun _ => Confined m false

variable {m : Model μ δ} {p : Program μ δ} {c : Context σ} {plainly : RegionId → Bool} {mode : Mode μ}

theorem ceases_modify {f : Run μ δ σ → Run μ δ σ} (hf : ∀ run, Confined m false run → Confined m false (f run)) :
    Ceases m fun _ => (modify f : Eval μ δ σ PUnit) := .const (Triple.modify hf)

theorem ceases_note (event : Event μ δ) : Ceases m fun _ => (note event : Eval μ δ σ Unit) :=
  ceases_modify fun _ hr => ⟨hr.1.congr rfl, hr.2⟩

theorem ceases_inst : Ceases m fun _ => (inst : Eval μ δ σ (Instance δ)) :=
  .const (triple_inst.post fun _ _ hr => hr.1)

theorem ceases_inst_bind {y : Instance δ → Nat → Eval μ δ σ α} (hy : ∀ i, m.Fits false i → Ceases m (y i)) :
    Ceases m fun fuel => inst >>= fun i => y i fuel := by
  refine .bind (.const triple_inst) fun i => .assume fun run hrun => ?_
  obtain ⟨hr, hi⟩ := hrun
  exact (hy i (hi ▸ hr.1)).pre fun _ heq => heq ▸ hr

theorem ceases_isActive (h : m.Arena) {v : VertexId} (hv : (m.vertex? v).isSome) :
    Ceases m fun _ => (isActive m v : Eval μ δ σ Bool) := by
  refine .const ((triple_isActive fun run _ hnone => ?_).post fun _ _ hr => hr.1)
  rw [isActive?_eq h hv] at hnone
  cases hnone

theorem ceases_isComplete {v : VertexId} (hv : (m.vertex? v).isSome) :
    Ceases m fun _ => (isComplete m v : Eval μ δ σ Bool) := by
  refine .const ((triple_isComplete fun run hr hnone => ?_).post fun _ _ hr => hr.1)
  have := isComplete?_isSome hr.1 hv
  rw [hnone] at this
  cases this

theorem ceases_report (error : MachineError) : Ceases m fun _ => (report c error : Eval μ δ σ Unit) :=
  .const ((triple_report calm_confined.blind.aloof fun _ _ => ⟨error, rfl⟩).post fun _ _ hr => hr.1)

theorem ceases_pure (a : α) : Ceases m fun _ => (pure a : Eval μ δ σ α) := .const (Triple.pure fun _ hr => hr)

theorem ceases_perform {l : List (Step μ δ)} (hl : ∀ s ∈ l, Ceases m fun fuel => performStep m p c fuel mode s) :
    Ceases m fun fuel => perform m p c fuel mode l := by
  induction l with
  | nil =>
    refine .succ ?_
    simp only [perform]
    exact ceases_pure ()
  | cons s l ih =>
    refine .succ ?_
    simp only [perform]
    exact .bind (hl s (by simp)) fun _ => ih fun s hs => hl s (List.mem_cons_of_mem _ hs)

/-! ## Steps -/

variable {s : Step μ δ} {V : VertexId → Prop}

theorem ceases_brief (hs : m.Within Action.KeepsRecords V s) (hb : s.IsBrief) :
    Ceases m fun fuel => performStep m p c fuel mode s := by
  refine .succ ?_
  cases s with
  | announceEnter element => exact ceases_modify fun _ hr => ⟨hr.1.congr rfl, hr.2⟩
  | announceLeave element => exact ceases_modify fun _ hr => ⟨hr.1.congr rfl, hr.2⟩
  | act cause action => exact ceases_modify fun run hr => ⟨hr.1.congr (hs mode.trigger run.inst), hr.2⟩
  | record r v => exact ceases_modify fun _ hr => ⟨hr.1.setCurrent hs.1 nofun, hr.2⟩
  | terminate => exact ceases_modify fun _ hr => ⟨hr.1.congr rfl, hr.2⟩
  | _ => cases hb

theorem ceases_leaveRegion {r : RegionId} (hmembers : ∀ w, m.parent? w = some r → ∀ mode,
      Ceases m fun fuel => perform m (m.compileWith plainly) c fuel mode (m.leaveVertex w)) (mode : Mode μ) :
    Ceases m fun fuel => performStep m (m.compileWith plainly) c fuel mode (.leaveRegion r) := by
  refine .succ ?_
  simp only [performStep]
  refine ceases_inst_bind fun i hi => ?_
  cases hw : i.current? r with
  | none => exact ceases_pure ()
  | some w =>
    have hp := (hi r w hw).1
    simp only [behavior_compileWith (vertex?_isSome_of_parent? hp), pure_bind]
    exact hmembers w hp _

theorem ceases_enterRegion (hA : m.Acts Action.KeepsRecords) {r : RegionId} {initial : Option VertexId}
    {kind : Option PseudoKind} (hinitial : ∀ v, initial = some v → m.parent? v = some r)
    (hmembers : ∀ w, m.parent? w = some r → ∀ mode,
      Ceases m fun fuel => perform m (m.compileWith plainly) c fuel mode (m.endEnterVertex plainly w)) (mode : Mode μ) :
    Ceases m fun fuel => performStep m (m.compileWith plainly) c fuel mode (.enterRegion r initial kind) := by
  refine .succ ?_
  simp only [performStep]
  refine ceases_inst_bind fun i hi => ?_
  rw [← entered?]
  cases hw : entered? i mode.deep r initial kind with
  | none => exact ceases_pure ()
  | some w =>
    have hp : m.parent? w = some r := by
      rcases Option.or_eq_some_iff.mp hw with hw | ⟨_, hw⟩
      · split at hw
        · exact (hi r w hw).1
        · cases hw
      · exact hinitial w hw
    simp only [behavior_compileWith (vertex?_isSome_of_parent? hp), pure_bind]
    refine .bind (ceases_perform fun s hs => ?_) fun _ => hmembers w hp _
    exact ceases_brief (within_beginEnterVertex hA (V := fun _ => True) trivial s hs) (isBrief_beginEnterVertex w s hs)

/-! ## Leaving -/

theorem ceases_departing {v : VertexId} (hs : m.Departing v s) (hwithin : m.Within Action.KeepsRecords V s)
    (hmembers : ∀ r ∈ m.regionsOf v, ∀ w, m.parent? w = some r → ∀ mode,
      Ceases m fun fuel => perform m (m.compileWith plainly) c fuel mode (m.leaveVertex w)) (mode : Mode μ) :
    Ceases m fun fuel => performStep m (m.compileWith plainly) c fuel mode s := by
  cases hs with
  | leave hr => exact ceases_leaveRegion (hmembers _ hr) mode
  | _ => exact ceases_brief hwithin trivial

section
variable (h : m.Arena) (hA : m.Acts Action.KeepsRecords)
include h hA

theorem ceases_leaveVertex (v : VertexId) (mode : Mode μ) :
    Ceases m fun fuel => perform m (m.compileWith plainly) c fuel mode (m.leaveVertex v) := by
  induction v using h.upwards generalizing mode with
  | step v ih =>
    refine ceases_perform fun s hs => ?_
    have hdeparting := departing_leaveVertex v s hs
    exact ceases_departing hdeparting (hdeparting.within h hA (V := fun _ => True)) ih mode

end

/-! ## Completion -/

/-- No completion of a state makes it fire. -/
def Idles (m : Model μ δ) : Prop :=
  ∀ v, m.isState v = true → ∀ i, enabled m v (m.outgoing v) (.completion v) i = []

section
variable (h : m.Arena) (hidle : Idles m)
include h hidle

omit h in
theorem ceases_offer_completion {v : VertexId} (hv : (m.vertex? v).isSome) :
    Ceases m fun fuel => offer m p c fuel (.completion v) v := by
  obtain ⟨record, hrec⟩ := Option.isSome_iff_exists.mp hv
  refine .succ ?_
  simp only [offer, vertex, hrec, pure_bind]
  cases hf : record.form with
  | pseudo kind => exact ceases_pure false
  | state content =>
    have hnone := hidle v (isState_iff.mpr ⟨record, content, hrec, hf⟩)
    simp only [Model.outgoing, hrec, Option.map_some, Option.getD_some] at hnone
    refine .bind ceases_inst fun i => ?_
    cases i.terminated with
    | true => exact ceases_pure false
    | false =>
      refine .bind (ceases_note _) fun _ => ?_
      simp only [Trigger.isCompletionOf, decide_true, ite_true]
      refine .bind ceases_inst fun i' => ?_
      simp only [hnone]
      exact ceases_pure false

theorem ceases_complete {v : VertexId} (hv : (m.vertex? v).isSome) : Ceases m fun fuel => complete m p c fuel v := by
  refine .succ ?_
  simp only [complete]
  refine .bind ceases_inst fun i => ?_
  cases i.terminated with
  | true => exact ceases_pure ()
  | false =>
    refine .bind (ceases_isActive h hv) fun active => ?_
    cases active with
    | false => exact ceases_pure ()
    | true =>
      refine .bind (ceases_isComplete hv) fun done => ?_
      cases done with
      | false => exact ceases_pure ()
      | true => exact .bind (ceases_offer_completion hidle hv) fun _ => ceases_pure ()

theorem ceases_completeAll {l : List VertexId} (hl : ∀ v ∈ l, (m.vertex? v).isSome) :
    Ceases m fun fuel => completeAll m p c fuel l := by
  induction l with
  | nil =>
    refine .succ ?_
    simp only [completeAll]
    exact ceases_pure ()
  | cons v l ih =>
    refine .succ ?_
    simp only [completeAll]
    exact .bind (ceases_complete h hidle (hl v (by simp))) fun _ => ih fun w hw => hl w (List.mem_cons_of_mem _ hw)

/-! ## Transitions -/

theorem ceases_traverse {t : TransitionId} (hfollow : Ceases m fun fuel => follow m p c fuel mode.trigger t) :
    Ceases m fun fuel => traverse m p c fuel mode t := by
  refine .succ ?_
  simp only [traverse]
  refine .bind hfollow fun _ => ?_
  cases mode.nested with
  | true => exact ceases_pure ()
  | false =>
    have htake : Triple (Confined m false : Run μ δ σ → Prop)
        (modifyGet fun run => (run.arrived, { run with arrived := [] }) : Eval μ δ σ _)
        (fun l run => Confined m false run ∧ ∀ v ∈ l, (m.vertex? v).isSome) Declined :=
      fun run hr => ⟨⟨hr.1.congr rfl, by simp⟩, hr.2⟩
    refine .bind (.const htake) fun l => .assume fun run hrun => ?_
    obtain ⟨hr, hl⟩ := hrun
    exact (ceases_completeAll h hidle hl).pre fun _ heq => heq ▸ hr

end

section
variable (h : m.Arena) {trigger : Trigger μ}
include h

theorem ceases_follow {t : TransitionId} {record : Transition μ δ} (hrec : m.transition? t = some record)
    (hsteps : ∀ i, Ceases m fun fuel =>
      perform m (m.compileWith plainly) c fuel { trigger, nested := true } ((m.route plainly t).steps i))
    (hnext : ∀ u, record.target = some u → m.isBranch u = true → ∀ next ∈ m.outgoing u,
      Ceases m fun fuel => follow m (m.compileWith plainly) c fuel trigger next) :
    Ceases m fun fuel => follow m (m.compileWith plainly) c fuel trigger t := by
  refine .succ ?_
  simp only [follow, hrec, route?_compileWith (show (m.transition? t).isSome by simp [hrec])]
  refine .bind ceases_inst fun i => ?_
  refine .bind (ceases_note _) fun _ => .bind (hsteps i) fun _ => ?_
  cases hu : record.target with
  | none => exact ceases_pure ()
  | some u =>
    have hknown := h.target_isSome hrec hu
    obtain ⟨reached, hreached⟩ := Option.isSome_iff_exists.mp hknown
    simp only [vertex, hreached, pure_bind]
    cases hf : reached.form with
    | state content =>
      refine ceases_modify fun run hr => ⟨hr.1.congr rfl, ?_⟩
      simpa [or_imp, forall_and] using ⟨hr.2, hknown⟩
    | pseudo kind =>
      simp only
      split
      case isFalse => exact ceases_pure ()
      case isTrue hb =>
        have hbranch : m.isBranch u = true := by simp [isBranch, hreached, Vertex.pseudoKind?, hf, hb]
        have hselect : Triple (Confined m false) (selectBranch m c u kind reached.outgoing trigger)
            (fun next run => Confined m false run ∧ (∀ t, next = some t → t ∈ reached.outgoing) ∧
              (c.IsStrict → next.isSome)) Declined :=
          triple_selectBranch calm_confined.blind.aloof fun _ error _ => ⟨error, rfl⟩
        refine .bind (.const hselect) fun next => .assume fun run hrun => ?_
        obtain ⟨hr, hmem, _⟩ := hrun
        cases next with
        | none => exact (ceases_pure ()).pre fun _ heq => heq ▸ hr
        | some next =>
          refine (hnext u hu hbranch next ?_).pre fun _ heq => heq ▸ hr
          simpa [outgoing, hreached] using hmem next rfl

/-! ## Offers -/

theorem ceases_offerBeneath {v : VertexId} (hv : (m.vertex? v).isSome) {rs : List RegionId}
    (hoffer : ∀ r ∈ rs, ∀ w, m.parent? w = some r → Ceases m fun fuel => offer m p c fuel trigger w) :
    Ceases m fun fuel => offerBeneath m p c fuel trigger v rs := by
  induction rs with
  | nil =>
    refine .succ ?_
    simp only [offerBeneath]
    exact ceases_pure false
  | cons r rest ih =>
    have hrest := ih fun q hq => hoffer q (List.mem_cons_of_mem _ hq)
    refine .succ ?_
    simp only [offerBeneath]
    refine ceases_inst_bind fun i hi => ?_
    cases hw : i.current? r with
    | none => exact hrest
    | some w =>
      refine .bind (hoffer r (by simp) w (hi r w hw).1) fun consumed => ?_
      cases consumed with
      | false => exact hrest
      | true =>
        refine .bind (ceases_isActive h hv) fun active => ?_
        cases active with
        | false => exact ceases_pure true
        | true =>
          refine .bind ceases_inst fun i' => ?_
          cases i'.terminated with
          | true => exact ceases_pure true
          | false => exact .bind hrest fun _ => ceases_pure true

variable (hidle : Idles m)
include hidle

theorem ceases_offer (htraverse : ∀ t, (m.transition? t).isSome → ∀ trigger,
      Ceases m fun fuel => traverse m p c fuel { trigger } t) (v : VertexId) (hv : (m.vertex? v).isSome) :
    Ceases m fun fuel => offer m p c fuel trigger v := by
  -- The offer goes down from owner to owned, so the induction goes upwards, and fuel does not come into it.
  induction v using h.upwards with
  | step v ih =>
    obtain ⟨record, hrec⟩ := Option.isSome_iff_exists.mp hv
    refine .succ ?_
    simp only [offer, vertex, hrec, pure_bind]
    cases hf : record.form with
    | pseudo kind => exact ceases_pure false
    | state content =>
      refine .bind ceases_inst fun i => ?_
      cases i.terminated with
      | true => exact ceases_pure false
      | false =>
        refine .bind (ceases_note _) fun _ => ?_
        have hbeneath : Ceases m fun fuel => offerBeneath m p c fuel trigger v content.regions := by
          refine ceases_offerBeneath h hv fun r hr w hw => ?_
          exact ih r (by simpa [regionsOf, hrec, Vertex.regions, hf] using hr) w hw (vertex?_isSome_of_parent? hw)
        refine Finishes.ite_bind (R := fun _ => Confined m false) (fun _ => ceases_pure false) (fun _ => hbeneath)
          fun consumed => ?_
        cases consumed with
        | true => exact .bind (ceases_complete h hidle hv) fun _ => ceases_pure true
        | false =>
          refine .bind ceases_inst fun i' => ?_
          rcases he : enabled m v record.outgoing trigger i' with _ | ⟨t, _ | ⟨t', rest⟩⟩
          · exact ceases_pure false
          · have hmem : t ∈ m.outgoing v := by
              have : t ∈ record.outgoing := (List.mem_filter.mp (he ▸ List.mem_singleton_self t)).1
              simpa [outgoing, hrec] using this
            obtain ⟨record', hrec', _⟩ := h.source_of_mem_outgoing hmem
            exact .bind (htraverse t (by simp [hrec']) trigger) fun _ => ceases_pure true
          · exact .bind (ceases_report _) fun _ => ceases_pure false

end

end Eval

end Statechart
