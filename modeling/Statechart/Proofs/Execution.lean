import Statechart.Evaluator
import Statechart.Proofs.Steps
import Statechart.Proofs.Triple

/-!
# Performing steps

What the parts of an evaluation do to a run, as triples. Performing two sequences in a row is performing one after the
other, with the fuel that is left for the second. What an offer that nothing consumes leaves behind is the instance as
it was.
-/

namespace Statechart

def Context.IsStrict {σ : Type} (c : Context σ) : Prop := ∀ error s, (c.tolerate error s).1 = false

namespace Model

variable {μ δ : Type}

def entryCount (m : Model μ δ) (v : VertexId) : Nat := ((m.vertex? v).bind (·.state?)).elim 0 (·.entry.length)

def exitCount (m : Model μ δ) (v : VertexId) : Nat := ((m.vertex? v).bind (·.state?)).elim 0 (·.exit.length)

def entryEvents (m : Model μ δ) (v : VertexId) : List (Event μ δ) :=
  .entered (.vertex v) :: List.replicate (m.entryCount v) (.acted (.entry v))

def exitEvents (m : Model μ δ) (v : VertexId) : List (Event μ δ) :=
  .left (.vertex v) :: List.replicate (m.exitCount v) (.acted (.exit v))

end Model

namespace Eval

variable {μ δ σ α : Type} {m : Model μ δ} {p : Program μ δ} {c : Context σ}
variable {P R : Run μ δ σ → Prop} {E : Halt → Run μ δ σ → Prop}

/-! ## Conditions on a run -/

def IsAside : Event μ δ → Prop
  | .offered .. | .fired .. | .drew .. | .reported _ => True
  | _ => False

/-- The condition takes no notice of such events, nor of the state outside. -/
def Blind (P : Run μ δ σ → Prop) : Prop :=
  ∀ run event s, IsAside event → P run → P { run with events := event :: run.events, outside := s }

def IsAnswer : Event μ δ → Prop
  | .drew .. | .reported _ => True
  | _ => False

def Aloof (P : Run μ δ σ → Prop) : Prop :=
  ∀ run event s, IsAnswer event → P run → P { run with events := event :: run.events, outside := s }

/-- The condition looks at the records, the arrivals and whether the instance has terminated, and at nothing else. -/
def Calm (P : Run μ δ σ → Prop) : Prop :=
  ∀ run run', run'.inst.records = run.inst.records → run'.inst.terminated = run.inst.terminated →
    run'.arrived = run.arrived → P run → P run'

theorem Calm.blind (hP : Calm P) : Blind P := fun run _ _ _ hr => hP run _ rfl rfl rfl hr

theorem Blind.note (hP : Blind P) {run : Run μ δ σ} {event : Event μ δ} (he : IsAside event) (hr : P run) :
    P (run.note event) := hP run event run.outside he hr

theorem Blind.aloof (hP : Blind P) : Aloof P := by
  intro run event s he
  refine hP run event s ?_
  cases event <;> first | exact he | trivial

theorem Blind.fired (hP : Blind P) {t : TransitionId} {trigger : Trigger μ} (run : Run μ δ σ) (hr : P run) :
    P (run.note (.fired t trigger run.inst)) := hP.note trivial hr

theorem Blind.offered (hP : Blind P) {v : VertexId} {trigger : Trigger μ} (run : Run μ δ σ) (hr : P run) :
    P (run.note (.offered v trigger)) := hP.note trivial hr

theorem Blind.and (hP : Blind P) (hR : Blind R) : Blind fun run => P run ∧ R run :=
  fun run event s he hr => ⟨hP run event s he hr.1, hR run event s he hr.2⟩

/-! ## Single operations -/

theorem inst_bind_apply (F : Instance δ → Eval μ δ σ α) (run : Run μ δ σ) : (inst >>= F) run = F run.inst run := rfl

theorem behavior_compileWith {plainly : RegionId → Bool} {v : VertexId} (hv : (m.vertex? v).isSome) :
    (behavior (m.compileWith plainly) v : Eval μ δ σ _) = pure (m.vertexBehavior plainly v) := by
  unfold behavior
  rw [Model.vertex?_compileWith hv]

theorem eq_vertexBehavior {plainly : RegionId → Bool} {v : VertexId} {b : Behavior μ δ}
    (hb : (m.compileWith plainly).vertex? v = some b) : b = m.vertexBehavior plainly v := by
  cases hv : m.vertex? v with
  | some record => rw [Model.vertex?_compileWith (by simp [hv])] at hb; exact (Option.some.inj hb).symm
  | none => rw [Model.vertex?_compileWith_of_none hv] at hb; cases hb

theorem triple_note {event : Event μ δ} {Q : Unit → Run μ δ σ → Prop} (h : ∀ run, P run → Q () (run.note event)) :
    Triple P (note event) Q E := h

theorem triple_update {f : Instance δ → Instance δ} {Q : Unit → Run μ δ σ → Prop}
    (h : ∀ run, P run → Q () (run.update f)) : Triple P (update f) Q E := h

theorem triple_inst : Triple P (inst : Eval μ δ σ _) (fun i run => P run ∧ i = run.inst) E :=
  fun _ h => ⟨h, rfl⟩

theorem triple_behavior {plainly : RegionId → Bool} {v : VertexId}
    (h : ∀ run, P run → m.vertex? v = none → E (.foreign v) run) :
    Triple P (behavior (m.compileWith plainly) v : Eval μ δ σ _)
      (fun b run => P run ∧ b = m.vertexBehavior plainly v) E := by
  cases hv : m.vertex? v with
  | some record =>
    rw [behavior_compileWith (by simp [hv])]
    exact Triple.pure fun run hr => ⟨hr, rfl⟩
  | none =>
    unfold behavior
    rw [Model.vertex?_compileWith_of_none hv]
    exact Triple.throw fun run hr => h run hr hv

theorem triple_vertex {v : VertexId} (h : ∀ run, P run → m.vertex? v = none → E (.foreign v) run) :
    Triple P (vertex m v : Eval μ δ σ _) (fun record run => P run ∧ m.vertex? v = some record) E := by
  unfold vertex
  cases hv : m.vertex? v with
  | none => exact Triple.throw fun run hr => h run hr hv
  | some record => exact Triple.pure fun run hr => ⟨hr, rfl⟩

theorem triple_isActive {v : VertexId} (h : ∀ run, P run → m.isActive? run.inst v = none → E (.foreign v) run) :
    Triple P (isActive m v : Eval μ δ σ _) (fun b run => P run ∧ m.isActive? run.inst v = some b) E := by
  refine Triple.bind triple_inst fun i => ?_
  cases ha : m.isActive? i v with
  | none => exact Triple.throw fun run ⟨hr, hi⟩ => h run hr (hi ▸ ha)
  | some b => exact Triple.pure fun run ⟨hr, hi⟩ => ⟨hr, hi ▸ ha⟩

theorem triple_isComplete {v : VertexId}
    (h : ∀ run, P run → m.isComplete? run.inst v = none → E (.foreign (foreignBeneath m v run.inst)) run) :
    Triple P (isComplete m v : Eval μ δ σ _) (fun b run => P run ∧ m.isComplete? run.inst v = some b) E := by
  refine Triple.bind triple_inst fun i => ?_
  cases ha : m.isComplete? i v with
  | none => exact Triple.throw fun run ⟨hr, hi⟩ => by subst hi; exact h run hr ha
  | some b => exact Triple.pure fun run ⟨hr, hi⟩ => ⟨hr, hi ▸ ha⟩

theorem triple_report {error : MachineError} (hP : Aloof P) (h : ∀ run, P run → E (.refused error) run) :
    Triple P (report c error : Eval μ δ σ _) (fun _ run => P run ∧ ¬ c.IsStrict) E := by
  intro run hr
  unfold report
  rcases ht : c.tolerate error run.outside with ⟨_ | _, s⟩
  · exact h _ (hP run _ s trivial hr)
  · refine ⟨hP run _ s trivial hr, fun hstrict => ?_⟩
    have := hstrict error run.outside
    rw [ht] at this; cases this

theorem triple_draw {count : Nat} (hP : Aloof P) (hc : 0 < count) :
    Triple P (draw c count : Eval μ δ σ _) (fun index run => P run ∧ index < count) E :=
  fun run hr => ⟨hP run _ _ trivial hr, Nat.mod_lt _ hc⟩

theorem triple_selectBranch {v : VertexId} {kind : PseudoKind} {outgoing : List TransitionId} {trigger : Trigger μ}
    (hP : Aloof P) (h : ∀ run error, P run → E (.refused error) run) :
    Triple P (selectBranch m c v kind outgoing trigger)
      (fun next run => P run ∧ (∀ t, next = some t → t ∈ outgoing) ∧ (c.IsStrict → next.isSome)) E := by
  have hnone : ∀ error, Triple P (do report c error; pure none)
      (fun next run => P run ∧ (∀ t, next = some t → t ∈ outgoing) ∧ (c.IsStrict → next.isSome)) E := by
    intro error
    refine Triple.bind (triple_report hP fun run hr => h run error hr) fun _ => Triple.pure fun run hr => ?_
    exact ⟨hr.1, by simp, fun hc => absurd hc hr.2⟩
  refine Triple.bind triple_inst fun i => Triple.pre (P := P) ?_ fun _ hr => hr.1
  have henabled : ∀ t ∈ enabled m v outgoing trigger i, t ∈ outgoing := fun t ht => (List.mem_filter.mp ht).1
  -- None, one or several are enabled; with one or more it depends on the kind of the branch.
  rcases he : enabled m v outgoing trigger i with _ | ⟨t, _ | ⟨t', rest⟩⟩
  · simp only
    cases hf : outgoing.find? m.isElse with
    | none => exact hnone _
    | some t =>
      exact Triple.pure fun run hr => ⟨hr, by rintro _ ⟨⟩; exact List.mem_of_find?_eq_some hf, by simp⟩
  all_goals
    rw [he] at henabled
    by_cases hk : kind = .junction
    · subst hk
      first
        | exact hnone _
        | exact Triple.pure fun run hr => ⟨hr, by rintro _ ⟨⟩; exact henabled t (by simp), by simp⟩
    · have hdraw : ∀ l : List TransitionId, 0 < l.length → (∀ t ∈ l, t ∈ outgoing) →
          Triple P (do let index ← draw c l.length; pure l[index]?)
            (fun next run => P run ∧ (∀ t, next = some t → t ∈ outgoing) ∧ (c.IsStrict → next.isSome)) E := by
        intro l hl hmem
        refine Triple.bind (triple_draw hP hl) fun index => Triple.pure fun run hr => ⟨hr.1, ?_, ?_⟩
        · intro t ht; exact hmem t (List.mem_of_getElem? ht)
        · intro _; simp [hr.2]
      cases kind <;> first | exact absurd rfl hk | exact hdraw _ (by simp) henabled

theorem source_of_enabled (h : m.Arena) {v : VertexId} {trigger : Trigger μ} {i : Instance δ} {t : TransitionId}
    (ht : t ∈ enabled m v (m.outgoing v) trigger i) :
    ∃ record, m.transition? t = some record ∧ record.source = v ∧ record.guard.check v trigger i = true := by
  obtain ⟨hmem, hcheck⟩ := List.mem_filter.mp ht
  obtain ⟨record, hrec, hsource⟩ := h.source_of_mem_outgoing hmem
  exact ⟨record, hrec, hsource, by simpa [hrec] using hcheck⟩

/-! ## Sequences -/

theorem perform_append (fuel : Nat) (mode : Mode μ) (l₁ l₂ : List (Step μ δ)) :
    perform m p c fuel mode (l₁ ++ l₂) =
      (do perform m p c fuel mode l₁; perform m p c (fuel - l₁.length) mode l₂) := by
  induction l₁ generalizing fuel with
  | nil => cases fuel <;> rfl
  | cons s l₁ ih =>
    cases fuel with
    | zero => rfl
    | succ fuel =>
      simp only [List.cons_append, perform, bind_assoc, ih, List.length_cons, Nat.add_sub_add_right]

/-- Performed with at most this much fuel, the steps lead from `P` to `Q`. -/
def Does (m : Model μ δ) (p : Program μ δ) (c : Context σ) (E : Halt → Run μ δ σ → Prop) (n : Nat) (mode : Mode μ)
    (P : Run μ δ σ → Prop) (l : List (Step μ δ)) (Q : Run μ δ σ → Prop) : Prop :=
  ∀ fuel ≤ n, Triple P (perform m p c fuel mode l) (fun _ => Q) E

namespace Does

variable {n : Nat} {mode : Mode μ} {P' Q Q' : Run μ δ σ → Prop} {l l₁ l₂ : List (Step μ δ)} {s : Step μ δ}

theorem conseq (h : Does m p c E n mode P l Q) (hP : ∀ run, P' run → P run) (hQ : ∀ run, Q run → Q' run) :
    Does m p c E n mode P' l Q' :=
  fun fuel hf => (h fuel hf).conseq hP (fun _ => hQ) fun _ _ h => h

theorem pre (h : Does m p c E n mode P l Q) (hP : ∀ run, P' run → P run) : Does m p c E n mode P' l Q :=
  h.conseq hP fun _ h => h

theorem post (h : Does m p c E n mode P l Q) (hQ : ∀ run, Q run → Q' run) : Does m p c E n mode P l Q' :=
  h.conseq (fun _ h => h) hQ

theorem nil (h : ∀ run, P run → Q run) : Does m p c E n mode P [] Q := by
  intro fuel _
  cases fuel <;> exact Triple.pure h

theorem append (h₁ : Does m p c E n mode P l₁ R) (h₂ : Does m p c E n mode R l₂ Q) :
    Does m p c E n mode P (l₁ ++ l₂) Q := by
  intro fuel hf
  rw [perform_append]
  exact Triple.bind (h₁ fuel hf) fun _ => h₂ _ (by omega)

section
variable (hE : ∀ run, P run → E .outOfFuel run)
include hE

theorem single (hs : ∀ fuel < n, Triple P (performStep m p c fuel mode s) (fun _ => Q) E) :
    Does m p c E n mode P [s] Q := by
  intro fuel hf
  cases fuel with
  | zero => exact Triple.throw hE
  | succ fuel =>
    simp only [perform]
    exact Triple.bind (hs fuel hf) fun _ => by cases fuel <;> exact Triple.pure fun _ h => h

theorem cons (hs : ∀ fuel < n, Triple P (performStep m p c fuel mode s) (fun _ => R) E)
    (hl : Does m p c E n mode R l Q) : Does m p c E n mode P (s :: l) Q :=
  (single hE hs).append hl

theorem keeps (hl : ∀ s ∈ l, ∀ fuel < n, Triple P (performStep m p c fuel mode s) (fun _ => P) E) :
    Does m p c E n mode P l P := by
  induction l with
  | nil => exact nil fun _ hr => hr
  | cons s l ih => exact cons hE (hl s List.mem_cons_self) (ih fun s hs => hl s (List.mem_cons_of_mem _ hs))

end

/-- One sequence for each element of a list; `I` speaks of the elements still to come. -/
theorem flatMap {ι : Type} {f : ι → List (Step μ δ)} {I : List ι → Run μ δ σ → Prop} (xs : List ι)
    (h : ∀ done x rest, done ++ x :: rest = xs → Does m p c E n mode (I (x :: rest)) (f x) (I rest)) :
    Does m p c E n mode (I xs) (xs.flatMap f) (I []) := by
  suffices ∀ done ys, done ++ ys = xs → Does m p c E n mode (I ys) (ys.flatMap f) (I []) from this [] xs rfl
  intro done ys
  induction ys generalizing done with
  | nil => exact fun _ => nil fun _ h => h
  | cons y ys ih => exact fun hys => append (h done y ys hys) (ih (done ++ [y]) (by simpa using hys))

end Does

/-! ## Single steps -/

section
variable (hE : ∀ run, P run → E .outOfFuel run)
include hE

theorem triple_announceEnter {fuel : Nat} {mode : Mode μ} {element : Element} {Q : Unit → Run μ δ σ → Prop}
    (h : ∀ run s, P run → Q () { run.note (.entered element) with outside := s }) :
    Triple P (performStep m p c fuel mode (.announceEnter element)) Q E := by
  cases fuel with
  | zero => exact Triple.throw hE
  | succ fuel => exact Triple.modify fun run hr => h run _ hr

theorem triple_announceLeave {fuel : Nat} {mode : Mode μ} {element : Element} {Q : Unit → Run μ δ σ → Prop}
    (h : ∀ run s, P run → Q () { run.note (.left element) with outside := s }) :
    Triple P (performStep m p c fuel mode (.announceLeave element)) Q E := by
  cases fuel with
  | zero => exact Triple.throw hE
  | succ fuel => exact Triple.modify fun run hr => h run _ hr

theorem triple_act {fuel : Nat} {mode : Mode μ} {cause : Cause} {action : Action μ δ} {Q : Unit → Run μ δ σ → Prop}
    (h : ∀ run, P run → Q () ((run.note (.acted cause)).update (action mode.trigger))) :
    Triple P (performStep m p c fuel mode (.act cause action)) Q E := by
  cases fuel with
  | zero => exact Triple.throw hE
  | succ fuel => exact Triple.modify h

theorem triple_record {fuel : Nat} {mode : Mode μ} {r : RegionId} {v : VertexId} {Q : Unit → Run μ δ σ → Prop}
    (h : ∀ run, P run → Q () (run.update (·.setCurrent r v))) :
    Triple P (performStep m p c fuel mode (.record r v)) Q E := by
  cases fuel with
  | zero => exact Triple.throw hE
  | succ fuel => exact triple_update h

theorem triple_terminate {fuel : Nat} {mode : Mode μ} {Q : Unit → Run μ δ σ → Prop}
    (h : ∀ run, P run → Q () (run.update (·.setTerminated true))) :
    Triple P (performStep m p c fuel mode .terminate) Q E := by
  cases fuel with
  | zero => exact Triple.throw hE
  | succ fuel => exact triple_update h

theorem triple_leaveRegion {plainly : RegionId → Bool} {fuel : Nat} {mode : Mode μ} {r : RegionId}
    {Q : Run μ δ σ → Prop}
    (hforeign : ∀ run v, P run → run.inst.current? r = some v → m.vertex? v = none → E (.foreign v) run)
    (hnone : ∀ run, P run → run.inst.current? r = none → Q run)
    (hleave : ∀ v, ∀ k < fuel, Triple (fun run => P run ∧ run.inst.current? r = some v)
      (perform m (m.compileWith plainly) c k { mode with deep := false } (m.leaveVertex v)) (fun _ => Q) E) :
    Triple P (performStep m (m.compileWith plainly) c fuel mode (.leaveRegion r)) (fun _ => Q) E := by
  cases fuel with
  | zero => exact Triple.throw hE
  | succ fuel =>
    simp only [performStep]
    refine Triple.bind triple_inst fun i => ?_
    cases hi : i.current? r with
    | none => exact Triple.pure fun run hr => hnone run hr.1 (hr.2 ▸ hi)
    | some v =>
      refine Triple.pre (P := fun run => P run ∧ run.inst.current? r = some v) ?_ fun run hr => ⟨hr.1, hr.2 ▸ hi⟩
      refine Triple.bind (triple_behavior fun run hr => hforeign run v hr.1 hr.2) fun b => Triple.of_imp fun hb => ?_
      subst hb
      exact hleave v fuel (by omega)

theorem triple_traverseStep {fuel : Nat} {mode : Mode μ} {t : TransitionId} {Q : Unit → Run μ δ σ → Prop}
    (h : ∀ k < fuel, Triple P (traverse m p c k mode t) Q E) :
    Triple P (performStep m p c fuel mode (.traverse t)) Q E := by
  cases fuel with
  | zero => exact Triple.throw hE
  | succ fuel => exact h fuel (by omega)

end

/-! ## Steps that change nothing of the configuration -/

def IsInert : Step μ δ → Prop
  | .announceEnter _ | .announceLeave _ => True
  | .act _ action => Action.Tame action
  | _ => False

/-- Inert steps, and the leaving of regions, which comes down to inert steps. -/
def IsQuiet (s : Step μ δ) : Prop := (∃ r, s = .leaveRegion r) ∨ IsInert s

def told : Step μ δ → List (Event μ δ)
  | .announceEnter element => [.entered element]
  | .announceLeave element => [.left element]
  | .act cause _ => [.acted cause]
  | _ => []

/-- The run is one that satisfies `P`, but for what the steps have told and for the data. -/
def After (l : List (Step μ δ)) (P : Run μ δ σ → Prop) (run : Run μ δ σ) : Prop :=
  ∃ run₀, P run₀ ∧ run.inst.records = run₀.inst.records ∧ run.inst.terminated = run₀.inst.terminated ∧
    run.arrived = run₀.arrived ∧ run.events = (l.flatMap told).reverse ++ run₀.events

theorem After.calm {l : List (Step μ δ)} {run : Run μ δ σ} (hP : Calm P) (hr : After l P run) : P run := by
  obtain ⟨run₀, hr₀, hrecords, hterminated, harrived, _⟩ := hr
  exact hP run₀ run hrecords hterminated harrived hr₀

theorem After.cons {s : Step μ δ} {l : List (Step μ δ)} {run : Run μ δ σ} (hr : After l (After [s] P) run) :
    After (s :: l) P run := by
  obtain ⟨run₁, ⟨run₀, hr₀, hrecords₀, hterminated₀, harrived₀, hevents₀⟩, hrecords, hterminated, harrived, hevents⟩ := hr
  refine ⟨run₀, hr₀, hrecords.trans hrecords₀, hterminated.trans hterminated₀, harrived.trans harrived₀, ?_⟩
  rw [hevents, hevents₀]; simp

theorem triple_told {fuel : Nat} {mode : Mode μ} {s : Step μ δ} (hE : ∀ run, P run → E .outOfFuel run)
    (hs : IsInert s) :
    Triple P (performStep m p c fuel mode s) (fun _ => After [s] P) E := by
  cases s with
  | announceEnter element => exact triple_announceEnter hE fun run _ hr => ⟨run, hr, rfl, rfl, rfl, rfl⟩
  | announceLeave element => exact triple_announceLeave hE fun run _ hr => ⟨run, hr, rfl, rfl, rfl, rfl⟩
  | act cause action =>
    refine triple_act hE fun run hr => ?_
    exact ⟨run, hr, (hs mode.trigger run.inst).1, (hs mode.trigger run.inst).2, rfl, rfl⟩
  | _ => cases hs

theorem triple_inert {fuel : Nat} {mode : Mode μ} {s : Step μ δ} (hE : ∀ run, P run → E .outOfFuel run) (hs : IsInert s)
    (hP : Calm P) : Triple P (performStep m p c fuel mode s) (fun _ => P) E :=
  (triple_told hE hs).post fun _ _ => After.calm hP

theorem Does.told {n : Nat} {mode : Mode μ} {l : List (Step μ δ)}
    (hE : ∀ {R : Run μ δ σ → Prop} run, R run → E .outOfFuel run) (hl : ∀ s ∈ l, IsInert s) :
    Does m p c E n mode P l (After l P) := by
  induction l generalizing P with
  | nil => exact .nil fun run hr => ⟨run, hr, rfl, rfl, rfl, rfl⟩
  | cons s l ih =>
    have hrest := ih (P := After [s] P) fun s hs => hl s (List.mem_cons_of_mem _ hs)
    exact .cons hE (fun fuel _ => triple_told hE (hl s (by simp))) (hrest.post fun run => After.cons)

theorem Does.inert {n : Nat} {mode : Mode μ} {l : List (Step μ δ)}
    (hE : ∀ {R : Run μ δ σ → Prop} run, R run → E .outOfFuel run) (hl : ∀ s ∈ l, IsInert s) (hP : Calm P) :
    Does m p c E n mode P l P :=
  (Does.told hE hl).post fun _ => After.calm hP

/-! ## The shape of entries -/

theorem flatMap_told_act (cause : Cause) (actions : List (Action μ δ)) :
    (actions.map (Step.act cause)).flatMap told = List.replicate actions.length (Event.acted cause) := by
  induction actions with
  | nil => rfl
  | cons a actions ih => simp [told, ih, List.replicate_succ]

theorem beginEnterVertex_of_isState (ht : m.Tame) {v : VertexId} (hv : m.isState v = true) :
    ∃ l, (∀ s ∈ l, IsInert s) ∧ l.flatMap told = m.entryEvents v ∧
      m.beginEnterVertex v = l ++ ((m.parent? v).map fun r => Step.record r v).toList := by
  obtain ⟨record, content, hrec, hf⟩ := Model.isState_iff.mp hv
  refine ⟨.announceEnter (.vertex v) :: content.entry.map (.act (.entry v)), fun s hs => ?_, ?_, ?_⟩
  · simp only [List.mem_cons, List.mem_map] at hs
    rcases hs with rfl | ⟨a, ha, rfl⟩
    · trivial
    · exact ht.entry hrec hf a ha
  · rw [List.flatMap_cons, flatMap_told_act]
    simp [told, Model.entryEvents, Model.entryCount, hrec, Vertex.state?, hf]
  · simp only [Model.beginEnterVertex, Model.parent?, hrec, hf, Option.bind_some]
    cases record.parent <;> rfl

theorem leaveVertex_of_isState (ht : m.Tame) {v : VertexId} (hv : m.isState v = true) :
    ∃ l, (∀ s ∈ l, IsInert s) ∧ l.flatMap told = m.exitEvents v ∧
      m.leaveVertex v = (m.regionsOf v).flatMap Model.leaveRegion ++ l := by
  obtain ⟨record, content, hrec, hf⟩ := Model.isState_iff.mp hv
  refine ⟨.announceLeave (.vertex v) :: content.exit.map (.act (.exit v)), fun s hs => ?_, ?_, ?_⟩
  · simp only [List.mem_cons, List.mem_map] at hs
    rcases hs with rfl | ⟨a, ha, rfl⟩
    · trivial
    · exact ht.exit hrec hf a ha
  · rw [List.flatMap_cons, flatMap_told_act]
    simp [told, Model.exitEvents, Model.exitCount, hrec, Vertex.state?, hf]
  · simp [Model.leaveVertex, Model.regionsOf, hrec, hf, Vertex.regions]

theorem leaveVertex_of_not_isState {v : VertexId} (hv : (m.vertex? v).isSome) (hs : m.isState v = false) :
    m.leaveVertex v = [.announceLeave (.vertex v)] := by
  obtain ⟨record, hrec⟩ := Option.isSome_iff_exists.mp hv
  cases hf : record.form with
  | state content =>
    have := Model.isState_iff.mpr ⟨record, content, hrec, hf⟩
    rw [hs] at this; cases this
  | pseudo kind => simp [Model.leaveVertex, hrec, hf]

theorem beginEnterVertex_of_not_isState {v : VertexId} (hv : (m.vertex? v).isSome) (hs : m.isState v = false) :
    m.beginEnterVertex v = [.announceEnter (.vertex v)] ∧ (m.isInitial v = true ∨ m.isBranch v = true) ∨
      m.beginEnterVertex v = [.announceEnter (.vertex v), .terminate] ∧ m.isInitial v = false := by
  obtain ⟨record, hrec⟩ := Option.isSome_iff_exists.mp hv
  cases hf : record.form with
  | state content =>
    have := Model.isState_iff.mpr ⟨record, content, hrec, hf⟩
    rw [hs] at this; cases this
  | pseudo kind =>
    simp only [Model.beginEnterVertex, Model.isInitial, Model.isBranch, hrec, hf, Option.any_some, Vertex.isInitial,
      Vertex.pseudoKind?]
    cases kind <;> simp [PseudoKind.isInitial, PseudoKind.isBranch]

theorem beginEnterVertex_of_isInitial {v : VertexId} (hv : m.isInitial v = true) :
    m.beginEnterVertex v = [.announceEnter (.vertex v)] := by
  rcases beginEnterVertex_of_not_isState (Model.vertex?_isSome_of_isInitial hv)
    (Model.isState_eq_false_of_isInitial hv) with h | h
  · exact h.1
  · rw [hv] at h
    cases h.2

theorem endEnterVertex_of_isState {plainly : RegionId → Bool} {v : VertexId} (hv : m.isState v = true) :
    m.endEnterVertex plainly v =
      (m.regionsOf v).flatMap fun r => Model.beginEnterRegion r ++ m.endEnterRegion plainly r := by
  obtain ⟨record, content, hrec, hf⟩ := Model.isState_iff.mp hv
  simp [Model.endEnterVertex, Model.regionsOf, hrec, hf, Vertex.regions]

theorem endEnterVertex_of_not_isState {plainly : RegionId → Bool} {v : VertexId} (hv : (m.vertex? v).isSome)
    (hs : m.isState v = false) : m.endEnterVertex plainly v = m.endEnterPseudo v := by
  obtain ⟨record, hrec⟩ := Option.isSome_iff_exists.mp hv
  cases hf : record.form with
  | state content =>
    have := Model.isState_iff.mpr ⟨record, content, hrec, hf⟩
    rw [hs] at this; cases this
  | pseudo kind => simp [Model.endEnterVertex, hrec, hf]

theorem isQuiet_leaveVertex (ht : m.Tame) (v : VertexId) : ∀ s ∈ m.leaveVertex v, IsQuiet s := by
  intro s hs
  cases Model.departing_leaveVertex v s hs with
  | leave => exact Or.inl ⟨_, rfl⟩
  | region => exact Or.inr trivial
  | vertex => exact Or.inr trivial
  | act ha => exact Or.inr ((Model.tame_iff.mp ht).exitActions _ ha)

theorem isInert_effectsOf (ht : m.Tame) (t : TransitionId) : ∀ s ∈ m.effectsOf t, IsInert s := by
  intro s hs
  obtain ⟨record, hrec, a, ha, rfl⟩ := Model.exists_effect_of_mem hs
  exact ht.effect hrec a ha

theorem eq_of_mem_told_effectsOf {t : TransitionId} {event : Event μ δ} (he : event ∈ (m.effectsOf t).flatMap told) :
    event = .acted (.effect t) := by
  obtain ⟨s, hs, he⟩ := List.mem_flatMap.mp he
  obtain ⟨_, _, a, _, rfl⟩ := Model.exists_effect_of_mem hs
  exact List.mem_singleton.mp he

theorem Does.quiet {plainly : RegionId → Bool} (ht : m.Tame) (hP : Calm P) (n : Nat) (mode : Mode μ)
    (l : List (Step μ δ)) (hl : ∀ s ∈ l, IsQuiet s) :
    Does m (m.compileWith plainly) c (fun _ _ => True) n mode P l P := by
  induction n using Nat.strongRecOn generalizing mode l with
  | ind n ih =>
  induction l with
  | nil => exact .nil fun _ h => h
  | cons s l ihl =>
    refine .cons (fun _ _ => trivial) (fun fuel hf => ?_) (ihl fun s hs => hl s (List.mem_cons_of_mem _ hs))
    rcases hl s (by simp) with ⟨r, rfl⟩ | hs
    · exact triple_leaveRegion (fun _ _ => trivial) (fun _ _ _ _ _ => trivial) (fun _ hr _ => hr) fun v k hk =>
        (ih k (by omega) _ _ (isQuiet_leaveVertex ht v) k (by omega)).pre fun _ hr => hr.1
    · exact triple_inert (fun _ _ => trivial) hs hP

/-! ## Rules for the parts of an evaluation -/

section
variable (hE : ∀ run, P run → E .outOfFuel run)
include hE

variable {fuel : Nat} {T Q : Run μ δ σ → Prop}

variable {plainly : RegionId → Bool} {mode : Mode μ}

section
variable {r : RegionId} {initial : Option VertexId} {kind : Option PseudoKind}
variable (hforeign : ∀ run v, P run → run.inst.current? r = some v ∨ initial = some v → m.vertex? v = none →
  E (.foreign v) run)
variable (hnone : initial = none → ∀ run, P run → Q run)
include hforeign hnone

theorem triple_enterRegion
    (hrecord : ∀ v, (mode.deep || kind.any (·.isHistory)) = true → ∀ k < fuel,
      Triple (fun run => P run ∧ run.inst.current? r = some v)
        (do perform m (m.compileWith plainly) c k { mode with deep := mode.deep || kind == some .deepHistory }
              (m.beginEnterVertex v)
            perform m (m.compileWith plainly) c k { mode with deep := mode.deep || kind == some .deepHistory }
              (m.endEnterVertex plainly v)) (fun _ => Q) E)
    (hinitial : ∀ v, initial = some v → ∀ k < fuel,
      Triple (fun run => P run ∧ ((mode.deep || kind.any (·.isHistory)) = true → run.inst.current? r = none))
        (do perform m (m.compileWith plainly) c k { mode with deep := mode.deep || kind == some .deepHistory }
              (m.beginEnterVertex v)
            perform m (m.compileWith plainly) c k { mode with deep := mode.deep || kind == some .deepHistory }
              (m.endEnterVertex plainly v)) (fun _ => Q) E) :
    Triple P (performStep m (m.compileWith plainly) c fuel mode (.enterRegion r initial kind)) (fun _ => Q) E := by
  cases fuel with
  | zero => exact Triple.throw hE
  | succ fuel =>
    simp only [performStep]
    refine Triple.bind triple_inst fun i => ?_
    -- What is recorded comes first where history has a say, and the head comes after it.
    cases hv : (if mode.deep || kind.any (·.isHistory) then i.current? r else none) with
    | none =>
      cases initial with
      | none => exact Triple.pure fun run hr => hnone rfl run hr.1
      | some v =>
        refine Triple.pre (P := fun run => P run ∧
          ((mode.deep || kind.any (·.isHistory)) = true → run.inst.current? r = none)) ?_
          fun run hr => ⟨hr.1, fun hh => by rw [if_pos hh, hr.2] at hv; exact hv⟩
        refine Triple.bind (triple_behavior fun run hr => hforeign run v hr.1 (Or.inr rfl)) fun b =>
          Triple.of_imp fun hb => ?_
        subst hb
        exact hinitial v rfl fuel (by omega)
    | some v =>
      split at hv
      · refine Triple.pre (P := fun run => P run ∧ run.inst.current? r = some v) ?_ fun run hr => ⟨hr.1, hr.2 ▸ hv⟩
        refine Triple.bind (triple_behavior fun run hr => hforeign run v hr.1 (Or.inl hr.2)) fun b =>
          Triple.of_imp fun hb => ?_
        subst hb
        exact hrecord v (by assumption) fuel (by omega)
      · cases hv

/-- Recorded or head, what is entered is entered by the same two sequences. -/
theorem triple_enterRegion_either {W : VertexId → Prop}
    (hrecorded : ∀ run v, P run → run.inst.current? r = some v → W v) (hhead : ∀ v, initial = some v → W v)
    (hbegin : ∀ deep v, W v → ∀ k < fuel, Triple P
      (perform m (m.compileWith plainly) c k { mode with deep } (m.beginEnterVertex v)) (fun _ => R) E)
    (hend : ∀ deep v, W v → ∀ k < fuel, Triple R
      (perform m (m.compileWith plainly) c k { mode with deep } (m.endEnterVertex plainly v)) (fun _ => Q) E) :
    Triple P (performStep m (m.compileWith plainly) c fuel mode (.enterRegion r initial kind)) (fun _ => Q) E := by
  refine triple_enterRegion hE hforeign hnone (fun v _ k hk => Triple.assume fun run hr => ?_) fun v hv k hk => ?_
  · have hv : W v := hrecorded run v hr.1 hr.2
    exact (Triple.bind (hbegin _ v hv k hk) fun _ => hend _ v hv k hk).start hr.1
  · exact (Triple.bind (hbegin _ v (hhead v hv) k hk) fun _ => hend _ v (hhead v hv) k hk).pre fun _ hr => hr.1

end

theorem triple_traverse {mode : Mode μ} {t : TransitionId}
    (hfollow : ∀ k < fuel, Triple P (follow m p c k mode.trigger t) (fun _ => R) E)
    (hnested : mode.nested = true → ∀ run, R run → Q run)
    (hall : mode.nested = false → ∀ l, ∀ k < fuel,
      Triple (fun run => run.arrived = [] ∧ R { run with arrived := l }) (completeAll m p c k l) (fun _ => Q) E) :
    Triple P (traverse m p c fuel mode t) (fun _ => Q) E := by
  cases fuel with
  | zero => exact Triple.throw hE
  | succ fuel =>
    simp only [traverse]
    refine Triple.bind (hfollow fuel (by omega)) fun _ => ?_
    cases hn : mode.nested with
    | true => exact Triple.pure (hnested hn)
    | false =>
      refine Triple.bind (R := fun l run => run.arrived = [] ∧ R { run with arrived := l }) ?_ fun l =>
        hall hn l fuel (by omega)
      exact fun run hr => ⟨rfl, hr⟩

theorem triple_follow_by {trigger : Trigger μ} {t : TransitionId} {record : Transition μ δ} {route : Route μ δ}
    (hrecord : m.transition? t = some record) (hroute : p.route? t = some route)
    (hnote : ∀ run, P run → T (run.note (.fired t trigger run.inst)))
    (hsteps : ∀ i, ∀ k < fuel, Triple (fun run => T run ∧ run.inst = i)
      (perform m p c k { trigger, nested := true } (route.steps i)) (fun _ => R) E)
    (hinternal : record.target = none → ∀ run, R run → Q run)
    (hforeign : ∀ run u, R run → record.target = some u → m.vertex? u = none → E (.foreign u) run)
    (hstate : ∀ u, record.target = some u → m.isState u = true →
      ∀ run, R run → Q { run with arrived := run.arrived ++ [u] })
    (hpseudo : ∀ u, record.target = some u → m.isState u = false → m.isBranch u = false → ∀ run, R run → Q run)
    (hbranch : ∀ u reached kind, record.target = some u → m.vertex? u = some reached → reached.form = .pseudo kind →
      kind.isBranch = true → ∀ k < fuel, Triple R (do
        match ← selectBranch m c u kind reached.outgoing trigger with
        | some next => follow m p c k trigger next
        | none => pure ()) (fun _ => Q) E) :
    Triple P (follow m p c fuel trigger t) (fun _ => Q) E := by
  cases fuel with
  | zero => exact Triple.throw hE
  | succ fuel =>
    simp only [follow, hrecord, hroute]
    refine Triple.bind triple_inst fun i => ?_
    refine Triple.bind (triple_note (Q := fun _ run => T run ∧ run.inst = i) fun run hr => ?_) fun _ => ?_
    · obtain ⟨hr, rfl⟩ := hr
      exact ⟨hnote run hr, rfl⟩
    refine Triple.bind (hsteps i fuel (by omega)) fun _ => ?_
    cases hu : record.target with
    | none => exact Triple.pure (hinternal hu)
    | some u =>
      refine Triple.bind (triple_vertex fun run hr hv => hforeign run u hr hu hv) fun reached =>
        Triple.of_imp fun hv => ?_
      -- A state is noted as an arrival, and a branch goes on; any other pseudo state ends the way.
      cases hf : reached.form with
      | state content =>
        exact Triple.modify fun run hr => hstate u hu (Model.isState_iff.mpr ⟨reached, content, hv, hf⟩) run hr
      | pseudo kind =>
        cases hk : kind.isBranch with
        | false =>
          have hstateless : m.isState u = false := by simp [Model.isState, hv, Vertex.isState, Vertex.state?, hf]
          have hbranchless : m.isBranch u = false := by simp [Model.isBranch, hv, Vertex.pseudoKind?, hf, hk]
          simp only [hk]
          exact Triple.pure (hpseudo u hu hstateless hbranchless)
        | true =>
          simp only [hk, ite_true]
          exact hbranch u reached kind hu hv hf hk fuel (by omega)

theorem triple_follow {trigger : Trigger μ} {t : TransitionId} {record : Transition μ δ} {route : Route μ δ}
    (hrecord : m.transition? t = some record) (hroute : p.route? t = some route)
    (hnote : ∀ run, P run → T (run.note (.fired t trigger run.inst))) (hR : Aloof R)
    (hsteps : ∀ i, ∀ k < fuel, Triple (fun run => T run ∧ run.inst = i)
      (perform m p c k { trigger, nested := true } (route.steps i)) (fun _ => R) E)
    (hinternal : record.target = none → ∀ run, R run → Q run)
    (hforeign : ∀ run u, R run → record.target = some u → m.vertex? u = none → E (.foreign u) run)
    (hstate : ∀ u, record.target = some u → m.isState u = true →
      ∀ run, R run → Q { run with arrived := run.arrived ++ [u] })
    (hpseudo : ∀ u, record.target = some u → m.isState u = false → m.isBranch u = false → ∀ run, R run → Q run)
    (hbranch : ∀ u, record.target = some u → m.isBranch u = true → ∀ next ∈ m.outgoing u, ∀ k < fuel,
      Triple R (follow m p c k trigger next) (fun _ => Q) E)
    (hrefused : ∀ u, record.target = some u → m.isBranch u = true → ∀ run error, R run → E (.refused error) run)
    (hpassed : ∀ u, record.target = some u → m.isBranch u = true → ¬ c.IsStrict → ∀ run, R run → Q run) :
    Triple P (follow m p c fuel trigger t) (fun _ => Q) E := by
  refine triple_follow_by hE hrecord hroute hnote hsteps hinternal hforeign hstate hpseudo
    fun u reached kind hu hv hf hk k hlt => ?_
  have hb : m.isBranch u = true := by simp [Model.isBranch, hv, Vertex.pseudoKind?, hf, hk]
  refine Triple.bind (triple_selectBranch hR fun run error hr => hrefused u hu hb run error hr) fun next => ?_
  cases next with
  | none =>
    exact Triple.pure fun run hr => hpassed u hu hb (fun hc => by have := hr.2.2 hc; cases this) run hr.1
  | some next =>
    refine Triple.pre (P := fun run => R run ∧ next ∈ reached.outgoing) ?_ fun run hr => ⟨hr.1, hr.2.1 next rfl⟩
    exact Triple.of_imp fun hn => hbranch u hu hb next (by simpa [Model.outgoing, hv] using hn) k hlt

theorem triple_complete {v : VertexId}
    (hactive : ∀ run, P run → m.isActive? run.inst v = none → E (.foreign v) run)
    (hcomplete : ∀ run, P run → m.isComplete? run.inst v = none → E (.foreign (foreignBeneath m v run.inst)) run)
    (hidle : ∀ run, P run → run.inst.terminated = true ∨ m.isActive? run.inst v = some false ∨
      m.isComplete? run.inst v = some false → Q run)
    (hoffer : ∀ k < fuel, Triple (fun run => P run ∧ run.inst.terminated = false ∧
        m.isActive? run.inst v = some true ∧ m.isComplete? run.inst v = some true)
      (offer m p c k (.completion v) v) (fun _ => Q) E) :
    Triple P (complete m p c fuel v) (fun _ => Q) E := by
  cases fuel with
  | zero => exact Triple.throw hE
  | succ fuel =>
    simp only [complete]
    refine Triple.bind triple_inst fun i => ?_
    cases hi : i.terminated with
    | true => exact Triple.pure fun run hr => hidle run hr.1 (Or.inl (hr.2 ▸ hi))
    | false =>
      refine Triple.pre (P := fun run => P run ∧ run.inst.terminated = false) ?_ fun run hr => ⟨hr.1, hr.2 ▸ hi⟩
      refine Triple.bind (triple_isActive fun run hr => hactive run hr.1) fun active => ?_
      cases active with
      | false => exact Triple.pure fun run hr => hidle run hr.1.1 (Or.inr (Or.inl hr.2))
      | true =>
        refine Triple.bind (triple_isComplete fun run hr => hcomplete run hr.1.1) fun done => ?_
        cases done with
        | false => exact Triple.pure fun run hr => hidle run hr.1.1.1 (Or.inr (Or.inr hr.2))
        | true =>
          refine Triple.bind ((hoffer fuel (by omega)).pre fun run hr => ?_) fun _ => Triple.pure fun _ h => h
          exact ⟨hr.1.1.1, hr.1.1.2, hr.1.2, hr.2⟩

end

/-! ## Lists of completions and of regions -/

section
variable {fuel : Nat} {T Y N : Run μ δ σ → Prop}

theorem triple_completeAll {l : List VertexId} {I : List VertexId → Run μ δ σ → Prop}
    (hE : ∀ run, (∃ l, I l run) → E .outOfFuel run)
    (h : ∀ v rest, ∀ k < fuel, Triple (I (v :: rest)) (complete m p c k v) (fun _ => I rest) E) :
    Triple (I l) (completeAll m p c fuel l) (fun _ => I []) E := by
  induction fuel generalizing l with
  | zero =>
    cases l with
    | nil => exact Triple.pure fun _ h => h
    | cons v rest => exact Triple.throw fun run hr => hE run ⟨_, hr⟩
  | succ fuel ih =>
    cases l with
    | nil => exact Triple.pure fun _ h => h
    | cons v rest =>
      exact Triple.bind (h v rest fuel (by omega)) fun _ => ih fun v rest k hk => h v rest k (by omega)

theorem triple_traverse_keeps {mode : Mode μ} {t : TransitionId} (hP : ∀ run, P run → E .outOfFuel run)
    (hR : ∀ run, R run → E .outOfFuel run) (harrived : ∀ run, R run → R { run with arrived := [] })
    (hfollow : ∀ k < fuel, Triple P (follow m p c k mode.trigger t) (fun _ => R) E)
    (hcomplete : ∀ v, ∀ k < fuel, Triple R (complete m p c k v) (fun _ => R) E) :
    Triple P (traverse m p c fuel mode t) (fun _ => R) E := by
  refine triple_traverse hP hfollow (fun _ _ hr => hr) fun _ l k hk => ?_
  refine (triple_completeAll (I := fun _ => R) (fun run hr => hr.elim fun _ => hR run) fun v _ j hj =>
    hcomplete v j (by omega)).pre fun run hr => ?_
  have hsettled := harrived _ hr.2
  rwa [← hr.1] at hsettled

/-- `Y` is what holds when something beneath has consumed the trigger, and `N` when nothing has. -/
theorem triple_offer {trigger : Trigger μ} {v : VertexId} {Q : Bool → Run μ δ σ → Prop}
    (hE : ∀ run, P run → E .outOfFuel run) (hnote : ∀ run, P run → T (run.note (.offered v trigger)))
    (hforeign : ∀ run, P run → m.vertex? v = none → E (.foreign v) run)
    (hidle : ∀ run, P run → m.isState v = false ∨ run.inst.terminated = true → Q false run)
    (hown : m.isState v = true → trigger = .completion v → ∀ run, T run → run.inst.terminated = false → N run)
    (hbeneath : m.isState v = true → trigger ≠ .completion v → ∀ k < fuel,
      Triple (fun run => T run ∧ run.inst.terminated = false) (offerBeneath m p c k trigger v (m.regionsOf v))
        (fun consumed run => if consumed then Y run else N run) E)
    (hcomplete : m.isState v = true → ∀ k < fuel, Triple Y (complete m p c k v) (fun _ => Q true) E)
    (hnone : ∀ run, N run → enabled m v (m.outgoing v) trigger run.inst = [] → Q false run)
    (hone : m.isState v = true → ∀ t, ∀ k < fuel,
      Triple (fun run => N run ∧ enabled m v (m.outgoing v) trigger run.inst = [t])
        (traverse m p c k { trigger } t) (fun _ => Q true) E)
    (hseveral : m.isState v = true → ∀ count, 1 < count →
      Triple (fun run => N run ∧ (enabled m v (m.outgoing v) trigger run.inst).length = count)
        (report c (.ambiguousTransition (m.qualifiedName (.vertex v)) count)) (fun _ => Q false) E) :
    Triple P (offer m p c fuel trigger v) Q E := by
  cases fuel with
  | zero => exact Triple.throw hE
  | succ fuel =>
    simp only [offer]
    refine Triple.bind (triple_vertex fun run hr => hforeign run hr) fun record => Triple.of_imp fun hv => ?_
    cases hf : record.form with
    | pseudo kind =>
      have hstateless : m.isState v = false := by simp [Model.isState, hv, Vertex.isState, Vertex.state?, hf]
      exact Triple.pure fun run hr => hidle run hr (Or.inl hstateless)
    | state content =>
      have hs : m.isState v = true := Model.isState_iff.mpr ⟨record, content, hv, hf⟩
      have hregions : content.regions = m.regionsOf v := by simp [Model.regionsOf, hv, Vertex.regions, hf]
      have hout : record.outgoing = m.outgoing v := by simp [Model.outgoing, hv]
      refine Triple.bind triple_inst fun i => ?_
      cases hi : i.terminated with
      | true => exact Triple.pure fun run hr => hidle run hr.1 (Or.inr (hr.2 ▸ hi))
      | false =>
        refine Triple.pre (P := fun run => P run ∧ run.inst.terminated = false) ?_ fun run hr => ⟨hr.1, hr.2 ▸ hi⟩
        refine Triple.bind (triple_note (Q := fun _ run => T run ∧ run.inst.terminated = false) fun run hr =>
          ⟨hnote run hr.1, hr.2⟩) fun _ => ?_
        -- Its own completion is offered to the state alone, and all else to what is beneath it first.
        refine Triple.ite_bind (R := fun (consumed : Bool) run => if consumed then Y run else N run) (fun hc => ?_)
          (fun hc => ?_) fun consumed => ?_
        · exact Triple.pure fun run hr => hown hs (Trigger.isCompletionOf_iff.mp hc) run hr.1 hr.2
        · rw [hregions]
          exact hbeneath hs (fun h => hc (Trigger.isCompletionOf_iff.mpr h)) fuel (by omega)
        · cases consumed with
          | true => exact Triple.bind (hcomplete hs fuel (by omega)) fun _ => Triple.pure fun _ h => h
          | false =>
            rw [hout]
            refine Triple.bind (triple_inst (P := N)) fun i => ?_
            rcases he : enabled m v (m.outgoing v) trigger i with _ | ⟨t, _ | ⟨t', rest⟩⟩
            · exact Triple.pure fun run hr => hnone run hr.1 (hr.2 ▸ he)
            · exact Triple.bind ((hone hs t fuel (by omega)).pre fun run hr => ⟨hr.1, hr.2 ▸ he⟩) fun _ =>
                Triple.pure fun _ h => h
            · refine Triple.bind ((hseveral hs (t :: t' :: rest).length (by simp)).pre fun run hr => ⟨hr.1, ?_⟩)
                fun _ => Triple.pure fun _ h => h
              rw [← hr.2, he]

theorem Blind.several {v : VertexId} {trigger : Trigger μ} {count : Nat} {Q : Run μ δ σ → Prop} (hN : Blind N)
    (hrefused : ∀ run error, N run → E (.refused error) run) (hpassed : ¬ c.IsStrict → ∀ run, N run → Q run) :
    Triple (fun run => N run ∧ (enabled m v (m.outgoing v) trigger run.inst).length = count)
      (report c (.ambiguousTransition (m.qualifiedName (.vertex v)) count)) (fun _ => Q) E :=
  (triple_report hN.aloof fun run hr => hrefused run _ hr).conseq (fun _ hr => hr.1)
    (fun _ run hr => hpassed hr.2 run hr.1) fun _ _ hr => hr

theorem triple_offerBeneath {trigger : Trigger μ} {v : VertexId} {r : RegionId} {rest : List RegionId}
    {Q : Bool → Run μ δ σ → Prop} (hE : ∀ run, P run → E .outOfFuel run)
    (hnone : ∀ k < fuel, Triple (fun run => P run ∧ run.inst.current? r = none)
      (offerBeneath m p c k trigger v rest) Q E)
    (hoffer : ∀ current, ∀ k < fuel, Triple (fun run => P run ∧ run.inst.current? r = some current)
      (offer m p c k trigger current) (fun consumed run => if consumed then Y run else N run) E)
    (hrest : ∀ k < fuel, Triple N (offerBeneath m p c k trigger v rest) Q E)
    (hforeign : ∀ run, Y run → m.isActive? run.inst v = none → E (.foreign v) run)
    (hdone : ∀ run, Y run → Q true run)
    (hmore : ∀ k < fuel, Triple (fun run => Y run ∧ m.isActive? run.inst v = some true ∧ run.inst.terminated = false)
      (offerBeneath m p c k trigger v rest) (fun _ => Q true) E) :
    Triple P (offerBeneath m p c fuel trigger v (r :: rest)) Q E := by
  cases fuel with
  | zero => exact Triple.throw hE
  | succ fuel =>
    simp only [offerBeneath]
    refine Triple.bind triple_inst fun i => ?_
    cases hi : i.current? r with
    | none => exact (hnone fuel (by omega)).pre fun run hr => ⟨hr.1, hr.2 ▸ hi⟩
    | some current =>
      refine Triple.bind ((hoffer current fuel (by omega)).pre fun run hr => ⟨hr.1, hr.2 ▸ hi⟩) fun consumed => ?_
      cases consumed with
      | false => exact hrest fuel (by omega)
      | true =>
        refine Triple.bind (triple_isActive hforeign) fun active => ?_
        cases active with
        | false => exact Triple.pure fun run hr => hdone run hr.1
        | true =>
          refine Triple.bind triple_inst fun i => ?_
          cases ht : i.terminated with
          | true => exact Triple.pure fun run hr => hdone run hr.1.1
          | false =>
            refine Triple.bind ((hmore fuel (by omega)).pre fun run hr => ?_) fun _ => Triple.pure fun _ h => h
            exact ⟨hr.1.1, hr.1.2, hr.2 ▸ ht⟩

/-! ## Conditions that offers keep -/

section
variable {J : Run μ δ σ → Prop} {trigger : Trigger μ} {v : VertexId} (hE : ∀ run, J run → E .outOfFuel run)
variable (hactive : ∀ run, J run → m.isActive? run.inst v = none → E (.foreign v) run)
include hE hactive

theorem triple_offerBeneath_keeps {rs : List RegionId}
    (hoffer : ∀ r ∈ rs, ∀ current, ∀ k < fuel, Triple (fun run => J run ∧ run.inst.current? r = some current)
      (offer m p c k trigger current) (fun _ => J) E) :
    Triple J (offerBeneath m p c fuel trigger v rs) (fun _ => J) E := by
  induction rs generalizing fuel with
  | nil => cases fuel <;> exact Triple.pure fun _ hr => hr
  | cons r rest ih =>
    have hrest : ∀ k < fuel, Triple J (offerBeneath m p c k trigger v rest) (fun _ => J) E := fun k hk =>
      ih fun q hq current j hj => hoffer q (List.mem_cons_of_mem r hq) current j (by omega)
    exact triple_offerBeneath (Y := J) (N := J) hE (fun k hk => (hrest k hk).pre fun _ hr => hr.1)
      (fun current k hk => (hoffer r List.mem_cons_self current k hk).either) hrest hactive (fun _ hr => hr)
      fun k hk => (hrest k hk).pre fun _ hr => hr.1

/-- An offer keeps what is kept by offering to the vertices recorded beneath, by completing the state, by a traversal
of the transition that is enabled, and by a report. -/
theorem triple_offer_keeps (hnote : ∀ run, J run → J (run.note (.offered v trigger)))
    (hforeign : ∀ run, J run → m.vertex? v = none → E (.foreign v) run)
    (hoffer : ∀ r ∈ m.regionsOf v, ∀ current, ∀ k < fuel,
      Triple (fun run => J run ∧ run.inst.current? r = some current) (offer m p c k trigger current) (fun _ => J) E)
    (hcomplete : ∀ k < fuel, Triple J (complete m p c k v) (fun _ => J) E)
    (htraverse : ∀ t, ∀ k < fuel, Triple (fun run => J run ∧ enabled m v (m.outgoing v) trigger run.inst = [t])
      (traverse m p c k { trigger } t) (fun _ => J) E)
    (hreport : ∀ error, Triple J (report c error) (fun _ => J) E) :
    Triple J (offer m p c fuel trigger v) (fun _ => J) E := by
  refine triple_offer (Y := J) (N := J) hE hnote hforeign (fun _ hr _ => hr) (fun _ _ _ hr _ => hr) (fun _ _ k hk => ?_)
    (fun _ => hcomplete) (fun _ hr _ => hr) (fun _ => htraverse) fun _ count _ => (hreport _).pre fun _ hr => hr.1
  refine (triple_offerBeneath_keeps hE hactive fun r hr current j hj => ?_).either.pre fun _ hr => hr.1
  exact hoffer r hr current j (by omega)

end

end

/-! ## Offers that nothing consumes -/

structure Patient (c : Context σ) (P : Run μ δ σ → Prop) : Prop where
  offered : ∀ run v trigger, P run → P (run.note (.offered v trigger))
  reported : ∀ run error, P run →
    P { run.note (.reported error) with outside := (c.tolerate error run.outside).2 }

theorem Blind.patient (hP : Blind P) : Patient c P :=
  ⟨fun _ _ _ hr => hP.offered _ hr, fun run _ hr => hP run _ _ trivial hr⟩

theorem Patient.report (hP : Patient c P) (error : MachineError) :
    Triple P (report c error : Eval μ δ σ _) (fun _ run => P run ∧ ¬ c.IsStrict) fun _ _ => True := by
  intro run hr
  have hreported := hP.reported run error hr
  unfold Eval.report
  rcases ht : c.tolerate error run.outside with ⟨_ | _, s⟩
  · trivial
  · rw [ht] at hreported
    refine ⟨hreported, fun hstrict => ?_⟩
    have := hstrict error run.outside
    rw [ht] at this; cases this

theorem triple_of_not_consumed (hP : Patient c P) (fuel : Nat) :
    (∀ trigger v, Triple P (offer m p c fuel trigger v) (fun consumed run => consumed = false → P run)
        fun _ _ => True) ∧
      ∀ trigger v rs, Triple P (offerBeneath m p c fuel trigger v rs) (fun consumed run => consumed = false → P run)
        fun _ _ => True := by
  -- A state and its regions are offered the trigger in turns, so both are shown at once. Whoever consumes it may do
  -- anything.
  induction fuel using Nat.strongRecOn with
  | ind fuel ih =>
  refine ⟨fun trigger v => ?_, fun trigger v rs => ?_⟩
  · refine triple_offer (Y := fun _ => True) (N := P) (fun _ _ => trivial) (fun run hr => hP.offered run v trigger hr)
      (fun _ _ _ => trivial) (fun run hr _ _ => hr) (fun _ _ run hr _ => hr) ?_ ?_ (fun run hr _ _ => hr) ?_ ?_
    · intro _ _ k hk
      refine ((ih k hk).2 trigger v (m.regionsOf v)).conseq (fun _ hr => hr.1) (fun consumed run hr => ?_)
        fun _ _ h => h
      cases consumed with
      | true => trivial
      | false => exact hr rfl
    · exact fun _ k _ => Triple.trivial.conseq (fun _ _ => trivial) (fun _ _ _ h => by cases h) fun _ _ h => h
    · exact fun _ t k _ => Triple.trivial.conseq (fun _ _ => trivial) (fun _ _ _ h => by cases h) fun _ _ h => h
    · exact fun _ count _ => (hP.report _).conseq (fun _ hr => hr.1) (fun _ _ hr _ => hr.1) fun _ _ h => h
  · cases rs with
    | nil => cases fuel <;> exact Triple.pure fun _ h _ => h
    | cons r rest =>
      refine triple_offerBeneath (Y := fun _ => True) (N := P) (fun _ _ => trivial) ?_ ?_
        (fun k hk => (ih k hk).2 trigger v rest) (fun _ _ _ => trivial) (fun _ _ h => by cases h) ?_
      · exact fun k hk => ((ih k hk).2 trigger v rest).pre fun _ hr => hr.1
      · intro current k hk
        refine ((ih k hk).1 trigger current).conseq (fun _ hr => hr.1) (fun consumed run hr => ?_) fun _ _ h => h
        cases consumed with
        | true => trivial
        | false => exact hr rfl
      · exact fun k _ => Triple.trivial.conseq (fun _ _ => trivial) (fun _ _ _ h => by cases h) fun _ _ h => h

end Eval

end Statechart
