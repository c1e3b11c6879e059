import Statechart.Evaluation
import Statechart.Snapshot
import Statechart.Proofs.Construction
import Statechart.Proofs.Execution

/-!
# Configurations stay inside the model

However a machine is built and an instance is run, captured and restored in between, the instance records for each
region only vertices of that region, and no evaluation looks for something that the model or its program does not have.
-/

namespace Statechart

variable {μ δ σ : Type}

/-! ## Evaluations -/

namespace Halt

/-- The evaluation has looked for something that is not there. -/
def IsMissing : Halt → Prop
  | .foreign _ | .dangling _ => True
  | _ => False

end Halt

namespace Eval

open Model

variable (m : Model μ δ) (plain : Bool)

def Confined (run : Run μ δ σ) : Prop := m.Fits plain run.inst ∧ ∀ v ∈ run.arrived, (m.vertex? v).isSome

def Sheltered (halt : Halt) (run : Run μ δ σ) : Prop := halt = .outOfFuel ∨ Confined m plain run ∧ ¬ halt.IsMissing

variable {m plain}

theorem calm_confined : Calm (Confined m plain : Run μ δ σ → Prop) :=
  fun _ _ hr _ ha h => ⟨h.1.congr hr, by rw [ha]; exact h.2⟩

theorem sheltered_outOfFuel {P : Run μ δ σ → Prop} (run : Run μ δ σ) (_ : P run) :
    Sheltered m plain .outOfFuel run := Or.inl rfl

theorem sheltered_refused {run : Run μ δ σ} (h : Confined m plain run) (error : MachineError) :
    Sheltered m plain (.refused error) run := Or.inr ⟨h, id⟩

abbrev Admits (m : Model μ δ) (s : Step μ δ) : Prop := m.Within Action.Tame (fun _ => True) s

section
variable (h : m.Arena) (ht : m.Tame) {plainly : RegionId → Bool} {c : Context σ}
include h ht

theorem confined_perform {n : Nat}
    (htraverse : ∀ k < n, ∀ mode t, (m.transition? t).isSome → Triple (Confined m plain)
      (traverse m (m.compileWith plainly) c k mode t) (fun _ => Confined m plain) (Sheltered m plain))
    (mode : Mode μ) (l : List (Step μ δ)) (hl : ∀ s ∈ l, Admits m s) :
    Does m (m.compileWith plainly) c (Sheltered m plain) n mode (Confined m plain) l (Confined m plain) := by
  induction n using Nat.strongRecOn generalizing mode l with
  | ind n ih =>
  -- The sequences that a step performs have less fuel than the sequence it stands in.
  have hlower : ∀ k < n, ∀ mode l, (∀ s ∈ l, Admits m s) →
      Triple (Confined m plain) (perform m (m.compileWith plainly) c k mode l) (fun _ => Confined m plain)
        (Sheltered m plain) :=
    fun k hk mode l hl => ih k hk (fun j hj => htraverse j (by omega)) mode l hl k (Nat.le_refl k)
  refine Does.keeps sheltered_outOfFuel fun s hs fuel hf => ?_
  replace hs : Admits m s := hl s hs
  cases s with
  | announceEnter element => exact triple_inert sheltered_outOfFuel trivial calm_confined
  | announceLeave element => exact triple_inert sheltered_outOfFuel trivial calm_confined
  | act cause action => exact triple_inert sheltered_outOfFuel hs calm_confined
  | record r v =>
    exact triple_record sheltered_outOfFuel fun run hr => ⟨hr.1.setCurrent hs.1 fun _ => hs.2.1, hr.2⟩
  | terminate => exact triple_terminate sheltered_outOfFuel fun run hr => ⟨hr.1.congr rfl, hr.2⟩
  | leaveRegion r =>
    refine triple_leaveRegion sheltered_outOfFuel (fun run v hr hv hnone => ?_) (fun _ hr _ => hr) fun v k hk => ?_
    · exact absurd (hr.1.vertex?_isSome hv) (by simp [hnone])
    · exact (hlower k (by omega) _ _ (within_leaveVertex h (tame_iff.mp ht) v)).pre fun _ hr => hr.1
  | enterRegion r initial kind =>
    refine triple_enterRegion_either (R := Confined m plain) (W := fun _ => True) sheltered_outOfFuel
      (fun run v hr hv hnone => ?_) (fun _ _ hr => hr) (fun _ _ _ _ => trivial) (fun _ _ => trivial)
      (fun deep v _ k hk => ?_) fun deep v _ k hk => ?_
    · have hknown : (m.vertex? v).isSome :=
        hv.elim (hr.1.vertex?_isSome ·) fun hv => vertex?_isSome_of_parent? (hs.2.2 v hv)
      exact absurd hknown (by simp [hnone])
    · exact hlower k (by omega) _ _ (within_beginEnterVertex (tame_iff.mp ht) trivial)
    · exact hlower k (by omega) _ _ (within_endEnterVertex h (tame_iff.mp ht) (fun _ _ _ => trivial) trivial)
  | traverse t =>
    obtain ⟨record, hrec, _⟩ := hs
    exact triple_traverseStep sheltered_outOfFuel fun k hk => htraverse k (by omega) mode t (by simp [hrec])

structure Confines (m : Model μ δ) (plain : Bool) (plainly : RegionId → Bool) (c : Context σ) (k : Nat) : Prop where
  traverse : ∀ mode t, (m.transition? t).isSome → Triple (Confined m plain)
    (traverse m (m.compileWith plainly) c k mode t) (fun _ => Confined m plain) (Sheltered m plain)
  follow : ∀ trigger t, (m.transition? t).isSome → Triple (Confined m plain)
    (follow m (m.compileWith plainly) c k trigger t) (fun _ => Confined m plain) (Sheltered m plain)
  complete : ∀ v, (m.vertex? v).isSome → Triple (Confined m plain)
    (complete m (m.compileWith plainly) c k v) (fun _ => Confined m plain) (Sheltered m plain)
  offer : ∀ trigger v, (m.vertex? v).isSome → Triple (Confined m plain)
    (offer m (m.compileWith plainly) c k trigger v) (fun _ => Confined m plain) (Sheltered m plain)

section
variable {k : Nat} (ih : ∀ j < k, Confines m plain plainly c j)
include ih

omit h ht in
theorem confined_traverse (mode : Mode μ) {t : TransitionId} (hknown : (m.transition? t).isSome) :
    Triple (Confined m plain) (traverse m (m.compileWith plainly) c k mode t) (fun _ => Confined m plain)
      (Sheltered m plain) := by
  refine triple_traverse (R := Confined m plain) sheltered_outOfFuel (fun j hj => (ih j hj).follow mode.trigger t hknown)
    (fun _ _ hr => hr) fun _ l j hj => ?_
  refine Triple.conseq (triple_completeAll (I := fun l run => Confined m plain run ∧ ∀ v ∈ l, (m.vertex? v).isSome)
    sheltered_outOfFuel fun v rest i hi => ?_) (fun run hr => ⟨⟨hr.2.1, by simp [hr.1]⟩, hr.2.2⟩) (fun _ _ hr => hr.1)
    fun _ _ hr => hr
  refine Triple.assume fun run hr => ?_
  refine ((ih i (by omega)).complete v (hr.2 v (by simp))).conseq (by rintro _ rfl; exact hr.1)
    (fun _ _ hr' => ⟨hr', fun w hw => hr.2 w (List.mem_cons_of_mem _ hw)⟩) fun _ _ hr => hr

theorem confined_follow (trigger : Trigger μ) {t : TransitionId} (hknown : (m.transition? t).isSome) :
    Triple (Confined m plain) (follow m (m.compileWith plainly) c k trigger t) (fun _ => Confined m plain)
      (Sheltered m plain) := by
  have hblind : Blind (Confined m plain : Run μ δ σ → Prop) := calm_confined.blind
  obtain ⟨record, hrec⟩ := Option.isSome_iff_exists.mp hknown
  refine triple_follow sheltered_outOfFuel hrec (route?_compileWith hknown) hblind.fired hblind.aloof (fun i j hj => ?_)
    (fun _ _ hr => hr) (fun run u _ hu hv => ?_) (fun u hu _ run hr => ⟨hr.1, ?_⟩) (fun _ _ _ _ _ hr => hr)
    (fun u _ _ next hn j hj => ?_) (fun _ _ _ run error hr => sheltered_refused hr error) (fun _ _ _ _ _ hr => hr)
  · exact (confined_perform h ht (fun i hi => (ih i (by omega)).traverse) _ _
      (within_route h (tame_iff.mp ht) (fun _ => trivial) t i) j (Nat.le_refl j)).pre fun _ hr => hr.1
  · have := h.target_isSome hrec hu
    rw [hv] at this; cases this
  · intro v hv
    rcases List.mem_append.mp hv with hv | hv
    · exact hr.2 v hv
    · rw [List.mem_singleton] at hv; subst hv; exact h.target_isSome hrec hu
  · obtain ⟨record', hrec', _⟩ := h.source_of_mem_outgoing hn
    exact (ih j hj).follow trigger next (by simp [hrec'])

omit ih ht in
theorem sheltered_of_isActive? {v : VertexId} (hv : (m.vertex? v).isSome) :
    ∀ run : Run μ δ σ, Confined m plain run → m.isActive? run.inst v = none → Sheltered m plain (.foreign v) run :=
  fun _ _ ha => by rw [isActive?_eq h hv] at ha; cases ha

omit ht in
theorem confined_complete {v : VertexId} (hv : (m.vertex? v).isSome) :
    Triple (Confined m plain) (complete m (m.compileWith plainly) c k v) (fun _ => Confined m plain)
      (Sheltered m plain) := by
  refine triple_complete sheltered_outOfFuel (sheltered_of_isActive? h hv) (fun run hr hc => ?_) (fun _ hr _ => hr)
    fun j hj => ((ih j hj).offer _ v hv).pre fun _ hr => hr.1
  have := isComplete?_isSome hr.1 hv
  rw [hc] at this; cases this

omit ht in
theorem confined_offer (trigger : Trigger μ) {v : VertexId} (hv : (m.vertex? v).isSome) :
    Triple (Confined m plain) (offer m (m.compileWith plainly) c k trigger v) (fun _ => Confined m plain)
      (Sheltered m plain) := by
  have hblind : Blind (Confined m plain : Run μ δ σ → Prop) := calm_confined.blind
  refine triple_offer_keeps sheltered_outOfFuel (sheltered_of_isActive? h hv) hblind.offered
    (fun run _ hnone => by rw [hnone] at hv; cases hv) (fun _ _ current j hj => Triple.assume fun run hr => ?_)
    (fun j hj => (ih j hj).complete v hv) (fun t j hj => Triple.assume fun run hr => ?_) fun error =>
      (triple_report hblind.aloof fun _ hr => sheltered_refused hr error).post fun _ _ hr => hr.1
  · exact ((ih j hj).offer trigger current (hr.1.1.vertex?_isSome hr.2)).start hr.1
  · obtain ⟨record, hrec, _⟩ := source_of_enabled h (hr.2 ▸ List.mem_singleton_self t)
    exact ((ih j hj).traverse _ t (by simp [hrec])).start hr.1

end

theorem confines (k : Nat) : Confines m plain plainly c k := by
  induction k using Nat.strongRecOn with
  | ind k ih =>
  exact ⟨fun mode _ => confined_traverse ih mode, fun trigger _ => confined_follow h ht ih trigger,
    fun _ => confined_complete h ih, fun trigger _ => confined_offer h ih trigger⟩

end

end Eval

/-! ## Calls -/

namespace Machine

variable {m : Machine μ δ} {plain : Bool} {c : Context σ}

theorem confined_initialiseCompiled (hm : m.Sound) (ht : m.Tame) (fuel : Nat) :
    Triple (Eval.Confined m.toModel plain) (m.initialiseCompiled c fuel) (fun _ => Eval.Confined m.toModel plain)
      (Eval.Sheltered m.toModel plain) := by
  unfold initialiseCompiled
  cases hp : m.program with
  | none => exact Triple.throw fun run hr => Eval.sheltered_refused hr _
  | some p =>
    rw [hm.program p hp]
    exact Eval.confined_perform hm.arena ht (fun k _ => (Eval.confines hm.arena ht k).traverse) _ _
      (Model.within_onInitialise hm.arena (Model.tame_iff.mp ht)) fuel (Nat.le_refl fuel)

theorem confined_evaluateCompiled (hm : m.Sound) (ht : m.Tame) (fuel : Nat) (message : μ) :
    Triple (Eval.Confined m.toModel plain) (m.evaluateCompiled c fuel message)
      (fun _ => Eval.Confined m.toModel plain) (Eval.Sheltered m.toModel plain) := by
  unfold evaluateCompiled
  refine Triple.bind Eval.triple_inst fun i => Triple.pre (P := Eval.Confined m.toModel plain) ?_ fun _ hr => hr.1
  split
  · exact Triple.pure fun _ hr => hr
  · cases hp : m.program with
    | none => exact Triple.throw fun run hr => Eval.sheltered_refused hr _
    | some p =>
      rw [hm.program p hp]
      exact (Eval.confines hm.arena ht fuel).offer _ root hm.arena.vertex?_root_isSome

theorem prepare?_eq_some {m' : Machine μ δ} (hm : m.Sound) (hp : m.prepare? c = some m') :
    m'.toModel = m.toModel ∧ m'.Sound := by
  unfold prepare? at hp
  split at hp
  · cases hp; exact ⟨rfl, hm⟩
  · split at hp
    · cases hp; exact ⟨rfl, hm.compile⟩
    · cases hp

def Leaves {α : Type} (result : EStateM.Result Halt (Run μ δ σ) α) (i : Instance δ) : Prop :=
  match result with
  | .ok _ run => run.inst = i
  | .error halt run => halt ≠ .outOfFuel ∧ run.inst = i

def Panics {α : Type} (result : EStateM.Result Halt (Run μ δ σ) α) : Prop :=
  match result with
  | .ok _ _ => False
  | .error halt _ => halt.IsMissing

theorem safe_of_confined {α : Type} {x : Eval μ δ σ α}
    (hx : Triple (Eval.Confined m.toModel plain) x (fun _ => Eval.Confined m.toModel plain)
      (Eval.Sheltered m.toModel plain)) {i : Instance δ} (hi : m.Fits plain i) (s : σ) :
    ¬ Panics (x { inst := i, outside := s }) ∧ ∀ i', Leaves (x { inst := i, outside := s }) i' → m.Fits plain i' := by
  have hr := hx { inst := i, outside := s } ⟨hi, by simp⟩
  unfold Panics Leaves
  cases hres : x { inst := i, outside := s } with
  | ok a run =>
    rw [hres] at hr
    exact ⟨id, by rintro _ rfl; exact hr.1⟩
  | error halt run =>
    rw [hres] at hr
    rcases hr with rfl | ⟨hc, hnot⟩
    · exact ⟨id, fun _ hl => absurd rfl hl.1⟩
    · exact ⟨hnot, by rintro _ ⟨_, rfl⟩; exact hc.1⟩

theorem safe_initialise (hm : m.Sound) (ht : m.Tame) {i : Instance δ} (hi : m.Fits plain i) (fuel : Nat) (s : σ) :
    (m.initialise c fuel i s).1.toModel = m.toModel ∧ (m.initialise c fuel i s).1.Sound ∧
      ¬ Panics (m.initialise c fuel i s).2 ∧ ∀ i', Leaves (m.initialise c fuel i s).2 i' → m.Fits plain i' := by
  unfold initialise
  cases hp : m.prepare? c with
  | none => exact ⟨rfl, hm, id, by rintro _ ⟨_, rfl⟩; exact hi⟩
  | some m' =>
    obtain ⟨heq, hm'⟩ := prepare?_eq_some hm hp
    rw [← heq] at ht hi ⊢
    exact ⟨rfl, hm', safe_of_confined (confined_initialiseCompiled hm' ht fuel) hi s⟩

theorem safe_evaluate (hm : m.Sound) (ht : m.Tame) {i : Instance δ} (hi : m.Fits plain i) (fuel : Nat) (message : μ)
    (s : σ) : (m.evaluate c fuel message i s).1.toModel = m.toModel ∧ (m.evaluate c fuel message i s).1.Sound ∧
      ¬ Panics (m.evaluate c fuel message i s).2 ∧
        ∀ i', Leaves (m.evaluate c fuel message i s).2 i' → m.Fits plain i' := by
  unfold evaluate
  simp only
  split
  · exact ⟨rfl, hm, id, by rintro _ rfl; exact hi⟩
  · cases hp : m.prepare? c with
    | none => exact ⟨rfl, hm, id, by rintro _ ⟨_, rfl⟩; exact hi⟩
    | some m' =>
      obtain ⟨heq, hm'⟩ := prepare?_eq_some hm hp
      rw [← heq] at ht hi ⊢
      exact ⟨rfl, hm', safe_of_confined (confined_evaluateCompiled hm' ht fuel message) hi s⟩

end Machine

/-! ## Snapshots -/

namespace Model

variable {m : Model μ δ} {plain : Bool}

theorem isSome_mapM {α β : Type} {f : α → Option β} {l : List α} (hf : ∀ x ∈ l, (f x).isSome) : (l.mapM f).isSome := by
  induction l with
  | nil => simp
  | cons x l ih =>
    obtain ⟨y, hy⟩ := Option.isSome_iff_exists.mp (hf x (by simp))
    obtain ⟨ys, hys⟩ := Option.isSome_iff_exists.mp (ih fun z hz => hf z (List.mem_cons_of_mem _ hz))
    simp [List.mapM_cons, hy, hys]

theorem isSome_capture (h : m.Arena) {i : Instance δ} (hi : m.Fits plain i) (height : Nat) :
    (∀ v, (m.vertex? v).isSome → 2 * (m.vertices.size - v.index) ≤ height →
        (m.captureState? height i v).isSome) ∧
      ∀ r o, m.owner? r = some o → 2 * (m.vertices.size - o.index) ≤ height + 1 →
        (m.captureRegion? height i r).isSome := by
  -- A region takes one level, and so does a vertex, which is younger than the owner of its region: two levels for each
  -- vertex that is not older than the one captured are enough.
  induction height with
  | zero =>
    refine ⟨fun v hv hh => ?_, fun r o ho hh => ?_⟩
    · have := vertex?_isSome_iff.mp hv; omega
    · have := vertex?_isSome_iff.mp (vertex?_isSome_of_isState (h.isState_of_owner? ho)); omega
  | succ height ih =>
    refine ⟨fun v hv hh => ?_, fun r o ho hh => ?_⟩
    · obtain ⟨record, hrec⟩ := Option.isSome_iff_exists.mp hv
      have hregions : (record.regions.mapM (m.captureRegion? height i)).isSome := by
        refine isSome_mapM fun r hr => ih.2 r v (h.mem_regionsOf.mp ?_) (by omega)
        simpa [regionsOf, hrec] using hr
      obtain ⟨nodes, hnodes⟩ := Option.isSome_iff_exists.mp hregions
      simp [captureState?, hrec, hnodes]
    · obtain ⟨region, hreg, hparent⟩ := owner?_eq_some.mp ho
      have hcurrent : ((i.current? r).mapM fun v => (m.vertex? v).map Vertex.name).isSome := by
        cases hv : i.current? r with
        | none => simp
        | some v =>
          obtain ⟨record, hrec⟩ := Option.isSome_iff_exists.mp (hi.vertex?_isSome hv)
          simp [hrec]
      have hstates : ((region.vertices.filter fun v => !(m.regionsOf v).isEmpty).mapM
          (m.captureState? height i)).isSome := by
        refine isSome_mapM fun v hv => ?_
        have hp : m.parent? v = some r :=
          h.mem_verticesOf.mp (by simpa [verticesOf, hreg] using (List.mem_filter.mp hv).1)
        have hknown := vertex?_isSome_of_parent? hp
        have hlt := h.owner?_lt hp ho
        have := vertex?_isSome_iff.mp hknown
        exact ih.1 v hknown (by omega)
      obtain ⟨current, hcurrent⟩ := Option.isSome_iff_exists.mp hcurrent
      obtain ⟨nodes, hnodes⟩ := Option.isSome_iff_exists.mp hstates
      simp [captureRegion?, hreg, hcurrent, hnodes]

theorem isSome_capture? (h : m.Arena) {i : Instance δ} (hi : m.Fits plain i) (id : Uuid) (timestamp : Instant) :
    (m.capture? i id timestamp).isSome := by
  obtain ⟨node, hnode⟩ := Option.isSome_iff_exists.mp
    ((isSome_capture h hi (2 * m.vertices.size)).1 root h.vertex?_root_isSome (by omega))
  simp [capture?, hnode]

theorem forall_mem_of_append {ε α : Type} {p : α → Prop} {x y : Except ε (List α)}
    (hx : ∀ l, x = .ok l → ∀ e ∈ l, p e) (hy : ∀ l, y = .ok l → ∀ e ∈ l, p e) {l : List α}
    (hl : (do return (← x) ++ (← y)) = Except.ok l) : ∀ e ∈ l, p e := by
  cases x with
  | error e => cases hl
  | ok l₁ =>
    cases y with
    | error e => cases hl
    | ok l₂ =>
      cases hl
      intro e he
      exact (List.mem_append.mp he).elim (hx l₁ rfl e) (hy l₂ rfl e)

mutual

theorem parent?_of_resolveState (h : m.Arena) (v : VertexId) (node : StateNode) {l : List (RegionId × VertexId)}
    (hl : m.resolveState v node = .ok l) : ∀ e ∈ l, m.parent? e.2 = some e.1 := by
  cases node with
  | mk name regions =>
    rw [resolveState] at hl
    exact parent?_of_resolveRegions h v regions hl

theorem parent?_of_resolveRegions (h : m.Arena) (v : VertexId) (nodes : List RegionNode)
    {l : List (RegionId × VertexId)} (hl : m.resolveRegions v nodes = .ok l) :
    ∀ e ∈ l, m.parent? e.2 = some e.1 := by
  cases nodes with
  | nil => rw [resolveRegions] at hl; cases hl; simp
  | cons node rest =>
    rw [resolveRegions] at hl
    cases hn : m.regionNamed? v node.name with
    | none => rw [hn] at hl; cases hl
    | some r =>
      rw [hn] at hl
      exact forall_mem_of_append (fun _ => parent?_of_resolveRegion h r node)
        (fun _ => parent?_of_resolveRegions h v rest) hl

theorem parent?_of_resolveRegion (h : m.Arena) (r : RegionId) (node : RegionNode) {l : List (RegionId × VertexId)}
    (hl : m.resolveRegion r node = .ok l) : ∀ e ∈ l, m.parent? e.2 = some e.1 := by
  cases node with
  | mk name current states =>
    rw [resolveRegion.eq_def] at hl
    simp only at hl
    have hrest : ∀ l, m.resolveStates r states = .ok l → ∀ e ∈ l, m.parent? e.2 = some e.1 :=
      fun _ => parent?_of_resolveStates h r states
    cases current with
    | none => exact forall_mem_of_append (x := .ok []) (by rintro _ ⟨⟩; simp) hrest hl
    | some name =>
      simp only at hl
      cases hn : m.vertexNamed? r name with
      | none => rw [hn] at hl; cases hl
      | some v =>
        rw [hn] at hl
        have hv : m.parent? v = some r := h.mem_verticesOf.mp (List.mem_of_find?_eq_some hn)
        exact forall_mem_of_append (x := .ok [(r, v)]) (by rintro _ ⟨⟩; simpa using hv) hrest hl

theorem parent?_of_resolveStates (h : m.Arena) (r : RegionId) (nodes : List StateNode)
    {l : List (RegionId × VertexId)} (hl : m.resolveStates r nodes = .ok l) :
    ∀ e ∈ l, m.parent? e.2 = some e.1 := by
  cases nodes with
  | nil => rw [resolveStates] at hl; cases hl; simp
  | cons node rest =>
    rw [resolveStates] at hl
    cases hn : m.vertexNamed? r node.name with
    | none => rw [hn] at hl; cases hl
    | some v =>
      rw [hn] at hl
      exact forall_mem_of_append (fun _ => parent?_of_resolveState h v node)
        (fun _ => parent?_of_resolveStates h r rest) hl

end

theorem Fits.foldl_setCurrent {l : List (RegionId × VertexId)} {i : Instance δ} (hi : m.Fits plain i)
    (hl : ∀ e ∈ l, m.parent? e.2 = some e.1 ∧ (plain = true → m.isState e.2 = true)) :
    m.Fits plain (l.foldl (fun i (r, v) => i.setCurrent r v) i) := by
  induction l generalizing i with
  | nil => exact hi
  | cons e l ih =>
    have he := hl e (by simp)
    exact ih (hi.setCurrent he.1 he.2) fun e he => hl e (List.mem_cons_of_mem _ he)

def NamesStates (m : Model μ δ) (s : Snapshot) : Prop :=
  ∀ l, m.resolveState root s.root = .ok l → ∀ e ∈ l, m.isState e.2 = true

theorem fits_restore (h : m.Arena) {i i' : Instance δ} (hi : m.Fits plain i) {s : Snapshot}
    (hs : plain = true → m.NamesStates s) (hr : m.restore s i = .ok i') : m.Fits plain i' := by
  unfold restore at hr
  split at hr
  · cases hl : m.resolveState root s.root with
    | error e => rw [hl] at hr; cases hr
    | ok l =>
      rw [hl] at hr; cases hr
      have hfits : m.Fits plain (l.foldl (fun i (r, v) => i.setCurrent r v) i) :=
        hi.foldl_setCurrent fun e he => ⟨parent?_of_resolveState h root s.root hl e he, fun hp => hs hp l hl e he⟩
      exact hfits.congr rfl
  · cases hr

end Model

/-! ## Closed models -/

/-- Every identity that the model holds stands for something, every vertex has a path from the root, and the chains of
two vertices both have a vertex where they part. -/
structure Model.Closed (m : Model μ δ) : Prop where
  vertex : ∀ v record, m.vertex? v = some record → (∀ r, record.parent = some r → (m.region? r).isSome) ∧
    (∀ r ∈ record.regions, (m.region? r).isSome) ∧ ∀ t ∈ record.outgoing, (m.transition? t).isSome
  region : ∀ r region, m.region? r = some region →
    (m.vertex? region.parent).isSome ∧ ∀ v ∈ region.vertices, (m.vertex? v).isSome
  transition : ∀ t record, m.transition? t = some record →
    (m.vertex? record.source).isSome ∧ ∀ u, record.target = some u → (m.vertex? u).isSome
  path : ∀ v, (m.vertex? v).isSome → (m.path? v).isSome ∧ ∀ w ∈ m.chain v, (m.vertex? w).isSome
  divergence : ∀ v w, m.divergence (m.chain v) (m.chain w) < (m.chain v).length ∧
    m.divergence (m.chain v) (m.chain w) < (m.chain w).length

structure Program.Covers (p : Program μ δ) (m : Model μ δ) : Prop where
  regions : p.regions.size = m.regions.size
  vertices : p.vertices.size = m.vertices.size
  routes : p.routes.size = m.transitions.size

namespace Model

variable {m : Model μ δ}

theorem closed_of_arena (h : m.Arena) : m.Closed where
  vertex := by
    intro v record hv
    refine ⟨fun r hr => region?_isSome_of_parent? h (parent?_eq_some.mpr ⟨record, hv, hr⟩), fun r hr => ?_, fun t ht => ?_⟩
    · exact region?_isSome_of_mem h (v := v) (by simpa [regionsOf, hv] using hr)
    · obtain ⟨record', hrec, _⟩ := h.source_of_mem_outgoing (t := t) (v := v) (by simpa [outgoing, hv] using ht)
      simp [hrec]
  region := by
    intro r region hr
    refine ⟨?_, fun v hv => ?_⟩
    · exact vertex?_isSome_of_isState (h.isState_of_owner? (owner?_eq_some.mpr ⟨region, hr, rfl⟩))
    · exact vertex?_isSome_of_parent? (h.mem_verticesOf.mp (show v ∈ m.verticesOf r by simpa [verticesOf, hr] using hv))
  transition := fun t record ht => ⟨h.source_isSome ht, fun u hu => h.target_isSome ht hu⟩
  path := fun v hv => ⟨by rw [path?_isSome h hv]; rfl, fun w hw => vertex?_isSome_of_mem_chain h v hv hw⟩
  divergence := divergence_lt

theorem covers_compile (m : Model μ δ) : m.compile.Covers m where
  regions := by simp [compile, compileWith, regionIds]
  vertices := by simp [compile, compileWith, vertexIds]
  routes := by simp [compile, compileWith, transitionIds]

end Model

/-! ## Interleavings -/

/-- The machines and instances that any interleaving of operations and calls leads to. Where `plain` is set, no
snapshot that is restored names a pseudo state. -/
inductive Reachable (plain : Bool) : Machine μ δ → Instance δ → Prop
  | start (name : String) (data : δ) : Reachable plain (.ofName name) { data }
  | edit {m : Machine μ δ} {i : Instance δ} (e : Edit μ δ) (he : e.Uses Action.Tame) :
      Reachable plain m i → Reachable plain (e.apply m) i
  | compile {m : Machine μ δ} {i : Instance δ} : Reachable plain m i → Reachable plain m.compile i
  | initialise {m : Machine μ δ} {i i' : Instance δ} {σ : Type} (c : Context σ) (fuel : Nat) (s : σ) :
      Reachable plain m i → Machine.Leaves (m.initialise c fuel i s).2 i' →
      Reachable plain (m.initialise c fuel i s).1 i'
  | evaluate {m : Machine μ δ} {i i' : Instance δ} {σ : Type} (c : Context σ) (fuel : Nat) (message : μ) (s : σ) :
      Reachable plain m i → Machine.Leaves (m.evaluate c fuel message i s).2 i' →
      Reachable plain (m.evaluate c fuel message i s).1 i'
  | initialiseCompiled {m : Machine μ δ} {i i' : Instance δ} {σ : Type} (c : Context σ) (fuel : Nat) (s : σ) :
      Reachable plain m i → Machine.Leaves (m.initialiseCompiled c fuel { inst := i, outside := s }) i' →
      Reachable plain m i'
  | evaluateCompiled {m : Machine μ δ} {i i' : Instance δ} {σ : Type} (c : Context σ) (fuel : Nat) (message : μ)
      (s : σ) : Reachable plain m i →
      Machine.Leaves (m.evaluateCompiled c fuel message { inst := i, outside := s }) i' → Reachable plain m i'
  | restore {m : Machine μ δ} {i i' : Instance δ} (s : Snapshot) (hs : plain = true → m.NamesStates s) :
      Reachable plain m i → m.restore s i = .ok i' → Reachable plain m i'

namespace Reachable

variable {plain : Bool} {m : Machine μ δ} {i : Instance δ}

theorem confined (h : Reachable plain m i) : m.Sound ∧ m.Tame ∧ m.Fits plain i := by
  induction h with
  | start name data => exact ⟨Machine.sound_ofName name, Model.tame_ofName name, Model.fits_empty data⟩
  | @edit m i e he _ ih =>
    have hkeep : ∀ m m' : Model μ δ, m.Arena → Model.Change Action.Tame m m' → (m.Tame ∧ m.Fits plain i) →
        m'.Tame ∧ m'.Fits plain i := fun m m' _ hc hm =>
      ⟨hc.tame hm.1, fun r v hv => ⟨hc.parent? (hm.2 r v hv).1, fun hp => hc.isState ((hm.2 r v hv).2 hp)⟩⟩
    have hm := e.soundWith_apply hkeep ⟨ih.1, ih.2⟩ he
    exact ⟨hm.1, hm.2⟩
  | compile _ ih => exact ⟨ih.1.compile, ih.2⟩
  | initialise c fuel s _ hl ih =>
    obtain ⟨heq, hs, _, hfits⟩ := Machine.safe_initialise (c := c) ih.1 ih.2.1 ih.2.2 fuel s
    rw [heq]; exact ⟨hs, ih.2.1, hfits _ hl⟩
  | evaluate c fuel message s _ hl ih =>
    obtain ⟨heq, hs, _, hfits⟩ := Machine.safe_evaluate (c := c) ih.1 ih.2.1 ih.2.2 fuel message s
    rw [heq]; exact ⟨hs, ih.2.1, hfits _ hl⟩
  | initialiseCompiled c fuel s _ hl ih =>
    exact ⟨ih.1, ih.2.1, (Machine.safe_of_confined (Machine.confined_initialiseCompiled ih.1 ih.2.1 fuel) ih.2.2 s).2 _ hl⟩
  | evaluateCompiled c fuel message s _ hl ih =>
    exact ⟨ih.1, ih.2.1,
      (Machine.safe_of_confined (Machine.confined_evaluateCompiled ih.1 ih.2.1 fuel message) ih.2.2 s).2 _ hl⟩
  | restore s hs _ hr ih => exact ⟨ih.1, ih.2.1, Model.fits_restore ih.1.arena ih.2.2 hs hr⟩

theorem edited (h : Reachable plain m i) {edits : List (Edit μ δ)} (he : ∀ e ∈ edits, e.Uses Action.Tame) :
    Reachable plain (m.edited edits) i := by
  induction edits generalizing m with
  | nil => exact h
  | cons e edits ih => exact ih (h.edit e (he e (by simp))) fun e he' => he e (List.mem_cons_of_mem _ he')

/-- Records stay inside the model, and no call looks for what is not there. -/
theorem stays_inside (h : Reachable plain m i) :
    (∀ r v, i.current? r = some v → (m.region? r).isSome ∧ (m.vertex? v).isSome ∧ m.parent? v = some r ∧
      (plain = true → m.isState v = true)) ∧
    m.toModel.Closed ∧ (∀ p, m.program = some p → p.Covers m.toModel) ∧
    (∀ v, (m.vertex? v).isSome → (m.isActive? i v).isSome ∧ (m.isComplete? i v).isSome) ∧
    (∀ id timestamp, (m.capture? i id timestamp).isSome) ∧
    ∀ {σ : Type} (c : Context σ) (fuel : Nat) (s : σ),
      ¬ Machine.Panics (m.initialise c fuel i s).2 ∧
      ¬ Machine.Panics (m.initialiseCompiled c fuel { inst := i, outside := s }) ∧
      ∀ message, ¬ Machine.Panics (m.evaluate c fuel message i s).2 ∧
        ¬ Machine.Panics (m.evaluateCompiled c fuel message { inst := i, outside := s }) := by
  obtain ⟨hm, ht, hi⟩ := h.confined
  refine ⟨fun r v hv => ?_, Model.closed_of_arena hm.arena, fun p hp => ?_, fun v hv => ?_, fun id timestamp => ?_,
    fun c fuel s => ⟨?_, ?_, fun message => ⟨?_, ?_⟩⟩⟩
  · exact ⟨Model.region?_isSome_of_parent? hm.arena (hi r v hv).1, hi.vertex?_isSome hv, hi r v hv⟩
  · rw [hm.program p hp]; exact Model.covers_compile m.toModel
  · exact ⟨by rw [Model.isActive?_eq hm.arena hv]; rfl, Model.isComplete?_isSome hi hv⟩
  · exact Model.isSome_capture? hm.arena hi id timestamp
  · exact (Machine.safe_initialise hm ht hi fuel s).2.2.1
  · exact (Machine.safe_of_confined (Machine.confined_initialiseCompiled hm ht fuel) hi s).1
  · exact (Machine.safe_evaluate hm ht hi fuel message s).2.2.1
  · exact (Machine.safe_of_confined (Machine.confined_evaluateCompiled hm ht fuel message) hi s).1

def lamp : Machine String Unit :=
  (Machine.ofName "lamp").edited [.addState (.state root) "off", .addPseudoState (.region ⟨0⟩) "start" .initial,
    .addTransition (.between ⟨2⟩ ⟨1⟩), .addState (.region ⟨0⟩) "on",
    .addTransition ((Draft.between ⟨1⟩ ⟨3⟩).on "press")]

def lampOff : Snapshot :=
  { version := Snapshot.currentVersion, id := Uuid.zero, timestamp := Instant.epoch, machine := "lamp",
    terminated := false, root := .mk "lamp" [.mk defaultRegionName (some "off") []] }

/-- The lamp is switched on, its model grows, and what is restored is from before. -/
theorem stays_inside_lamp :
    ∃ (m : Machine String Unit) (i : Instance Unit), Reachable true m i ∧ m.isClean = false ∧
      i.current? ⟨0⟩ = some ⟨1⟩ ∧ ¬ Machine.Panics (m.evaluate Context.strict 50 "press" i ()).2 := by
  have hlamp : Reachable true lamp { data := () } :=
    (Reachable.start "lamp" ()).edited (by simp [Edit.Uses, Draft.between, Draft.on, Draft.guarded])
  have hoff : Reachable true _ { records := ⟨[(⟨0⟩, ⟨1⟩)]⟩, data := () } := hlamp.initialise Context.strict 50 () rfl
  have hon : Reachable true _ { records := ⟨[(⟨0⟩, ⟨3⟩)]⟩, data := () } :=
    hoff.evaluate Context.strict 50 "press" () rfl
  have hgrown := hon.edit (.addState (.state ⟨3⟩) "bright") trivial
  have hback : Reachable true _ { records := ⟨[(⟨0⟩, ⟨1⟩)]⟩, data := () } :=
    hgrown.restore lampOff (fun _ l hl => by cases hl; decide) rfl
  exact ⟨_, _, hback, rfl, rfl, ((hback.stays_inside.2.2.2.2.2 Context.strict 50 ()).2.2 "press").1⟩

end Reachable

end Statechart
