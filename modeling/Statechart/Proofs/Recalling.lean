import Mathlib.Data.List.Perm.Basic
import Statechart.Proofs.Entering
import Statechart.Proofs.Leaving

/-!
# Recalling by the records

Deep history enters what is recorded beneath its region, state by state from above. What is recorded is entered and
recorded again as it was, so the records come out as they went in, whatever the regions on the way are headed by.
-/

namespace Statechart

variable {μ δ σ : Type}

def Event.entersRegion : Event μ δ → Bool
  | .entered (.region _) => true
  | _ => false

def Event.IsArrival : Event μ δ → Prop
  | .entered _ | .acted (.entry _) => True
  | _ => False

namespace Model

variable {m : Model μ δ} {i i' : Instance δ} {v w x : VertexId} {q r : RegionId} {trigger : Trigger μ}

/-! ## What is entered, in its order -/

def recallsWithin (m : Model μ δ) (i : Instance δ) : Nat → VertexId → List VertexId
  | 0, _ => []
  | height + 1, v => v :: (m.regionsOf v).flatMap fun r => (i.current? r).elim [] (recallsWithin m i height)

/-- `v` first, and then what the records lead down to from it, region by region. -/
def recalls (m : Model μ δ) (i : Instance δ) (v : VertexId) : List VertexId :=
  m.recallsWithin i m.vertices.size v

def entries (m : Model μ δ) (i : Instance δ) (v : VertexId) : List (VertexId × Action μ δ) :=
  (m.recalls i v).flatMap fun w => (m.entryActions w).map (w, ·)

def enlist (m : Model μ δ) (trigger : Trigger μ) (i : Instance δ) (v : VertexId) : Instance δ :=
  let acted := (m.entryActions v).foldl (fun i a => a trigger i) i
  (m.parent? v).elim acted (acted.setCurrent · v)

def entryWalk (m : Model μ δ) (trigger : Trigger μ) : Walk μ δ where
  visit := m.enlist trigger
  tell := m.entryEvents
  aside := Event.entersRegion

def OnRecord (m : Model μ δ) (i : Instance δ) (v : VertexId) : Prop := ∃ r, m.parent? v = some r ∧ i.current? r = some v

theorem length_entryActions (m : Model μ δ) (v : VertexId) : (m.entryActions v).length = m.entryCount v := by
  unfold entryActions entryCount
  cases (m.vertex? v).bind (·.state?) <;> rfl

theorem beginEnterVertex_eq (hp : m.parent? v = some r) (hs : m.isState v = true) : m.beginEnterVertex v =
    .announceEnter (.vertex v) :: (m.entryActions v).map (.act (.entry v)) ++ [.record r v] := by
  obtain ⟨record, content, hrec, hf⟩ := isState_iff.mp hs
  rw [parent?, hrec, Option.bind_some] at hp
  simp [beginEnterVertex, entryActions, hrec, hf, hp, Vertex.state?]

theorem current?_enlist (trigger : Trigger μ) (ht : m.Tame) (hv : m.OnRecord i v) (q : RegionId) :
    (m.enlist trigger i v).current? q = i.current? q := by
  obtain ⟨r, hp, hr⟩ := hv
  have hacted : ((m.entryActions v).foldl (fun i a => a trigger i) i).records = i.records :=
    (Eval.foldl_tame ((tame_iff.mp ht).entryActions) i).1
  rw [enlist, hp, Option.elim_some, Instance.current?_setCurrent]
  split
  case isTrue hq => rw [← hq, hr]
  case isFalse => rw [Instance.current?, hacted]; rfl

theorem terminated_enlist (ht : m.Tame) (i : Instance δ) (v : VertexId) :
    (m.enlist trigger i v).terminated = i.terminated := by
  have hacted : ((m.entryActions v).foldl (fun i a => a trigger i) i).terminated = i.terminated :=
    (Eval.foldl_tame ((tame_iff.mp ht).entryActions) i).2
  rw [enlist]
  cases m.parent? v <;> exact hacted

theorem OnRecord.congr (hv : m.OnRecord i v) (hi : ∀ q, i'.current? q = i.current? q) : m.OnRecord i' v := by
  obtain ⟨r, hp, hr⟩ := hv
  exact ⟨r, hp, (hi r).trans hr⟩

theorem enlist_onRecord (trigger : Trigger μ) (ht : m.Tame) {vs : List VertexId} (hvs : ∀ v ∈ vs, m.OnRecord i v) :
    (∀ q, (vs.foldl (m.enlist trigger) i).current? q = i.current? q) ∧
      (vs.foldl (m.enlist trigger) i).terminated = i.terminated := by
  induction vs generalizing i with
  | nil => exact ⟨fun _ => rfl, rfl⟩
  | cons v vs ih =>
    have hv := current?_enlist trigger ht (hvs v List.mem_cons_self)
    obtain ⟨hcurrent, hterminated⟩ := ih (i := m.enlist trigger i v) fun w hw =>
      (hvs w (List.mem_cons_of_mem v hw)).congr hv
    exact ⟨fun q => (hcurrent q).trans (hv q), hterminated.trans (terminated_enlist ht i v)⟩

section
variable (h : m.Arena) (hi : m.Fits false i)
include h hi

theorem recalls_eq (hv : (m.vertex? v).isSome) : m.recalls i v =
    v :: (m.regionsOf v).flatMap fun r => (i.current? r).elim [] (m.recalls i) := by
  have hsucc : m.recallsWithin i (m.vertices.size + 1) v = m.recallsWithin i m.vertices.size v := by
    refine hi.eq_succ h (f := m.recallsWithin i) (fun n n' v heq => ?_) m.vertices.size v (by omega) hv
    rw [recallsWithin, recallsWithin]
    congr 1
    refine List.flatMap_congr fun r hr => ?_
    cases hx : i.current? r with
    | none => rfl
    | some x => exact heq r hr x hx
  rw [recalls, ← hsucc]
  rfl

theorem entries_eq (hv : (m.vertex? v).isSome) : m.entries i v =
    (m.entryActions v).map (v, ·) ++ (m.regionsOf v).flatMap fun r => (i.current? r).elim [] (m.entries i) := by
  rw [entries, recalls_eq h hi hv, List.flatMap_cons, List.flatMap_assoc]
  congr 1
  refine List.flatMap_congr fun r _ => ?_
  cases i.current? r <;> rfl

theorem perm_departures (v : VertexId) (hv : (m.vertex? v).isSome) : (m.recalls i v).Perm (m.departures i v) := by
  refine hi.induction h (motive := fun v => (m.recalls i v).Perm (m.departures i v)) (fun v hv ih => ?_) v hv
  rw [recalls_eq h hi hv, departures_eq h hi hv]
  refine (List.Perm.cons v (List.Perm.flatMap_left _ fun r hr => ?_)).trans (List.perm_append_singleton v _).symm
  cases hx : i.current? r with
  | none => exact .refl _
  | some x => exact ih r hr x hx

omit h in
theorem Reached.onRecord (hw : m.Reached i v w) (hv : m.OnRecord i v) : m.OnRecord i w := by
  induction hw with
  | refl => exact hv
  | step _ hx _ ih => exact ih ⟨_, (hi _ _ hx).1, hx⟩

theorem onRecord_of_mem_recalls (hv : m.OnRecord i v) : ∀ w ∈ m.recalls i v, m.OnRecord i w := by
  intro w hw
  have hknown := hv.elim fun _ hr => vertex?_isSome_of_parent? hr.1
  have hw' := (perm_departures h hi v hknown).subset hw
  exact ((mem_departures h hi v hknown).mp hw').onRecord hi hv

end

end Model

namespace Eval

open Model

variable {m : Model μ δ} {plainly : RegionId → Bool} {c : Context σ} {mode : Mode μ} {trigger : Trigger μ}
variable {vs ws : List VertexId} {run mid run' : Run μ δ σ} {i : Instance δ} {v : VertexId}

/-! ## Entering a list of vertices -/

abbrev Returns (m : Model μ δ) (trigger : Trigger μ) (vs : List VertexId) (run run' : Run μ δ σ) : Prop :=
  Goes (m.entryWalk trigger) vs run run'

theorem Returns.inst_eq (hv : Returns m trigger vs run run') : run'.inst = vs.foldl (m.enlist trigger) run.inst :=
  hv.inst

theorem Returns.causes (hv : Returns m trigger vs run run') : ∃ new, run'.events = new ++ run.events ∧
    (∀ event ∈ new, event.IsArrival) ∧
      new.reverse.filterMap (·.cause?) = vs.flatMap fun v => List.replicate (m.entryCount v) (.entry v) := by
  refine Goes.causes hv (fun v => rfl) (fun event he => ?_) (fun v => ⟨trivial, rfl⟩) fun v => trivial
  cases event with
  | entered element => exact ⟨trivial, rfl⟩
  | _ => cases he

/-! ## Entering performs the walk -/

variable (plainly c mode) in
theorem exists_enlisted {r : RegionId} (hp : m.parent? v = some r) (hs : m.isState v = true) (run : Run μ δ σ) :
    ∃ run', Performs m plainly c mode (m.beginEnterVertex v) run run' ∧ Returns m mode.trigger [v] run run' := by
  have hannounce : Takes m plainly c mode (.announceEnter (.vertex v)) run _ := takes_announceEnter (.vertex v)
  obtain ⟨mid, hacts, hinst, harrived, hevents⟩ := exists_acts m plainly c mode (.entry v) (m.entryActions v)
    { run.note (.entered (.vertex v)) with outside := c.log (m.qualifiedName (.vertex v) ++ " enter") run.outside }
  rw [beginEnterVertex_eq hp hs]
  rw [length_entryActions] at hevents
  refine ⟨_, (Performs.cons hannounce hacts).append (.single (takes_record r v)), .visit rfl rfl rfl ?_ harrived hevents⟩
  simp only [entryWalk, enlist, hp, Option.elim_some, Run.inst_update, hinst]
  rfl

/-- The records lead on from `v`, from state to state, through every region on the way, and none of these regions is
entered plainly. -/
def LeadsOn (m : Model μ δ) (plainly : RegionId → Bool) (i : Instance δ) (v : VertexId) : Prop :=
  ∀ w, m.Reached i v w → m.isState w = true ∧ ∀ q ∈ m.regionsOf w, (i.current? q).isSome ∧ plainly q = false

section
variable (h : m.Arena) (hi : m.Fits false i) (ht : m.Tame)
include h hi ht

variable (mode) in
theorem exists_returns_regions (rs : List RegionId) (hplain : ∀ r ∈ rs, plainly r = false) (hdeep : mode.deep = true)
    (hl : ∀ r ∈ rs, ∃ x, i.current? r = some x ∧ ∀ run : Run μ δ σ, (∀ q, run.inst.current? q = i.current? q) →
      ∃ mid run', Performs m plainly c mode (m.beginEnterVertex x) run mid ∧
        Performs m plainly c mode (m.endEnterVertex plainly x) mid run' ∧
        Returns m mode.trigger (m.recalls i x) run run')
    (run : Run μ δ σ) (hrun : ∀ q, run.inst.current? q = i.current? q) :
    ∃ run', Performs m plainly c mode (rs.flatMap fun r => beginEnterRegion r ++ m.endEnterRegion plainly r) run run' ∧
      Returns m mode.trigger (rs.flatMap fun r => (i.current? r).elim [] (m.recalls i)) run run' := by
  -- Region by region: every run on the way has the records of `i`.
  induction rs generalizing run with
  | nil => exact ⟨run, .nil, .refl run⟩
  | cons r rs ih =>
    have hannounce : Takes m plainly c mode (.announceEnter (.region r)) run _ := takes_announceEnter (.region r)
    obtain ⟨x, hx, hreturn⟩ := hl r List.mem_cons_self
    obtain ⟨mid, next, hbegin, hend, hreturns⟩ := hreturn { run.note (.entered (.region r)) with
      outside := c.log (m.qualifiedName (.region r) ++ " enter") run.outside } hrun
    have hregion := (Goes.aside (.entered (.region r)) rfl run _).append hreturns
    rw [List.nil_append] at hregion
    have hentered : entered? run.inst mode.deep r (m.head? r) (m.headKind? r) = some x := by
      simp [entered?, hdeep, hrun, hx]
    -- The mode is deep already, so the kind of history that heads the region makes no difference.
    have hmode : { mode with deep := mode.deep || m.headKind? r == some .deepHistory } = mode := by
      cases mode
      simp_all
    have henter : Performs m plainly c mode (m.endEnterRegion plainly r)
        { run.note (.entered (.region r)) with
          outside := c.log (m.qualifiedName (.region r) ++ " enter") run.outside } next := by
      rw [endEnterRegion_eq (Or.inr (hplain r List.mem_cons_self))]
      rw [← hmode] at hbegin hend
      exact .single (takes_enterRegion hentered (hi.vertex?_isSome hx) hbegin hend)
    have hrecorded : ∀ w ∈ m.recalls i x, m.OnRecord run.inst w := fun w hw =>
      (onRecord_of_mem_recalls h hi ⟨r, (hi r x hx).1, hx⟩ w hw).congr hrun
    obtain ⟨run', hrest, hreturns'⟩ := ih (fun q hq => hplain q (List.mem_cons_of_mem r hq))
      (fun q hq => hl q (List.mem_cons_of_mem r hq)) next fun q => by
        rw [Returns.inst_eq hregion, (enlist_onRecord _ ht hrecorded).1, hrun]
    refine ⟨run', ?_, ?_⟩
    · rw [List.flatMap_cons]
      exact ((Performs.single hannounce).append henter).append hrest
    · rw [List.flatMap_cons, hx]
      exact hregion.append hreturns'

variable (c) in
theorem exists_returns (v : VertexId) (hv : m.OnRecord i v) (hon : LeadsOn m plainly i v) (mode : Mode μ)
    (hdeep : mode.deep = true) (run : Run μ δ σ) (hrun : ∀ q, run.inst.current? q = i.current? q) : ∃ mid run',
      Performs m plainly c mode (m.beginEnterVertex v) run mid ∧
      Performs m plainly c mode (m.endEnterVertex plainly v) mid run' ∧
      Returns m mode.trigger (m.recalls i v) run run' := by
  have hknown := hv.elim fun _ hr => vertex?_isSome_of_parent? hr.1
  -- What is recorded stays the same all along, so the induction is down the records of `i`, for any run that has them.
  refine hi.induction h (motive := fun v => m.OnRecord i v → LeadsOn m plainly i v → ∀ run : Run μ δ σ,
    (∀ q, run.inst.current? q = i.current? q) → ∃ mid run',
      Performs m plainly c mode (m.beginEnterVertex v) run mid ∧
      Performs m plainly c mode (m.endEnterVertex plainly v) mid run' ∧
      Returns m mode.trigger (m.recalls i v) run run') (fun v hknown ih hv hon run hrun => ?_) v hknown hv hon run hrun
  obtain ⟨r, hp, hr⟩ := hv
  have hs := (hon v (.refl v)).1
  obtain ⟨mid, hbegin, henlisted⟩ := exists_enlisted plainly c mode hp hs run
  have hmid : ∀ q, mid.inst.current? q = i.current? q := fun q => by
    have hrecorded : m.OnRecord run.inst v := ⟨r, hp, (hrun r).trans hr⟩
    rw [henlisted.inst_eq, List.foldl_cons, List.foldl_nil, current?_enlist _ ht hrecorded, hrun]
  obtain ⟨run', hend, hreturns⟩ := exists_returns_regions mode h hi ht (m.regionsOf v)
    (fun q hq => ((hon v (.refl v)).2 q hq).2) hdeep (fun q hq => by
      obtain ⟨x, hx⟩ := Option.isSome_iff_exists.mp ((hon v (.refl v)).2 q hq).1
      exact ⟨x, hx, ih q hq x hx ⟨q, (hi q x hx).1, hx⟩ fun w hw => hon w (.step hq hx hw)⟩) mid hmid
  refine ⟨mid, run', hbegin, ?_, ?_⟩
  · rw [endEnterVertex_of_isState hs]
    exact hend
  · rw [recalls_eq h hi hknown]
    exact henlisted.append hreturns

end

end Eval

namespace Model

variable {m : Model μ δ}

theorem region_compileWith {plainly : RegionId → Bool} {r : RegionId} (hr : (m.region? r).isSome) :
    (m.compileWith plainly).regions[r.index]? = some (m.regionBehavior plainly r) := by
  have hlt : r.index < m.regions.size := by simpa [region?] using hr
  simp [compileWith, regionIds, hlt]

theorem isEnteredPlainly_of_reached (h : m.Arena) {i : Instance δ} (hi : m.Fits false i) {r : RegionId}
    (hr : m.isUnderDeepHistory r = true ∨ (m.headKind? r == some .deepHistory) = true) {x w : VertexId}
    (hx : m.parent? x = some r) (hw : m.Reached i x w) : ∀ q ∈ m.regionsOf w, m.isEnteredPlainly q = false := by
  induction hw generalizing r with
  | refl v =>
    intro q hq
    simp [isEnteredPlainly, isUnderDeepHistory_of_owner h hx (h.mem_regionsOf.mp hq) hr]
  | step hs hy _ ih =>
    exact ih (Or.inl (isUnderDeepHistory_of_owner h hx (h.mem_regionsOf.mp hs) hr)) (hi _ _ hy).1

end Model

namespace Machine

/-- Where a region is headed by deep history and the records lead all the way down from it, the steps by which it is
entered run the entry actions of what is recorded, each state before what is beneath it, and come to their end with
every record as it was. They follow nothing and report nothing. -/
theorem Built.brings_back {m : Machine μ δ} (hm : m.Built) (ht : m.Tame) {p : Program μ δ} (hp : m.program = some p)
    (c : Context σ) (mode : Eval.Mode μ) {run : Run μ δ σ} (hi : m.Fits true run.inst) {r : RegionId}
    (hkind : m.headKind? r = some .deepHistory) {x : VertexId} (hx : run.inst.current? r = some x)
    (hall : ∀ w, m.Reached run.inst x w → ∀ q ∈ m.regionsOf w, (run.inst.current? q).isSome) :
    (∀ w, (m.vertex? w).isSome → m.entries run.inst w = (m.entryActions w).map (w, ·) ++
      (m.regionsOf w).flatMap fun q => (run.inst.current? q).elim [] (m.entries run.inst)) ∧
    (∀ w, w ∈ m.recalls run.inst x ↔ m.Reached run.inst x w) ∧ (m.recalls run.inst x).Nodup ∧
    ∃ b run', p.regions[r.index]? = some b ∧
      Eval.Settles (fun fuel => Eval.perform m.toModel p c fuel mode b.endEnter) run run' ∧
      (∀ q, run'.inst.current? q = run.inst.current? q) ∧ run'.inst.terminated = run.inst.terminated ∧
      run'.arrived = run.arrived ∧ run'.inst = (m.recalls run.inst x).foldl (m.enlist mode.trigger) run.inst ∧
      ∃ new, run'.events = new ++ run.events ∧ (∀ event ∈ new, event.IsArrival) ∧
        new.reverse.filterMap (·.cause?) = (m.entries run.inst x).map fun e => .entry e.1 := by
  have h := hm.sound.arena
  obtain rfl := hm.sound.program p hp
  have hfits : m.Fits false run.inst := hi.weaken
  have hparent := (hi r x hx).1
  have hknown := Model.vertex?_isSome_of_parent? hparent
  have hperm := Model.perm_departures h hfits x hknown
  have hrecorded : m.OnRecord run.inst x := ⟨r, hparent, hx⟩
  have hplain : m.isEnteredPlainly r = false := by simp [Model.isEnteredPlainly, hkind]
  have hentered : Eval.entered? run.inst mode.deep r (m.head? r) (m.headKind? r) = some x := by
    simp [Eval.entered?, hkind, PseudoKind.isHistory, hx]
  -- Beneath deep history no region is entered plainly, so at each one the record is looked at.
  have hon : Eval.LeadsOn m.toModel m.isEnteredPlainly run.inst x := fun w hw => by
    obtain ⟨q, _, hq⟩ := hw.onRecord hfits hrecorded
    exact ⟨(hi q w hq).2 rfl, fun p hp =>
      ⟨hall w hw p hp, Model.isEnteredPlainly_of_reached h hfits (Or.inr (by simp [hkind])) hparent hw p hp⟩⟩
  obtain ⟨mid, run', hbegin, hend, hreturns⟩ := Eval.exists_returns c h hfits ht x hrecorded hon
    { mode with deep := mode.deep || m.headKind? r == some .deepHistory } (by simp [hkind]) run fun _ => rfl
  obtain ⟨new, hnew, hall, hcauses⟩ := hreturns.causes
  obtain ⟨hcurrent, hterminated⟩ := Model.enlist_onRecord mode.trigger ht
    (Model.onRecord_of_mem_recalls h hfits hrecorded)
  obtain ⟨o, ho⟩ := h.owner?_of_parent? hparent
  have hregion : (m.region? r).isSome := by
    obtain ⟨region, hregion, _⟩ := Model.owner?_eq_some.mp ho
    simp [hregion]
  refine ⟨fun w hw => Model.entries_eq h hfits hw, fun w => hperm.mem_iff.trans (Model.mem_departures h hfits x hknown),
    hperm.nodup_iff.mpr (Model.nodup_departures h hfits x hknown), m.regionBehavior m.isEnteredPlainly r, run',
    Model.region_compileWith hregion, ?_, fun q => by rw [hreturns.inst_eq, hcurrent],
    by rw [hreturns.inst_eq, hterminated], hreturns.arrived, hreturns.inst_eq, new, hnew, hall, ?_⟩
  · change Eval.Performs m.toModel m.isEnteredPlainly c mode (m.endEnterRegion m.isEnteredPlainly r) run run'
    rw [Model.endEnterRegion_eq (Or.inr hplain)]
    exact .single (Eval.takes_enterRegion hentered hknown hbegin hend)
  · rw [hcauses, Model.entries, List.map_flatMap]
    refine List.flatMap_congr fun w _ => ?_
    simp [← Model.length_entryActions, Function.comp_def]

/-- A job is taken up where it was put down: the hands busy, the head keen, though one region starts afresh by default
and the other knows only its last state. Each part says when it is back. -/
def job : Machine String (List String) :=
  (ofName "m").edited [.addState (.state root) "job", .addPseudoState (.state ⟨1⟩) "last" .deepHistory,
    .addState (.state ⟨1⟩) "work", .addTransition (.between ⟨2⟩ ⟨3⟩), .addRegion ⟨3⟩ "hands", .addRegion ⟨3⟩ "head",
    .addPseudoState (.region ⟨2⟩) "start" .initial, .addState (.region ⟨2⟩) "idle", .addTransition (.between ⟨4⟩ ⟨5⟩),
    .addState (.region ⟨2⟩) "busy", .addPseudoState (.region ⟨3⟩) "last" .shallowHistory,
    .addState (.region ⟨3⟩) "calm", .addTransition (.between ⟨7⟩ ⟨8⟩), .addState (.region ⟨3⟩) "keen",
    .onEntry ⟨3⟩ fun _ i => { i with data := i.data ++ ["work"] },
    .onEntry ⟨5⟩ fun _ i => { i with data := i.data ++ ["idle"] },
    .onEntry ⟨6⟩ fun _ i => { i with data := i.data ++ ["busy"] },
    .onEntry ⟨8⟩ fun _ i => { i with data := i.data ++ ["calm"] },
    .onEntry ⟨9⟩ fun _ i => { i with data := i.data ++ ["keen"] }]

def putDown : Run String (List String) Unit where
  inst := ((({ data := [] } : Instance (List String)).setCurrent ⟨1⟩ ⟨3⟩).setCurrent ⟨2⟩ ⟨6⟩).setCurrent ⟨3⟩ ⟨9⟩
  outside := ()

theorem brings_back_job : ∃ b run', job.toModel.compile.regions[1]? = some b ∧
    Eval.Settles (fun fuel => Eval.perform job.toModel job.toModel.compile Context.strict fuel
      { trigger := .message "resume" } b.endEnter) putDown run' ∧
    (∀ q, run'.inst.current? q = putDown.inst.current? q) ∧ run'.inst.data = ["work", "busy", "keen"] := by
  have hbuilt : job.compile.Built := .compile ((Built.ofName "m").edited _)
  have htame : job.compile.Tame := by
    rw [toModel_compile]
    exact tame_edited "m" (by simp [Edit.Uses, Draft.between, Action.Tame])
  have hempty : job.compile.Fits true { data := [] } := Model.fits_empty []
  have hfits : job.compile.Fits true putDown.inst :=
    ((hempty.setCurrent (r := ⟨1⟩) (v := ⟨3⟩) (by decide +kernel) (by decide +kernel)).setCurrent (r := ⟨2⟩) (v := ⟨6⟩)
      (by decide +kernel) (by decide +kernel)).setCurrent (r := ⟨3⟩) (v := ⟨9⟩) (by decide +kernel) (by decide +kernel)
  have hall : ∀ w, job.compile.Reached putDown.inst ⟨3⟩ w → ∀ q ∈ job.compile.regionsOf w,
      (putDown.inst.current? q).isSome := by
    intro w hw
    have hwalk : ∀ v ∈ job.compile.departures putDown.inst ⟨3⟩, ∀ q ∈ job.compile.regionsOf v,
        (putDown.inst.current? q).isSome := by decide +kernel
    exact hwalk w ((Model.mem_departures hbuilt.sound.arena hfits.weaken ⟨3⟩ (by decide +kernel)).mpr hw)
  obtain ⟨_, _, _, b, run', hb, hsettles, hcurrent, _, _, hinst, _⟩ := Built.brings_back hbuilt htame rfl Context.strict
    { trigger := .message "resume" } hfits (r := ⟨1⟩) (by decide +kernel) (x := ⟨3⟩) (by decide +kernel) hall
  rw [toModel_compile] at hsettles
  exact ⟨b, run', hb, hsettles, hcurrent, by rw [hinst]; decide +kernel⟩

end Machine

end Statechart
