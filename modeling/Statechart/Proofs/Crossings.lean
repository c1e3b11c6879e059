import Mathlib.Order.Bounds.Defs
import Statechart.Proofs.Entering
import Statechart.Proofs.Leaving
import Statechart.Proofs.Partings
import Statechart.Proofs.Turns

/-!
# What one transition does

A transition from an active state to a state is made in three strides: exits, its own effects, and entries. Where the
chains of its ends part, or where a local transition finds the way down no longer active, decides what the exits and the
entries reach; everything else stays as it is.
-/

namespace Statechart

variable {μ δ σ : Type}

namespace Model

variable {m : Model μ δ} {i : Instance δ} {v w x u s : VertexId} {r : RegionId}

/-! ## What is active beneath a vertex -/

theorem Reached.trans (hw : m.Reached i v w) (hx : m.Reached i w x) : m.Reached i v x := by
  induction hw with
  | refl => exact hx
  | step hr hy _ ih => exact .step hr hy (ih hx)

section
variable (h : m.Arena)
include h

theorem reached_of_isActive (hw : (m.vertex? w).isSome) :
    m.isAncestor v w = true → m.isActive i w = true → m.Reached i v w := by
  refine h.induction (motive := fun w => m.isAncestor v w = true → m.isActive i w = true → m.Reached i v w) ?_ ?_ w hw
  · intro hv _
    rw [isAncestor_iff h h.vertex?_root_isSome, chain_root h, List.mem_singleton] at hv
    exact hv ▸ .refl v
  · intro w r o hp ho ih hv ha
    obtain ⟨hcurrent, hactive⟩ := (isActive_step h hp ho).mp ha
    rw [isAncestor_iff h (vertex?_isSome_of_parent? hp), chain_eq h hp ho] at hv
    rcases List.mem_append.mp hv with hv | hv
    · have hoknown := vertex?_isSome_of_isState (h.isState_of_owner? ho)
      refine (ih ((isAncestor_iff h hoknown).mpr hv) hactive).trans ?_
      exact .step (h.mem_regionsOf.mpr ho) hcurrent (.refl w)
    · rw [List.mem_singleton.mp hv]
      exact .refl w

theorem mem_departures_iff (hi : m.Fits false i) (hv : (m.vertex? v).isSome) (ha : m.isActive i v = true) :
    w ∈ m.departures i v ↔ m.isAncestor v w = true ∧ m.isActive i w = true := by
  rw [mem_departures h hi v hv]
  refine ⟨fun hw => ⟨hw.isAncestor h hi hv, hw.isActive h hi ha⟩, fun ⟨hw, hactive⟩ => ?_⟩
  exact reached_of_isActive h (vertex?_isSome_of_isAncestor hw) hw hactive

theorem mem_departures_region_iff (hi : m.Fits false i) (ho : m.owner? r = some o) (ha : m.isActive i o = true) :
    v ∈ (i.current? r).elim [] (m.departures i) ↔
      ∃ w, i.current? r = some w ∧ m.isAncestor w v = true ∧ m.isActive i v = true := by
  cases hw : i.current? r with
  | none => simp
  | some w =>
    have hp := (hi r w hw).1
    simpa using mem_departures_iff (w := v) h hi (vertex?_isSome_of_parent? hp)
      ((isActive_step h hp ho).mpr ⟨hw, ha⟩)

theorem nodup_departures_region (hi : m.Fits false i) (r : RegionId) :
    ((i.current? r).elim [] (m.departures i)).Nodup := by
  cases hw : i.current? r with
  | none => simp
  | some w => exact nodup_departures h hi w (hi.vertex?_isSome hw)

/-! ## The way down from the source of a local transition -/

theorem of_mem_below (hu : (m.vertex? u).isSome) (hs : s ∈ m.chain u) {l rest : List VertexId}
    (hl : below s (m.chain u) = l ++ w :: rest) : m.chain w = m.chain s ++ l ++ [w] ∧ m.isAncestor w u = true ∧
      ∃ q ∈ m.regionsOf s, m.Above q w := by
  have hchain := chain_append_below h hu hs
  rw [hl, ← List.append_assoc] at hchain
  have hw : m.chain w = m.chain s ++ l ++ [w] := chain_of_append h hu hchain
  have hmem : w ∈ m.chain u := by
    rw [hchain]
    simp
  have hknown := vertex?_isSome_of_mem_chain h u hu hmem
  have hsknown := vertex?_isSome_of_mem_chain h u hu hs
  have hsw : s ∈ m.chain w := by
    rw [hw, List.append_assoc]
    exact List.mem_append_left _ (mem_chain_self h s hsknown)
  refine ⟨hw, (isAncestor_iff h hu).mpr hmem, ?_⟩
  rcases (isAncestor_iff_inOne h hknown).mp ((isAncestor_iff h hknown).mpr hsw) with rfl | hin
  · have := congrArg List.length hw
    simp at this
  · exact hin

end

theorem steps_detours (plainly : RegionId → Bool) (t : TransitionId) (u : VertexId) (i : Instance δ)
    {l : List VertexId} (hne : l ≠ []) (hl : ∀ v ∈ l, (m.parent? v).isSome) :
    ∃ l' w rest r, l = l' ++ w :: rest ∧ m.parent? w = some r ∧
      (Route.detours (m.detours plainly t u l)).steps i = leaveRegion r ++ m.arrival plainly t (w :: rest) u ∧
      (∀ v ∈ l', ∀ q, m.parent? v = some q → i.current? q = some v) ∧ (i.current? r ≠ some w ∨ rest = []) := by
  induction l with
  | nil => exact absurd rfl hne
  | cons v rest ih =>
    obtain ⟨r, hr⟩ := Option.isSome_iff_exists.mp (hl v List.mem_cons_self)
    by_cases hv : i.current? r = some v
    · cases rest with
      | nil => exact ⟨[], v, [], r, rfl, hr, by simp [detours, hr, Route.steps, hv], by simp, Or.inr rfl⟩
      | cons x rest =>
        obtain ⟨q, hq⟩ := Option.isSome_iff_exists.mp (hl x (by simp))
        obtain ⟨l', w, rest', p, hsplit, hp, hsteps, hall, hlast⟩ :=
          ih (List.cons_ne_nil x rest) fun y hy => hl y (List.mem_cons_of_mem v hy)
        refine ⟨v :: l', w, rest', p, by rw [hsplit, List.cons_append], hp, ?_, ?_, hlast⟩
        · rw [← hsteps]
          simp [detours, hr, hq, Route.steps, hv]
        · refine List.forall_mem_cons.mpr ⟨fun q hq => ?_, hall⟩
          rw [hr] at hq
          cases hq
          exact hv
    · refine ⟨[], v, rest, r, rfl, hr, ?_, by simp, Or.inl hv⟩
      simp [detours, hr, Route.steps, hv]

/-- The way of a local transition from `s` down to `u`, through the region `q` of `s`. It is active as far as `o`, and
goes on in the region `r` of `o`, by way of `w`. -/
structure Detour (m : Model μ δ) (plainly : RegionId → Bool) (i : Instance δ) (t : TransitionId) (s u : VertexId)
    (q : RegionId) (l : List VertexId) (w : VertexId) (rest : List VertexId) (r : RegionId) (o : VertexId) :
    Prop where
  below : below s (m.chain u) = l ++ w :: rest
  steps : (m.route plainly t).steps i = leaveRegion r ++ m.arrival plainly t (w :: rest) u
  parent : m.parent? w = some r
  owner : m.owner? r = some o
  active : m.isActive i o = true
  above : ∀ v ∈ s :: l, v ∈ m.chain o
  first : m.isActive i w = false ∨ w = u
  descent : m.Descent (w :: rest) u
  reaches : m.isAncestor w u = true
  region : q ∈ m.regionsOf s
  encloses : m.Encloses q r

theorem exists_detour_of_isLocal (h : m.Arena) (plainly : RegionId → Bool) {t : TransitionId}
    {record : Transition μ δ} (hrec : m.transition? t = some record) (hu : record.target = some u)
    (hl : m.IsLocal record u) (ha : m.isActive i record.source = true) :
    ∃ q l w rest r o, m.Detour plainly i t record.source u q l w rest r o := by
  have huknown := h.target_isSome hrec hu
  have hsource := (isAncestor_iff h huknown).mp hl.2.2
  have hroute : m.route plainly t = .detours (m.detours plainly t u (below record.source (m.chain u))) := by
    have hif : record.kind = .withinSource ∧ record.source ≠ u ∧ m.isAncestor record.source u = true := hl
    simp [route, hrec, hu, hif]
  have hne : below record.source (m.chain u) ≠ [] := List.ne_nil_of_mem (mem_below h huknown hsource hl.2.1).1
  have hparents : ∀ v ∈ below record.source (m.chain u), (m.parent? v).isSome := by
    intro v hv
    obtain ⟨l, rest, hsplit⟩ := List.append_of_mem hv
    obtain ⟨_, _, q, _, hqv⟩ := of_mem_below h huknown hsource hsplit
    rcases h.root_or_owner (vertex?_isSome_of_above hqv) with rfl | ⟨p, _, hp, _, _⟩
    · exact absurd hqv (not_above_root h q)
    · simp [hp]
  -- All vertices on the way before `w` are recorded, so the owner of its region is active.
  obtain ⟨l, w, rest, r, hsplit, hp, hsteps, hall, hlast⟩ := steps_detours plainly t u i hne hparents
  obtain ⟨hchain, hwu, q, hq, hqw⟩ := of_mem_below h huknown hsource hsplit
  obtain ⟨o, ho, hactive, hdescent⟩ := exists_landing h hl huknown ha hsplit hp hall
  refine ⟨q, l, w, rest, r, o, hsplit, by rw [hroute, hsteps], hp, ho, hactive, ?_, ?_, hdescent, hwu, hq,
    (above_iff h hp q).mp hqw⟩
  · rw [chain_eq h hp ho] at hchain
    rw [(List.append_inj' hchain rfl).1]
    refine List.forall_mem_cons.mpr ⟨List.mem_append_left _ (mem_chain_self h _ (h.source_isSome hrec)), fun v hv => ?_⟩
    exact List.mem_append_right _ hv
  · rcases hlast with hne | rfl
    · exact Or.inl (Bool.eq_false_iff.mpr fun hwactive => hne ((isActive_step h hp ho).mp hwactive).1)
    · cases hdescent
      exact Or.inr rfl

end Model

/-! ## Whom an event is about -/

theorem Event.Arrives.of_isOf {m : Model μ δ} {V : VertexId → Prop} {v : VertexId} {event : Event μ δ}
    (he : event.Arrives m V) (hv : event.isOf v = true) : V v := by
  cases event with
  | entered element =>
    cases element with
    | vertex w => exact of_decide_eq_true hv ▸ he
    | region r => cases hv
  | left element =>
    cases element with
    | vertex w => exact of_decide_eq_true hv ▸ he.1
    | region r => cases hv
  | acted cause =>
    cases cause with
    | entry w => exact of_decide_eq_true hv ▸ he
    | exit w => exact he.elim
    | effect t => cases hv
  | _ => cases hv

theorem Model.eq_of_mem_exitEvents {m : Model μ δ} {v w : VertexId} {event : Event μ δ} (he : event ∈ m.exitEvents w)
    (hv : event.isOf v = true) : w = v := by
  rcases List.mem_cons.mp he with rfl | he
  · exact of_decide_eq_true hv
  · rw [List.eq_of_mem_replicate he] at hv
    exact of_decide_eq_true hv

namespace Eval

open Model

variable {m : Model μ δ} {plainly : RegionId → Bool} {c : Context σ} {trigger : Trigger μ} {t : TransitionId}
variable {record : Transition μ δ} {u e : VertexId} {vs : List VertexId} {V : VertexId → Prop}
variable {run gone effected run' : Run μ δ σ}

/-! ## Three strides -/

/-- The steps of the transition have been performed in three strides: the vertices have been left, in their order; the
effects have run, in theirs; and vertices in `V` have been entered. -/
structure Crosses (m : Model μ δ) (plainly : RegionId → Bool) (c : Context σ) (trigger : Trigger μ) (t : TransitionId)
    (actions : List (Action μ δ)) (vs : List VertexId) (V : VertexId → Prop)
    (run gone effected run' : Run μ δ σ) : Prop where
  strides : ∃ leave arrive mid, (m.route plainly t).steps run.inst = leave ++ (m.effectsOf t ++ arrive) ∧
    Performs m plainly c { trigger, nested := true } leave (run.note (.fired t trigger run.inst)) gone ∧
    Performs m plainly c { trigger, nested := true } (m.effectsOf t) gone effected ∧
    Performs m plainly c { trigger, nested := true } arrive effected mid ∧
    run'.inst = mid.inst ∧ run'.events = mid.events
  leaving : Departs m trigger vs (run.note (.fired t trigger run.inst)) gone
  effects : effected.inst = actions.foldl (fun i a => a trigger i) gone.inst
  told : effected.events = List.replicate actions.length (.acted (.effect t)) ++ gone.events
  entering : Visits m V effected run'

section
variable (h : m.Arena) (ht : m.Tame) (hin : m.LeadsInside)
include h ht hin

theorem exists_crosses (hrec : m.transition? t = some record) (hu : record.target = some u)
    (hstate : m.isState u = true) {before : List (Step μ δ)} {rest : List VertexId}
    (hsteps : (m.route plainly t).steps run.inst = before ++ m.arrival plainly t (e :: rest) u)
    (hl : m.Descent (e :: rest) u) (hi : m.Fits false run.inst)
    (hleave : Performs m plainly c { trigger, nested := true } before (run.note (.fired t trigger run.inst)) gone)
    (hdeparts : Departs m trigger vs (run.note (.fired t trigger run.inst)) gone)
    (hhoused : m.Housed run.inst e) :
    ∃ effected run', Settles (fun fuel => follow m (m.compileWith plainly) c fuel trigger t) run run' ∧
      Crosses m plainly c trigger t record.effects vs (m.isAncestor e · = true) run gone effected run' ∧
      m.isActive run'.inst u = true := by
  have heffectsOf : m.effectsOf t = record.effects.map (.act (.effect t)) := by simp [effectsOf, hrec]
  obtain ⟨effected, hacts, hinst, _, htold⟩ :=
    exists_acts m plainly c { trigger, nested := true } (.effect t) record.effects gone
  -- Neither exit actions nor effects record anything, so the way down starts from the configuration that was left.
  have hrecords : effected.inst.records = run.inst.records := by
    rw [hinst, (foldl_tame (fun a ha => ht.effect hrec a ha) gone.inst).1]
    exact (hdeparts.records ht).1
  obtain ⟨mid, hdescent, hvisits, hactive⟩ := exists_descent { trigger, nested := true } h ht hl hstate
    (fun x _ r hr => opens h ht hin r x (h.mem_regionsOf.mp hr)) rfl effected (hi.congr hrecords)
  rw [← heffectsOf] at hacts
  rw [arrival, List.append_assoc] at hsteps
  have hperforms := hleave.append (hacts.append hdescent)
  rw [← hsteps] at hperforms
  refine ⟨effected, _, settles_follow hrec hu hstate hperforms, ⟨?_, hdeparts, hinst, htold, ?_⟩,
    hactive (hhoused.congr hrecords)⟩
  · exact ⟨before, _, mid, hsteps, hleave, hacts, hdescent, rfl, rfl⟩
  · exact ⟨hvisits.fits, hvisits.outside, hvisits.events⟩

omit h ht hin in
theorem Crosses.current {actions : List (Action μ δ)} (ht : m.Tame) (ha : ∀ a ∈ actions, Action.Tame a)
    (hc : Crosses m plainly c trigger t actions vs V run gone effected run') {r : RegionId}
    (hr : run'.inst.current? r ≠ run.inst.current? r) : ∃ v, m.parent? v = some r ∧ V v := by
  by_contra hnone
  refine hr ((hc.entering.outside r fun v hv hVv => hnone ⟨v, hv, hVv⟩).trans ?_)
  rw [Instance.current?, hc.effects, (foldl_tame ha gone.inst).1, (hc.leaving.records ht).1]
  rfl

omit h ht hin in
theorem Crosses.isOf {actions : List (Action μ δ)}
    (hc : Crosses m plainly c trigger t actions vs V run gone effected run') : ∃ new, run'.events = new ++ run.events ∧
      ∀ event ∈ new, ∀ v, event.isOf v = true → v ∈ vs ∨ V v := by
  obtain ⟨leaving, hleaving, hexits⟩ := hc.leaving.events
  obtain ⟨entering, hentering, harrives⟩ := hc.entering.events
  refine ⟨entering ++ (List.replicate actions.length (.acted (.effect t)) ++
    (leaving ++ [.fired t trigger run.inst])), ?_, fun event he v hv => ?_⟩
  · rw [hentering, hc.told, hleaving, Run.events_note]
    simp
  · simp only [List.mem_append, List.mem_singleton] at he
    rcases he with he | he | he | rfl
    · exact Or.inr ((harrives event he).of_isOf hv)
    · rw [List.eq_of_mem_replicate he] at hv
      cases hv
    · have hregion : (m.exitWalk trigger).aside event = false := by
        rcases event with _ | (_ | _) | _ | _ | _ | _ | _ <;> first | rfl | cases hv
      have hmem : event ∈ vs.flatMap (m.exitWalk trigger).tell := by
        rw [← hexits, List.mem_filter, hregion]
        exact ⟨List.mem_reverse.mpr he, rfl⟩
      obtain ⟨w, hw, hmem⟩ := List.mem_flatMap.mp hmem
      exact Or.inl (eq_of_mem_exitEvents hmem hv ▸ hw)
    · cases hv

end

theorem exists_departs_region (plainly : RegionId → Bool) (c : Context σ) (mode : Mode μ) (h : m.Arena) (ht : m.Tame)
    (r : RegionId) (run : Run μ δ σ) (hi : m.Fits false run.inst) :
    ∃ run', Performs m plainly c mode (leaveRegion r) run run' ∧
      Departs m mode.trigger ((run.inst.current? r).elim [] (m.departures run.inst)) run run' := by
  have hregions : ∃ run', Performs m plainly c mode ([r].flatMap leaveRegion) run run' ∧ _ :=
    exists_departs_regions mode hi ht (fun r _ x hx run' hrun =>
      exists_departs plainly c h hi ht x (hi.vertex?_isSome hx) { mode with deep := false } run' hrun) run rfl
  simpa using hregions

end Eval

namespace Machine

/-- A transition that is not local crosses from `d`, which it leaves with what is active beneath it, each vertex once,
to `e`, by way of which it enters its target. Nothing is recorded but in the region of `e` and beneath `e`. -/
theorem Built.crosses_over {m : Machine μ δ} (hm : m.Built) (ht : m.Tame) (hin : m.LeadsInside) (c : Context σ)
    (trigger : Trigger μ) {t : TransitionId} {record : Transition μ δ} {u : VertexId}
    (hrec : m.transition? t = some record) (hu : record.target = some u) (hstate : m.isState u = true)
    (hl : ¬ m.IsLocal record u) {run : Run μ δ σ} (hi : m.Fits false run.inst)
    (ha : m.isActive run.inst record.source = true) :
    ∃ j d e, IsGreatest {j | m.Abreast record.source u j} j ∧
      (m.chain record.source)[j]? = some d ∧ (m.chain u)[j]? = some e ∧
      ∃ gone effected run',
        Eval.Settles (fun fuel => Eval.follow m.toModel m.toModel.compile c fuel trigger t) run run' ∧
        Eval.Crosses m.toModel m.isEnteredPlainly c trigger t record.effects (m.departures run.inst d)
          (m.isAncestor e · = true) run gone effected run' ∧
        (∀ v, m.isAncestor v u = true → m.isActive run'.inst v = true) ∧ (m.departures run.inst d).Nodup ∧
        (∀ w, w ∈ m.departures run.inst d ↔ m.isAncestor d w = true ∧ m.isActive run.inst w = true) ∧
        ∀ r, run'.inst.current? r ≠ run.inst.current? r →
          m.parent? e = some r ∨ ∃ o, m.owner? r = some o ∧ m.isAncestor e o = true := by
  have h := hm.sound.arena
  have hsource := h.source_isSome hrec
  have huknown := h.target_isSome hrec hu
  obtain ⟨d, e, rest, hd, hdrop, hparent, hsteps⟩ :=
    @Model.steps_direct _ _ m.toModel m.isEnteredPlainly t record u hrec hu hl run.inst
  have hdknown := Model.vertex?_isSome_of_mem_chain h _ hsource (List.mem_of_getElem? hd)
  have hdactive := Model.isActive_of_mem_chain h hsource ha (List.mem_of_getElem? hd)
  have he : (m.chain u)[m.divergence (m.chain record.source) (m.chain u)]? = some e := by
    rw [← List.head?_drop, hdrop]
    rfl
  obtain ⟨gone, hleave, hdeparts⟩ := Eval.exists_departs m.isEnteredPlainly c h hi ht d hdknown
    { trigger, nested := true } (run.note (.fired t trigger run.inst)) rfl
  obtain ⟨effected, run', hfollow, hcrosses, hactive⟩ := Eval.exists_crosses h ht hin hrec hu hstate hsteps
    (Model.descent_of_drop h huknown hdrop) hi hleave hdeparts (Model.housed_of_isActive h hparent hdactive)
  refine ⟨_, d, e, Model.isGreatest_divergence h hsource huknown, hd, he, gone, effected, run', hfollow, hcrosses, ?_,
    Model.nodup_departures h hi d hdknown, ?_, ?_⟩
  · exact fun v hv => Model.isActive_of_mem_chain h huknown hactive ((Model.isAncestor_iff h huknown).mp hv)
  · exact fun w => Model.mem_departures_iff h hi hdknown hdactive
  · -- A record that has changed belongs to the region of a vertex beneath `e`: that of `e` itself, or one with an owner
    -- there.
    intro r hr
    obtain ⟨v, hv, hev⟩ := hcrosses.current ht (fun a ha => ht.effect hrec a ha) hr
    rcases (Model.isAncestor_iff_inOne h (Model.vertex?_isSome_of_isAncestor hev)).mp hev with rfl | ⟨q, hq, hqv⟩
    · exact Or.inl hv
    · have howner := h.mem_regionsOf.mp hq
      rcases (Model.above_iff h hv q).mp hqv with rfl | ⟨o, ho, hqo⟩
      · exact Or.inr ⟨e, howner, Model.isAncestor_refl h
          (Model.vertex?_isSome_of_isState (h.isState_of_owner? howner))⟩
      · exact Or.inr ⟨o, ho, Model.isAncestor_of_above h howner hqo⟩

/-- Two composite states. The way from one to the other goes to a composite state within. Whatever happens is written
down. -/
def voyage : Machine String (List String) := (ofName "m").edited
  [.addState (.state root) "home", .addPseudoState (.state ⟨1⟩) "start" .initial, .addState (.state ⟨1⟩) "desk",
    .addTransition (.between ⟨2⟩ ⟨3⟩), .addState (.state root) "sea", .addPseudoState (.state ⟨4⟩) "start" .initial,
    .addState (.state ⟨4⟩) "port", .addTransition (.between ⟨5⟩ ⟨6⟩), .addState (.state ⟨4⟩) "ship",
    .addPseudoState (.state ⟨7⟩) "start" .initial, .addState (.state ⟨7⟩) "bridge", .addTransition (.between ⟨8⟩ ⟨9⟩),
    .addTransition (((Draft.between ⟨3⟩ ⟨7⟩).on "go").effect fun _ i => { i with data := i.data ++ ["sail"] }),
    .onExit ⟨1⟩ fun _ i => { i with data := i.data ++ ["from home"] },
    .onExit ⟨3⟩ fun _ i => { i with data := i.data ++ ["from desk"] },
    .onEntry ⟨4⟩ fun _ i => { i with data := i.data ++ ["to sea"] },
    .onEntry ⟨7⟩ fun _ i => { i with data := i.data ++ ["to ship"] },
    .onEntry ⟨9⟩ fun _ i => { i with data := i.data ++ ["to bridge"] }]

def ashore : Run String (List String) Unit where
  inst := (({ data := [] } : Instance (List String)).setCurrent ⟨0⟩ ⟨1⟩).setCurrent ⟨1⟩ ⟨3⟩
  outside := ()

theorem crosses_over_voyage : ∃ j d e gone effected run', IsGreatest {j | voyage.Abreast ⟨3⟩ ⟨7⟩ j} j ∧
    (voyage.chain ⟨3⟩)[j]? = some d ∧ (voyage.chain ⟨7⟩)[j]? = some e ∧
    Eval.Crosses voyage.toModel voyage.isEnteredPlainly Context.strict (.message "go") ⟨3⟩
      ((voyage.transition? ⟨3⟩).get (by decide +kernel)).effects (voyage.departures ashore.inst d)
      (voyage.isAncestor e · = true) ashore gone effected run' ∧
    run'.inst.data = ["from desk", "from home", "sail", "to sea", "to ship", "to bridge"] := by
  have hbuilt : voyage.Built := (Built.ofName "m").edited _
  have htame : voyage.Tame := tame_edited "m" (by
    simp [Edit.Uses, Draft.between, Draft.on, Draft.guarded, Draft.effect, Action.Tame])
  have hfits : voyage.Fits false ashore.inst := ((Model.fits_empty []).setCurrent (r := ⟨0⟩) (v := ⟨1⟩)
    (by decide +kernel) (by simp)).setCurrent (r := ⟨1⟩) (v := ⟨3⟩) (by decide +kernel) (by simp)
  have hgo : voyage.transition? ⟨3⟩ = some ((voyage.transition? ⟨3⟩).get (by decide +kernel)) :=
    (Option.some_get _).symm
  have hsource : ((voyage.transition? ⟨3⟩).get (by decide +kernel)).source = ⟨3⟩ := by decide +kernel
  obtain ⟨j, d, e, hj, hd, he, gone, effected, run', hfollow, hcrosses, _⟩ :=
    Built.crosses_over hbuilt htame (by decide +kernel) Context.strict (.message "go") hgo (u := ⟨7⟩)
      (by decide +kernel) (by decide +kernel) (fun hl => by have := hl.1; revert this; decide +kernel)
      hfits (by decide +kernel)
  rw [hsource] at hj hd
  refine ⟨j, d, e, gone, effected, run', hj, hd, he, hcrosses, ?_⟩
  rw [← hfollow.eq_of_ok 50 (eq_ok_of_answer? (by decide +kernel))]
  decide +kernel

/-- A local transition keeps to the region `q` of its source that its target is beneath. It leaves what is recorded in
the region of `w`, the first vertex on its way down that is not active, or its target, and enters by way of `w`; the
vertices above `w` are neither left nor entered. -/
theorem Built.stays_within {m : Machine μ δ} (hm : m.Built) (ht : m.Tame) (hin : m.LeadsInside) (c : Context σ)
    (trigger : Trigger μ) {t : TransitionId} {record : Transition μ δ} {u : VertexId}
    (hrec : m.transition? t = some record) (hu : record.target = some u) (hstate : m.isState u = true)
    (hl : m.IsLocal record u) {run : Run μ δ σ} (hi : m.Fits false run.inst)
    (ha : m.isActive run.inst record.source = true) :
    ∃ q ∈ m.regionsOf record.source, m.Above q u ∧
      ∃ l w rest r, Model.below record.source (m.chain u) = l ++ w :: rest ∧ m.parent? w = some r ∧
        (∀ v ∈ l, m.isActive run.inst v = true) ∧ (m.isActive run.inst w = false ∨ w = u) ∧
        ∃ gone effected run',
          Eval.Settles (fun fuel => Eval.follow m.toModel m.toModel.compile c fuel trigger t) run run' ∧
          Eval.Crosses m.toModel m.isEnteredPlainly c trigger t record.effects
            ((run.inst.current? r).elim [] (m.departures run.inst)) (m.isAncestor w · = true) run gone effected run' ∧
          m.isActive run'.inst u = true ∧ ((run.inst.current? r).elim [] (m.departures run.inst)).Nodup ∧
          (∀ v, v ∈ (run.inst.current? r).elim [] (m.departures run.inst) ↔
            ∃ x, run.inst.current? r = some x ∧ m.isAncestor x v = true ∧ m.isActive run.inst v = true) ∧
          (∀ p, run'.inst.current? p ≠ run.inst.current? p → m.Encloses q p) ∧
          ∃ new, run'.events = new ++ run.events ∧ (∀ event ∈ new, ∀ v, event.isOf v = true → m.Above q v) ∧
            ∀ event ∈ new, ∀ v ∈ record.source :: l, event.isOf v = false := by
  have h := hm.sound.arena
  obtain ⟨q, l, w, rest, r, o, hway⟩ := Model.exists_detour_of_isLocal h m.isEnteredPlainly hrec hu hl ha
  obtain ⟨gone, hleave, hdeparts⟩ := Eval.exists_departs_region m.isEnteredPlainly c { trigger, nested := true } h ht r
    (run.note (.fired t trigger run.inst)) hi
  obtain ⟨effected, run', hfollow, hcrosses, hactive⟩ := Eval.exists_crosses h ht hin hrec hu hstate hway.steps
    hway.descent hi hleave hdeparts (Model.housed_of_owner hway.parent hway.owner hway.active)
  have hleft := fun v => Model.mem_departures_region_iff (v := v) h hi hway.owner hway.active
  have hoknown := Model.vertex?_isSome_of_isState (h.isState_of_owner? hway.owner)
  have hentered : ∀ {v}, m.isAncestor w v = true → m.Above r v := Model.above_of_isAncestor h hway.parent
  -- Whatever is left or entered stands in the region of `w` or beneath it.
  obtain ⟨new, hnew, hisOf⟩ := hcrosses.isOf
  have habove : ∀ event ∈ new, ∀ v, event.isOf v = true → m.Above r v := by
    intro event he v hv
    rcases hisOf event he v hv with hv | hv
    · obtain ⟨x, hx, hxv, _⟩ := (hleft v).mp hv
      exact Model.above_of_isAncestor h (hi r x hx).1 hxv
    · exact hentered hv
  have hinside : ∀ {v}, m.Above r v → m.Above q v := fun hv =>
    Model.above_trans h hway.encloses _ (Model.vertex?_isSome_of_above hv) hv
  refine ⟨q, hway.region, hinside (hentered hway.reaches), l, w, rest, r, hway.below, hway.parent, ?_, hway.first,
    gone, effected, run', hfollow, hcrosses, hactive, Model.nodup_departures_region h hi r, hleft, ?_, new, hnew, ?_,
    ?_⟩
  · exact fun v hv => Model.isActive_of_mem_chain h hoknown hway.active (hway.above v (List.mem_cons_of_mem _ hv))
  · intro p hchanged
    obtain ⟨v, hv, hwv⟩ := hcrosses.current ht (fun a ha => ht.effect hrec a ha) hchanged
    exact Model.encloses_trans h hway.encloses ((Model.above_iff h hv r).mp (hentered hwv))
  · exact fun event he v hv => hinside (habove event he v hv)
  · refine fun event he v hv => Bool.eq_false_iff.mpr fun hof => Model.not_above_owner h hway.owner ?_
    exact Model.above_of_ancestor h hoknown (hway.above v hv) (habove event he v hof)

def house : Machine String (List String) := (ofName "m").edited
  [.addState (.state root) "house", .addPseudoState (.state ⟨1⟩) "start" .initial, .addState (.state ⟨1⟩) "hall",
    .addTransition (.between ⟨2⟩ ⟨3⟩), .addState (.state ⟨1⟩) "upstairs",
    .addPseudoState (.state ⟨4⟩) "start" .initial, .addState (.state ⟨4⟩) "landing", .addTransition (.between ⟨5⟩ ⟨6⟩),
    .addState (.state ⟨4⟩) "study",
    .addTransition ((((Draft.between ⟨1⟩ ⟨7⟩).ofKind .withinSource).on "climb").effect
      fun _ i => { i with data := i.data ++ ["climb"] }),
    .onExit ⟨1⟩ fun _ i => { i with data := i.data ++ ["from house"] },
    .onEntry ⟨1⟩ fun _ i => { i with data := i.data ++ ["to house"] },
    .onExit ⟨3⟩ fun _ i => { i with data := i.data ++ ["from hall"] },
    .onEntry ⟨4⟩ fun _ i => { i with data := i.data ++ ["to upstairs"] },
    .onEntry ⟨7⟩ fun _ i => { i with data := i.data ++ ["to study"] }]

def inHall : Run String (List String) Unit where
  inst := (({ data := [] } : Instance (List String)).setCurrent ⟨0⟩ ⟨1⟩).setCurrent ⟨1⟩ ⟨3⟩
  outside := ()

theorem stays_within_house : ∃ q ∈ house.regionsOf ⟨1⟩, house.Above q ⟨7⟩ ∧ ∃ run',
    Eval.Settles (fun fuel =>
      Eval.follow house.toModel house.toModel.compile Context.strict fuel (.message "climb") ⟨2⟩) inHall run' ∧
    (∀ p, run'.inst.current? p ≠ inHall.inst.current? p → house.Encloses q p) ∧
    run'.inst.data = ["from hall", "climb", "to upstairs", "to study"] := by
  have hbuilt : house.Built := (Built.ofName "m").edited _
  have htame : house.Tame := tame_edited "m" (by
    simp [Edit.Uses, Draft.between, Draft.ofKind, Draft.on, Draft.guarded, Draft.effect, Action.Tame])
  have hfits : house.Fits false inHall.inst := ((Model.fits_empty []).setCurrent (r := ⟨0⟩) (v := ⟨1⟩)
    (by decide +kernel) (by simp)).setCurrent (r := ⟨1⟩) (v := ⟨3⟩) (by decide +kernel) (by simp)
  have hclimb : house.transition? ⟨2⟩ = some ((house.transition? ⟨2⟩).get (by decide +kernel)) :=
    (Option.some_get _).symm
  have hsource : ((house.transition? ⟨2⟩).get (by decide +kernel)).source = ⟨1⟩ := by decide +kernel
  obtain ⟨q, hq, hqu, l, w, rest, r, _, _, _, _, gone, effected, run', hfollow, _, _, _, _, hcurrent, _⟩ :=
    Built.stays_within hbuilt htame (by decide +kernel) Context.strict (.message "climb") hclimb (u := ⟨7⟩)
      (by decide +kernel) (by decide +kernel) ⟨by decide +kernel, by decide +kernel, by decide +kernel⟩
      hfits (by decide +kernel)
  rw [hsource] at hq
  refine ⟨q, hq, hqu, run', hfollow, hcurrent, ?_⟩
  rw [← hfollow.eq_of_ok 50 (eq_ok_of_answer? (by decide +kernel))]
  decide +kernel

end Machine

end Statechart
