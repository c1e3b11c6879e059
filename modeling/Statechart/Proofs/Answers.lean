import Statechart.Proofs.Session
import Statechart.Proofs.Zones

/-!
# What an answer means

A message is answered with yes when a state that was active has fired a transition of its own that was enabled from the
start. It is answered with no when states have been asked, and perhaps errors let pass, and nothing else has happened.
Where no active state has an enabled transition the answer is no, and under a strict sink it is no only then.
-/

namespace Statechart

variable {μ δ σ : Type}

/-! ## Evaluations that come to nothing -/

def Event.IsQuestion : Event μ δ → Prop
  | .offered .. | .reported _ => True
  | _ => False

/-- What the sink alone makes of the state outside, having been told of the errors among the events. -/
def Context.tolerated (c : Context σ) (s : σ) : List (Event μ δ) → σ
  | [] => s
  | .reported error :: events => (c.tolerate error (c.tolerated s events)).2
  | _ :: events => c.tolerated s events

/-- States were asked, and errors let pass; the instance is still the same, and nothing was logged or drawn. -/
structure Untouched (c : Context σ) (i : Instance δ) (s : σ) (run : Run μ δ σ) : Prop where
  inst : run.inst = i
  events : ∀ event ∈ run.events, event.IsQuestion
  outside : run.outside = c.tolerated s run.events

namespace Model

variable {m : Model μ δ} {i : Instance δ} {trigger : Trigger μ}

def CanFire (m : Model μ δ) (i : Instance δ) (trigger : Trigger μ) (v : VertexId) (t : TransitionId) : Prop :=
  t ∈ m.outgoing v ∧ ∃ record, m.transition? t = some record ∧ record.guard.check v trigger i = true

def IdleOn (m : Model μ δ) (i : Instance δ) (trigger : Trigger μ) (S : VertexId → Prop) : Prop :=
  ∀ v, S v → m.isState v = true → m.isActive i v = true → ∀ t, ¬ m.CanFire i trigger v t

def Idle (m : Model μ δ) (i : Instance δ) (trigger : Trigger μ) : Prop :=
  ∀ v, m.isState v = true → m.isActive i v = true → ∀ t, ¬ m.CanFire i trigger v t

/-- A state that was active in `i` has fired a transition of its own, one that could be fired in `i`. -/
def HasFired (m : Model μ δ) (i : Instance δ) (x : μ) (events : List (Event μ δ)) : Prop :=
  ∃ v t, m.isState v = true ∧ m.isActive i v = true ∧ m.CanFire i (.message x) v t ∧ .fired t (.message x) i ∈ events

theorem mem_enabled {v : VertexId} {t : TransitionId} :
    t ∈ Eval.enabled m v (m.outgoing v) trigger i ↔ m.CanFire i trigger v t := by
  unfold Eval.enabled CanFire
  rw [List.mem_filter]
  cases m.transition? t <;> simp

theorem enabled_eq_nil {v : VertexId} :
    Eval.enabled m v (m.outgoing v) trigger i = [] ↔ ∀ t, ¬ m.CanFire i trigger v t := by
  simp only [List.eq_nil_iff_forall_not_mem, mem_enabled]

section
variable (h : m.Arena)
include h

theorem idleOn_region {r : RegionId} {v : VertexId} (hr : i.current? r = some v)
    (hi : m.IdleOn i trigger (m.isAncestor v · = true)) : m.IdleOn i trigger (m.Above r) := by
  intro w hw hs ha
  have hknown := vertex?_isSome_of_isState hs
  obtain ⟨x, hx, _, hway⟩ := current?_of_above h hknown ha hw
  rw [hr] at hx; cases hx
  refine hi w ((isAncestor_iff_inOne h hknown).mpr (hway.imp Eq.symm fun ⟨q, hq, ha⟩ => ?_)) hs ha
  exact ⟨q, h.mem_regionsOf.mpr hq, ha⟩

theorem idleOn_region_of_none {r : RegionId} (hr : i.current? r = none) : m.IdleOn i trigger (m.Above r) := by
  intro w hw hs ha
  obtain ⟨x, hx, _⟩ := current?_of_above h (vertex?_isSome_of_isState hs) ha hw
  rw [hr] at hx; cases hx

theorem idleOn_self {v : VertexId} (hb : m.IdleOn i trigger (m.InOne (m.regionsOf v)))
    (hv : m.isState v = true → ∀ t, ¬ m.CanFire i trigger v t) : m.IdleOn i trigger (m.isAncestor v · = true) := by
  intro w hw hs ha
  rcases (isAncestor_iff_inOne h (vertex?_isSome_of_isState hs)).mp hw with rfl | hin
  · exact hv hs
  · exact hb w hin hs ha

omit h in
theorem idleOn_cons {r : RegionId} {rest : List RegionId} (hr : m.IdleOn i trigger (m.Above r))
    (hrest : m.IdleOn i trigger (m.InOne rest)) : m.IdleOn i trigger (m.InOne (r :: rest)) := by
  rintro w ⟨q, hq, hw⟩
  rcases List.mem_cons.mp hq with rfl | hq
  · exact hr w hw
  · exact hrest w ⟨q, hq, hw⟩

theorem idle_of_idleOn_root (hi : m.IdleOn i trigger (m.isAncestor root · = true)) : m.Idle i trigger :=
  fun v hs ha => hi v (isAncestor_root h (vertex?_isSome_of_isState hs)) hs ha

end

end Model

namespace Eval

open Model

variable {m : Model μ δ} {p : Program μ δ} {plainly : RegionId → Bool} {c : Context σ} {k : Nat}
variable {i : Instance δ} {x : μ} {s : σ}

theorem patient_untouched (i : Instance δ) (s : σ) : Patient c (Untouched c i s : Run μ δ σ → Prop) where
  offered run v trigger hr := ⟨hr.inst, List.forall_mem_cons.mpr ⟨trivial, hr.events⟩, hr.outside⟩
  reported run error hr := ⟨hr.inst, List.forall_mem_cons.mpr ⟨trivial, hr.events⟩, by
    simp [Context.tolerated, hr.outside]⟩

/-! ## Yes -/

theorem durable_hasFired : Durable m (fun _ => True) (fun _ => True) (fun _ => True)
    fun run : Run μ δ σ => m.HasFired i x run.events := by
  simpa only [true_and] using durable_any.noting (Q := m.HasFired i x) fun event _ _ ⟨v, t, hs, ha, hf, hmem⟩ =>
    ⟨v, t, hs, ha, hf, List.mem_cons_of_mem event hmem⟩

/-! ## The search for a state that can fire -/

/-- What an answer means where the states in `S` have been asked. -/
def Means (m : Model μ δ) (c : Context σ) (i : Instance δ) (s : σ) (x : μ) (S : VertexId → Prop) (consumed : Bool)
    (run : Run μ δ σ) : Prop :=
  if consumed then m.HasFired i x run.events else Untouched c i s run ∧ (c.IsStrict → m.IdleOn i (.message x) S)

def Searches (m : Model μ δ) (plainly : RegionId → Bool) (c : Context σ) (i : Instance δ) (s : σ) (x : μ) (k : Nat) :
    Prop :=
  ∀ v, m.isActive i v = true → Triple (Untouched c i s) (offer m (m.compileWith plainly) c k (.message x) v)
    (Means m c i s x (m.isAncestor v · = true)) fun _ _ => True

def SearchesBeneath (m : Model μ δ) (plainly : RegionId → Bool) (c : Context σ) (i : Instance δ) (s : σ) (x : μ)
    (k : Nat) : Prop :=
  ∀ v rs, m.isActive i v = true → (∀ r ∈ rs, m.owner? r = some v) →
    Triple (Untouched c i s) (offerBeneath m (m.compileWith plainly) c k (.message x) v rs)
      (Means m c i s x (m.InOne rs)) fun _ _ => True

section
variable (h : m.Arena)
include h

theorem searches (hn : i.terminated = false) (hB : ∀ j < k, SearchesBeneath m plainly c i s x j) :
    Searches m plainly c i s x k := by
  intro v ha
  have hfired : ∀ j, Lasts m plainly c (fun _ => True) (fun _ => True) (fun _ => True)
      (fun run : Run μ δ σ => m.HasFired i x run.events) j := durable_hasFired.lasts h (acts_any m) fun _ => trivial
  refine triple_offer (T := Untouched c i s) (Y := fun run => m.HasFired i x run.events)
    (N := fun run => Untouched c i s run ∧ (c.IsStrict → m.IdleOn i (.message x) (m.InOne (m.regionsOf v))))
    (fun _ _ => trivial) (fun run hr => (patient_untouched i s).offered run v _ hr) (fun _ _ _ => trivial)
    (fun run hr hidle => ?_) (fun _ ht => by cases ht) (fun _ _ j hj => ?_) (fun _ j _ => ?_) (fun run hr hnone => ?_)
    (fun hs t j _ => ?_) fun hs count _ => ?_
  · -- What is not a state has no regions either.
    have hs : m.isState v = false := hidle.resolve_right (by simp [hr.inst, hn])
    refine ⟨hr, fun _ => idleOn_self h ?_ fun hs' => ?_⟩
    · rintro w ⟨q, hq, _⟩
      rw [isState_of_mem_regionsOf hq] at hs; cases hs
    · rw [hs] at hs'; cases hs'
  · exact (hB j hj v (m.regionsOf v) ha fun r hr => h.mem_regionsOf.mp hr).pre fun _ hr => hr.1
  · exact ((hfired j).complete v trivial).conseq (fun _ hr => hr) (fun _ _ hr => hr) fun _ _ _ => trivial
  · refine ⟨hr.1, fun hc => idleOn_self h (hr.2 hc) fun _ => ?_⟩
    rw [hr.1.inst] at hnone
    exact enabled_eq_nil.mp hnone
  · refine Triple.assume fun run ⟨hr, henabled⟩ => ?_
    have hmem : t ∈ enabled m v (m.outgoing v) (.message x) run.inst := henabled ▸ List.mem_singleton_self t
    have hcan := mem_enabled.mp (hr.1.inst ▸ hmem)
    obtain ⟨record, hrec, _⟩ := source_of_enabled h hmem
    have hnote : m.HasFired i x (run.note (.fired t (.message x) run.inst)).events :=
      ⟨v, t, hs, ha, hcan, by simp [hr.1.inst]⟩
    exact (durable_hasFired.fire h (acts_any m) (fun _ => trivial) hrec (S := (· = run))
      (fun _ heq => heq ▸ hnote) j).halts fun _ _ _ => trivial
  · refine ((patient_untouched i s).report _).conseq (fun _ hr => hr.1.1) (fun _ run hr => ?_) fun _ _ hr => hr
    exact ⟨hr.1, fun hc => absurd hc hr.2⟩

theorem searchesBeneath (hfits : m.Fits false i) (hO : ∀ j < k, Searches m plainly c i s x j)
    (hB : ∀ j < k, SearchesBeneath m plainly c i s x j) : SearchesBeneath m plainly c i s x k := by
  intro v rs ha hrs
  cases rs with
  | nil => cases k <;> exact Triple.pure fun run hr => ⟨hr, fun _ w ⟨q, hq, _⟩ => by cases hq⟩
  | cons r rest =>
    have howned : ∀ q ∈ rest, m.owner? q = some v := fun q hq => hrs q (List.mem_cons_of_mem r hq)
    -- Whether the states in `r` can fire does not hang on the run any more.
    have hrest : ∀ j < k, Triple
        (fun run : Run μ δ σ => Untouched c i s run ∧ (c.IsStrict → m.IdleOn i (.message x) (m.Above r)))
        (offerBeneath m (m.compileWith plainly) c j (.message x) v rest) (Means m c i s x (m.InOne (r :: rest)))
        fun _ _ => True := by
      refine fun j hj => Triple.of_imp fun hidle => (hB j hj v rest ha howned).post fun consumed run hr => ?_
      cases consumed with
      | true => exact hr
      | false => exact ⟨hr.1, fun hc => idleOn_cons (hidle hc) (hr.2 hc)⟩
    refine triple_offerBeneath (Y := fun run => m.HasFired i x run.events)
      (N := fun run => Untouched c i s run ∧ (c.IsStrict → m.IdleOn i (.message x) (m.Above r)))
      (fun _ _ => trivial) (fun j hj => ?_) (fun current j hj => ?_) hrest (fun _ _ _ => trivial) (fun _ hr => hr)
      fun j _ => ?_
    · refine (hrest j hj).pre fun run ⟨hr, hnone⟩ => ⟨hr, fun _ => idleOn_region_of_none h ?_⟩
      rwa [hr.inst] at hnone
    · refine Triple.assume fun run ⟨hr, hcurrent⟩ => ?_
      rw [hr.inst] at hcurrent
      have hactive := (isActive_step h (hfits r current hcurrent).1 (hrs r (by simp))).mpr ⟨hcurrent, ha⟩
      refine ((hO j hj current hactive).post fun consumed run' hr' => ?_).start hr
      cases consumed with
      | true => exact hr'
      | false => exact ⟨hr'.1, fun hc => idleOn_region h hcurrent (hr'.2 hc)⟩
    · have hfired : Lasts m plainly c (fun _ => True) (fun _ => True) (fun _ => True)
          (fun run : Run μ δ σ => m.HasFired i x run.events) j :=
        durable_hasFired.lasts h (acts_any m) (fun _ => trivial) j
      exact (hfired.offerBeneath (.message x) v rest trivial trivial fun _ _ _ _ => trivial).conseq
        (fun _ hr => hr.1) (fun _ _ hr => hr) fun _ _ _ => trivial

theorem search (hn : i.terminated = false) (hfits : m.Fits false i) (k : Nat) :
    Searches m plainly c i s x k ∧ SearchesBeneath m plainly c i s x k := by
  induction k using Nat.strongRecOn with
  | ind k ih => exact ⟨searches h hn fun j hj => (ih j hj).2,
      searchesBeneath h hfits (fun j hj => (ih j hj).1) fun j hj => (ih j hj).2⟩

end

/-! ## Where nothing can fire -/

section
variable {fuel : Nat} {v : VertexId} {r : RegionId} {rest : List RegionId} {run run' : Run μ δ σ}

theorem bind_of_ok {α β : Type} {y : Eval μ δ σ α} {f : α → Eval μ δ σ β} {a : α} (hy : y run = .ok a run') :
    (y >>= f) run = f a run' := by
  change EStateM.bind y f run = _
  simp only [EStateM.bind, hy]

theorem offer_of_not_state {record : Vertex μ δ} (hv : m.vertex? v = some record) (hs : m.isState v = false)
    {trigger : Trigger μ} : offer m p c (fuel + 1) trigger v run = .ok false run := by
  simp only [offer, vertex, hv]
  cases hf : record.form with
  | pseudo kind => simp [hf]; rfl
  | state content =>
    rw [isState_iff.mpr ⟨record, content, hv, hf⟩] at hs; cases hs

theorem offer_of_idle (hs : m.isState v = true) (hn : run.inst.terminated = false)
    (hb : offerBeneath m p c fuel (.message x) v (m.regionsOf v) (run.note (.offered v (.message x))) = .ok false run')
    (he : enabled m v (m.outgoing v) (.message x) run'.inst = []) :
    offer m p c (fuel + 1) (.message x) v run = .ok false run' := by
  obtain ⟨record, content, hv, hf⟩ := isState_iff.mp hs
  have hregions : content.regions = m.regionsOf v := by simp [Model.regionsOf, hv, Vertex.regions, hf]
  have hout : record.outgoing = m.outgoing v := by simp [Model.outgoing, hv]
  have hvertex : vertex m v run = .ok record run := by simp only [vertex, hv]; rfl
  have hmessage : (Trigger.message x).isCompletionOf v = false := rfl
  rw [← hregions] at hb
  rw [← hout] at he
  rw [offer, bind_of_ok hvertex]
  simp only [hf]
  rw [bind_of_ok (show inst run = .ok run.inst run from rfl), if_neg (by simp [hn])]
  rw [bind_of_ok (show note _ run = .ok () (run.note (.offered v (.message x))) from rfl)]
  simp only [hmessage, Bool.false_eq_true, ite_false]
  rw [bind_of_ok hb]
  simp only [Bool.false_eq_true, ite_false]
  rw [bind_of_ok (show inst run' = .ok run'.inst run' from rfl), he]
  rfl

theorem offerBeneath_of_none (hr : run.inst.current? r = none) {trigger : Trigger μ} :
    offerBeneath m p c (fuel + 1) trigger v (r :: rest) run = offerBeneath m p c fuel trigger v rest run := by
  rw [offerBeneath, bind_of_ok (show inst run = .ok run.inst run from rfl), hr]

theorem offerBeneath_of_not_consumed {current : VertexId} (hr : run.inst.current? r = some current)
    {trigger : Trigger μ} (ho : offer m p c fuel trigger current run = .ok false run') :
    offerBeneath m p c (fuel + 1) trigger v (r :: rest) run = offerBeneath m p c fuel trigger v rest run' := by
  rw [offerBeneath, bind_of_ok (show inst run = .ok run.inst run from rfl), hr]
  simp only
  rw [bind_of_ok ho]
  rfl

def Declines (i : Instance δ) (part : Nat → Eval μ δ σ Bool) : Prop :=
  ∃ n, ∀ fuel ≥ n, ∀ run : Run μ δ σ, run.inst = i → ∃ run', part fuel run = .ok false run' ∧ run'.inst = i

theorem declines_offerBeneath {rs : List RegionId} (hO : ∀ r ∈ rs, ∀ w, i.current? r = some w →
      Declines i fun fuel => (offer m p c fuel (.message x) w : Eval μ δ σ Bool)) :
    Declines i fun fuel => (offerBeneath m p c fuel (.message x) v rs : Eval μ δ σ Bool) := by
  induction rs with
  | nil => exact ⟨0, fun fuel _ run hr => ⟨run, by cases fuel <;> rfl, hr⟩⟩
  | cons r rest ih =>
    obtain ⟨n, hrest⟩ := ih fun q hq => hO q (List.mem_cons_of_mem r hq)
    cases hr : i.current? r with
    | none =>
      refine ⟨n + 1, fun fuel hf run hrun => ?_⟩
      obtain ⟨fuel, rfl⟩ : ∃ j, fuel = j + 1 := ⟨fuel - 1, by omega⟩
      simp only [offerBeneath_of_none (hrun ▸ hr)]
      exact hrest fuel (by omega) run hrun
    | some w =>
      obtain ⟨n', hw⟩ := hO r (by simp) w hr
      refine ⟨max n n' + 1, fun fuel hf run hrun => ?_⟩
      obtain ⟨fuel, rfl⟩ : ∃ j, fuel = j + 1 := ⟨fuel - 1, by omega⟩
      obtain ⟨run', ho, hrun'⟩ := hw fuel (by omega) run hrun
      simp only [offerBeneath_of_not_consumed (hrun ▸ hr) ho]
      exact hrest fuel (by omega) run' hrun'

theorem declines_offer (h : m.Arena) (hn : i.terminated = false) (hfits : m.Fits false i)
    (hidle : m.Idle i (.message x)) (v : VertexId) (hv : (m.vertex? v).isSome) (ha : m.isActive i v = true) :
    Declines i fun fuel => (offer m p c fuel (.message x) v : Eval μ δ σ Bool) := by
  obtain ⟨record, hrec⟩ := Option.isSome_iff_exists.mp hv
  cases hs : m.isState v with
  | false =>
    refine ⟨1, fun fuel hf run hrun => ⟨run, ?_, hrun⟩⟩
    obtain ⟨fuel, rfl⟩ : ∃ j, fuel = j + 1 := ⟨fuel - 1, by omega⟩
    exact offer_of_not_state hrec hs
  | true =>
    have hbeneath : Declines i fun fuel =>
        (offerBeneath m p c fuel (.message x) v (m.regionsOf v) : Eval μ δ σ Bool) := by
      refine declines_offerBeneath fun r hr w hw => ?_
      -- What is beneath is younger, so the search comes to an end.
      have hp := (hfits r w hw).1
      have howner := h.mem_regionsOf.mp hr
      have hlt := h.owner?_lt hp howner
      have hknown := vertex?_isSome_of_parent? hp
      have hsize : w.index < m.vertices.size := vertex?_isSome_iff.mp hknown
      exact declines_offer h hn hfits hidle w hknown ((isActive_step h hp howner).mpr ⟨hw, ha⟩)
    obtain ⟨n, hn'⟩ := hbeneath
    refine ⟨n + 1, fun fuel hf run hrun => ?_⟩
    obtain ⟨fuel, rfl⟩ : ∃ j, fuel = j + 1 := ⟨fuel - 1, by omega⟩
    obtain ⟨run', hb, hrun'⟩ := hn' fuel (by omega) (run.note (.offered v (.message x))) hrun
    exact ⟨run', offer_of_idle hs (hrun ▸ hn) hb (hrun' ▸ enabled_eq_nil.mpr (hidle v hs ha)), hrun'⟩
termination_by m.vertices.size - v.index

end

end Eval

namespace Machine

variable {m : Machine μ δ}

/-- Yes means that an active state has fired, and no that nothing has happened. Under a strict sink the answer is no if
and only if no active state can fire. -/
theorem answer_means (hb : m.Built) (hclean : m.isClean = true) {i : Instance δ} (hn : i.terminated = false)
    (hi : m.Fits false i) (c : Context σ) (x : μ) (s : σ) :
    (c.IsStrict → ((∃ fuel run, m.evaluateCompiled c fuel x { inst := i, outside := s } = .ok false run) ↔
      m.Idle i (.message x))) ∧
    (m.Idle i (.message x) → ∃ n, ∀ fuel ≥ n, ∃ run,
      m.evaluateCompiled c fuel x { inst := i, outside := s } = .ok false run) ∧
    (∀ fuel run, m.evaluateCompiled c fuel x { inst := i, outside := s } = .ok false run → Untouched c i s run) ∧
    ∀ fuel run, m.evaluateCompiled c fuel x { inst := i, outside := s } = .ok true run → m.HasFired i x run.events := by
  have h := hb.sound.arena
  simp only [evaluateCompiled_eq hb.sound hclean c _ x hn s]
  have hstart : Untouched c i s ({ inst := i, outside := s } : Run μ δ σ) := ⟨rfl, by simp, rfl⟩
  have hmeans : ∀ fuel, Triple (Untouched c i s) (Eval.offer m.toModel m.toModel.compile c fuel (.message x) root)
      (Eval.Means m.toModel c i s x (m.isAncestor root · = true)) fun _ _ => True :=
    fun fuel => (Eval.search h hn hi fuel).1 root (Model.isActive_root h i)
  have hdeclines : m.Idle i (.message x) → ∃ n, ∀ fuel ≥ n, ∃ run, Eval.offer m.toModel m.toModel.compile c fuel
      (.message x) root { inst := i, outside := s } = .ok false run := by
    intro hidle
    obtain ⟨n, hn'⟩ := Eval.declines_offer h hn hi hidle root h.vertex?_root_isSome (Model.isActive_root h i)
    exact ⟨n, fun fuel hf => (hn' fuel hf { inst := i, outside := s } rfl).imp fun _ => And.left⟩
  refine ⟨fun hc => ⟨fun ⟨fuel, run, hr⟩ => ?_, fun hidle => ?_⟩, hdeclines, fun fuel run hr => ?_,
    fun fuel run hr => ?_⟩
  · exact Model.idle_of_idleOn_root h (((hmeans fuel).of_ok hstart hr).2 hc)
  · obtain ⟨n, hn'⟩ := hdeclines hidle
    exact ⟨n, hn' n (Nat.le_refl n)⟩
  · exact ((hmeans fuel).of_ok hstart hr).1
  · exact (hmeans fuel).of_ok hstart hr

def door : Machine String Unit :=
  ((Machine.ofName "door").edited [.addState (.state root) "shut", .addState (.region ⟨0⟩) "open",
    .addTransition ((Draft.between ⟨1⟩ ⟨2⟩).on "pull"), .addTransition ((Draft.between ⟨1⟩ ⟨2⟩).on "push"),
    .addTransition ((Draft.inside ⟨1⟩).on "push")]).compile

def shut : Instance Unit := ({ data := () } : Instance Unit).setCurrent ⟨0⟩ ⟨1⟩

def counting : Context Nat where
  log _ n := n
  warn _ n := n
  tolerate _ n := (true, n + 1)
  random _ n := (0, n)

/-- A pull fires, a push that may be done in two ways comes to nothing but the report of an error, and there is no one
to answer a knock. -/
theorem answer_means_door :
    (∃ run, door.evaluateCompiled counting 10 "pull" { inst := shut, outside := 0 } = .ok true run ∧
      door.HasFired shut "pull" run.events) ∧
    (∃ run, door.evaluateCompiled counting 10 "push" { inst := shut, outside := 0 } = .ok false run ∧
      run.outside = 1 ∧ Untouched counting shut 0 run) ∧
    (∃ run, door.evaluateCompiled Context.strict 10 "knock" { inst := shut, outside := () } = .ok false run) ∧
    door.Idle shut (.message "knock") := by
  have hbuilt : door.Built := .compile ((Built.ofName "door").edited _)
  have hfits : door.Fits false shut := (Model.fits_empty ()).setCurrent (by decide +kernel) (by simp)
  have hpull : answer? (door.evaluateCompiled counting 10 "pull" { inst := shut, outside := 0 }) = some true := by
    decide +kernel
  have hpush : answer? (door.evaluateCompiled counting 10 "push" { inst := shut, outside := 0 }) = some false := by
    decide +kernel
  have hknock : answer? (door.evaluateCompiled Context.strict 10 "knock" { inst := shut, outside := () }) =
      some false := by decide +kernel
  refine ⟨⟨_, eq_ok_of_answer? hpull, ?_⟩, ⟨_, eq_ok_of_answer? hpush, by decide +kernel, ?_⟩,
    ⟨_, eq_ok_of_answer? hknock⟩, ?_⟩
  · exact (answer_means (m := door) hbuilt rfl rfl hfits counting "pull" 0).2.2.2 10 _ (eq_ok_of_answer? hpull)
  · exact (answer_means (m := door) hbuilt rfl rfl hfits counting "push" 0).2.2.1 10 _ (eq_ok_of_answer? hpush)
  · have hstrict : Context.strict.IsStrict := fun _ _ => rfl
    exact ((answer_means (m := door) hbuilt rfl rfl hfits Context.strict "knock" ()).1 hstrict).mp
      ⟨10, _, eq_ok_of_answer? hknock⟩

end Machine

end Statechart
