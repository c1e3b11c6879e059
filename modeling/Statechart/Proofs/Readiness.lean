import Statechart.Proofs.Pacing
import Statechart.Proofs.Zones

/-!
# States that fire are ready to

A transition out of a state is only followed while the state is active and the instance has not terminated, and upon a
completion only if it is that of the state itself, which is complete by then. In between, other states may have been
left or entered, and the instance may have terminated: a state is looked at again whenever a transition may have been
followed since it was looked at last, and what nothing has consumed leaves the instance as it was.
-/

namespace Statechart

variable {μ δ σ : Type}

/-! ## Readiness -/

/-- The state `v` of the instance may fire upon the trigger. -/
structure Model.Ready (m : Model μ δ) (trigger : Trigger μ) (v : VertexId) (i : Instance δ) : Prop where
  active : m.isActive i v = true
  running : i.terminated = false
  complete : ∀ w, trigger = .completion w → w = v ∧ m.isComplete? i v = some true

theorem Model.Ready.ne_completion {m : Model μ δ} {trigger : Trigger μ} {v : VertexId} {i : Instance δ}
    (hv : m.Ready trigger v i) (hne : trigger ≠ .completion v) (w : VertexId) : trigger ≠ .completion w :=
  fun hw => hne ((hv.complete w hw).1 ▸ hw)

/-- If a transition has fired out of a state, then the state was ready when its steps were about to run. -/
def Event.IsReady (m : Model μ δ) : Event μ δ → Prop
  | .fired t trigger before =>
    ∀ record, m.transition? t = some record → m.isState record.source = true → m.Ready trigger record.source before
  | _ => True

structure Vigilant (m : Model μ δ) (run : Run μ δ σ) : Prop where
  fits : m.Fits false run.inst
  ready : ∀ event ∈ run.events, event.IsReady m

section
variable {m : Model μ δ} {run run' : Run μ δ σ}

theorem Vigilant.tell (hr : Vigilant m run) (event : Event μ δ) (he : event.IsReady m)
    (hrecords : run'.inst.records = run.inst.records) (hevents : run'.events = event :: run.events) :
    Vigilant m run' :=
  ⟨hr.fits.congr hrecords, by rw [hevents]; exact List.forall_mem_cons.mpr ⟨he, hr.ready⟩⟩

theorem Event.isReady_fired {t : TransitionId} {record : Transition μ δ} (hrec : m.transition? t = some record)
    {trigger : Trigger μ} {i : Instance δ}
    (hready : m.isState record.source = true → m.Ready trigger record.source i) :
    (Event.fired t trigger i).IsReady m := by
  intro record' hrec' hstate
  rw [hrec] at hrec'
  cases hrec'
  exact hready hstate

theorem Event.Furthers.isReady {trigger : Trigger μ} {event : Event μ δ} (he : event.Furthers m trigger) :
    event.IsReady m := by
  cases event with
  | fired t trigger' before =>
    obtain ⟨_, record, hrec, hsource⟩ := he
    exact isReady_fired hrec fun hstate => by simp [hsource] at hstate
  | offered v trigger' => exact he.elim
  | _ => trivial

end

namespace Eval

open Model

section
variable {m : Model μ δ} {plainly : RegionId → Bool} {c : Context σ} {trigger : Trigger μ}

variable (m c trigger) in
theorem patient_vigilant (v : VertexId) :
    Patient c fun run : Run μ δ σ => Vigilant m run ∧ m.Ready trigger v run.inst where
  offered _ w trigger' hr := ⟨hr.1.tell (.offered w trigger') trivial rfl rfl, hr.2⟩
  reported _ error hr := ⟨hr.1.tell (.reported error) trivial rfl rfl, hr.2⟩

theorem aloof_vigilant : Aloof (Vigilant m : Run μ δ σ → Prop) := fun _ event _ he hr =>
  hr.tell event (by cases event <;> first | exact he.elim | trivial) rfl rfl

theorem robust_vigilant : Robust m Action.KeepsRecords (Vigilant m : Run μ δ σ → Prop) where
  enter _ element _ hr := hr.tell (.entered element) trivial rfl rfl
  leave _ element _ hr := hr.tell (.left element) trivial rfl rfl
  act run _ trigger cause ha hr := hr.tell (.acted cause) trivial (ha trigger run.inst) rfl
  record _ _ _ hp hr := ⟨hr.fits.setCurrent hp (by simp), hr.ready⟩
  terminate _ hr := ⟨hr.fits.congr rfl, hr.ready⟩

/-! ## Following transitions -/

theorem triple_vigilant_follow (h : m.Arena) (hA : m.Acts Action.KeepsRecords) (k : Nat) (t : TransitionId) :
    Triple (fun run : Run μ δ σ => Vigilant m run ∧ (Event.fired t trigger run.inst).IsReady m)
      (follow m (m.compileWith plainly) c k trigger t) (fun _ => Vigilant m) fun _ => Vigilant m := by
  intro run hrun
  obtain ⟨hr, ht⟩ := hrun
  have hran : Vigilant m (ran (follow m (m.compileWith plainly) c k trigger t run)) := by
    cases hrec : m.transition? t with
    | none =>
      have hnothing : ran (follow m (m.compileWith plainly) c k trigger t run) = run := by
        cases k <;> simp only [follow, hrec] <;> rfl
      rwa [hnothing]
    | some record =>
      have hlasts : Lasts m plainly c Action.KeepsRecords (fun _ => True) (fun _ => True)
          (fun run : Run μ δ σ => m.Fits false run.inst) k := durable_fits.lasts h hA (fun _ => trivial) k
      have hfits := (hlasts.follow trigger t record hrec trivial fun _ => trivial).ran run hr.fits
      have hfollow : ran (follow m (m.compileWith plainly) c k trigger t run) = run ∨ _ := undisturbed_follow h k t run
      refine ⟨hfits, ?_⟩
      rcases hfollow with heq | ⟨new, hnew, hfurthers⟩
      · rw [heq]; exact hr.ready
      · rw [hnew]
        exact List.forall_mem_append.mpr
          ⟨fun event he => (hfurthers event he).isReady, List.forall_mem_cons.mpr ⟨ht, hr.ready⟩⟩
  cases hres : follow m (m.compileWith plainly) c k trigger t run <;> rw [hres] at hran <;> exact hran

/-! ## One offer after the other -/

structure Watches (m : Model μ δ) (plainly : RegionId → Bool) (c : Context σ) (k : Nat) : Prop where
  step : ∀ mode s, m.Within Action.KeepsRecords (fun _ => True) s →
    Maintains (Vigilant m) (performStep m (m.compileWith plainly) c k mode s)
  complete : ∀ v, Maintains (Vigilant m) (complete m (m.compileWith plainly) c k v)
  offer : ∀ trigger v, Triple (fun run => Vigilant m run ∧ m.Ready trigger v run.inst)
    (offer m (m.compileWith plainly) c k trigger v) (fun _ => Vigilant m) fun _ => Vigilant m
  offerBeneath : ∀ trigger v rs, (∀ r ∈ rs, m.owner? r = some v) → (∀ w, trigger ≠ .completion w) →
    Triple (fun run => Vigilant m run ∧ m.Ready trigger v run.inst)
      (offerBeneath m (m.compileWith plainly) c k trigger v rs) (fun _ => Vigilant m) fun _ => Vigilant m

section
variable (h : m.Arena) (hA : m.Acts Action.KeepsRecords) {k : Nat} (ih : ∀ j < k, Watches m plainly c j)
include ih

theorem Watches.does (mode : Mode μ) {l : List (Step μ δ)}
    (hl : ∀ s ∈ l, m.Within Action.KeepsRecords (fun _ => True) s) :
    Does m (m.compileWith plainly) c (fun _ => Vigilant m) k mode (Vigilant m) l (Vigilant m) :=
  Does.keeps of_maintained fun s hs j hj => (ih j hj).step mode s (hl s hs)

include h hA

theorem triple_vigilant_traverse (mode : Mode μ) (t : TransitionId) :
    Triple (fun run : Run μ δ σ => Vigilant m run ∧ (Event.fired t mode.trigger run.inst).IsReady m)
      (traverse m (m.compileWith plainly) c k mode t) (fun _ => Vigilant m) fun _ => Vigilant m := by
  have hE := of_maintained (J := (Vigilant m : Run μ δ σ → Prop))
  exact triple_traverse_keeps (fun _ hr => hr.1) hE (fun _ hr => ⟨hr.fits, hr.ready⟩)
    (fun j _ => triple_vigilant_follow h hA j t) fun v j hj => (ih j hj).complete v

theorem triple_vigilant_step (mode : Mode μ) {s : Step μ δ} (hs : m.Within Action.KeepsRecords (fun _ => True) s) :
    Maintains (Vigilant m : Run μ δ σ → Prop) (performStep m (m.compileWith plainly) c k mode s) := by
  refine robust_vigilant.step (fun _ _ hr => hr) h hA (fun deep j hj l hl => ?_) (fun j hj t record hrec hsource => ?_) hs
  · exact Watches.does (fun i hi => ih i (by omega)) { mode with deep } hl j (Nat.le_refl j)
  · refine (triple_vigilant_traverse h hA (fun i hi => ih i (by omega)) mode t).pre fun _ hr => ⟨hr, ?_⟩
    exact Event.isReady_fired hrec fun hstate => by simp [hsource] at hstate

omit h hA in
theorem triple_vigilant_complete (v : VertexId) :
    Maintains (Vigilant m : Run μ δ σ → Prop) (complete m (m.compileWith plainly) c k v) := by
  have hE := of_maintained (J := (Vigilant m : Run μ δ σ → Prop))
  refine triple_complete hE (fun _ hr _ => hr) (fun _ hr _ => hr) (fun _ hr _ => hr) fun j hj => ?_
  refine ((ih j hj).offer (.completion v) v).pre fun run hr => ⟨hr.1, ?_, hr.2.1, ?_⟩
  · simp [Model.isActive, hr.2.2.1]
  · rintro _ ⟨⟩; exact ⟨rfl, hr.2.2.2⟩

theorem triple_vigilant_offer (trigger : Trigger μ) (v : VertexId) :
    Triple (fun run : Run μ δ σ => Vigilant m run ∧ m.Ready trigger v run.inst)
      (offer m (m.compileWith plainly) c k trigger v) (fun _ => Vigilant m) fun _ => Vigilant m := by
  have hpatient := patient_vigilant m c trigger v
  refine triple_offer (Y := Vigilant m) (N := fun run => Vigilant m run ∧ m.Ready trigger v run.inst)
    (fun _ hr => hr.1) (fun run hr => hpatient.offered run v trigger hr) (fun _ hr _ => hr.1) (fun _ hr _ => hr.1)
    (fun _ _ _ hr _ => hr) (fun _ hne j hj => ?_) (fun _ j hj => (ih j hj).complete v) (fun _ hr _ => hr.1)
    (fun _ t j hj => ?_) fun _ count _ => ?_
  · refine Triple.assume fun run hrun => ?_
    have hoffered := (ih j hj).offerBeneath trigger v (m.regionsOf v) (fun _ hr => h.mem_regionsOf.mp hr)
      (hrun.1.2.ne_completion hne)
    have hbeneath := hoffered.withNo ((triple_of_not_consumed hpatient j).2 trigger v (m.regionsOf v))
    exact hbeneath.start ⟨hrun.1, hrun.1⟩
  · refine (triple_vigilant_traverse h hA (fun i hi => ih i (by omega)) { trigger } t).pre fun run hr => ⟨hr.1.1, ?_⟩
    obtain ⟨record, hrec, rfl, _⟩ := source_of_enabled h (hr.2 ▸ List.mem_singleton_self t)
    exact Event.isReady_fired hrec fun _ => hr.1.2
  · exact (triple_report aloof_vigilant fun _ hr => hr).conseq (fun _ hr => hr.1.1) (fun _ _ hr => hr.1)
      fun _ _ hr => hr

omit hA in
theorem triple_vigilant_offerBeneath (trigger : Trigger μ) (v : VertexId) (rs : List RegionId)
    (hrs : ∀ r ∈ rs, m.owner? r = some v) (hne : ∀ w, trigger ≠ .completion w) :
    Triple (fun run : Run μ δ σ => Vigilant m run ∧ m.Ready trigger v run.inst)
      (offerBeneath m (m.compileWith plainly) c k trigger v rs) (fun _ => Vigilant m) fun _ => Vigilant m := by
  cases rs with
  | nil => cases k <;> exact Triple.pure fun _ hr => hr.1
  | cons r rest =>
    have hrest := fun j hj => (ih j hj).offerBeneath trigger v rest (fun r' hr' => hrs r' (by simp [hr'])) hne
    refine triple_offerBeneath (Y := Vigilant m) (N := fun run => Vigilant m run ∧ m.Ready trigger v run.inst)
      (fun _ hr => hr.1) (fun j hj => (hrest j hj).pre fun _ hr => hr.1) (fun current j hj => ?_) hrest
      (fun _ hr _ => hr) (fun _ hr => hr) fun j hj => (hrest j hj).pre fun run hr =>
        ⟨hr.1, by simp [Model.isActive, hr.2.1], hr.2.2, fun w hw => absurd hw (hne w)⟩
    have hoffer := ((ih j hj).offer trigger current).withNo
      ((triple_of_not_consumed (patient_vigilant m c trigger v) j).1 trigger current)
    refine hoffer.pre fun run hr => ⟨⟨hr.1.1, ?_, hr.1.2.running, fun w hw => absurd hw (hne w)⟩, hr.1⟩
    exact (isActive_step h (hr.1.1.fits r current hr.2).1 (hrs r (by simp))).mpr ⟨hr.2, hr.1.2.active⟩

end

theorem watches (h : m.Arena) (hA : m.Acts Action.KeepsRecords) (k : Nat) :
    Watches (σ := σ) m plainly c k := by
  induction k using Nat.strongRecOn with
  | ind k ih =>
  exact ⟨fun mode _ hs => triple_vigilant_step h hA ih mode hs, triple_vigilant_complete ih,
    triple_vigilant_offer h hA ih, triple_vigilant_offerBeneath h ih⟩

end

end Eval

/-! ## Calls -/

namespace Machine

variable {m : Machine μ δ}

theorem vigilant_initialise (hm : m.Sound) (hA : m.Acts Action.KeepsRecords) (c : Context σ) (fuel : Nat)
    {i : Instance δ} (hi : m.Fits false i) (s : σ) : Vigilant m.toModel (ran (m.initialise c fuel i s).2) := by
  have hstart : Vigilant m.toModel ({ inst := i, outside := s } : Run μ δ σ) := ⟨hi, by simp⟩
  cases hp : m.prepare? c with
  | none =>
    have hnothing : ran (m.initialise c fuel i s).2 = { inst := i, outside := s } := by simp [initialise, hp, ran]
    rwa [hnothing]
  | some m' =>
    rw [(initialise_eq hm hp fuel i s).2.2]
    exact (Eval.Watches.does (fun j _ => Eval.watches hm.arena hA j) _ (Model.within_onInitialise hm.arena hA) fuel
      (Nat.le_refl fuel)).ran _ hstart

theorem vigilant_evaluate (hm : m.Sound) (hA : m.Acts Action.KeepsRecords) (c : Context σ) (fuel : Nat) (message : μ)
    {i : Instance δ} (hi : m.Fits false i) (s : σ) : Vigilant m.toModel (ran (m.evaluate c fuel message i s).2) := by
  have hstart : Vigilant m.toModel ({ inst := i, outside := s } : Run μ δ σ) := ⟨hi, by simp⟩
  rcases ran_evaluate hm c fuel message i s with heq | ⟨hn, heq⟩ <;> rw [heq]
  · exact hstart
  · exact ((Eval.watches hm.arena hA fuel).offer (.message message) root).ran _
      ⟨hstart, Model.isActive_root hm.arena i, hn, nofun⟩

/-- Whatever state fires in a call, it is ready at that moment, and all its ancestors are active. -/
theorem Built.fires_when_ready (hm : m.Built) (hA : m.Acts Action.KeepsRecords) (c : Context σ) (fuel : Nat)
    {i : Instance δ} (hi : m.Fits false i) (s : σ) {t : TransitionId} {trigger : Trigger μ} {before : Instance δ}
    (hfired : Event.fired t trigger before ∈ (ran (m.initialise c fuel i s).2).events ∨
      ∃ message, Event.fired t trigger before ∈ (ran (m.evaluate c fuel message i s).2).events)
    {record : Transition μ δ} (hrec : m.transition? t = some record) (hs : m.isState record.source = true) :
    m.Ready trigger record.source before ∧
      ∀ v, m.isAncestor v record.source = true → m.isActive before v = true := by
  have h := hm.sound.arena
  have hready : m.Ready trigger record.source before := by
    rcases hfired with hfired | ⟨message, hfired⟩
    · exact (vigilant_initialise hm.sound hA c fuel hi s).ready _ hfired record hrec hs
    · exact (vigilant_evaluate hm.sound hA c fuel message hi s).ready _ hfired record hrec hs
  refine ⟨hready, fun v hv => ?_⟩
  have hknown := Model.vertex?_isSome_of_isState hs
  exact Model.isActive_of_mem_chain h hknown hready.active ((Model.isAncestor_iff h hknown).mp hv)

def firings (events : List (Event μ δ)) : List (TransitionId × Trigger μ) :=
  events.filterMap fun
    | .fired t trigger _ => some (t, trigger)
    | _ => none

theorem exists_of_mem_firings {events : List (Event μ δ)} {t : TransitionId} {trigger : Trigger μ}
    (h : (t, trigger) ∈ firings events) : ∃ before, Event.fired t trigger before ∈ events := by
  obtain ⟨event, hmem, hevent⟩ := List.mem_filterMap.mp h
  cases event <;> simp only [Option.some.injEq, Prod.mk.injEq, reduceCtorEq] at hevent
  obtain ⟨rfl, rfl⟩ := hevent
  exact ⟨_, hmem⟩

/-- Two states side by side would fire upon the same message. The first of them leads out of both regions, to a state
that is complete at once. -/
def watch : Machine String Unit := (ofName "m").edited
  [.addState (.state root) "watch", .addRegion ⟨1⟩ "left", .addRegion ⟨1⟩ "right",
    .addState (.region ⟨1⟩) "awake", .addState (.region ⟨2⟩) "asleep", .addState (.region ⟨0⟩) "street",
    .addState (.region ⟨0⟩) "home", .addTransition ((Draft.between ⟨2⟩ ⟨4⟩).on "fire"),
    .addTransition ((Draft.between ⟨3⟩ ⟨5⟩).on "fire"), .addTransition (.between ⟨4⟩ ⟨5⟩)]

def onWatch : Instance Unit :=
  ((({ data := () } : Instance Unit).setCurrent ⟨0⟩ ⟨1⟩).setCurrent ⟨1⟩ ⟨2⟩).setCurrent ⟨2⟩ ⟨3⟩

theorem fires_when_ready_watch : ∃ run, run = ran (watch.evaluate Context.strict 50 "fire" onWatch ()).2 ∧
    firings run.events = [(⟨2⟩, .completion ⟨4⟩), (⟨0⟩, .message "fire")] ∧
    ∃ before, Event.fired ⟨2⟩ (.completion ⟨4⟩) before ∈ run.events ∧
      watch.Ready (.completion ⟨4⟩) ⟨4⟩ before ∧
      ∀ v, watch.isAncestor v ⟨4⟩ = true → watch.isActive before v = true := by
  have hkeeps : watch.Acts Action.KeepsRecords :=
    acts_edited "m" (by simp [Edit.Uses, Draft.between, Draft.on, Draft.guarded])
  have hfits : watch.Fits false onWatch := (((Model.fits_empty ()).setCurrent (by decide +kernel)
    (by simp)).setCurrent (by decide +kernel) (by simp)).setCurrent (by decide +kernel) (by simp)
  have hfirings : firings (ran (watch.evaluate Context.strict 50 "fire" onWatch ()).2).events =
      [(⟨2⟩, .completion ⟨4⟩), (⟨0⟩, .message "fire")] := by decide +kernel
  obtain ⟨before, hbefore⟩ := exists_of_mem_firings (hfirings ▸ List.mem_cons_self)
  have hhome : watch.transition? ⟨2⟩ = some ((watch.transition? ⟨2⟩).get (by decide +kernel)) :=
    (Option.some_get _).symm
  have hsource : ((watch.transition? ⟨2⟩).get (by decide +kernel)).source = ⟨4⟩ := by decide +kernel
  have hready := Built.fires_when_ready ((Built.ofName "m").edited _ : watch.Built) hkeeps Context.strict 50 hfits ()
    (Or.inr ⟨"fire", hbefore⟩) hhome (by decide +kernel)
  rw [hsource] at hready
  exact ⟨_, rfl, hfirings, before, hbefore, hready⟩

end Machine

end Statechart
